import Migash.Lexer.Lines

/-! # The lines of the tokens

The run of `lexer_tokenize`, traced with where its tokens begin. As long as no
call reads a line that it counts twice, every token but those of newlines and of
the ends of here-documents carries the line of its first character.
-/

namespace Migash.Lexer

open Library

/-! ## Lines that are counted twice -/

/-- The turn reads the end of a line of the body. -/
def ReadsLineEnd (entry : HeredocEntry) (s : TextScan) : Prop :=
  ∃ lx, (s.lx.skipTabs entry).lexerCheckHeredocDelimiter entry = .ok (false, lx) ∧
    (lx.lexerPeek = newline ∨ entry.delimiterQuoted = false ∧ AtContinuation lx)

/-- The call from `lx` counts a line twice, or takes the delimiter of a here-document to begin on
the line it ends on. -/
inductive Miscounts (lx : Lexer) : Prop where
  | cmdSubstParen {u : Lexer} {t : ParenScan} (hmode : lx.lexerCurrentMode = .cmdSubstParen)
      (hstart : lx.ensureWord = .ok u) (h : Visits parenTurn { lx := u, startPos := u.pos } t)
      (hline : AtContinuation t.lx)
  | cmdSubstBacktick {u : Lexer} {t : TextScan} (hmode : lx.lexerCurrentMode = .cmdSubstBacktick)
      (hstart : lx.ensureWord = .ok u) (h : Visits backtickTurn { lx := u } t)
      (hline : AtContinuation t.lx)
  | heredocBody {entry : HeredocEntry} {t : TextScan} (hmode : lx.lexerCurrentMode = .heredocBody)
      (hentry : lx.heredocQueue[lx.heredocIndex]? = some entry)
      (h : Visits (heredocTurn entry) { lx := lx.startDocument } t) (hline : ReadsLineEnd entry t)
  | delimiter {t : Lexer} (hmode : lx.lexerCurrentMode = .normal) (h : Visits normalTurn lx t)
      (hline : DelimiterContinues t)

/-! ## The invariant -/

/-- The lines are in order at the head of a loop, with the tokens `out` handed over. -/
structure Lined (text : List Char) (out : List Token) (s : Traced) : Prop where
  input : s.lx.input = text
  lines : CountsLines s.lx
  word : s.lx.inWord = true → s.lx.tokStartLine = 1 + newlinesBefore text s.wordStart
  pending : s.lx.inWord = false → s.lx.lexerCurrentMode ≠ .normal →
    s.lx.lexerCurrentMode ≠ .heredocBody → s.lx.lineNo = 1 + newlinesBefore text s.wordStart
  tokens : List.Forall₂ (OnLine text) (out ++ s.lx.tokens) s.starts

variable {input : List Char} {out : List Token} {s : Traced} {u : Lexer}

theorem Lined.here (h : Lined input out s) : Here s s.lx where
  input := rfl
  modeStack := rfl
  lines := h.lines
  word hword := by
    rw [Traced.wordFrom, if_pos hword, h.input]
    exact h.word hword
  tokens := ⟨[], (List.append_nil _).symm, fun _ hmem => absurd hmem List.not_mem_nil⟩
  line := rfl

theorem forall₂_map_right {R : Token → ℕ → Prop} {f : Token → ℕ} {toks : List Token}
    (h : ∀ tok ∈ toks, R tok (f tok)) : List.Forall₂ R toks (toks.map f) := by
  induction toks with
  | nil => exact .nil
  | cons tok toks ih =>
    have hrest := ih fun tok' hmem => h tok' (List.mem_cons_of_mem _ hmem)
    exact .cons (h tok List.mem_cons_self) hrest

theorem Lined.tokens_after (h : Lined input out s) {new : List Token} {f : Token → ℕ}
    (hnew : u.tokens = s.lx.tokens ++ new) (hall : ∀ tok ∈ new, OnLine input tok (f tok)) :
    List.Forall₂ (OnLine input) (out ++ u.tokens)
      (s.starts ++ (u.tokens.drop s.lx.tokens.length).map f) := by
  rw [hnew, List.drop_left, ← List.append_assoc]
  exact List.rel_append h.tokens (forall₂_map_right hall)

theorem Lined.after (h : Lined input out s) (hu : TurnDone s u) : Lined input out (s.after u) := by
  obtain ⟨new, hnew, hall⟩ := hu.tokens
  obtain rfl := h.input
  exact ⟨hu.input, hu.lines, hu.word, hu.pending, h.tokens_after hnew hall⟩

/-! ## The modes -/

theorem Lined.normalMode (h : Lined input out s) (hmode : s.lx.lexerCurrentMode = .normal)
    (hline : ¬ Miscounts s.lx) :
    Gives (fun answer => Lined input out answer.2) (tracedProcessMode s) := by
  unfold tracedProcessMode
  rw [if_pos hmode]
  have hturns : ∀ t : Traced,
      (Lined input out t ∧ t.lx.lexerCurrentMode = .normal ∧ Visits normalTurn s.lx t.lx) →
      Gives (Next.Either
        (fun t => Lined input out t ∧ t.lx.lexerCurrentMode = .normal ∧ Visits normalTurn s.lx t.lx)
        fun answer => Lined input out answer.2) (tracedNormalTurn t) := by
    rintro t ⟨ht, htmode, hvisits⟩
    have hturn := ht.here.normalTurn htmode fun hc => hline (.delimiter hmode hvisits hc)
    refine .bind_of fun next hnext => ?_
    have hkeeps := hturn.answer next hnext
    cases next with
    | again v =>
      have hv : During t v := hkeeps
      exact .pure ⟨ht.after (hv.done htmode), hv.mode.trans htmode, .next hvisits hnext⟩
    | done answer => exact .pure (ht.after hkeeps)
  exact gives_iterate hturns ⟨h, hmode, .start⟩ _

/-- Inside a word that began on the given line. -/
structure InWordFrom (text : List Char) (toks : List Token) (line : ℕ) (lx : Lexer) : Prop where
  input : lx.input = text
  tokens : lx.tokens = toks
  inWord : lx.inWord = true
  startLine : lx.tokStartLine = line
  lines : CountsLines lx

theorem stable_inWordFrom (input : List Char) (toks : List Token) (line : ℕ) :
    Stable (InWordFrom input toks line) where
  advanced h := by
    refine ⟨by rw [advanced_input, h.input], by rw [advanced_tokens, h.tokens],
      by rw [advanced_inWord, h.inWord], ?_, h.lines.advanced⟩
    rw [← h.startLine]
    unfold Lexer.advanced
    split <;> rfl
  push _ _ h := { h with }
  pop h := { h with }
  setError h := { h with }
  word h _ _ := { h with }

/-- The call of a mode inside a word. -/
theorem Lined.wordMode (h : Lined input out s) (hnormal : s.lx.lexerCurrentMode ≠ .normal)
    (hheredoc : s.lx.lexerCurrentMode ≠ .heredocBody) (hline : ¬ Miscounts s.lx) :
    Gives (fun answer => InWordFrom input s.lx.tokens (1 + newlinesBefore input s.wordStart)
      answer.2) s.lx.lexerProcessMode := by
  have hstable := stable_inWordFrom input s.lx.tokens (1 + newlinesBefore input s.wordStart)
  have hstart : Gives (InWordFrom input s.lx.tokens (1 + newlinesBefore input s.wordStart))
      s.lx.ensureWord := by
    unfold ensureWord
    split
    · next hword => exact .pure ⟨h.input, rfl, hword, h.word hword, h.lines⟩
    · next hword =>
      unfold lexerStartWord
      split
      · exact .error
      · exact .ok ⟨h.input, rfl, rfl, h.pending (by simpa using hword) hnormal hheredoc, h.lines⟩
  have hexpands := hstable.expands
  unfold lexerProcessMode
  cases hmode : s.lx.lexerCurrentMode with
  | normal => exact absurd hmode hnormal
  | heredocBody => exact absurd hmode hheredoc
  | singleQuote => exact hstable.lexerProcessSquote (hstable.startQuoted hstart)
  | doubleQuote => exact hstable.lexerProcessDquote (hstable.startQuoted hstart)
  | paramExpBraced => exact (hexpands.lexerProcessParamExpBraced hstart).mono fun _ h => h.same
  | paramExpUnbraced => exact (hexpands.lexerProcessParamExpUnbraced hstart).mono fun _ h => h.same
  | arithExp => exact (hexpands.lexerProcessArithExp hstart).mono fun _ h => h.same
  | cmdSubstParen =>
    have hcall := hexpands.lexerProcessCmdSubstParen hstart fun u t hu ht hat =>
      absurd (.cmdSubstParen hmode hu ht hat) hline
    exact hcall.mono fun _ h => h.same
  | cmdSubstBacktick =>
    have hcall := hexpands.lexerProcessCmdSubstBacktick hstart fun u t hu ht hat =>
      absurd (.cmdSubstBacktick hmode hu ht hat) hline
    exact hcall.mono fun _ h => h.same

/-! ## Here-documents -/

/-- Inside the body of a here-document, whose call began at `lx`. -/
structure ReadsBody (lx u : Lexer) : Prop where
  input : u.input = lx.input
  tokens : u.tokens = lx.tokens
  inWord : u.inWord = lx.inWord
  startLine : u.tokStartLine = lx.tokStartLine
  lines : CountsLines u

namespace ReadsBody

variable {lx v : Lexer}

theorem advanced (h : ReadsBody lx u) : ReadsBody lx u.advanced where
  input := by rw [advanced_input, h.input]
  tokens := by rw [advanced_tokens, h.tokens]
  inWord := by rw [advanced_inWord, h.inWord]
  startLine := by
    rw [← h.startLine]
    unfold Lexer.advanced
    split <;> rfl
  lines := h.lines.advanced

theorem advancedBy (h : ReadsBody lx u) (n : ℕ) : ReadsBody lx (u.advancedBy n) := by
  induction n generalizing u with
  | zero => exact h
  | succ n ih => exact ih h.advanced

theorem lexerAdvance (h : ReadsBody lx u) : Gives (ReadsBody lx) u.lexerAdvance := by
  unfold Lexer.lexerAdvance
  split
  · exact .ok h.advanced
  · exact .error

theorem lexerAdvanceNChars (h : ReadsBody lx u) (n : ℕ) :
    Gives (ReadsBody lx) (u.lexerAdvanceNChars n) := by
  unfold Lexer.lexerAdvanceNChars
  split
  · exact .ok (h.advancedBy n)
  · exact .error

theorem appendContent (h : ReadsBody lx u) (text : List Char) :
    Gives (ReadsBody lx) (u.appendContent text) := by
  unfold Lexer.appendContent onWord
  split
  · exact .ok { h with }
  · exact .error

theorem skipTabs (h : ReadsBody lx u) (entry : HeredocEntry) :
    ReadsBody lx (u.skipTabs entry) := by
  unfold Lexer.skipTabs
  split
  · exact h.advancedBy _
  · exact h

theorem startDocument (h : CountsLines lx) : ReadsBody lx lx.startDocument := by
  unfold Lexer.startDocument
  split
  · exact ⟨rfl, rfl, rfl, rfl, h⟩
  · exact ⟨rfl, rfl, rfl, rfl, h⟩

theorem checkDelimiter (h : ReadsBody lx u) (entry : HeredocEntry) :
    Gives (fun answer => ReadsBody lx answer.2) (u.lexerCheckHeredocDelimiter entry) := by
  unfold lexerCheckHeredocDelimiter
  split
  · exact .pure h
  · split
    · exact (h.lexerAdvanceNChars _).bind fun _ hu => .pure hu
    split
    · exact (h.lexerAdvanceNChars _).bind fun _ hu => .pure hu
    · exact .pure h

end ReadsBody

/-- After the call of the mode of the here-documents: the tokens at their ends have no line. -/
structure DocumentDone (lx u : Lexer) : Prop where
  input : u.input = lx.input
  lines : CountsLines u
  word : u.inWord = true → lx.inWord = true ∧ u.tokStartLine = lx.tokStartLine
  tokens : ∃ new, u.tokens = lx.tokens ++ new ∧ ∀ tok ∈ new, tok.firstLine = 0 ∧
    tok.type = .endOfHeredoc

namespace ReadsBody

variable {lx : Lexer}

theorem done (h : ReadsBody lx u) : DocumentDone lx u where
  input := h.input
  lines := h.lines
  word hword := ⟨h.inWord ▸ hword, h.startLine⟩
  tokens := ⟨[], by rw [h.tokens, List.append_nil], fun _ hmem => absurd hmem List.not_mem_nil⟩

theorem finishHeredoc (h : ReadsBody lx u) (entry : HeredocEntry) :
    DocumentDone lx (u.finishHeredoc entry) := by
  have hnew : ∀ tok : Token, tok.firstLine = 0 → tok.type = .endOfHeredoc →
      ∃ new, u.tokens ++ [tok] = lx.tokens ++ new ∧ ∀ tok ∈ new, tok.firstLine = 0 ∧
        tok.type = .endOfHeredoc := by
    refine fun tok hline htype => ⟨[tok], by rw [h.tokens], fun tok' hmem => ?_⟩
    rw [List.mem_singleton.mp hmem]
    exact ⟨hline, htype⟩
  unfold Lexer.finishHeredoc
  extract_lets content v
  split
  · exact ⟨h.input, h.lines, nofun, hnew _ rfl rfl⟩
  · exact ⟨h.input, h.lines, nofun, hnew _ rfl rfl⟩

/-- A turn that reads no end of a line counts none. -/
theorem heredocTurn {t : TextScan} (h : ReadsBody lx t.lx) (entry : HeredocEntry)
    (hline : ¬ ReadsLineEnd entry t) :
    Gives (Next.Either (fun t => ReadsBody lx t.lx) fun answer => DocumentDone lx answer.2)
      (Lexer.heredocTurn entry t) := by
  unfold Lexer.heredocTurn
  split
  · exact (h.appendContent _).bind fun _ hu => .pure hu.done
  refine .bind_of fun answer hanswer => ?_
  obtain ⟨found, v⟩ := answer
  have hv : ReadsBody lx v := ((h.skipTabs entry).checkDelimiter entry).answer _ hanswer
  cases found with
  | true => exact (hv.appendContent _).bind fun _ hu => .pure (hu.finishHeredoc entry)
  | false =>
    have hno : ∀ {P : Prop}, v.lexerPeek = newline ∨ entry.delimiterQuoted = false ∧
        AtContinuation v → P := fun hc => absurd ⟨v, hanswer, hc⟩ hline
    dsimp only
    rw [if_neg Bool.false_ne_true]
    unfold readLine
    dsimp only
    split
    · next hc => exact hno (.inl hc)
    split
    · next hc => exact hno (.inr ⟨by simpa using hc.1, hc.2⟩)
    split
    · exact hv.lexerAdvance.bind fun _ hu => hu.lexerAdvance.bind fun _ hu => .pure hu
    · exact hv.lexerAdvance.bind fun _ hu => .pure hu

end ReadsBody

/-- The call of the mode of the here-documents. -/
theorem Lined.heredocMode (h : Lined input out s) (hmode : s.lx.lexerCurrentMode = .heredocBody)
    (hline : ¬ Miscounts s.lx) :
    Gives (fun answer => DocumentDone s.lx answer.2) s.lx.lexerProcessMode := by
  unfold lexerProcessMode
  rw [hmode]
  dsimp only
  unfold lexerProcessHeredocBody
  split
  · have hhere : ReadsBody s.lx s.lx := ⟨rfl, rfl, rfl, rfl, h.lines⟩
    exact .pure hhere.done
  · next entry hentry =>
    have hturns : ∀ t : TextScan, (ReadsBody s.lx t.lx ∧
        Visits (Lexer.heredocTurn entry) { lx := s.lx.startDocument } t) →
        Gives (Next.Either (fun t => ReadsBody s.lx t.lx ∧
          Visits (Lexer.heredocTurn entry) { lx := s.lx.startDocument } t)
          fun answer => DocumentDone s.lx answer.2) (Lexer.heredocTurn entry t) := by
      refine fun t ht => ⟨fun next hnext => ?_⟩
      have hkeeps := (ht.1.heredocTurn entry fun hc =>
        hline (.heredocBody hmode hentry ht.2 hc)).answer next hnext
      cases next with
      | again t => exact ⟨hkeeps, .next ht.2 hnext⟩
      | done answer => exact hkeeps
    exact gives_iterate hturns ⟨.startDocument h.lines, .start⟩ s.lx.turns

/-- A call that emits only tokens without a line. -/
theorem Lined.afterCall (h : Lined input out s) (hinput : u.input = input) (hlines : CountsLines u)
    (hword : u.inWord = true → u.tokStartLine = 1 + newlinesBefore input s.wordStart)
    (htokens : ∃ new, u.tokens = s.lx.tokens ++ new ∧ ∀ tok ∈ new, tok.firstLine = 0 ∧
      tok.type = .endOfHeredoc) : Lined input out (s.afterCall u) := by
  obtain ⟨new, hnew, hall⟩ := htokens
  refine ⟨hinput, hlines, fun hin => ?_, fun hout _ _ => ?_, h.tokens_after hnew fun tok hmem => ?_⟩
  · have hin' : u.inWord = true := hin
    simp only [Traced.afterCall, hin', if_true]
    exact hword hin'
  · have hout' : u.inWord = false := hout
    simp only [Traced.afterCall, hout', Bool.false_eq_true, if_false]
    rw [← hinput]
    exact hlines
  · obtain ⟨hfirst, htype⟩ := hall tok hmem
    refine iff_of_false (fun hc => ?_) fun hc => hc.2 htype
    rw [hfirst] at hc
    omega

/-- The call of a mode keeps the lines in order. -/
theorem Lined.processMode (h : Lined input out s) (hline : ¬ Miscounts s.lx) :
    Gives (fun answer => Lined input out answer.2) (tracedProcessMode s) := by
  by_cases hnormal : s.lx.lexerCurrentMode = .normal
  · exact h.normalMode hnormal hline
  unfold tracedProcessMode
  rw [if_neg hnormal]
  by_cases hheredoc : s.lx.lexerCurrentMode = .heredocBody
  · refine (h.heredocMode hheredoc hline).bind fun answer hanswer => .pure ?_
    refine h.afterCall (hanswer.input.trans h.input) hanswer.lines (fun hword => ?_) hanswer.tokens
    obtain ⟨hin, hstart⟩ := hanswer.word hword
    exact hstart.trans (h.word hin)
  · refine (h.wordMode hnormal hheredoc hline).bind fun answer hanswer => .pure ?_
    exact h.afterCall hanswer.input hanswer.lines (fun _ => hanswer.startLine)
      ⟨[], by rw [hanswer.tokens, List.append_nil], fun _ hmem => absurd hmem List.not_mem_nil⟩

/-! ## The run -/

theorem Lined.turn {t t' : Tracing} (h : Lined input t.s.outTokens t.head)
    (hline : ¬ Miscounts t.s.lx) (hturn : tracedTokenizeTurn t = .ok (.again t')) :
    Lined input t'.s.outTokens t'.head := by
  obtain ⟨status, called, hcall, hword, hstarts, hs'⟩ := tracedTokenizeTurn_call hturn
  have hcalled : Lined input t.s.outTokens called := (h.processMode hline).answer _ hcall
  rw [Tracing.head, hword, hstarts]
  rcases hs' with hs' | hs'
  · rw [hs']
    exact hcalled
  · rw [hs']
    refine ⟨hcalled.input, hcalled.lines, hcalled.word, hcalled.pending, ?_⟩
    rw [List.append_nil]
    exact hcalled.tokens

/-- No call of the run up to the state counts a line twice. -/
def CountsOnce (input : List Char) (s : Tokenizing) : Prop :=
  ∀ s', Visits tokenizeTurn (startTracing input).s s' → Visits tokenizeTurn s' s →
    ¬ Miscounts s'.lx

theorem lined_of_visits {t : Tracing} (h : Visits tracedTokenizeTurn (startTracing input) t)
    (hlines : CountsOnce input t.s) : Lined input t.s.outTokens t.head := by
  induction h with
  | start => exact ⟨rfl, rfl, nofun, fun _ hnormal => absurd rfl hnormal, .nil⟩
  | next hv hturn ih =>
    have hreal := turn_of_traced hturn
    refine (ih fun s hs hvisits => hlines s hs (.next hvisits hreal)).turn ?_ hturn
    exact hlines _ (visits_of_traced hv) (.next .start hreal)

/-- As long as no call counts a line twice, exactly the tokens of newlines and of the ends of
here-documents are not on the line of their first character. -/
theorem lexerTokenize_lines {t : Tracing} {status : LexStatus} {called : Traced}
    (h : Visits tracedTokenizeTurn (startTracing input) t)
    (hcall : tracedProcessMode t.head = .ok (status, called)) (hlines : CountsOnce input t.s) :
    List.Forall₂ (OnLine input) (t.s.outTokens ++ called.lx.tokens) called.starts :=
  have hline : ¬ Miscounts t.s.lx := hlines t.s (visits_of_traced h) .start
  (((lined_of_visits h hlines).processMode hline).answer _ hcall).tokens

/-- A word behind a line continuation is on the second line. -/
theorem lexerTokenize_lines_continued : ∃ status called,
    tracedProcessMode (startTracing [backslash, newline, 'a']).head = .ok (status, called) ∧
      List.Forall₂ (OnLine [backslash, newline, 'a']) ([] ++ called.lx.tokens) called.starts := by
  have hcall : ∃ status called,
      tracedProcessMode (startTracing [backslash, newline, 'a']).head = .ok (status, called) := by
    exact ⟨_, _, rfl⟩
  obtain ⟨status, called, hcall⟩ := hcall
  refine ⟨status, called, hcall, lexerTokenize_lines .start hcall ?_⟩
  intro s hvisits _ hmiscounts
  rcases hvisits.eq_or_next with rfl | ⟨s', hturn, -⟩
  · cases hmiscounts with
    | cmdSubstParen hmode => cases hmode
    | cmdSubstBacktick hmode => cases hmode
    | heredocBody hmode => cases hmode
    | delimiter _ ht hline =>
      rcases ht.eq_or_next with rfl | ⟨t₁, hturn₁, ht₁⟩
      · cases hline.1
      cases hturn₁
      rcases ht₁.eq_or_next with rfl | ⟨t₂, hturn₂, ht₂⟩
      · cases hline.1
      cases hturn₂
      rcases ht₂.eq_or_next with rfl | ⟨t₃, hturn₃, -⟩
      · cases hline.1
      cases hturn₃
  · cases hturn

/-- Every token that the run emits is on the line of its first character. -/
def LinesRight (input : List Char) : Prop :=
  ∀ t status called, Visits tracedTokenizeTurn (startTracing input) t →
    tracedProcessMode t.head = .ok (status, called) →
    List.Forall₂ (fun tok start => tok.firstLine = 1 + newlinesBefore input start)
      (t.s.outTokens ++ called.lx.tokens) called.starts

/-- The line that is continued in a command substitution is counted twice. -/
theorem continuation_in_substitution_miscounts :
    ¬ LinesRight ['$', '(', backslash, newline, ')', ' ', 'a'] := by
  intro h
  have hrun : ∃ t u, tracedTokenizeTurn
        (startTracing ['$', '(', backslash, newline, ')', ' ', 'a']) = .ok (.again t) ∧
      tracedTokenizeTurn t = .ok (.again u) ∧
      ∃ status called, tracedProcessMode u.head = .ok (status, called) ∧
        (u.s.outTokens ++ called.lx.tokens).map Token.firstLine = [1, 3, 3] ∧
        called.starts = [0, 6, 7] := by
    exact ⟨_, _, rfl, rfl, _, _, rfl, rfl, rfl⟩
  obtain ⟨t, u, ht, hu, status, called, hcall, hfirst, hstarts⟩ := hrun
  have hlines := h u status called (.next (.next .start ht) hu) hcall
  replace hlines := List.forall₂_map_left_iff (R := fun line start =>
    line = 1 + newlinesBefore ['$', '(', backslash, newline, ')', ' ', 'a'] start).mpr hlines
  rw [hfirst, hstarts] at hlines
  obtain _ | ⟨-, _ | ⟨hline, -⟩⟩ := hlines
  exact absurd hline (by decide)

end Migash.Lexer
