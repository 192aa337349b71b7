import Migash.Lexer.Stable
import Migash.Lexer.Trace
import Mathlib.Data.List.TakeWhile

/-! # Lines

The line counter of the lexer against the newlines of its input, kept through a
turn of the normal mode together with the lines of the tokens it emits.
-/

namespace Migash.Lexer

open Library

variable {lx u : Lexer} {n : ℕ}

/-! ## The line of a position -/

/-- The newlines of a text in front of a position. -/
def newlinesBefore (input : List Char) (pos : ℕ) : ℕ := (input.take pos).count newline

/-- The line counter is one more than the newlines that were consumed. -/
def CountsLines (lx : Lexer) : Prop := lx.lineNo = 1 + newlinesBefore lx.input lx.pos

theorem newlinesBefore_add (input : List Char) (pos n : ℕ) :
    newlinesBefore input (pos + n) =
      newlinesBefore input pos + ((input.drop pos).take n).count newline := by
  simp only [newlinesBefore, List.take_add, List.count_append]

/-- No newline stands in the next `n` characters. -/
def SameLine (lx : Lexer) (n : ℕ) : Prop := newline ∉ lx.rest.take n

theorem SameLine.newlinesBefore (h : SameLine lx n) :
    newlinesBefore lx.input (lx.pos + n) = newlinesBefore lx.input lx.pos := by
  rw [newlinesBefore_add]
  have hcount : ((lx.input.drop lx.pos).take n).count newline = 0 := List.count_eq_zero.mpr h
  omega

theorem sameLine_of_peek (h : ∀ i < n, lx.lexerPeekAhead i ≠ newline) : SameLine lx n := by
  intro hmem
  obtain ⟨i, hi, hget⟩ := List.mem_iff_getElem.mp hmem
  rw [List.length_take] at hi
  rw [List.getElem_take] at hget
  refine h i (by omega) ?_
  have hrest : lx.rest[i]? = some newline := by rw [List.getElem?_eq_getElem (by omega), hget]
  rw [rest, List.getElem?_drop] at hrest
  rw [lexerPeekAhead, List.getD_eq_getElem?_getD, hrest]
  rfl

theorem SameLine.succ (h : SameLine lx n) (hnext : lx.lexerPeekAhead n ≠ newline) :
    SameLine lx (n + 1) := by
  unfold SameLine at h ⊢
  rw [List.take_add_one, List.mem_append, not_or]
  refine ⟨h, fun hmem => hnext ?_⟩
  rw [Option.mem_toList, rest, List.getElem?_drop] at hmem
  rw [lexerPeekAhead, List.getD_eq_getElem?_getD, hmem]
  rfl

theorem sameLine_of_starts {text : List Char} (h : lx.lexerInputStartsWith text = true)
    (hline : newline ∉ text) : SameLine lx text.length := by
  have hpre : text <+: lx.rest := List.isPrefixOf_iff_prefix.mp h
  rwa [SameLine, ← List.prefix_iff_eq_take.mp hpre]

theorem newlinesBefore_succ (lx : Lexer) : newlinesBefore lx.input (lx.pos + 1) =
    newlinesBefore lx.input lx.pos + if lx.lexerPeek = newline then 1 else 0 := by
  rw [newlinesBefore_add]
  congr 1
  by_cases hlt : lx.pos < lx.input.length
  · rw [show lx.input.drop lx.pos = lx.lexerPeek :: lx.input.drop (lx.pos + 1) from
      rest_eq_cons hlt]
    simp [List.count_singleton]
  · have hpeek : lx.lexerPeek ≠ newline := by
      rw [lexerPeek, lexerPeekAhead_of_le (by omega)]
      decide
    rw [List.drop_eq_nil_of_le (by omega), if_neg hpeek]
    rfl

theorem CountsLines.advanced (h : CountsLines lx) : CountsLines lx.advanced := by
  unfold CountsLines at h ⊢
  rw [advanced_input, advanced_pos, newlinesBefore_succ]
  unfold Lexer.advanced
  split
  · dsimp only
    omega
  · dsimp only
    omega

theorem CountsLines.advancedBy (h : CountsLines lx) (n : ℕ) : CountsLines (lx.advancedBy n) := by
  induction n generalizing lx with
  | zero => exact h
  | succ n ih => exact ih h.advanced

/-! ## The state of a turn -/

/-- The kinds of tokens that carry their line. -/
def CarriesLine (tok : Token) : Prop := tok.type ≠ .newline ∧ tok.type ≠ .endOfHeredoc

/-- The token has the line of its first character exactly if it is of a kind that does. -/
def OnLine (input : List Char) (tok : Token) (start : ℕ) : Prop :=
  tok.firstLine = 1 + newlinesBefore input start ↔ CarriesLine tok

/-- Within the turn from `s`, with the lines in order so far. -/
structure During (s : Traced) (u : Lexer) : Prop where
  input : u.input = s.lx.input
  modeStack : u.modeStack = s.lx.modeStack
  lines : CountsLines u
  word : u.inWord = true → u.tokStartLine = 1 + newlinesBefore s.lx.input s.wordFrom
  tokens : ∃ new, u.tokens = s.lx.tokens ++ new ∧
    ∀ tok ∈ new, OnLine s.lx.input tok (s.startOf tok)

/-- Still on the line of the turn's head. -/
structure Here (s : Traced) (u : Lexer) : Prop extends During s u where
  line : newlinesBefore u.input u.pos = newlinesBefore s.lx.input s.lx.pos

variable {s : Traced}

theorem During.advanced (h : During s u) : During s u.advanced where
  input := by rw [advanced_input, h.input]
  modeStack := by rw [advanced_modeStack, h.modeStack]
  lines := h.lines.advanced
  word hword := by
    rw [advanced_inWord] at hword
    rw [← h.word hword]
    unfold Lexer.advanced
    split <;> rfl
  tokens := by rw [advanced_tokens]; exact h.tokens

theorem During.advancedBy (h : During s u) (n : ℕ) : During s (u.advancedBy n) := by
  induction n generalizing u with
  | zero => exact h
  | succ n ih => exact ih h.advanced

theorem During.onWord (h : During s u) (f : Token → Token) : Gives (During s) (u.onWord f) := by
  unfold Lexer.onWord
  split
  · exact .ok { h with }
  · exact .error

theorem During.lexerAdvance (h : During s u) : Gives (During s) u.lexerAdvance := by
  unfold Lexer.lexerAdvance
  split
  · exact .ok h.advanced
  · exact .error

theorem During.lexerAdvanceNChars (h : During s u) (n : ℕ) :
    Gives (During s) (u.lexerAdvanceNChars n) := by
  unfold Lexer.lexerAdvanceNChars
  split
  · exact .ok (h.advancedBy n)
  · exact .error

theorem Here.advancedBy (h : Here s u) (hline : SameLine u n) : Here s (u.advancedBy n) where
  toDuring := h.toDuring.advancedBy n
  line := by rw [advancedBy_input, advancedBy_pos, hline.newlinesBefore, h.line]

theorem Here.onWord (h : Here s u) (f : Token → Token) :
    Gives (fun v => Here s v ∧ v.inWord = u.inWord) (u.onWord f) := by
  unfold Lexer.onWord
  split
  · exact .ok ⟨{ h with }, rfl⟩
  · exact .error

theorem Here.lineNo (h : Here s u) : u.lineNo = 1 + newlinesBefore s.lx.input s.lx.pos := by
  rw [h.lines, h.line]

/-- A word that starts in this turn starts on its line. -/
theorem Here.ensureWord (h : Here s u) (hword : u.inWord = false → s.lx.inWord = false) :
    Gives (fun v => Here s v ∧ v.inWord = true) u.ensureWord := by
  unfold Lexer.ensureWord
  split
  · next hin => exact .pure ⟨h, hin⟩
  · next hnot =>
    unfold lexerStartWord
    split
    · exact .error
    · refine .ok ⟨{ h with word := fun _ => ?_ }, rfl⟩
      have hout : s.lx.inWord = false := hword (by simpa using hnot)
      simp only [Traced.wordFrom, hout, Bool.false_eq_true, if_false]
      exact h.lineNo

/-- One more token. -/
theorem During.append (h : During s u) {tok : Token}
    (htok : OnLine s.lx.input tok (s.startOf tok)) : During s (u.append tok) where
  input := h.input
  modeStack := h.modeStack
  lines := h.lines
  word := h.word
  tokens := by
    obtain ⟨new, hnew, hall⟩ := h.tokens
    refine ⟨new ++ [tok], by simp [Lexer.append, hnew], fun tok' hmem => ?_⟩
    rcases List.mem_append.mp hmem with hmem | hmem
    · exact hall tok' hmem
    · rwa [List.mem_singleton.mp hmem]

/-- A token that begins at the head of the turn. -/
theorem Here.onLine (h : Here s u) {tok : Token} (hline : tok.firstLine = u.lineNo)
    (hkind : CarriesLine tok) (hword : tok.type ≠ .word ∧ tok.type ≠ .assignmentWord) :
    OnLine s.lx.input tok (s.startOf tok) := by
  rw [Traced.startOf, if_neg (by simp [hword.1, hword.2])]
  exact iff_of_true (hline.trans h.lineNo) hkind

theorem Here.append (h : Here s u) {tok : Token} (hline : tok.firstLine = u.lineNo)
    (hkind : CarriesLine tok) (hword : tok.type ≠ .word ∧ tok.type ≠ .assignmentWord) :
    Here s (u.append tok) where
  toDuring := h.toDuring.append (h.onLine hline hkind hword)
  line := h.line

theorem Here.lexerEmitToken (h : Here s u) {type : TokenType}
    (hkind : type ≠ .newline ∧ type ≠ .endOfHeredoc)
    (hword : type ≠ .word ∧ type ≠ .assignmentWord) :
    Gives (Here s) (u.lexerEmitToken type) := by
  unfold Lexer.lexerEmitToken
  split
  · exact .error
  · have happend : Here s (u.append (u.tokenHere type)) := h.append rfl hkind hword
    exact .ok { happend with }

theorem finalized_type (lx : Lexer) (tok : Token) :
    (lx.finalized tok).type = .word ∨ (lx.finalized tok).type = .assignmentWord := by
  change tok.tryPromoteToAssignment.type = .word ∨ tok.tryPromoteToAssignment.type = .assignmentWord
  unfold Token.tryPromoteToAssignment
  split
  · dsimp only
    split
    · exact .inl rfl
    · exact .inr rfl
  · exact .inl rfl

/-- A word that ends: it began where `startOf` says. -/
theorem Here.lexerFinalizeWord (h : Here s u) (hin : u.inWord = true)
    (hstart : newlinesBefore s.lx.input s.wordFrom =
      newlinesBefore s.lx.input (if s.lx.inWord then s.wordStart else s.lx.delimiterStart)) :
    Gives (Here s) u.lexerFinalizeWord := by
  unfold Lexer.lexerFinalizeWord
  split
  · next tok htok =>
    have htype := finalized_type u tok
    have hon : OnLine s.lx.input (u.finalized tok) (s.startOf (u.finalized tok)) := by
      rw [Traced.startOf, if_pos htype, OnLine, ← hstart]
      refine iff_of_true (h.word hin) ⟨?_, ?_⟩
      · intro hc
        rw [hc] at htype
        exact absurd htype (by decide)
      · intro hc
        rw [hc] at htype
        exact absurd htype (by decide)
    have happend := h.toDuring.append hon
    exact .ok { happend with line := h.line, word := nofun }
  · exact .error

theorem Here.endWord (h : Here s u) (hword : u.inWord = s.lx.inWord) :
    Gives (Here s) u.endWord := by
  unfold Lexer.endWord
  split
  · next hin =>
    have hs : s.lx.inWord = true := hword ▸ hin
    exact h.lexerFinalizeWord hin (by simp [Traced.wordFrom, hs])
  · exact .pure h

/-! ## A turn of the normal mode -/

/-- After the last turn of a call. A word that has begun and is not yet under construction will be
on the line that was reached. -/
structure TurnDone (s : Traced) (u : Lexer) : Prop where
  input : u.input = s.lx.input
  lines : CountsLines u
  word : u.inWord = true → u.tokStartLine = 1 + newlinesBefore s.lx.input s.wordFrom
  tokens : ∃ new, u.tokens = s.lx.tokens ++ new ∧
    ∀ tok ∈ new, OnLine s.lx.input tok (s.startOf tok)
  pending : u.inWord = false → u.lexerCurrentMode ≠ .normal → u.lexerCurrentMode ≠ .heredocBody →
    u.lineNo = 1 + newlinesBefore s.lx.input s.wordFrom

/-- What a turn of the normal mode leads to. -/
abbrev TurnKeeps (s : Traced) : Next Lexer Answer → Prop :=
  Next.Either (During s) fun answer => TurnDone s answer.2

section Turn

theorem During.mode (h : During s u) : u.lexerCurrentMode = s.lx.lexerCurrentMode := by
  rw [lexerCurrentMode, h.modeStack]
  rfl

theorem During.done (hmode : s.lx.lexerCurrentMode = .normal) (h : During s u) : TurnDone s u :=
  ⟨h.input, h.lines, h.word, h.tokens, fun _ hne => absurd (h.mode.trans hmode) hne⟩

theorem Here.endOfInput (hmode : s.lx.lexerCurrentMode = .normal) (h : Here s s.lx) :
    Gives (TurnKeeps s) s.lx.endOfInput := by
  unfold Lexer.endOfInput
  split
  · have herror : During s (s.lx.lexerSetError "Unexpected end of input") := { h.toDuring with }
    exact .pure (herror.done hmode)
  · exact (h.endWord rfl).bind fun _ hu =>
      (hu.lexerEmitToken (by decide) (by decide)).bind fun _ hu => .pure (hu.toDuring.done hmode)

theorem endWord_pos (lx : Lexer) : Gives (fun u => u.input = lx.input ∧ u.pos = lx.pos)
    lx.endWord := by
  unfold Lexer.endWord
  split
  · unfold lexerFinalizeWord
    split
    · exact .ok ⟨rfl, rfl⟩
    · exact .error
  · exact .pure ⟨rfl, rfl⟩

/-- The token of a newline carries the line behind it. -/
theorem Here.newlineTurn (h : Here s s.lx) (hline : s.lx.lexerPeek = newline) :
    Gives (TurnKeeps s) s.lx.newlineTurn := by
  unfold Lexer.newlineTurn
  refine ((h.endWord rfl).and (endWord_pos s.lx)).bind fun u hu => ?_
  obtain ⟨hu, hinput, hpos⟩ := hu
  have hpeek : u.lexerPeek = newline := by
    rw [← hline, lexerPeek, lexerPeek, lexerPeekAhead, lexerPeekAhead, hinput, hpos]
  unfold Lexer.lexerAdvance
  split
  · refine Gives.bind (.ok rfl : Gives (· = u.advanced) _) fun v hv => ?_
    subst hv
    have hnumber : u.advanced.lineNo = 1 + newlinesBefore s.lx.input s.lx.pos + 1 := by
      rw [hu.lines.advanced, advanced_input, advanced_pos, newlinesBefore_succ, if_pos hpeek, hinput,
        hpos]
      omega
    have hon : OnLine s.lx.input (u.advanced.tokenHere .newline)
        (s.startOf (u.advanced.tokenHere .newline)) := by
      rw [Traced.startOf, if_neg (by simp [tokenHere])]
      refine iff_of_false (fun hfirst => ?_) fun hc => hc.1 rfl
      have := hnumber.symm.trans hfirst
      omega
    have happend := hu.toDuring.advanced.append hon
    unfold Lexer.lexerEmitToken
    split
    · exact .error
    · refine Gives.bind (.ok rfl) fun v hv => ?_
      subst hv
      split
      · refine .pure ⟨happend.input, happend.lines, happend.word, happend.tokens, ?_⟩
        exact fun _ _ hne => absurd rfl hne
      · exact .pure { happend with }
  · exact .error

theorem Here.wordTurn (h : Here s u) (hword : u.inWord = false → s.lx.inWord = false) (c : Char) :
    Gives (TurnKeeps s) (u.wordTurn c) :=
  (h.ensureWord hword).bind fun _ hu => (hu.1.onWord _).bind fun _ hu =>
    hu.1.toDuring.lexerAdvance.bind fun _ hu => .pure hu

theorem Here.enter (h : Here s s.lx) (mode : LexMode) (hline : SameLine s.lx n) :
    Gives (TurnKeeps s) (s.lx.enter mode n) := by
  have hpush : SameLine (s.lx.lexerPushMode mode) n := hline
  unfold Lexer.enter lexerAdvanceNChars
  split
  · refine Gives.bind (.ok rfl) fun u hu => ?_
    subst hu
    have hlines : CountsLines (s.lx.lexerPushMode mode) := h.lines
    have hmoved := During.advancedBy (s := { s with lx := s.lx.lexerPushMode mode })
      { input := rfl, modeStack := rfl, lines := hlines, word := h.word, tokens := h.tokens } n
    refine .pure ⟨hmoved.input, hmoved.lines, hmoved.word, hmoved.tokens, fun hword _ _ => ?_⟩
    rw [advancedBy_inWord] at hword
    have hout : s.lx.inWord = false := hword
    rw [hmoved.lines, advancedBy_input, advancedBy_pos, hpush.newlinesBefore, Traced.wordFrom,
      hout]
    rfl
  · exact .error

theorem sameLine_expansion {canStart : Char → Bool} {mode : LexMode}
    (hdollar : lx.lexerPeek = '$') (h : lx.expansionAt? canStart = some (mode, n)) :
    SameLine lx n := by
  have hzero : lx.lexerPeekAhead 0 = '$' := hdollar
  simp only [expansionAt?] at h
  split_ifs at h with h₁ h₂ h₃ h₄ <;> cases h <;> refine sameLine_of_peek fun i hi => ?_
  · obtain rfl | rfl : i = 0 ∨ i = 1 := by omega
    · rw [hzero]; decide
    · rw [h₁]; decide
  · obtain rfl | rfl | rfl : i = 0 ∨ i = 1 ∨ i = 2 := by omega
    · rw [hzero]; decide
    · rw [h₂.1]; decide
    · rw [h₂.2]; decide
  · obtain rfl | rfl : i = 0 ∨ i = 1 := by omega
    · rw [hzero]; decide
    · rw [h₃]; decide
  · obtain rfl : i = 0 := by omega
    rw [hzero]; decide

theorem sameLine_one {c : Char} (hc : lx.lexerPeek = c) (hne : c ≠ newline) : SameLine lx 1 := by
  refine sameLine_of_peek fun i hi => ?_
  obtain rfl : i = 0 := by omega
  exact fun hnl => hne (hc.symm.trans hnl)

theorem Here.characterTurn (hmode : s.lx.lexerCurrentMode = .normal) (h : Here s s.lx) :
    Gives (TurnKeeps s) s.lx.characterTurn := by
  unfold Lexer.characterTurn
  extract_lets c next
  split
  · split
    · exact .pure (h.toDuring.done hmode)
    exact (h.ensureWord id).bind fun _ hu => hu.1.toDuring.lexerAdvance.bind fun _ hu =>
      (hu.onWord _).bind fun _ hu => hu.lexerAdvance.bind fun _ hu => .pure hu
  split
  · next hc => exact h.enter _ (sameLine_one hc (by decide))
  split
  · next hc => exact h.enter _ (sameLine_one hc (by decide))
  split
  · next hc => exact h.enter _ (sameLine_one hc (by decide))
  split
  · next hc =>
    split
    · exact .pure (h.toDuring.done hmode)
    split
    · next hexpansion => exact h.enter _ (sameLine_expansion hc hexpansion)
    · exact h.wordTurn id c
  split
  · split
    · exact .pure (h.toDuring.advancedBy _)
    · -- In a word the contract of `lexer_start_word` is broken.
      have hstart : Gives (fun _ => False) s.lx.lexerStartWord := by
        unfold lexerStartWord
        split
        · exact .error
        · rw [if_pos (by simp_all)]
          exact .error
      exact hstart.bind fun _ hfalse => hfalse.elim
  split
  · exact (h.ensureWord id).bind fun _ hu => (hu.1.onWord _).bind fun _ hv =>
      hv.1.wordTurn (fun hword => absurd hword (by simp [hv.2, hu.2])) c
  · exact .pure (TurnDone.mk h.input h.lines h.word h.tokens fun _ hne => absurd hmode hne)

/-! Here-document operators -/

/-- The delimiter behind a here-document operator is continued on another line. -/
def DelimiterContinues (lx : Lexer) : Prop :=
  lx.lexerInputStartsWith ['<', '<'] = true ∧
    newline ∈ (lx.input.drop lx.delimiterStart).take
      (getHeredocDelimiter (lx.input.drop lx.delimiterStart)).consumed

/-- In front of the delimiter of a here-document. -/
structure AtDelimiter (s : Traced) (u : Lexer) : Prop extends Here s u where
  pos : u.pos = s.lx.delimiterStart
  inWord : u.inWord = s.lx.inWord

theorem AtDelimiter.processDelimiter (h : AtDelimiter s u)
    (hstart : s.lx.lexerInputStartsWith ['<', '<'] = true)
    (hline : ¬ DelimiterContinues s.lx) (stripTabs : Bool) :
    Gives (fun
      | .notHeredoc _ => False
      | .success v => During s v
      | .error v => During s v) (u.processDelimiter stripTabs) := by
  have hrest : u.rest = s.lx.input.drop s.lx.delimiterStart := by rw [rest, h.input, h.pos]
  have hsame : SameLine u (getHeredocDelimiter u.rest).consumed := by
    intro hmem
    rw [hrest] at hmem
    exact hline ⟨hstart, hmem⟩
  have hmoved := h.toHere.advancedBy hsame
  unfold Lexer.processDelimiter
  extract_lets scan v
  split
  · exact .pure { hmoved.toDuring with }
  · have hword : Gives (fun w => Here s w ∧ w.inWord = true ∧ s.lx.inWord = false)
        v.lexerStartWord := by
      have hvs : v.inWord = s.lx.inWord := by rw [← h.inWord]; exact advancedBy_inWord _ _
      have hensure := hmoved.ensureWord fun hv => by rw [← hvs]; exact hv
      unfold Lexer.ensureWord at hensure
      by_cases hv : v.inWord = true
      · unfold lexerStartWord
        split
        · exact .error
        · exact .error
      · rw [if_neg hv] at hensure
        exact hensure.mono fun w hw => ⟨hw.1, hw.2, by rw [← hvs]; simpa using hv⟩
    refine hword.bind fun w hw => ?_
    have happend : Gives (fun x => Here s x ∧ x.inWord = w.inWord)
        (w.lexerAppendLiteralCstrToWord scan.text) := by
      unfold lexerAppendLiteralCstrToWord
      split
      · exact .error
      · exact hw.1.onWord _
    refine happend.bind fun x hx => ?_
    have hfrom : newlinesBefore s.lx.input s.wordFrom = newlinesBefore s.lx.input
        (if s.lx.inWord then s.wordStart else s.lx.delimiterStart) := by
      rw [Traced.wordFrom, hw.2.2]
      simp only [Bool.false_eq_true, if_false]
      rw [← h.line, h.input, h.pos]
    refine (hx.1.lexerFinalizeWord (hx.2.trans hw.2.1) hfrom).bind fun y hy => .pure ?_
    exact { hy.toDuring with }

/-- What `try_process_heredoc` leaves behind. -/
def HeredocKeeps (s : Traced) : HeredocResult → Prop
  | .notHeredoc v => v = s.lx
  | .success v => During s v
  | .error v => During s v

/-- The operator is emitted and the blanks behind it are skipped. -/
theorem Here.emitOperator (h : Here s s.lx)
    (hstart : s.lx.lexerInputStartsWith ['<', '<'] = true)
    (hline : ¬ DelimiterContinues s.lx) {type : TokenType}
    (hkind : type ≠ .newline ∧ type ≠ .endOfHeredoc)
    (hword : type ≠ .word ∧ type ≠ .assignmentWord) (stripTabs : Bool)
    (hn : n = if s.lx.lexerPeekAhead 2 = '-' then 3 else 2) (hsame : SameLine s.lx n) :
    Gives (HeredocKeeps s) (do
      (← (s.lx.advancedBy n).lexerEmitToken type).lexerSkipWhitespace.processDelimiter
        stripTabs) := by
  have hmoved := h.advancedBy hsame
  have hpos : ∀ v : Lexer, v.input = s.lx.input → v.pos = s.lx.pos + n →
      v.lexerSkipWhitespace.pos = s.lx.delimiterStart := by
    intro v hinput hpos
    rw [lexerSkipWhitespace, advancedWhile, advancedBy_pos, rest, hinput, hpos, delimiterStart, hn]
  unfold Lexer.lexerEmitToken
  split
  · exact .error
  · refine Gives.bind (.ok rfl) fun v hv => ?_
    subst hv
    have happend : Here s ((s.lx.advancedBy n).append ((s.lx.advancedBy n).tokenHere type)) :=
      hmoved.append rfl hkind hword
    set v : Lexer := { (s.lx.advancedBy n).append ((s.lx.advancedBy n).tokenHere type) with
      atCommandStart := [.semi, .newline, .andIf, .orIf, .pipe].contains type }
    have hv : Here s v := { happend with }
    have hblanks : SameLine v (v.rest.takeWhile fun c => c = ' ' ∨ c = tab).length := by
      intro hmem
      rw [← List.prefix_iff_eq_take.mp (List.takeWhile_prefix _)] at hmem
      exact absurd (List.mem_takeWhile_imp hmem) (by decide)
    refine Gives.mono (AtDelimiter.processDelimiter ⟨hv.advancedBy hblanks, ?_, ?_⟩ hstart hline
      stripTabs) ?_
    · exact hpos v (advancedBy_input _ _) (advancedBy_pos _ _)
    · exact (advancedBy_inWord _ _).trans (advancedBy_inWord _ _)
    · rintro (x | x | x) hx
      · exact hx.elim
      · exact hx
      · exact hx

theorem Here.processOperator (h : Here s s.lx) (hline : ¬ DelimiterContinues s.lx) :
    Gives (HeredocKeeps s) s.lx.processOperator := by
  unfold Lexer.processOperator
  split
  · exact .pure rfl
  next hstart =>
  have hstart : s.lx.lexerInputStartsWith ['<', '<'] = true := by simpa using hstart
  have hsame : SameLine s.lx 2 := sameLine_of_starts hstart (by decide)
  have hpeek : (s.lx.advancedBy 2).lexerPeek = s.lx.lexerPeekAhead 2 := by
    rw [lexerPeek, lexerPeekAhead, advancedBy_input, advancedBy_pos]
    rfl
  unfold Lexer.lexerAdvanceNChars
  split
  · refine Gives.bind (.ok rfl) fun u hu => ?_
    subst hu
    split
    · next hdash =>
      rw [hpeek] at hdash
      unfold Lexer.lexerAdvance
      split
      · refine Gives.bind (.ok rfl) fun u hu => ?_
        subst hu
        exact h.emitOperator hstart hline (by decide) (by decide) true (n := 3) (by rw [if_pos hdash])
          (hsame.succ (by rw [hdash]; decide))
      · exact .error
    · next hdash =>
      rw [hpeek] at hdash
      exact h.emitOperator hstart hline (by decide) (by decide) false (n := 2)
        (by rw [if_neg hdash]) hsame
  · exact .error

/-! The whole turn -/

theorem matchOperator?_eq_some {text : List Char} {type : TokenType}
    (h : lx.matchOperator? = some (text, type)) :
    SameLine lx text.length ∧ (type ≠ .newline ∧ type ≠ .endOfHeredoc) ∧
      (type ≠ .word ∧ type ≠ .assignmentWord) := by
  have hmem := List.mem_of_find?_eq_some h
  have hall : ∀ op ∈ normalModeOperators, newline ∉ op.1 ∧
      (op.2 ≠ .newline ∧ op.2 ≠ .endOfHeredoc) ∧ (op.2 ≠ .word ∧ op.2 ≠ .assignmentWord) :=
    by decide
  obtain ⟨hline, hkind⟩ := hall _ hmem
  have hstarts : lx.lexerInputStartsWith text = true :=
    List.find?_some (p := fun op : List Char × TokenType => lx.lexerInputStartsWith op.1) h
  exact ⟨sameLine_of_starts hstarts hline, hkind⟩

theorem Here.operatorTurn (hmode : s.lx.lexerCurrentMode = .normal) (h : Here s s.lx)
    (hline : ¬ DelimiterContinues s.lx) (hnumber : s.lx.ioNumber? = none) :
    Gives (TurnKeeps s) s.lx.operatorTurn := by
  unfold Lexer.operatorTurn
  rw [tryProcessHeredoc_eq hnumber]
  refine (h.processOperator hline).bind fun result hresult => ?_
  cases result with
  | success v => exact .pure hresult
  | error v => exact .pure (During.done hmode hresult)
  | notHeredoc v =>
    obtain rfl : v = s.lx := hresult
    dsimp only
    split
    · next text type hop =>
      obtain ⟨hsame, hkind, hword⟩ := matchOperator?_eq_some hop
      refine ((h.endWord rfl).and (endWord_pos s.lx)).bind fun u hu => ?_
      have hsame' : SameLine u text.length := by
        rw [SameLine, rest, hu.2.1, hu.2.2]
        exact hsame
      unfold Lexer.lexerAdvanceNChars
      split
      · refine Gives.bind (.ok rfl) fun v hv => ?_
        subst hv
        exact ((hu.1.advancedBy hsame').lexerEmitToken hkind hword).bind fun w hw =>
          .pure (hw.toDuring.done hmode)
      · exact .error
    · exact h.characterTurn hmode

/-- A turn of the normal mode keeps the lines in order. -/
theorem Here.normalTurn (hmode : s.lx.lexerCurrentMode = .normal) (h : Here s s.lx)
    (hline : ¬ DelimiterContinues s.lx) : Gives (TurnKeeps s) s.lx.normalTurn := by
  unfold Lexer.normalTurn
  split
  · exact h.endOfInput hmode
  extract_lets c
  split
  · refine h.toDuring.lexerAdvance.bind fun _ hu => hu.lexerAdvance.bind fun _ hu => ?_
    split
    · exact .pure (hu.done hmode)
    · exact .pure hu
  split
  · exact (h.endWord rfl).bind fun _ hu => .pure (hu.toDuring.advancedBy _)
  split
  · next hc => exact h.newlineTurn hc
  have hnumber : ∀ ioNumber, Here s (s.lx.append { s.lx.tokenHere .ioNumber with ioNumber }) :=
    fun _ => h.append rfl (by simp [CarriesLine, tokenHere]) (by simp [tokenHere])
  have hlocation : ∀ ioLocation,
      Here s (s.lx.append { s.lx.tokenHere .ioLocation with ioLocation }) :=
    fun _ => h.append rfl (by simp [CarriesLine, tokenHere]) (by simp [tokenHere])
  unfold Lexer.redirectionTurn
  split
  · unfold lexerEmitIoNumberToken
    split
    · exact .error
    · refine Gives.bind (.ok rfl) fun u hu => ?_
      subst hu
      exact ((hnumber _).toDuring.lexerAdvanceNChars _).bind fun _ hu => .pure hu
  · next hnone =>
    split
    · exact ((hlocation _).toDuring.lexerAdvanceNChars _).bind fun _ hu => .pure hu
    · exact h.operatorTurn hmode hline hnone

end Turn

end Migash.Lexer
