import Migash.Lexer.Documents

/-! # The normal mode answers

A turn of the normal mode advances or answers, except at a `#`, a number, a
location or a here-document operator inside a word, before an empty delimiter,
and at a backslash or a dollar sign that ends the input.
-/

namespace Migash.Lexer

open Library

variable {lx lx' : Lexer}

/-- The text at which the delimiter of a here-document operator starts. -/
def delimiterText (lx : Lexer) : List Char :=
  let text := lx.rest.drop 2
  (if text.head? = some '-' then text.tail else text).dropWhile fun c => c = ' ' ∨ c = tab

/-- The next characters are a here-document operator whose delimiter is empty quotes. -/
def EmptyDelimiter (lx : Lexer) : Prop :=
  lx.lexerInputStartsWith ['<', '<'] = true ∧
    (getHeredocDelimiter lx.delimiterText).error = none ∧
    (getHeredocDelimiter lx.delimiterText).text = []

/-- The states at the head of the loop of the normal mode from which the next turn breaks a
contract or consumes nothing, or emits a location while a word is in progress. -/
def NormalTrap (lx : Lexer) : Prop :=
  lx.inWord = true ∧ (lx.lexerPeek = '#' ∨ lx.ioNumber? ≠ none ∨ lx.bracedIoLocation? ≠ none ∨
    lx.lexerInputStartsWith ['<', '<'] = true) ∨
  EmptyDelimiter lx ∨ LastIs [backslash, '$'] lx

/-! ## Texts -/

theorem rest_advancedBy (n : ℕ) (lx : Lexer) : (lx.advancedBy n).rest = lx.rest.drop n := by
  simp [rest, Nat.add_comm]

theorem rest_eq_cons (h : lx.pos < lx.input.length) :
    lx.rest = lx.lexerPeek :: lx.input.drop (lx.pos + 1) := by
  have hget : lx.lexerPeek = lx.input[lx.pos] := by simp [lexerPeek, lexerPeekAhead, h]
  rw [hget, rest, List.drop_eq_getElem_cons h]

theorem pos_lt_of_peek {c : Char} (h : lx.lexerPeek = c) (hc : c ≠ nul) :
    lx.pos < lx.input.length := by
  by_contra hle
  exact hc (h ▸ lexerPeekAhead_of_le (by omega))

theorem advancedWhile_bounds (h : lx.pos < lx.input.length) {p : Char → Bool}
    (hp : p lx.lexerPeek = true) :
    0 < (lx.rest.takeWhile p).length ∧
      lx.pos + (lx.rest.takeWhile p).length ≤ lx.input.length := by
  constructor
  · rw [rest_eq_cons h, List.takeWhile_cons_of_pos hp]
    exact Nat.succ_pos _
  · rcases @length_takeWhile_rest_le lx p with hle | hlt
    · exact hle
    · omega

theorem lexerPeekInteger_pos (h : lx.lexerPeek.isDigit = true) : 0 < lx.lexerPeekInteger.2 := by
  have hpos : lx.pos < lx.input.length := by
    by_contra hle
    rw [lexerPeek, lexerPeekAhead_of_le (by omega)] at h
    exact absurd h (by decide)
  have hgo : ∀ value count cs, count ≤ (lexerPeekInteger.go value count cs).2 := by
    intro value count cs
    fun_induction lexerPeekInteger.go value count cs with
    | case1 => exact le_refl _
    | case2 => exact le_refl _
    | case3 value count c cs digit hdigit ih => omega
  have hdigit : ¬ (0 > (2147483647 - (lx.lexerPeek.toNat - 48)) / 10) := Nat.not_lt_zero _
  unfold lexerPeekInteger
  rw [rest_eq_cons hpos, lexerPeekInteger.go]
  simp only [h, hdigit]
  exact lt_of_lt_of_le Nat.zero_lt_one (hgo _ _ _)

theorem DelimiterScan.consumed_le :
    (∀ cs, (scanSquotedDelimiter cs).consumed ≤ cs.length) ∧
      (∀ cs, (scanDquotedDelimiter cs).consumed ≤ cs.length) ∧
      ∀ cs, (scanPlainDelimiter cs).consumed ≤ cs.length := by
  have hclose : ∀ cs : List Char, (DelimiterScan.close cs).consumed ≤ cs.length + 1 := by
    intro cs
    have := (List.takeWhile_prefix (fun c => decide (c = ' ' ∨ c = tab)) (l := cs)).length_le
    simp only [DelimiterScan.close]
    omega
  refine ⟨fun cs => ?_, fun cs => ?_, fun cs => ?_⟩
  · fun_induction scanSquotedDelimiter cs with
    | case1 => exact Nat.le_refl _
    | case2 => exact hclose _
    | case3 => exact Nat.zero_le _
    | case4 c cs _ _ ih =>
      simp only [DelimiterScan.before, List.length_cons]
      omega
  · fun_induction scanDquotedDelimiter cs with
    | case1 => exact Nat.le_refl _
    | case2 => exact hclose _
    | case3 => exact Nat.zero_le _
    | case4 c _ _ next cs _ ih =>
      simp only [DelimiterScan.before, List.length_cons]
      omega
    | case5 c _ _ next cs _ ih =>
      simp only [DelimiterScan.before, List.length_cons] at ih ⊢
      omega
    | case6 c _ _ ih =>
      simp only [DelimiterScan.before, List.length_cons] at ih ⊢
      omega
  · fun_induction scanPlainDelimiter cs with
    | case1 => exact Nat.le_refl _
    | case2 => exact Nat.zero_le _
    | case3 _ _ ih =>
      simp only [DelimiterScan.before, List.length_cons]
      omega
    | case4 _ _ _ _ ih =>
      simp only [DelimiterScan.before, List.length_cons]
      omega
    | case5 c _ next cs _ ih =>
      simp only [DelimiterScan.before, List.length_cons] at ih ⊢
      omega
    | case6 => exact Nat.le_refl _

theorem getHeredocDelimiter_consumed_le (cs : List Char) :
    (getHeredocDelimiter cs).consumed ≤ cs.length := by
  obtain ⟨hsquoted, hdquoted, hplain⟩ := DelimiterScan.consumed_le
  cases cs with
  | nil => exact Nat.le_refl _
  | cons c cs =>
    simp only [getHeredocDelimiter]
    split_ifs
    · exact Nat.zero_le _
    · have := hsquoted cs
      simp only [DelimiterScan.before, List.length_cons]
      omega
    · have := hdquoted cs
      simp only [DelimiterScan.before, List.length_cons]
      omega
    · exact hplain (c :: cs)
    · exact hplain (c :: cs)

/-! ## Steps in the normal mode -/

/-- Any change in the normal mode that keeps the word and the current token together. -/
theorem Sound.normal {t : Lexer} (h : Sound lx) (hle : t.pos ≤ lx.input.length)
    (hinput : t.input = lx.input) (hstack : t.modeStack = [])
    (hword : t.inWord = t.currentToken.isSome)
    (hqueue : ∀ entry ∈ t.heredocQueue, entry.delimiter ≠ []) : Sound t where
  inside := by rw [hinput]; exact hle
  word := fun _ => hword
  document := fun hmode => by simp [lexerCurrentMode, hstack] at hmode
  notNormal := by simp [hstack]
  below := by simp [hstack]
  delimiters := hqueue
  text := by rw [hinput]; exact h.text

theorem Sound.goes_normal {t : Lexer} (h : Sound lx) (hnil : lx.modeStack = [])
    (hpos : lx.pos < t.pos) (hle : t.pos ≤ lx.input.length) (hinput : t.input = lx.input)
    (hstack : t.modeStack = [])
    (hword : t.inWord = t.currentToken.isSome)
    (hqueue : ∀ entry ∈ t.heredocQueue, entry.delimiter ≠ [])
    (hnoEof : NoEof lx → NoEof t) : Goes lx t where
  sound := h.normal hle hinput hstack hword hqueue
  input := hinput
  modeStack := by rw [hstack, hnil]
  pos := hpos
  noEof := hnoEof

/-- No word is in progress any more. -/
structure Ended (lx lx' : Lexer) : Prop where
  currentToken : lx'.currentToken = none
  inWord : lx'.inWord = false
  input : lx'.input = lx.input
  pos : lx'.pos = lx.pos
  modeStack : lx'.modeStack = lx.modeStack
  heredocQueue : lx'.heredocQueue = lx.heredocQueue
  noEof : NoEof lx → NoEof lx'

theorem NoEof.congr (h : NoEof lx) (htokens : lx'.tokens = lx.tokens) : NoEof lx' := by
  unfold NoEof
  rw [htokens]
  exact h

theorem NoEof.append (h : NoEof lx) {a : Token} (htok : a.type ≠ .eof)
    (htokens : lx'.tokens = lx.tokens ++ [a]) : NoEof lx' := by
  intro other hmem
  rw [htokens] at hmem
  rcases List.mem_append.mp hmem with hmem | hmem
  · exact h other hmem
  · rw [List.mem_singleton.mp hmem]
    exact htok

/-- A word becomes an assignment at most. -/
theorem type_finalized (lx : Lexer) (tok : Token) : (lx.finalized tok).type ≠ .eof := by
  unfold finalized Token.recomputeExpansionFlags Token.tryPromoteToAssignment
  dsimp only
  split
  · split_ifs
    all_goals simp
  · simp

theorem Sound.currentToken_none (h : Sound lx) (hmode : lx.lexerCurrentMode ≠ .heredocBody)
    (hword : ¬ lx.inWord = true) : lx.currentToken = none := by
  have hsome := h.word hmode
  cases htok : lx.currentToken with
  | none => rfl
  | some tok =>
    rw [htok] at hsome
    exact absurd hsome hword

theorem Sound.holds_endWord (h : Sound lx) (hmode : lx.lexerCurrentMode ≠ .heredocBody) :
    Holds (Ended lx) lx.endWord := by
  unfold endWord
  by_cases hword : lx.inWord = true
  · obtain ⟨tok, htok⟩ := h.currentToken hword
    rw [if_pos hword, lexerFinalizeWord, htok]
    exact holds_ok.mpr ⟨rfl, rfl, rfl, rfl, rfl, rfl, 
      fun h => h.append (type_finalized lx tok) rfl⟩
  · rw [if_neg hword]
    exact ⟨lx, rfl, h.currentToken_none hmode hword, by simpa using hword, rfl, rfl, rfl, rfl, id⟩

theorem Started.goes {lx₁ : Lexer} (h : Started lx lx₁) (hgoes : Goes lx₁ lx') : Goes lx lx' where
  sound := hgoes.sound
  input := hgoes.input.trans h.input
  modeStack := hgoes.modeStack.trans h.modeStack
  pos := h.pos ▸ hgoes.pos
  noEof := fun hno => hgoes.noEof (hno.congr h.tokens)

theorem Sound.holds_wordTurn (h : Sound lx) (hmode : lx.lexerCurrentMode ≠ .heredocBody)
    (hpos : lx.pos < lx.input.length) (c : Char) :
    Holds (Next.Either (Goes lx) (Answered lx)) (lx.wordTurn c) := by
  unfold wordTurn
  rw [holds_bind]
  refine (h.holds_ensureWord hmode).mono fun lx₁ hstarted => ?_
  obtain ⟨tok, htok⟩ := hstarted.sound.currentToken hstarted.inWord
  have hpos₁ : lx₁.pos < lx₁.input.length := by rw [hstarted.pos, hstarted.input]; exact hpos
  have hgoes := hstarted.sound.goes (t := advanced { lx₁ with
    currentToken := some (tok.appendChar false false c) }) hstarted.inWord
    (by constructor <;> simp; omega) (by simp [*])
  simpa [lexerAppendLiteralCharToWord, htok, hpos₁] using hstarted.goes hgoes.1

/-- The turns that read one character. -/
theorem Sound.holds_characterTurn (h : Sound lx) (hnil : lx.modeStack = [])
    (hpos : lx.pos < lx.input.length) (htrap : ¬ NormalTrap lx) :
    Holds (Next.Either (Goes lx) (Answered lx)) lx.characterTurn := by
  have hmode : lx.lexerCurrentMode ≠ .heredocBody := by simp [lexerCurrentMode, hnil]
  have hstack : ∀ mode ∈ lx.modeStack, mode = .doubleQuote := by simp [hnil]
  have hlast : ¬ LastIs [backslash, '$'] lx := fun hlast => htrap (.inr (.inr hlast))
  have henter : ∀ mode : LexMode, mode ≠ .normal → mode ≠ .heredocBody →
      lx.pos + 1 ≤ lx.input.length ∧
        Answered lx (.incomplete, (lx.lexerPushMode mode).advancedBy 1) := fun mode hn hh =>
    ⟨hpos, h.answered_enter hstack hn hh Nat.one_pos hpos⟩
  unfold characterTurn
  by_cases hb : lx.lexerPeek = backslash
  · obtain ⟨hnext, hpos₂⟩ := h.next_ne_nul hlast (by simp [hb]) hpos
    obtain ⟨lx₁, hrun, hstarted⟩ := h.holds_ensureWord hmode
    obtain ⟨tok, htok⟩ := hstarted.sound.currentToken hstarted.inWord
    have hpos₁ : lx₁.pos + 1 < lx₁.input.length := by
      rw [hstarted.pos, hstarted.input]
      exact hpos₂
    have hpos₀ : lx₁.pos < lx₁.input.length := by omega
    have hgoes := hstarted.sound.goes (t := advanced { lx₁.advanced with
      currentToken := some { tok.appendChar false false (lx.lexerPeekAhead 1) with
        wasQuoted := true } }) hstarted.inWord
      (by constructor <;> simp <;> omega) (by simp [*])
    have hensure : Holds (fun t => t = lx₁) lx.ensureWord := ⟨lx₁, hrun, rfl⟩
    simp only [hb, if_true, hnext, if_false, holds_bind]
    refine hensure.mono ?_
    rintro t rfl
    simpa [htok, hpos₁, hpos₀] using hstarted.goes hgoes.1
  by_cases hq : lx.lexerPeek = backtick
  · simpa +decide [hq] using henter .cmdSubstBacktick (by decide) (by decide)
  by_cases hs : lx.lexerPeek = squote
  · simpa +decide [hs] using henter .singleQuote (by decide) (by decide)
  by_cases hd : lx.lexerPeek = dquote
  · simpa +decide [hd] using henter .doubleQuote (by decide) (by decide)
  by_cases hdollar : lx.lexerPeek = '$'
  · obtain ⟨hnext, hpos₂⟩ := h.next_ne_nul hlast (by simp [hdollar]) hpos
    cases hat : lx.expansionAt? fun c => isWordChar c || isSpecialParamChar c with
    | none => simpa +decide [hdollar, hnext, hat] using h.holds_wordTurn hmode hpos '$'
    | some found =>
      obtain ⟨mode, n⟩ := found
      simpa +decide [hdollar, hnext, hat] using h.answered_expansion hstack hat hpos₂
  by_cases hhash : lx.lexerPeek = '#'
  · have hword : ¬ lx.inWord = true := fun hword => htrap (.inl ⟨hword, .inl hhash⟩)
    obtain ⟨hlt, hle⟩ := advancedWhile_bounds hpos (p := fun c => c ≠ newline)
      (by rw [hhash]; decide)
    have hgoes := h.moves (t := lx.advancedWhile fun c => c ≠ newline)
      { pos := by simp only [advancedWhile, advancedBy_pos]; omega
        pos_le := by simp only [advancedWhile, advancedBy_pos]; exact hle
        input := by simp [advancedWhile]
        modeStack := by simp [advancedWhile]
        inWord := by simp [advancedWhile]
        heredocQueue := by simp [advancedWhile]
        heredocIndex := by simp [advancedWhile]
        tokens := by simp [advancedWhile] } (by simp [advancedWhile])
    simpa +decide [hhash, hword] using hgoes
  by_cases hchar : isWordChar lx.lexerPeek = true
  · simp only [hb, hq, hs, hd, hdollar, hhash, hchar, if_true, if_false, holds_bind]
    refine (h.holds_ensureWord hmode).mono fun lx₁ hstarted => ?_
    obtain ⟨tok, htok⟩ := hstarted.sound.currentToken hstarted.inWord
    rw [holds_onWord]
    refine ⟨tok, htok, ?_⟩
    have hmode₁ : lx₁.lexerCurrentMode ≠ .heredocBody := by rw [hstarted.mode]; exact hmode
    have hsound : Sound { lx₁ with currentToken := some { tok with
        hasEqualsBeforeQuote :=
          tok.hasEqualsBeforeQuote || lx.lexerPeek = '=' && !tok.wasQuoted } } :=
      hstarted.sound.congr rfl hstarted.sound.inside rfl rfl (by simp [htok]) rfl rfl
    refine (hsound.holds_wordTurn hmode₁ ?_ lx.lexerPeek).mono fun x hx => hx.mono ?_ ?_
    · show lx₁.pos < lx₁.input.length
      rw [hstarted.pos, hstarted.input]
      exact hpos
    · intro t ht
      exact hstarted.goes ⟨ht.sound, ht.input, ht.modeStack, ht.pos, ht.noEof⟩
    · intro answer ha
      exact hstarted.answered ⟨ha.sound, ha.status, ha.input, ha.pos_le, ha.progress⟩
  · simpa +decide [hb, hq, hs, hd, hdollar, hhash, hchar] using h.answered_error _

/-! ## Here-document operators -/

theorem holds_lexerStartWord {P : Lexer → Prop} (htoken : lx.currentToken = none)
    (hword : lx.inWord = false) :
    Holds P lx.lexerStartWord ↔ P { lx with
      currentToken := some { type := .word }, tokStartLine := lx.lineNo,
      tokStartCol := lx.colNo, inWord := true } := by
  unfold lexerStartWord
  rw [if_neg (not_not.mpr htoken), if_neg (by simp [hword]), holds_ok]

theorem rest_ext (hinput : lx'.input = lx.input) (hpos : lx'.pos = lx.pos) :
    lx'.rest = lx.rest := by
  simp only [rest, hinput, hpos]

theorem head?_rest {c : Char} (hc : c ≠ nul) : lx.rest.head? = some c ↔ lx.lexerPeek = c := by
  by_cases hpos : lx.pos < lx.input.length
  · rw [rest_eq_cons hpos]
    simp
  · have hnil : lx.rest = [] := List.drop_eq_nil_of_le (by omega)
    rw [hnil, lexerPeek, lexerPeekAhead_of_le (by omega)]
    simp [Ne.symm hc]

theorem drop_length_takeWhile (p : Char → Bool) (cs : List Char) :
    cs.drop (cs.takeWhile p).length = cs.dropWhile p := by
  have h := congrArg (List.drop (cs.takeWhile p).length)
    (List.takeWhile_append_dropWhile (p := p) (l := cs))
  rw [List.drop_left] at h
  exact h.symm

theorem rest_lexerSkipWhitespace :
    lx.lexerSkipWhitespace.rest = lx.rest.dropWhile fun c => c = ' ' ∨ c = tab := by
  unfold lexerSkipWhitespace advancedWhile
  rw [rest_advancedBy, drop_length_takeWhile]

theorem lexerSkipWhitespace_eq (lx : Lexer) :
    lx.lexerSkipWhitespace =
      lx.advancedBy (lx.rest.takeWhile fun c => c = ' ' ∨ c = tab).length := rfl

/-- The function after the operator has been read and emitted. -/
theorem Sound.holds_delimiter (h : Sound lx) (hnil : lx.modeStack = [])
    {lx₁ : Lexer} (hinput : lx₁.input = lx.input) (hpos : lx.pos < lx₁.pos)
    (hle : lx₁.pos ≤ lx.input.length) (hstack : lx₁.modeStack = [])
    (htoken : lx₁.currentToken = none) (hword : lx₁.inWord = false)
    (hqueue : lx₁.heredocQueue = lx.heredocQueue) (hnoEof : NoEof lx → NoEof lx₁)
    (htext : (getHeredocDelimiter lx₁.lexerSkipWhitespace.rest).error = none →
      (getHeredocDelimiter lx₁.lexerSkipWhitespace.rest).text ≠ []) (stripTabs : Bool) :
    Holds (fun result => (∃ t, result = .success t ∧ Goes lx t) ∨
        ∃ t, result = .error t ∧ Answered lx (.error, t))
      (lx₁.lexerSkipWhitespace.processDelimiter stripTabs) := by
  have hskip : lx₁.lexerSkipWhitespace.pos + lx₁.lexerSkipWhitespace.rest.length =
      lx.input.length := by
    have hbound := (List.takeWhile_prefix (fun c => decide (c = ' ' ∨ c = tab))
      (l := lx₁.rest)).length_le
    rw [rest_length] at hbound ⊢
    simp only [lexerSkipWhitespace_eq, advancedBy_pos, advancedBy_input, hinput] at hbound ⊢
    omega
  have hskipped : lx₁.pos ≤ lx₁.lexerSkipWhitespace.pos := by
    rw [lexerSkipWhitespace_eq, advancedBy_pos]
    exact Nat.le_add_right ..
  have hconsumed := getHeredocDelimiter_consumed_le lx₁.lexerSkipWhitespace.rest
  unfold processDelimiter
  dsimp only
  cases herror : (getHeredocDelimiter lx₁.lexerSkipWhitespace.rest).error with
  | some text =>
    rw [holds_pure]
    refine .inr ⟨_, rfl, ?_⟩
    have hs := h.normal (t := lexerSetError (lx₁.lexerSkipWhitespace.advancedBy
        (getHeredocDelimiter lx₁.lexerSkipWhitespace.rest).consumed) text)
      (by simp only [lexerSetError, advancedBy_pos]; omega)
      (by simp [lexerSetError, lexerSkipWhitespace_eq, hinput])
      (by simp [lexerSetError, lexerSkipWhitespace_eq, hstack])
      (by simp [lexerSetError, lexerSkipWhitespace_eq, hword, htoken])
      (by simpa [lexerSetError, lexerSkipWhitespace_eq, hqueue] using h.delimiters)
    exact {
      sound := hs
      status := .inr (.inl rfl)
      input := by simp [lexerSetError, lexerSkipWhitespace_eq, hinput]
      pos_le := by
        simp only [lexerSetError, advancedBy_pos]
        omega
      progress := .inl rfl }
  | none =>
    have hne := htext herror
    rw [holds_bind, holds_lexerStartWord (by simp [lexerSkipWhitespace_eq, htoken])
      (by simp [lexerSkipWhitespace_eq, hword]), holds_bind, lexerAppendLiteralCstrToWord,
      if_neg hne, holds_onWord]
    refine ⟨_, rfl, ?_⟩
    rw [holds_bind]
    refine holds_ok.mpr ?_
    rw [holds_pure]
    refine .inl ⟨_, rfl, ?_⟩
    refine h.goes_normal hnil ?_ ?_ ?_ ?_ rfl ?_ fun hno =>
      (hnoEof hno).append (type_finalized _ _)
        (by simp [lexerQueueHeredoc, lexerSkipWhitespace_eq]; rfl)
    · simp only [lexerQueueHeredoc, advancedBy_pos]
      omega
    · simp only [lexerQueueHeredoc, advancedBy_pos]
      omega
    · simp [lexerQueueHeredoc, lexerSkipWhitespace_eq, hinput]
    · simp [lexerQueueHeredoc, lexerSkipWhitespace_eq, hstack]
    · intro entry hmem
      simp only [lexerQueueHeredoc, List.mem_append, List.mem_singleton, lexerSkipWhitespace_eq,
        advancedBy_heredocQueue, hqueue] at hmem
      rcases hmem with hmem | rfl
      · exact h.delimiters entry hmem
      · exact hne

/-- The lexer after a here-document operator, with the token for it. -/
def afterOperator (lx : Lexer) (type : TokenType) : Lexer :=
  { lx.append (lx.tokenHere type) with
    atCommandStart := [.semi, .newline, .andIf, .orIf, .pipe].contains type }

theorem rest_afterDash (hdash : (lx.advancedBy 2).lexerPeek = '-') :
    ((lx.advancedBy 2).advanced.afterOperator .dlessdash).lexerSkipWhitespace.rest =
      lx.delimiterText := by
  have hhead := (@head?_rest (lx.advancedBy 2) '-' (by decide)).mpr hdash
  rw [rest_advancedBy] at hhead
  rw [rest_lexerSkipWhitespace, delimiterText, if_pos hhead, List.tail_drop]
  simp [rest, afterOperator, append, Nat.add_assoc]

theorem rest_afterNoDash (hdash : ¬ (lx.advancedBy 2).lexerPeek = '-') :
    ((lx.advancedBy 2).afterOperator .dless).lexerSkipWhitespace.rest = lx.delimiterText := by
  have hhead := @head?_rest (lx.advancedBy 2) '-' (by decide)
  rw [rest_advancedBy] at hhead
  rw [rest_lexerSkipWhitespace, delimiterText, if_neg fun h => hdash (hhead.mp h)]
  simp [rest, afterOperator, append]

theorem Sound.holds_processOperator (h : Sound lx) (hnil : lx.modeStack = [])
    (hstart : lx.lexerInputStartsWith ['<', '<'] = true) (htrap : ¬ NormalTrap lx) :
    Holds (fun result => (∃ t, result = .success t ∧ Goes lx t) ∨
      ∃ t, result = .error t ∧ Answered lx (.error, t)) lx.processOperator := by
  have hmode : lx.lexerCurrentMode ≠ .heredocBody := by simp [lexerCurrentMode, hnil]
  have hword : lx.inWord = false := by
    cases hword : lx.inWord with
    | false => rfl
    | true => exact absurd (.inl ⟨hword, .inr (.inr (.inr hstart))⟩) htrap
  have htoken := h.currentToken_none hmode (by simp [hword])
  have htwo : lx.pos + 2 ≤ lx.input.length := by
    have := (List.isPrefixOf_iff_prefix.mp hstart).length_le
    rw [rest_length] at this
    simp only [List.length_cons, List.length_nil] at this
    omega
  have hempty : ∀ cs, cs = lx.delimiterText → (getHeredocDelimiter cs).error = none →
      (getHeredocDelimiter cs).text ≠ [] := by
    rintro cs rfl herror htext
    exact htrap (.inr (.inl ⟨hstart, herror, htext⟩))
  unfold processOperator
  simp only [hstart, Bool.not_true, Bool.false_eq_true, if_false, holds_bind,
    holds_lexerAdvanceNChars, holds_ite]
  refine ⟨htwo, ?_⟩
  by_cases hdash : (lx.advancedBy 2).lexerPeek = '-'
  · have hpos₃ := pos_lt_of_peek hdash (by decide)
    rw [advancedBy_pos, advancedBy_input] at hpos₃
    rw [if_pos hdash, holds_lexerAdvance, holds_lexerEmitToken]
    refine ⟨by simpa using hpos₃, by simpa using htoken, ?_⟩
    refine h.holds_delimiter hnil ?_ ?_ ?_ ?_ ?_ ?_ ?_
      (fun hno => hno.append (a := Lexer.tokenHere _ .dlessdash) (by simp [tokenHere])
        (by simp [append]; rfl)) (hempty _ ?_) true
    · simp [append]
    · simp only [append, advanced_pos, advancedBy_pos]
      omega
    · simp only [append, advanced_pos, advanced_input, advancedBy_pos, advancedBy_input]
      omega
    · simp [append, hnil]
    · simp [append, htoken]
    · simp [append, hword]
    · simp [append]
    · exact rest_afterDash hdash
  · rw [if_neg hdash, holds_lexerEmitToken]
    refine ⟨by simpa using htoken, ?_⟩
    refine h.holds_delimiter hnil ?_ ?_ ?_ ?_ ?_ ?_ ?_
      (fun hno => hno.append (a := Lexer.tokenHere _ .dless) (by simp [tokenHere])
        (by simp [append]; rfl)) (hempty _ ?_) false
    · simp [append]
    · simp [append]
    · simpa [append] using htwo
    · simp [append, hnil]
    · simp [append, htoken]
    · simp [append, hword]
    · simp [append]
    · exact rest_afterNoDash hdash

/-- The number of a here-document is tried on stronger terms than the one before. -/
theorem tryProcessHeredoc_eq (hnumber : lx.ioNumber? = none) :
    lx.tryProcessHeredoc = lx.processOperator := by
  have hnone : (if lx.heredocPreviousTokenAllowsIoNumber then lx.integerBeforeRedirection?
      else none) = none := by
    split_ifs with hallows
    · have hprevious : lx.previousTokenAllowsIoNumber = true := by
        unfold heredocPreviousTokenAllowsIoNumber at hallows
        unfold previousTokenAllowsIoNumber
        cases hlast : lx.tokens.getLast? with
        | none => rfl
        | some last =>
          rw [hlast] at hallows
          simp only [List.contains_iff_mem, List.mem_cons, List.not_mem_nil, or_false] at hallows ⊢
          tauto
      simpa [ioNumber?, hprevious] using hnumber
    · rfl
  unfold tryProcessHeredoc
  rw [hnone]

/-! ## The turn -/

theorem Ended.sound (h : Sound lx) (hnil : lx.modeStack = []) (he : Ended lx lx') : Sound lx' :=
  h.normal (by rw [he.pos]; exact h.inside) he.input (by rw [he.modeStack, hnil])
    (by rw [he.inWord, he.currentToken]; rfl) (by rw [he.heredocQueue]; exact h.delimiters)

theorem Sound.holds_endOfInput (h : Sound lx) (hnil : lx.modeStack = [])
    (hend : lx.lexerAtEnd = true) :
    Holds (Next.Either (Goes lx) (Answered lx)) lx.endOfInput := by
  have hmode : lx.lexerCurrentMode ≠ .heredocBody := by simp [lexerCurrentMode, hnil]
  have hword : ¬ ((!lx.inWord) = true ∧ lx.currentToken ≠ none) := by
    rintro ⟨hword, htoken⟩
    exact htoken (h.currentToken_none hmode (by simpa using hword))
  unfold endOfInput
  rw [if_neg hword, holds_bind]
  refine (h.holds_endWord hmode).mono fun t he => ?_
  rw [holds_bind, holds_lexerEmitToken]
  refine ⟨he.currentToken, ?_⟩
  rw [holds_pure]
  have hs := Ended.sound h hnil he
  exact {
    sound := h.normal (by show t.pos ≤ _; rw [he.pos]; exact h.inside) he.input
      (he.modeStack.trans hnil)
      (by show t.inWord = t.currentToken.isSome; rw [he.inWord, he.currentToken]; rfl)
      (by show ∀ entry ∈ t.heredocQueue, _; rw [he.heredocQueue]; exact h.delimiters)
    status := .inl rfl
    input := he.input
    pos_le := by show lx.pos ≤ t.pos; rw [he.pos]
    progress := by
      refine .inr (.inr ⟨?_, .inr ⟨rfl, ?_, he.inWord, t.tokenHere .eof, ?_, rfl⟩⟩)
      · rw [lexerAtEnd_iff] at hend ⊢
        show t.input.length ≤ t.pos
        rw [he.input, he.pos]
        exact hend
      · show t.modeStack.headD .normal = .normal
        rw [he.modeStack, hnil]
        rfl
      · show t.tokenHere .eof ∈ t.tokens ++ [t.tokenHere .eof]
        simp }

theorem Sound.holds_newlineTurn (h : Sound lx) (hnil : lx.modeStack = [])
    (hpos : lx.pos < lx.input.length) :
    Holds (Next.Either (Goes lx) (Answered lx)) lx.newlineTurn := by
  have hmode : lx.lexerCurrentMode ≠ .heredocBody := by simp [lexerCurrentMode, hnil]
  unfold newlineTurn
  rw [holds_bind]
  refine (h.holds_endWord hmode).mono fun t he => ?_
  rw [holds_bind, holds_lexerAdvance]
  refine ⟨by rw [he.pos, he.input]; exact hpos, ?_⟩
  rw [holds_bind, holds_lexerEmitToken]
  refine ⟨by simpa using he.currentToken, ?_⟩
  rw [holds_ite]
  split_ifs with hqueue
  · rw [holds_pure]
    refine ⟨?_, .inr (.inr rfl), by simp [append, lexerPushMode, he.input],
      by simp [append, lexerPushMode, he.pos], .inr (.inl (by simp [append, lexerPushMode, he.pos]))⟩
    exact {
      inside := by simp [append, lexerPushMode, he.pos, he.input]; omega
      word := fun hne => absurd rfl hne
      document := fun _ =>
        ⟨by simp [append, lexerPushMode, he.inWord], List.length_pos_iff.mpr hqueue.1⟩
      notNormal := by simp [append, lexerPushMode, he.modeStack, hnil]
      below := by simp [append, lexerPushMode, he.modeStack, hnil]
      delimiters := by simpa [append, lexerPushMode, he.heredocQueue] using h.delimiters
      text := by simpa [append, lexerPushMode, he.input] using h.text }
  · rw [holds_pure]
    exact h.goes_normal hnil (by simp [append, he.pos]) (by simp [append, he.pos]; omega)
      (by simp [append, he.input]) (by simp [append, he.modeStack, hnil])
      (by simp [append, he.inWord, he.currentToken])
      (by simpa [append, he.heredocQueue] using h.delimiters)
      (fun hno => (he.noEof hno).append (a := t.advanced.tokenHere .newline) (by simp [tokenHere])
        (by simp [append]))

theorem matchOperator?_text {text : List Char} {type : TokenType}
    (h : lx.matchOperator? = some (text, type)) :
    0 < text.length ∧ text.length ≤ lx.rest.length := by
  have hmem := List.mem_of_find?_eq_some h
  have hprefix := List.find?_some h
  refine ⟨?_, (List.isPrefixOf_iff_prefix.mp hprefix).length_le⟩
  have hall : ∀ op ∈ normalModeOperators, 0 < op.1.length := by decide
  exact hall _ hmem

theorem matchOperator?_type {text : List Char} {type : TokenType}
    (h : lx.matchOperator? = some (text, type)) : type ≠ .eof := by
  have hall : ∀ op ∈ normalModeOperators, op.2 ≠ .eof := by decide
  exact hall _ (List.mem_of_find?_eq_some h)

theorem bracedIoLocation?_length {text : List Char} (h : lx.bracedIoLocation? = some text) :
    0 < text.length ∧ text.length ≤ lx.rest.length := by
  unfold bracedIoLocation? at h
  cases hrest : lx.rest with
  | nil =>
    rw [hrest] at h
    cases h
  | cons opening cs =>
    rw [hrest] at h
    dsimp only at h
    cases hdrop : cs.drop (cs.takeWhile isNameChar).length with
    | nil =>
      rw [hdrop] at h
      cases h
    | cons closing cs' =>
      rw [hdrop] at h
      cases cs' with
      | nil => cases h
      | cons next cs' =>
        dsimp only at h
        split_ifs at h
        cases h
        have hlength := congrArg List.length hdrop
        simp only [List.length_drop, List.length_cons] at hlength
        simp only [List.length_append, List.length_cons, List.length_nil]
        omega

theorem integerBeforeRedirection?_bounds {value digits : ℕ}
    (h : lx.integerBeforeRedirection? = some (value, digits)) :
    0 < digits ∧ lx.pos + digits ≤ lx.input.length := by
  simp only [integerBeforeRedirection?] at h
  split_ifs at h with hcond
  cases h
  refine ⟨lexerPeekInteger_pos hcond.1, ?_⟩
  by_contra hlt
  have hnext := hcond.2
  rw [lexerPeekAhead_of_le (by omega)] at hnext
  exact absurd hnext (by decide)

theorem Sound.holds_operatorTurn (h : Sound lx) (hnil : lx.modeStack = [])
    (hpos : lx.pos < lx.input.length) (htrap : ¬ NormalTrap lx) (hnumber : lx.ioNumber? = none) :
    Holds (Next.Either (Goes lx) (Answered lx)) lx.operatorTurn := by
  have hmode : lx.lexerCurrentMode ≠ .heredocBody := by simp [lexerCurrentMode, hnil]
  unfold operatorTurn
  rw [tryProcessHeredoc_eq hnumber, holds_bind]
  by_cases hstart : lx.lexerInputStartsWith ['<', '<'] = true
  · refine (h.holds_processOperator hnil hstart htrap).mono ?_
    rintro result (⟨t, rfl, hgoes⟩ | ⟨t, rfl, hanswer⟩)
    · exact holds_pure.mpr hgoes
    · exact holds_pure.mpr hanswer
  · have hnot : lx.processOperator = .ok (.notHeredoc lx) := by
      simp [processOperator, hstart]
      rfl
    rw [hnot, holds_ok]
    cases hop : lx.matchOperator? with
    | none => simpa [hop] using h.holds_characterTurn hnil hpos htrap
    | some found =>
      obtain ⟨text, type⟩ := found
      obtain ⟨hlt, hle⟩ := matchOperator?_text hop
      rw [rest_length] at hle
      simp only [hop, holds_bind]
      refine (h.holds_endWord hmode).mono fun t he => ?_
      rw [holds_lexerAdvanceNChars, holds_lexerEmitToken]
      refine ⟨by rw [he.pos, he.input]; omega, by simpa using he.currentToken, ?_⟩
      rw [holds_pure]
      have hgoes := h.goes_normal (t := { append (t.advancedBy text.length)
          ((t.advancedBy text.length).tokenHere type) with
          atCommandStart := [.semi, .newline, .andIf, .orIf, .pipe].contains type }) hnil
        (by simp [append, he.pos]; omega) (by simp [append, he.pos]; omega)
        (by simp [append, he.input]) (by simp [append, he.modeStack, hnil])
        (by simp [append, he.inWord, he.currentToken])
        (by simpa [append, he.heredocQueue] using h.delimiters)
        (fun hno => (he.noEof hno).append (a := (t.advancedBy text.length).tokenHere type)
          (matchOperator?_type hop) (by simp [append]))
      exact ⟨hgoes.sound, .inl rfl, hgoes.input, Nat.le_of_lt hgoes.pos, .inr (.inl hgoes.pos)⟩

theorem Sound.holds_redirectionTurn (h : Sound lx) (hnil : lx.modeStack = [])
    (hpos : lx.pos < lx.input.length) (htrap : ¬ NormalTrap lx) :
    Holds (Next.Either (Goes lx) (Answered lx)) lx.redirectionTurn := by
  have hmode : lx.lexerCurrentMode ≠ .heredocBody := by simp [lexerCurrentMode, hnil]
  have hrest := @rest_length lx
  unfold redirectionTurn
  cases hnumber : lx.ioNumber? with
  | some found =>
    obtain ⟨value, digits⟩ := found
    have hword : ¬ lx.inWord = true := fun hword =>
      htrap (.inl ⟨hword, .inr (.inl (by rw [hnumber]; simp))⟩)
    have htoken := h.currentToken_none hmode hword
    have hbounds : 0 < digits ∧ lx.pos + digits ≤ lx.input.length := by
      unfold ioNumber? at hnumber
      split_ifs at hnumber
      exact integerBeforeRedirection?_bounds hnumber
    have hgoes := h.goes_normal (t := (lx.append { lx.tokenHere .ioNumber with
        ioNumber := value }).advancedBy digits) hnil (by simp [append]; omega)
      (by simp [append]; omega) (by simp [append]) (by simp [append, hnil])
      (by simp [append, htoken, hword]) (by simpa [append] using h.delimiters)
      (fun hno => hno.append (a := { lx.tokenHere .ioNumber with ioNumber := value })
        (by simp [tokenHere]) (by simp [append]))
    have hemit : lx.lexerEmitIoNumberToken value =
        .ok (lx.append { lx.tokenHere .ioNumber with ioNumber := value }) := by
      simp [lexerEmitIoNumberToken, htoken]
    dsimp only
    rw [holds_bind, hemit, holds_ok, holds_bind, holds_lexerAdvanceNChars, holds_pure]
    exact ⟨hbounds.2, hgoes⟩
  | none =>
    cases hbraced : lx.bracedIoLocation? with
    | some text =>
      have hword : ¬ lx.inWord = true := fun hword =>
        htrap (.inl ⟨hword, .inr (.inr (.inl (by rw [hbraced]; simp)))⟩)
      have htoken := h.currentToken_none hmode hword
      have hbounds := bracedIoLocation?_length hbraced
      have hgoes := h.goes_normal (t := (lx.lexerEmitIoLocationToken text).advancedBy
          text.length) hnil (by simp [lexerEmitIoLocationToken, append]; omega)
        (by simp [lexerEmitIoLocationToken, append]; omega)
        (by simp [lexerEmitIoLocationToken, append])
        (by simp [lexerEmitIoLocationToken, append, hnil])
        (by simp [lexerEmitIoLocationToken, append, htoken, hword])
        (by simpa [lexerEmitIoLocationToken, append] using h.delimiters)
        (fun hno => hno.append (a := { lx.tokenHere .ioLocation with
          ioLocation := some (String.ofList text) }) (by simp [tokenHere])
          (by simp [lexerEmitIoLocationToken, append]))
      dsimp only
      rw [holds_bind, holds_lexerAdvanceNChars, holds_pure]
      refine ⟨?_, hgoes⟩
      show lx.pos + text.length ≤ lx.input.length
      omega
    | none => exact h.holds_operatorTurn hnil hpos htrap hnumber

/-- A turn of the normal mode that is no trap goes on or answers. -/
theorem Sound.holds_normalTurn (h : Sound lx) (hnil : lx.modeStack = [])
    (htrap : ¬ NormalTrap lx) : Holds (Next.Either (Goes lx) (Answered lx)) lx.normalTurn := by
  have hmode : lx.lexerCurrentMode ≠ .heredocBody := by simp [lexerCurrentMode, hnil]
  unfold normalTurn
  by_cases hend : lx.lexerAtEnd = true
  · simpa [hend] using h.holds_endOfInput hnil hend
  have hpos := pos_lt_of_not_atEnd hend
  by_cases hcut : lx.lexerPeek = backslash ∧ lx.lexerPeekAhead 1 = newline
  · have hpos₂ : lx.pos + 1 < lx.input.length := by
      by_contra hlt
      have := hcut.2
      rw [lexerPeekAhead_of_le (by omega)] at this
      exact absurd this (by decide)
    have hgoes := h.moves (t := lx.advanced.advanced)
      (by constructor <;> simp <;> omega) (by simp)
    by_cases hend₂ : lx.advanced.advanced.lexerAtEnd = true
    · simpa [hend, hcut, hpos, hpos₂, hend₂] using hgoes.answered_incomplete
    · simpa [hend, hcut, hpos, hpos₂, hend₂] using hgoes
  by_cases hblank : lx.lexerPeek = ' ' ∨ lx.lexerPeek = tab
  · obtain ⟨hlt, hle⟩ := advancedWhile_bounds hpos (p := fun c => c = ' ' ∨ c = tab)
      (by simpa using hblank)
    have hskip : Holds (fun t => Goes lx t.lexerSkipWhitespace) lx.endWord := by
      refine (h.holds_endWord hmode).mono fun t he => ?_
      have hsame : t.rest = lx.rest := rest_ext he.input he.pos
      refine h.goes_normal hnil ?_ ?_ ?_ ?_ ?_ ?_ ?_
      · rw [lexerSkipWhitespace_eq, advancedBy_pos, hsame, he.pos]
        omega
      · rw [lexerSkipWhitespace_eq, advancedBy_pos, hsame, he.pos]
        exact hle
      · simp [lexerSkipWhitespace_eq, he.input]
      · simp [lexerSkipWhitespace_eq, he.modeStack, hnil]
      · simp [lexerSkipWhitespace_eq, he.inWord, he.currentToken]
      · simpa [lexerSkipWhitespace_eq, he.heredocQueue] using h.delimiters
      · exact fun hno => (he.noEof hno).congr (by simp [lexerSkipWhitespace_eq])
    simpa [hend, hcut, hblank] using hskip
  by_cases hnl : lx.lexerPeek = newline
  · simpa +decide [hend, hnl] using h.holds_newlineTurn hnil hpos
  · simpa [hend, hcut, hblank, hnl] using h.holds_redirectionTurn hnil hpos htrap

theorem Sound.holds_normalTurn_nil (h : Sound lx) (hnil : lx.modeStack = [])
    (htrap : ¬ NormalTrap lx) :
    Holds (Next.Either (fun t => Goes lx t ∧ t.modeStack = []) (Answered lx)) lx.normalTurn := by
  refine (h.holds_normalTurn hnil htrap).mono fun x hx => hx.mono ?_ fun _ ha => ha
  intro u hgoes
  exact ⟨hgoes, by rw [hgoes.modeStack]; exact hnil⟩

theorem Sound.holds_lexerProcessOneNormalToken (h : Sound lx)
    (hmode : lx.lexerCurrentMode = .normal)
    (hsafe : ∀ t, Visits normalTurn lx t → ¬ NormalTrap t) :
    Holds (Answered lx) lx.lexerProcessOneNormalToken :=
  holds_loop (l := id) (K := fun t => t.modeStack = []) (S := fun t => ¬ NormalTrap t)
    (fun _ ht hnil htrap => ht.holds_normalTurn_nil hnil htrap) h (h.modeStack_eq_nil hmode) hsafe
    (Nat.lt_succ_self _)

end Migash.Lexer
