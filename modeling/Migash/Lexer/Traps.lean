import Migash.Lexer.NormalTotal

/-! # What happens at a trap

The turns at the states that `NormalTrap`, `LastIs` and `DocumentEnds`
describe: they break a contract, or report that the input is incomplete and
leave the lexer where it was.
-/

namespace Migash.Lexer

open Library

variable {lx : Lexer}

/-! ## Quotes and substitutions -/

theorem LastIs.pos {chars : List Char} (h : LastIs chars lx) : lx.pos < lx.input.length := by
  have := h.2
  omega

theorem LastIs.not_atEnd {chars : List Char} (h : LastIs chars lx) :
    ¬ lx.lexerAtEnd = true := by
  rw [lexerAtEnd_iff]
  have := h.2
  omega

theorem LastIs.next {chars : List Char} (h : LastIs chars lx) : lx.lexerPeekAhead 1 = nul :=
  lexerPeekAhead_of_le (by have := h.2; omega)

theorem dquoteTurn_last (h : LastIs [backslash, '$'] lx) :
    dquoteTurn lx = .ok (.done (.incomplete, lx)) := by
  have hc : lx.lexerPeek = backslash ∨ lx.lexerPeek = '$' := by simpa using h.1
  rcases hc with hc | hc
  · simp +decide [dquoteTurn, h.not_atEnd, hc, h.next]
    rfl
  · simp +decide [dquoteTurn, h.not_atEnd, hc, h.next]
    rfl

theorem parenTurn_last {s : ParenScan} (h : LastIs [backslash] s.lx) :
    parenTurn s = .ok (.done (.incomplete, s.lx)) := by
  have hc : s.lx.lexerPeek = backslash := by simpa using h.1
  simp +decide [parenTurn, h.not_atEnd, hc, h.next]
  rfl

theorem backtickTurn_last {s : TextScan} (h : LastIs [backslash] s.lx) :
    backtickTurn s = .ok (.done (.incomplete, s.lx)) := by
  have hc : s.lx.lexerPeek = backslash := by simpa using h.1
  simp +decide [backtickTurn, h.not_atEnd, hc, h.next]
  rfl

/-! ## Here-documents -/

/-- At the end of the input the loop still advances. -/
theorem readLine_breaks (entry : HeredocEntry) {s : TextScan}
    (h : s.lx.input.length ≤ s.lx.pos) : Breaks (readLine entry s) := by
  have hpeek : s.lx.lexerPeek = nul := lexerPeekAhead_of_le (by omega)
  have hpos : ¬ s.lx.pos < s.lx.input.length := by omega
  simp +decide [Breaks, readLine, hpeek, hpos]

theorem heredocTurn_breaks {entry : HeredocEntry} (hdelim : entry.delimiter ≠ []) {s : TextScan}
    (hinside : s.lx.pos ≤ s.lx.input.length) (h : DocumentEnds entry s.lx) :
    Breaks (heredocTurn entry s) := by
  obtain ⟨lx, text⟩ := s
  dsimp only at hinside h
  obtain ⟨hpos, hends⟩ := h
  obtain ⟨n, hskip, hn⟩ := skipTabs_eq hinside entry
  have hend : ¬ lx.lexerAtEnd = true := by
    rw [lexerAtEnd_iff]
    omega
  rw [hskip, advancedBy_pos] at hends
  unfold Breaks heredocTurn
  dsimp only
  rw [if_neg hend, hskip, holds_bind]
  unfold lexerCheckHeredocDelimiter
  rcases hends with hends | hends
  · have hnone : (lx.advancedBy n).delimiterEnd? entry = none := by
      cases hat : (lx.advancedBy n).delimiterEnd? entry with
      | none => rfl
      | some pos =>
        have := delimiterEnd?_bounds hdelim hat
        simp only [advancedBy_pos, advancedBy_input] at this
        omega
    have hread := readLine_breaks entry (s := { lx := lx.advancedBy n, text })
      (by simp [hends])
    simpa [hnone, Breaks] using hread
  · have hread := readLine_breaks entry
      (s := { lx := (lx.advancedBy n).advancedBy (lx.input.length - (lx.pos + n)), text })
      (by simp; omega)
    have hle : lx.pos + n + (lx.input.length - (lx.pos + n)) ≤ lx.input.length := by omega
    simpa [hends, hle, Breaks] using hread

/-! ## The normal mode -/

theorem not_startsWith (hpos : lx.pos < lx.input.length) {c : Char} {text : List Char}
    (hc : lx.lexerPeek ≠ c) : lx.lexerInputStartsWith (c :: text) = false := by
  unfold lexerInputStartsWith
  rw [rest_eq_cons hpos, List.isPrefixOf_cons_cons]
  simp [Ne.symm hc]

/-- What neither a brace nor an operator starts with is read as a character where no number of a
redirection stands. -/
theorem redirectionTurn_of_ioNumber?_none (hpos : lx.pos < lx.input.length)
    (hnumber : lx.ioNumber? = none) (hbrace : lx.lexerPeek ≠ lbrace)
    (hmeta : lexerIsMetachar lx.lexerPeek = false) : lx.redirectionTurn = lx.characterTurn := by
  have hbraced : lx.bracedIoLocation? = none := by
    unfold bracedIoLocation?
    rw [rest_eq_cons hpos]
    dsimp only
    split
    · rw [if_neg]
      exact fun hcond => hbrace hcond.1
    · rfl
  simp only [lexerIsMetachar, List.contains_eq_mem, List.mem_cons, List.not_mem_nil, or_false,
    decide_eq_false_iff_not, not_or] at hmeta
  obtain ⟨hpipe, hamp, hsemi, hlparen, hrparen, hless, hgreater⟩ := hmeta
  have hop : lx.matchOperator? = none := by
    simp [matchOperator?, normalModeOperators, not_startsWith hpos, hpipe, hamp, hsemi, hlparen,
      hrparen, hless, hgreater]
  unfold redirectionTurn
  rw [hnumber, hbraced]
  dsimp only
  unfold operatorTurn
  rw [tryProcessHeredoc_eq hnumber]
  simp [processOperator, not_startsWith hpos hless, hop]

/-- No digit starts a number. -/
theorem redirectionTurn_eq_characterTurn (hpos : lx.pos < lx.input.length)
    (hdigit : lx.lexerPeek.isDigit = false) (hbrace : lx.lexerPeek ≠ lbrace)
    (hmeta : lexerIsMetachar lx.lexerPeek = false) : lx.redirectionTurn = lx.characterTurn :=
  redirectionTurn_of_ioNumber?_none hpos (by simp [ioNumber?, integerBeforeRedirection?, hdigit])
    hbrace hmeta

/-- In a word a `#` is taken for the start of another. -/
theorem normalTurn_hash_breaks (hword : lx.inWord = true) (hc : lx.lexerPeek = '#') :
    Breaks lx.normalTurn := by
  have hpos := pos_lt_of_peek hc (by decide)
  have hend : ¬ lx.lexerAtEnd = true := by rw [lexerAtEnd_iff]; omega
  have hturn := redirectionTurn_eq_characterTurn hpos (by rw [hc]; decide) (by rw [hc]; decide)
    (by rw [hc]; decide)
  have hstart : Breaks lx.lexerStartWord := by
    unfold Breaks lexerStartWord
    split_ifs
    all_goals simp_all
  unfold Breaks at hstart ⊢
  simp +decide [normalTurn, hend, hc, hturn, characterTurn, hword]
  exact fun hholds => hstart (hholds.mono fun _ _ => trivial)

theorem normalTurn_last (h : LastIs [backslash, '$'] lx) :
    lx.normalTurn = .ok (.done (.incomplete, lx)) := by
  have hc : lx.lexerPeek = backslash ∨ lx.lexerPeek = '$' := by simpa using h.1
  rcases hc with hc | hc
  · have hturn := redirectionTurn_eq_characterTurn h.pos (by rw [hc]; decide) (by rw [hc]; decide)
      (by rw [hc]; decide)
    simp +decide [normalTurn, h.not_atEnd, hc, h.next, hturn, characterTurn]
    rfl
  · have hturn := redirectionTurn_eq_characterTurn h.pos (by rw [hc]; decide) (by rw [hc]; decide)
      (by rw [hc]; decide)
    simp +decide [normalTurn, h.not_atEnd, hc, h.next, hturn, characterTurn]
    rfl

theorem normalTurn_number_breaks (h : Sound lx)
    (hword : lx.inWord = true) (hnumber : lx.ioNumber? ≠ none) : Breaks lx.normalTurn := by
  obtain ⟨tok, htok⟩ := h.currentToken hword
  obtain ⟨⟨value, digits⟩, hsome⟩ := Option.ne_none_iff_exists'.mp hnumber
  have hdigit : lx.lexerPeek.isDigit = true := by
    unfold ioNumber? at hsome
    split_ifs at hsome
    simp only [integerBeforeRedirection?] at hsome
    split_ifs at hsome with hcond
    exact hcond.1
  have hpos : lx.pos < lx.input.length := by
    by_contra hle
    rw [lexerPeek, lexerPeekAhead_of_le (by omega)] at hdigit
    exact absurd hdigit (by decide)
  have hend : ¬ lx.lexerAtEnd = true := by rw [lexerAtEnd_iff]; omega
  have hne : ∀ c : Char, c.isDigit = false → lx.lexerPeek ≠ c := by
    intro c hc heq
    rw [heq, hc] at hdigit
    cases hdigit
  simp [Breaks, normalTurn, hend, hne _ (show backslash.isDigit = false by decide),
    hne _ (show ' '.isDigit = false by decide), hne _ (show tab.isDigit = false by decide),
    hne _ (show newline.isDigit = false by decide), redirectionTurn, hsome,
    lexerEmitIoNumberToken, htok]

/-- A here-document operator that is read from the state it starts in. -/
theorem normalTurn_eq_operatorTurn (hstart : lx.lexerInputStartsWith ['<', '<'] = true) :
    lx.normalTurn = lx.operatorTurn ∧ lx.ioNumber? = none := by
  have hpos : lx.pos < lx.input.length := by
    have := (List.isPrefixOf_iff_prefix.mp hstart).length_le
    rw [rest_length] at this
    simp only [List.length_cons, List.length_nil] at this
    omega
  have hc : lx.lexerPeek = '<' := by
    by_contra hne
    rw [not_startsWith hpos hne] at hstart
    cases hstart
  have hend : ¬ lx.lexerAtEnd = true := by rw [lexerAtEnd_iff]; omega
  have hnumber : lx.ioNumber? = none := by
    simp +decide [ioNumber?, integerBeforeRedirection?, hc]
  have hbraced : lx.bracedIoLocation? = none := by
    unfold bracedIoLocation?
    rw [rest_eq_cons hpos, hc]
    dsimp only
    split
    · rw [if_neg]
      exact fun hcond => absurd hcond.1 (by decide)
    · rfl
  refine ⟨?_, hnumber⟩
  simp +decide [normalTurn, hend, hc, redirectionTurn, hnumber, hbraced]

theorem normalTurn_heredoc_breaks (h : Sound lx) (hword : lx.inWord = true)
    (hstart : lx.lexerInputStartsWith ['<', '<'] = true) : Breaks lx.normalTurn := by
  obtain ⟨tok, htok⟩ := h.currentToken hword
  obtain ⟨hturn, hnumber⟩ := normalTurn_eq_operatorTurn hstart
  rw [hturn]
  unfold operatorTurn
  rw [tryProcessHeredoc_eq hnumber]
  simp [Breaks, processOperator, hstart, htok]

/-- An empty delimiter is emitted as a word with an empty literal. -/
theorem processDelimiter_breaks {stripTabs : Bool}
    (herror : (getHeredocDelimiter lx.rest).error = none)
    (htext : (getHeredocDelimiter lx.rest).text = []) : Breaks (lx.processDelimiter stripTabs) := by
  have happend : ∀ t : Lexer, Breaks (t.lexerAppendLiteralCstrToWord []) := by
    intro t
    simp [Breaks, lexerAppendLiteralCstrToWord]
  unfold Breaks at happend ⊢
  unfold processDelimiter
  dsimp only
  rw [herror, htext]
  dsimp only
  rw [holds_bind]
  rintro ⟨t, -, ht⟩
  rw [holds_bind] at ht
  exact happend t (ht.mono fun _ _ => trivial)

theorem normalTurn_empty_breaks (h : EmptyDelimiter lx) : Breaks lx.normalTurn := by
  obtain ⟨hstart, herror, htext⟩ := h
  obtain ⟨hturn, hnumber⟩ := normalTurn_eq_operatorTurn hstart
  have hread : ∀ (t : Lexer) (stripTabs : Bool), t.rest = lx.delimiterText →
      Breaks (t.processDelimiter stripTabs) := by
    intro t stripTabs hrest
    refine processDelimiter_breaks ?_ ?_
    · rw [hrest, herror]
    · rw [hrest, htext]
  rw [hturn]
  unfold operatorTurn
  rw [tryProcessHeredoc_eq hnumber]
  intro hholds
  rw [holds_bind] at hholds
  have hholds := hholds.mono (Q := fun _ => True) fun _ _ => trivial
  unfold processOperator at hholds
  simp only [hstart, Bool.not_true, Bool.false_eq_true, if_false, holds_bind,
    holds_lexerAdvanceNChars, holds_ite, holds_lexerAdvance, holds_lexerEmitToken] at hholds
  obtain ⟨-, hholds⟩ := hholds
  split_ifs at hholds with hdash
  · exact hread _ _ (rest_afterDash hdash) hholds.2.2
  · exact hread _ _ (rest_afterNoDash hdash) hholds.2

/-- A trap of the normal mode: a contract is broken, or a location is emitted in a word, or the
call ends where it is. -/
theorem NormalTrap.turn (h : Sound lx) (htrap : NormalTrap lx) :
    Breaks lx.normalTurn ∨ lx.currentToken ≠ none ∧ lx.bracedIoLocation? ≠ none ∨
      LastIs [backslash, '$'] lx := by
  rcases htrap with ⟨hword, hhash | hnumber | hbraced | hstart⟩ | hempty | hlast
  · exact .inl (normalTurn_hash_breaks hword hhash)
  · exact .inl (normalTurn_number_breaks h hword hnumber)
  · obtain ⟨tok, htok⟩ := h.currentToken hword
    exact .inr (.inl ⟨by rw [htok]; simp, hbraced⟩)
  · exact .inl (normalTurn_heredoc_breaks h hword hstart)
  · exact .inl (normalTurn_empty_breaks hempty)
  · exact .inr (.inr hlast)

end Migash.Lexer
