import Migash.Lexer.Sound

/-! # The calls of the modes answer

Quotes and expansions: every turn of their loops advances, and only a backslash
or a dollar sign at the very end of the input is not consumed.
-/

namespace Migash.Lexer

open Library

variable {lx : Lexer}

theorem pos_lt_of_not_atEnd (h : ¬ lx.lexerAtEnd = true) : lx.pos < lx.input.length := by
  rw [lexerAtEnd_iff] at h
  omega

/-- The next character is the last one of the input, and one of `chars`. -/
def LastIs (chars : List Char) (lx : Lexer) : Prop :=
  lx.lexerPeek ∈ chars ∧ lx.pos + 1 = lx.input.length

instance (chars : List Char) (lx : Lexer) : Decidable (LastIs chars lx) :=
  inferInstanceAs (Decidable (_ ∧ _))

theorem lexerPeekAhead_of_le {n : ℕ} (h : lx.input.length ≤ lx.pos + n) :
    lx.lexerPeekAhead n = nul := by
  unfold lexerPeekAhead
  rw [List.getD_eq_getElem?_getD, List.getElem?_eq_none h]
  rfl

/-- Only at the end of the input a NUL is read. -/
theorem Sound.lexerPeekAhead_eq_nul (h : Sound lx) {n : ℕ} :
    lx.lexerPeekAhead n = nul ↔ lx.input.length ≤ lx.pos + n := by
  constructor
  · intro heq
    by_contra hlt
    apply h.text
    have hmem := List.getElem_mem (l := lx.input) (n := lx.pos + n) (by omega)
    rw [← heq, lexerPeekAhead, List.getD_eq_getElem?_getD, List.getElem?_eq_getElem (by omega),
      Option.getD_some]
    exact hmem
  · exact lexerPeekAhead_of_le

theorem Sound.next_ne_nul (h : Sound lx) {chars : List Char} (hlast : ¬ LastIs chars lx)
    (hmem : lx.lexerPeek ∈ chars) (hpos : lx.pos < lx.input.length) :
    lx.lexerPeekAhead 1 ≠ nul ∧ lx.pos + 1 < lx.input.length := by
  have hne : lx.pos + 1 ≠ lx.input.length := fun heq => hlast ⟨hmem, heq⟩
  refine ⟨?_, by omega⟩
  rw [Ne, h.lexerPeekAhead_eq_nul]
  omega

/-! ## Quotes -/

/-- A turn of a loop that builds a word. -/
abbrev TurnsInWord (lx : Lexer) : Next Lexer Answer → Prop :=
  Next.Either (fun t => Goes lx t ∧ t.inWord = true) (Answered lx)

theorem Sound.holds_squoteTurn (h : Sound lx) (hword : lx.inWord = true) :
    Holds (TurnsInWord lx) (squoteTurn lx) := by
  obtain ⟨tok, htok⟩ := h.currentToken hword
  unfold squoteTurn
  by_cases hend : lx.lexerAtEnd = true
  · simpa [hend] using h.answered_end hend
  have hpos := pos_lt_of_not_atEnd hend
  by_cases hc : lx.lexerPeek = squote
  · simpa [hend, hc, hpos] using
      (h.goes (t := lx.advanced) hword (by constructor <;> simp; omega) (by simp [*])).1.answered_pop
        (by simp [hword])
  · simpa [hend, hc, hpos, htok] using
      h.goes (t := advanced { lx with currentToken := some _ }) hword
        (by constructor <;> simp; omega) (by simp [*])

theorem Sound.holds_startQuoted (h : Sound lx) (hmode : lx.lexerCurrentMode ≠ .heredocBody) :
    Holds (Started lx) lx.startQuoted := by
  unfold startQuoted
  rw [holds_bind]
  refine (h.holds_ensureWord hmode).mono fun lx₁ hstarted => ?_
  obtain ⟨tok, htok⟩ := hstarted.sound.currentToken hstarted.inWord
  rw [holds_onWord]
  refine ⟨tok, htok, ?_⟩
  exact {
    sound := hstarted.sound.congr rfl hstarted.sound.inside rfl rfl (by simp [htok]) rfl rfl
    inWord := hstarted.inWord
    input := hstarted.input
    pos := hstarted.pos
    modeStack := hstarted.modeStack
    tokens := hstarted.tokens }

theorem Started.answered {lx' : Lexer} {answer : Answer} (h : Started lx lx')
    (ha : Answered lx' answer) : Answered lx answer where
  sound := ha.sound
  status := ha.status
  input := ha.input.trans h.input
  pos_le := by rw [← h.pos]; exact ha.pos_le
  progress := by rw [← h.pos, ← h.tokens]; exact ha.progress

theorem Sound.holds_lexerProcessSquote (h : Sound lx)
    (hmode : lx.lexerCurrentMode ≠ .heredocBody) : Holds (Answered lx) lx.lexerProcessSquote := by
  unfold lexerProcessSquote
  rw [holds_bind]
  refine (h.holds_startQuoted hmode).mono fun lx₁ hstarted => ?_
  refine (holds_loop (l := id) (K := fun t => t.inWord = true) (S := fun _ => True)
    (fun t ht hword _ => ht.holds_squoteTurn hword) hstarted.sound hstarted.inWord
    (fun _ _ => trivial) (Nat.lt_succ_self _)).mono fun answer => hstarted.answered

@[simp] theorem quotedIn_type (lx : Lexer) (part : Part) : (lx.quotedIn part).type = part.type := by
  rw [quotedIn]
  split <;> rfl

/-- What follows a dollar sign opens one of the expansions. -/
theorem expansionAt?_eq_some {canStart : Char → Bool} {mode : LexMode} {n : ℕ}
    (h : lx.expansionAt? canStart = some (mode, n)) :
    mode ≠ .normal ∧ mode ≠ .heredocBody ∧ 0 < n ∧
      (n ≤ 2 ∨ n = 3 ∧ lx.lexerPeekAhead 2 = '(') := by
  simp only [expansionAt?] at h
  split_ifs at h with h₁ h₂ h₃ h₄
  · cases h
    exact ⟨by decide, by decide, by decide, .inl (by decide)⟩
  · cases h
    exact ⟨by decide, by decide, by decide, .inr ⟨rfl, h₂.2⟩⟩
  · cases h
    exact ⟨by decide, by decide, by decide, .inl (by decide)⟩
  · cases h
    exact ⟨by decide, by decide, by decide, .inl (by decide)⟩

theorem Sound.answered_expansion (h : Sound lx)
    (hstack : ∀ mode ∈ lx.modeStack, mode = .doubleQuote) {canStart : Char → Bool}
    {mode : LexMode} {n : ℕ} (hat : lx.expansionAt? canStart = some (mode, n))
    (hpos : lx.pos + 1 < lx.input.length) :
    lx.pos + n ≤ lx.input.length ∧
      Answered lx (.incomplete, (lx.lexerPushMode mode).advancedBy n) := by
  obtain ⟨hnormal, hheredoc, hn, hbound⟩ := expansionAt?_eq_some hat
  have hle : lx.pos + n ≤ lx.input.length := by
    rcases hbound with hbound | ⟨rfl, hopen⟩
    · omega
    · by_contra hlt
      rw [lexerPeekAhead_of_le (by omega)] at hopen
      exact absurd hopen (by decide)
  exact ⟨hle, h.answered_enter hstack hnormal hheredoc hn hle⟩

theorem Sound.holds_dquoteTurn (h : Sound lx) (hword : lx.inWord = true)
    (hstack : ∀ mode ∈ lx.modeStack, mode = .doubleQuote)
    (hlast : ¬ LastIs [backslash, '$'] lx) : Holds (TurnsInWord lx) (dquoteTurn lx) := by
  obtain ⟨tok, htok⟩ := h.currentToken hword
  unfold dquoteTurn lexerAppendDquoteCharToWord
  by_cases hend : lx.lexerAtEnd = true
  · simpa [hend] using h.answered_end hend
  have hpos := pos_lt_of_not_atEnd hend
  have hplain : Goes lx (advanced { lx with
      currentToken := some (tok.appendChar false true lx.lexerPeek) }) ∧ _ :=
    h.goes (t := advanced { lx with currentToken := some _ }) hword
      (by constructor <;> simp; omega) (by simp [*])
  by_cases hc : lx.lexerPeek = dquote
  · simpa [hend, hc, hpos] using
      (h.goes (t := lx.advanced) hword (by constructor <;> simp; omega) (by simp [*])).1.answered_pop
        (by simp [hword])
  by_cases hb : lx.lexerPeek = backslash
  · obtain ⟨hnext, hpos₂⟩ := h.next_ne_nul hlast (by simp [hb]) hpos
    by_cases hesc : isDquoteEscapable (lx.lexerPeekAhead 1) = true
    · by_cases hnl : lx.lexerPeekAhead 1 = newline
      · have hgoes := h.goes (t := lx.advanced.advanced) hword
          (by constructor <;> simp <;> omega) (by simp [*])
        by_cases hend₂ : lx.advanced.advanced.lexerAtEnd = true
        · simpa +decide [hend, hb, hpos, hnl, hpos₂, hend₂] using hgoes.1.answered_incomplete
        · simpa +decide [hend, hb, hpos, hnl, hpos₂, hend₂] using hgoes
      · simpa +decide [hend, hb, hpos, hnext, hnl, hpos₂, hesc, htok] using
          h.goes (t := advanced { lx.advanced with currentToken := some _ }) hword
            (by constructor <;> simp <;> omega) (by simp [*])
    · simpa +decide [hend, hb, hpos, hnext, hpos₂, hesc, htok] using
        h.goes (t := advanced { lx.advanced with currentToken := some _ }) hword
          (by constructor <;> simp <;> omega) (by simp [*])
  by_cases hq : lx.lexerPeek = backtick
  · simpa +decide [hend, hq, hpos] using
      And.intro (show lx.pos + 1 ≤ lx.input.length from hpos)
        (h.answered_enter hstack (show LexMode.cmdSubstBacktick ≠ .normal by decide) (by decide)
          Nat.one_pos
          hpos)
  by_cases hd : lx.lexerPeek = '$'
  · obtain ⟨hnext, hpos₂⟩ := h.next_ne_nul hlast (by simp [hd]) hpos
    cases hat : lx.expansionAt? fun c => isNameStartChar c || isSpecialParamChar c with
    | none => simpa +decide [hend, hd, hpos, hnext, hat, htok] using hplain
    | some found =>
      obtain ⟨mode, n⟩ := found
      simpa +decide [hend, hd, hpos, hnext, hat] using
        h.answered_expansion hstack hat hpos₂
  · simpa [hend, hc, hb, hq, hd, hpos, htok] using hplain

/-- In double quotes every mode of the stack is one. -/
theorem Sound.doubleQuote_stack (h : Sound lx) (hmode : lx.lexerCurrentMode = .doubleQuote) :
    ∀ mode ∈ lx.modeStack, mode = .doubleQuote := by
  intro mode hmem
  cases hst : lx.modeStack with
  | nil =>
    rw [hst] at hmem
    cases hmem
  | cons top stack =>
    have htop : top = .doubleQuote := by simpa [lexerCurrentMode, hst] using hmode
    have hbelow := h.below
    rw [hst] at hmem hbelow
    rcases List.mem_cons.mp hmem with rfl | hmem
    · exact htop
    · exact hbelow mode hmem

/-- The state of the lexer in the loop of the double quotes. -/
def InDquotes (lx : Lexer) : Prop :=
  lx.inWord = true ∧ ∀ mode ∈ lx.modeStack, mode = .doubleQuote

theorem Sound.holds_dquoteTurn_inDquotes (h : Sound lx) (hin : InDquotes lx)
    (hlast : ¬ LastIs [backslash, '$'] lx) :
    Holds (Next.Either (fun t => Goes lx t ∧ InDquotes t) (Answered lx)) (dquoteTurn lx) := by
  refine (h.holds_dquoteTurn hin.1 hin.2 hlast).mono fun x hx => hx.mono ?_ fun _ ha => ha
  rintro u ⟨hgoes, hu⟩
  exact ⟨hgoes, hu, by rw [hgoes.modeStack]; exact hin.2⟩

theorem Sound.holds_lexerProcessDquote (h : Sound lx)
    (hmode : lx.lexerCurrentMode = .doubleQuote)
    (hsafe : ∀ u t, lx.startQuoted = .ok u → Visits dquoteTurn u t →
      ¬ LastIs [backslash, '$'] t) : Holds (Answered lx) lx.lexerProcessDquote := by
  have hstack := h.doubleQuote_stack hmode
  obtain ⟨lx₁, hrun, hstarted⟩ := h.holds_startQuoted (by rw [hmode]; decide)
  unfold lexerProcessDquote
  rw [holds_bind]
  refine ⟨lx₁, hrun, ?_⟩
  exact (holds_loop (l := id) (K := InDquotes) (S := fun t => ¬ LastIs [backslash, '$'] t)
    (fun t ht hin hlast => ht.holds_dquoteTurn_inDquotes hin hlast) hstarted.sound
    ⟨hstarted.inWord, by rw [hstarted.modeStack]; exact hstack⟩
    (fun t ht => hsafe lx₁ t hrun ht) (Nat.lt_succ_self _)).mono fun answer => hstarted.answered

/-! ## Command substitutions -/

theorem Sound.holds_closeExpansion {lx lx' : Lexer} (h : Goes lx lx' ∧ lx'.inWord = true)
    {type : PartType} {text : List Char} :
    Holds (fun t => Answered lx (.ok, t)) (lx'.closeExpansion type text) := by
  obtain ⟨hgoes, hword⟩ := h
  obtain ⟨tok, htok⟩ := hgoes.sound.currentToken hword
  unfold closeExpansion
  rw [holds_bind, holds_onWord]
  refine ⟨tok, htok, ?_⟩
  rw [holds_pure]
  refine Goes.answered_pop (b := { lx' with currentToken := some _ }) ?_ hword
  exact {
    sound := hgoes.sound.congr rfl hgoes.sound.inside rfl rfl (by simp [htok]) rfl rfl
    input := hgoes.input
    modeStack := hgoes.modeStack
    pos := hgoes.pos
    noEof := hgoes.noEof }

theorem Sound.holds_parenTurn {s : ParenScan} (h : Sound s.lx) (hword : s.lx.inWord = true)
    (hlast : ¬ LastIs [backslash] s.lx) :
    Holds (Next.Either (fun t => Goes s.lx t.lx ∧ t.lx.inWord = true) (Answered s.lx))
      (parenTurn s) := by
  obtain ⟨lx, start, depth⟩ := s
  dsimp only at h hword hlast
  obtain ⟨tok, htok⟩ := h.currentToken hword
  unfold parenTurn
  by_cases hend : lx.lexerAtEnd = true
  · simpa [hend] using h.answered_end hend
  have hpos := pos_lt_of_not_atEnd hend
  have hone := h.goes (t := lx.advanced) hword
    (by constructor <;> simp; omega) (by simp [*])
  by_cases hc : lx.lexerPeek = ')' ∧ depth = 1
  · simpa [hend, hc, hpos] using Sound.holds_closeExpansion hone
  by_cases hb : lx.lexerPeek = backslash
  · obtain ⟨hnext, hpos₂⟩ := h.next_ne_nul hlast (by simp [hb]) hpos
    by_cases hnl : lx.lexerPeekAhead 1 = newline
    · have hgoes := h.goes (t := lx.advanced.advanced.countLine) hword
        (by constructor <;> simp <;> omega) (by simp [*])
      by_cases hend₂ : lx.advanced.advanced.countLine.lexerAtEnd = true
      · simpa +decide [hend, hb, hpos, hnl, hpos₂, hend₂] using hgoes.1.answered_incomplete
      · simpa +decide [hend, hb, hpos, hnl, hpos₂, hend₂] using hgoes
    · simpa +decide [hend, hb, hpos, hnext, hnl, hpos₂] using
        h.goes (t := lx.advanced.advanced) hword
          (by constructor <;> simp <;> omega) (by simp [*])
  · simpa +decide [hend, hb, hc, hpos] using hone

/-- The input is the same and the loop starts at the same place. -/
theorem Sound.holds_lexerProcessCmdSubstParen (h : Sound lx)
    (hmode : lx.lexerCurrentMode ≠ .heredocBody)
    (hsafe : ∀ u t, lx.ensureWord = .ok u →
      Visits parenTurn { lx := u, startPos := u.pos } t → ¬ LastIs [backslash] t.lx) :
    Holds (Answered lx) lx.lexerProcessCmdSubstParen := by
  obtain ⟨lx₁, hrun, hstarted⟩ := h.holds_ensureWord hmode
  unfold lexerProcessCmdSubstParen
  rw [holds_bind]
  refine ⟨lx₁, hrun, ?_⟩
  exact (holds_loop (l := ParenScan.lx) (K := fun t => t.lx.inWord = true)
    (S := fun t => ¬ LastIs [backslash] t.lx)
    (fun t ht hword hlast => ht.holds_parenTurn hword hlast)
    (s := { lx := lx₁, startPos := lx₁.pos }) hstarted.sound hstarted.inWord
    (fun t ht => hsafe lx₁ t hrun ht) (Nat.lt_succ_self _)).mono fun answer => hstarted.answered

theorem Sound.holds_backtickTurn {s : TextScan} (h : Sound s.lx) (hword : s.lx.inWord = true)
    (hlast : ¬ LastIs [backslash] s.lx) :
    Holds (Next.Either (fun t => Goes s.lx t.lx ∧ t.lx.inWord = true) (Answered s.lx))
      (backtickTurn s) := by
  obtain ⟨lx, text⟩ := s
  dsimp only at h hword hlast
  obtain ⟨tok, htok⟩ := h.currentToken hword
  unfold backtickTurn
  by_cases hend : lx.lexerAtEnd = true
  · simpa [hend] using h.answered_end hend
  have hpos := pos_lt_of_not_atEnd hend
  have hone := h.goes (t := lx.advanced) hword
    (by constructor <;> simp; omega) (by simp [*])
  by_cases hc : lx.lexerPeek = backtick
  · simpa [hend, hc, hpos] using Sound.holds_closeExpansion hone
  by_cases hb : lx.lexerPeek = backslash
  · obtain ⟨hnext, hpos₂⟩ := h.next_ne_nul hlast (by simp [hb]) hpos
    have htwo := h.goes (t := lx.advanced.advanced) hword
      (by constructor <;> simp <;> omega) (by simp [*])
    by_cases hnl : lx.lexerPeekAhead 1 = newline
    · have hgoes := h.goes (t := lx.advanced.advanced.countLine) hword
        (by constructor <;> simp <;> omega) (by simp [*])
      by_cases hend₂ : lx.advanced.advanced.countLine.lexerAtEnd = true
      · simpa +decide [hend, hb, hpos, hnl, hpos₂, hend₂] using hgoes.1.answered_incomplete
      · simpa +decide [hend, hb, hpos, hnl, hpos₂, hend₂] using hgoes
    · simpa +decide [hend, hb, hpos, hnext, hnl, hpos₂] using htwo
  · simpa +decide [hend, hb, hc, hpos] using hone

theorem Sound.holds_lexerProcessCmdSubstBacktick (h : Sound lx)
    (hmode : lx.lexerCurrentMode ≠ .heredocBody)
    (hsafe : ∀ u t, lx.ensureWord = .ok u → Visits backtickTurn { lx := u } t →
      ¬ LastIs [backslash] t.lx) :
    Holds (Answered lx) lx.lexerProcessCmdSubstBacktick := by
  obtain ⟨lx₁, hrun, hstarted⟩ := h.holds_ensureWord hmode
  unfold lexerProcessCmdSubstBacktick
  rw [holds_bind]
  refine ⟨lx₁, hrun, ?_⟩
  exact (holds_loop (l := TextScan.lx) (K := fun t => t.lx.inWord = true)
    (S := fun t => ¬ LastIs [backslash] t.lx)
    (fun t ht hword hlast => ht.holds_backtickTurn hword hlast)
    (s := { lx := lx₁ }) hstarted.sound hstarted.inWord
    (fun t ht => hsafe lx₁ t hrun ht) (Nat.lt_succ_self _)).mono fun answer => hstarted.answered

/-! ## Arithmetic expansions -/

theorem Sound.holds_arithTurn {s : ArithScan} (h : Sound s.lx) (hword : s.lx.inWord = true) :
    Holds (Next.Either (fun t => Goes s.lx t.lx ∧ t.lx.inWord = true) (Answered s.lx))
      (arithTurn s) := by
  obtain ⟨⟨lx, text⟩, stack⟩ := s
  dsimp only at h hword
  obtain ⟨tok, htok⟩ := h.currentToken hword
  unfold arithTurn
  by_cases hend : lx.lexerAtEnd = true
  · simpa [hend] using h.answered_end hend
  have hpos := pos_lt_of_not_atEnd hend
  have hone := h.goes (t := lx.advanced) hword
    (by constructor <;> simp; omega) (by simp [*])
  -- A character that is read cannot be the one beyond the end.
  have hnext : ∀ c, c ≠ nul → lx.lexerPeekAhead 1 = c → lx.pos + 1 < lx.input.length := by
    intro c hc heq
    by_contra hlt
    exact hc (heq ▸ lexerPeekAhead_of_le (by omega))
  have htwo : lx.pos + 1 < lx.input.length →
      Goes lx lx.advanced.advanced ∧ lx.advanced.advanced.inWord = true := fun hpos₂ =>
    h.goes (t := lx.advanced.advanced) hword
      (by constructor <;> simp <;> omega) (by simp [*])
  by_cases hc : lx.lexerPeek = ')' ∧ stack = []
  · by_cases hclose : lx.lexerPeekAhead 1 = ')'
    · have hpos₂ := hnext ')' (by decide) hclose
      simpa [hend, hc, hpos, hclose, hpos₂] using Sound.holds_closeExpansion (htwo hpos₂)
    by_cases hnul : lx.lexerPeekAhead 1 = nul
    · simpa +decide [hend, hc, hclose, hnul] using h.answered_error _
    · simpa [hend, hc, hclose, hnul] using h.answered_error _
  by_cases ho : lx.lexerPeek = '(' ∨ lx.lexerPeek = lbrace
  · rcases ho with ho | ho
    · simpa +decide [hend, ho, hpos] using hone
    · simpa +decide [hend, ho, hpos] using hone
  by_cases hcl : lx.lexerPeek = ')' ∨ lx.lexerPeek = rbrace
  · cases stack with
    | nil =>
      have hne : lx.lexerPeek ≠ ')' := fun heq => hc ⟨heq, rfl⟩
      simpa +decide [hend, hcl.resolve_left hne] using h.answered_error _
    | cons opening stack =>
      by_cases hbad : opening = '(' ∧ lx.lexerPeek ≠ ')' ∨ opening = lbrace ∧ lx.lexerPeek ≠ rbrace
      · simpa [hend, hc, ho, hcl, hbad] using h.answered_error _
      · simpa [hend, hc, ho, hcl, hbad, hpos] using hone
  by_cases hb : lx.lexerPeek = backslash ∧ (lx.lexerPeekAhead 1 = '$' ∨
      lx.lexerPeekAhead 1 = backtick ∨ lx.lexerPeekAhead 1 = backslash)
  · have hpos₂ : lx.pos + 1 < lx.input.length := by
      rcases hb.2 with heq | heq | heq
      · exact hnext _ (by decide) heq
      · exact hnext _ (by decide) heq
      · exact hnext _ (by decide) heq
    simpa +decide [hend, hb.1, hb.2, hpos, hpos₂] using htwo hpos₂
  by_cases hn : lx.lexerPeek = backslash ∧ lx.lexerPeekAhead 1 = newline
  · have hpos₂ := hnext newline (by decide) hn.2
    simpa +decide [hend, hn.1, hn.2, hpos, hpos₂] using htwo hpos₂
  by_cases hd : lx.lexerPeek = '$' ∧ (lx.lexerPeekAhead 1 = '(' ∨ lx.lexerPeekAhead 1 = lbrace)
  · have hpos₂ : lx.pos + 1 < lx.input.length := by
      rcases hd.2 with heq | heq
      · exact hnext _ (by decide) heq
      · exact hnext _ (by decide) heq
    simpa +decide [hend, hd.1, hd.2, hpos, hpos₂] using htwo hpos₂
  · simpa [hend, hc, ho, hcl, hb, hn, hd, hpos] using hone

theorem Sound.holds_lexerProcessArithExp (h : Sound lx)
    (hmode : lx.lexerCurrentMode ≠ .heredocBody) :
    Holds (Answered lx) lx.lexerProcessArithExp := by
  unfold lexerProcessArithExp
  rw [holds_bind]
  refine (h.holds_ensureWord hmode).mono fun lx₁ hstarted => ?_
  exact (holds_loop (l := fun t : ArithScan => t.lx) (K := fun t => t.lx.inWord = true)
    (S := fun _ => True) (fun t ht hword _ => ht.holds_arithTurn hword)
    (s := { lx := lx₁ }) hstarted.sound hstarted.inWord
    (fun _ _ => trivial) (Nat.lt_succ_self _)).mono fun answer => hstarted.answered

/-! ## Parameter expansions -/

theorem Sound.holds_lexerAddParamPart {lx lx' : Lexer} (h : Goes lx lx' ∧ lx'.inWord = true)
    (name : List Char) (kind : ParamSubtype) (hasColon : Bool) (word : Option (List Char)) :
    Holds (fun t => Goes lx t ∧ t.inWord = true)
      (lx'.lexerAddParamPart name kind hasColon word) := by
  obtain ⟨hgoes, hword⟩ := h
  obtain ⟨tok, htok⟩ := hgoes.sound.currentToken hword
  unfold lexerAddParamPart
  rw [holds_onWord]
  refine ⟨tok, htok, ?_, hword⟩
  exact {
    sound := hgoes.sound.congr rfl hgoes.sound.inside rfl rfl (by simp [htok]) rfl rfl
    input := hgoes.input
    modeStack := hgoes.modeStack
    pos := hgoes.pos
    noEof := hgoes.noEof }

theorem length_takeWhile_rest_le (p : Char → Bool) :
    lx.pos + (lx.rest.takeWhile p).length ≤ lx.input.length ∨ lx.input.length < lx.pos := by
  have := (List.takeWhile_prefix p (l := lx.rest)).length_le
  rw [rest_length] at this
  omega

/-- A name that starts at a name character is not empty and lies in the input. -/
theorem Sound.name_bounds (h : Sound lx) (hname : isNameStartChar lx.lexerPeek = true) :
    lx.rest.takeWhile isNameChar ≠ [] ∧
      lx.pos + (lx.rest.takeWhile isNameChar).length ≤ lx.input.length := by
  have hpos : lx.pos < lx.input.length := by
    by_contra hle
    rw [lexerPeek, lexerPeekAhead_of_le (by omega)] at hname
    exact absurd hname (by decide)
  constructor
  · have hrest : lx.rest = lx.lexerPeek :: lx.input.drop (lx.pos + 1) := by
      have hget : lx.lexerPeek = lx.input[lx.pos] := by simp [lexerPeek, lexerPeekAhead, hpos]
      rw [hget, rest, List.drop_eq_getElem_cons hpos]
    have hchar : isNameChar lx.lexerPeek = true := by
      unfold isNameStartChar at hname
      unfold isNameChar Char.isAlphanum
      rcases Bool.or_eq_true_iff.mp hname with halpha | hunder
      · simp [halpha]
      · simp [hunder]
    rw [hrest, List.takeWhile_cons_of_pos hchar]
    exact List.cons_ne_nil _ _
  · rcases length_takeWhile_rest_le isNameChar with hle | hlt
    · exact hle
    · have := h.inside
      omega

theorem Sound.holds_lexerProcessParamExpUnbraced (h : Sound lx)
    (hmode : lx.lexerCurrentMode ≠ .heredocBody) :
    Holds (Answered lx) lx.lexerProcessParamExpUnbraced := by
  unfold lexerProcessParamExpUnbraced
  rw [holds_bind]
  refine (h.holds_ensureWord hmode).mono fun lx₁ hstarted => ?_
  refine Holds.mono (P := Answered lx₁) ?_ fun answer => hstarted.answered
  have hs := hstarted.sound
  have hword := hstarted.inWord
  obtain ⟨tok, htok⟩ := hs.currentToken hword
  by_cases hend : lx₁.lexerAtEnd = true
  · simpa [hend] using hs.answered_end hend
  have hpos := pos_lt_of_not_atEnd hend
  -- Both names are read and added in the same way.
  have hread : ∀ name : List Char, name ≠ [] → lx₁.pos + name.length ≤ lx₁.input.length →
      Holds (fun t => Answered lx₁ (.ok, t.lexerPopMode))
        ((lx₁.advancedBy name.length).lexerAddParamPart name .plain false none) := by
    intro name hname hle
    have hlength : 0 < name.length := List.length_pos_iff.mpr hname
    have hgoes := hs.goes (t := lx₁.advancedBy name.length) hword
      (by constructor <;> simp <;> omega) (by simp [*])
    exact (Sound.holds_lexerAddParamPart hgoes name .plain false none).mono
      fun t ht => ht.1.answered_pop ht.2
  by_cases hsp : isSpecialParamChar lx₁.lexerPeek = true
  · have := hread [lx₁.lexerPeek] (by simp) hpos
    simpa [hend, hsp, show lx₁.pos + 1 ≤ lx₁.input.length from hpos] using this
  by_cases hns : isNameStartChar lx₁.lexerPeek = true
  · obtain ⟨hne, hle⟩ := hs.name_bounds hns
    simpa [hend, hsp, hns, hne, hle] using hread _ hne hle
  · simpa [hend, hsp, hns] using hs.answered_error _

theorem wordLength?_lt {inside : Option Char} {depth : ℕ} {cs : List Char} {n : ℕ}
    (h : wordLength? inside depth cs = some n) : n < cs.length := by
  fun_induction wordLength? inside depth cs generalizing n with
  | case1 => cases h
  | _ => grind [Option.map_eq_some_iff]

theorem operatorAt?_bound {hasColon : Bool} {kind : ParamSubtype} {n : ℕ}
    (h : lx.operatorAt? hasColon = some (kind, n)) :
    n = 1 ∨ n = 2 ∧ lx.lexerPeekAhead 1 = lx.lexerPeek := by
  simp only [operatorAt?] at h
  split_ifs at h with _ _ _ _ _ hdoubled _ hdoubled
  all_goals cases h
  all_goals first
    | exact .inl rfl
    | exact .inr ⟨rfl, hdoubled⟩

theorem Sound.holds_bracedOperator (h : Sound lx) (hword : lx.inWord = true) (hasColon : Bool)
    (name : List Char) : Holds (Answered lx) (lx.bracedOperator hasColon name) := by
  obtain ⟨tok, htok⟩ := h.currentToken hword
  unfold bracedOperator
  by_cases hend : lx.lexerAtEnd = true
  · simpa [hend] using h.answered_end hend
  have hpos := pos_lt_of_not_atEnd hend
  cases hop : lx.operatorAt? hasColon with
  | none => simpa [hend, hop] using h.answered_error _
  | some found =>
    obtain ⟨kind, n⟩ := found
    have hn : 0 < n ∧ lx.pos + n ≤ lx.input.length := by
      rcases operatorAt?_bound hop with rfl | ⟨rfl, hdoubled⟩
      · exact ⟨Nat.one_pos, hpos⟩
      · refine ⟨by decide, ?_⟩
        by_contra hlt
        rw [lexerPeekAhead_of_le (by omega)] at hdoubled
        have := h.lexerPeekAhead_eq_nul.mp hdoubled.symm
        omega
    obtain ⟨hn, hle⟩ := hn
    have hgoes := h.goes (t := lx.advancedBy n) hword
      (by constructor <;> simp <;> omega) (by simp [*])
    have hrest : (lx.advancedBy n).rest.length = lx.input.length - (lx.pos + n) := by
      rw [rest_length]
      simp
    cases hlen : wordLength? none 0 (lx.advancedBy n).rest with
    | none =>
      have hall := h.goes (t := (lx.advancedBy n).advancedBy (lx.advancedBy n).rest.length) hword
        (by constructor <;> simp <;> omega) (by simp [*])
      simpa [hend, hop, hle, hlen] using hall.1.answered_incomplete
    | some length =>
      have hlt := wordLength?_lt hlen
      have hall := h.goes (t := (lx.advancedBy n).advancedBy (length + 1)) hword
        (by constructor <;> simp <;> omega) (by simp [*])
      have hadd := fun word => (Sound.holds_lexerAddParamPart hall name kind hasColon word).mono
        fun t ht => ht.1.answered_pop ht.2
      simpa [hend, hop, hle, hlen, show lx.pos + n + (length + 1) ≤ lx.input.length by omega]
        using hadd _

theorem Sound.holds_bracedTail {lx lx' : Lexer} (h : Goes lx lx' ∧ lx'.inWord = true)
    (isLength : Bool) (name : List Char) :
    Holds (Answered lx) (lx'.bracedTail isLength name) := by
  obtain ⟨hgoes, hword⟩ := h
  have hs := hgoes.sound
  refine Holds.mono (P := Answered lx') ?_ fun answer ha => ha.after hgoes
  unfold bracedTail
  by_cases hend : lx'.lexerAtEnd = true
  · simpa [hend] using hs.answered_end hend
  have hpos := pos_lt_of_not_atEnd hend
  obtain ⟨tok, htok⟩ := hs.currentToken hword
  have hone := hs.goes (t := lx'.advanced) hword
    (by constructor <;> simp; omega) (by simp [*])
  cases isLength with
  | true =>
    by_cases hbrace : lx'.lexerPeek = rbrace
    · have hadd := hs.goes (t := advanced { lx' with
        currentToken := some (tok.addPart (lx'.quotedIn
          { type := .parameter, paramName := some (String.ofList name), paramKind := .length })) })
        hword (by constructor <;> simp; omega) (by simp [*])
      simpa [hend, hbrace, hpos, lexerAddParamPart, htok] using hadd.1.answered_pop hadd.2
    · simpa [hend, hbrace] using hs.answered_error _
  | false =>
    by_cases hbrace : lx'.lexerPeek = rbrace
    · have hadd := (Sound.holds_lexerAddParamPart hone name .plain false none).mono
        fun t ht => ht.1.answered_pop ht.2
      simpa [hend, hbrace, hpos] using hadd
    by_cases hcolon : lx'.lexerPeek = ':'
    · have hop := (hone.1.sound.holds_bracedOperator hone.2 true name).mono
        fun answer ha => ha.after hone.1
      simpa +decide [hend, hcolon, hpos] using hop
    · simpa [hend, hbrace, hcolon] using hs.holds_bracedOperator hword false name

theorem Sound.holds_bracedName (h : Sound lx) (hword : lx.inWord = true) (isLength : Bool) :
    Holds (Answered lx) (lx.bracedName isLength) := by
  obtain ⟨tok, htok⟩ := h.currentToken hword
  unfold bracedName
  by_cases hend : lx.lexerAtEnd = true
  · simpa [hend] using h.answered_end hend
  have hpos := pos_lt_of_not_atEnd hend
  by_cases hsp : isSpecialParamChar lx.lexerPeek = true
  · have hone := h.goes (t := lx.advanced) hword
      (by constructor <;> simp; omega) (by simp [*])
    simpa [hend, hsp, hpos] using Sound.holds_bracedTail hone isLength _
  by_cases hns : isNameStartChar lx.lexerPeek = true
  · obtain ⟨hne, hle⟩ := h.name_bounds hns
    have hlength := List.length_pos_iff.mpr hne
    have hgoes := h.goes (t := lx.advancedBy (lx.rest.takeWhile isNameChar).length) hword
      (by constructor <;> simp <;> omega) (by simp [*])
    simpa [hend, hsp, hns, hle] using Sound.holds_bracedTail hgoes isLength _
  by_cases hbrace : lx.lexerPeek = rbrace
  · simpa +decide [hend, hbrace] using h.answered_error _
  · simpa [hend, hsp, hns, hbrace] using h.answered_error _

theorem Sound.holds_lexerProcessParamExpBraced (h : Sound lx)
    (hmode : lx.lexerCurrentMode ≠ .heredocBody) :
    Holds (Answered lx) lx.lexerProcessParamExpBraced := by
  unfold lexerProcessParamExpBraced
  rw [holds_bind]
  refine (h.holds_ensureWord hmode).mono fun lx₁ hstarted => ?_
  refine Holds.mono (P := Answered lx₁) ?_ fun answer => hstarted.answered
  have hs := hstarted.sound
  have hword := hstarted.inWord
  obtain ⟨tok, htok⟩ := hs.currentToken hword
  by_cases hend : lx₁.lexerAtEnd = true
  · simpa [hend] using hs.answered_end hend
  have hpos := pos_lt_of_not_atEnd hend
  simp only [hend]
  by_cases hlength : lx₁.lexerPeek = '#' ∧ (isNameStartChar (lx₁.lexerPeekAhead 1) ||
      (lx₁.lexerPeekAhead 1).isDigit || lx₁.lexerPeekAhead 1 = '@' || lx₁.lexerPeekAhead 1 = '*')
  · have hone := hs.goes (t := lx₁.advanced) hword
      (by constructor <;> simp; omega) (by simp [*])
    have hname := (hone.1.sound.holds_bracedName hone.2 true).mono fun answer ha => ha.after hone.1
    rw [if_pos hlength]
    simpa [hpos] using hname
  · rw [if_neg hlength]
    exact hs.holds_bracedName hword false

end Migash.Lexer
