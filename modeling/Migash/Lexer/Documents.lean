import Migash.Lexer.Total

/-! # The bodies of here-documents

A turn of the loop for a body advances unless the body's last line is not
terminated: tabs of a `<<-` document or the delimiter itself at the end of the
input take the lexer to the end, where it still advances.
-/

namespace Migash.Lexer

open Library

variable {lx : Lexer}

theorem skipTabs_eq (hle : lx.pos ≤ lx.input.length) (entry : HeredocEntry) :
    ∃ n, lx.skipTabs entry = lx.advancedBy n ∧ lx.pos + n ≤ lx.input.length := by
  unfold skipTabs
  split
  · refine ⟨_, rfl, ?_⟩
    rcases length_takeWhile_rest_le (fun c : Char => c = tab) with h | h
    · exact h
    · omega
  · exact ⟨0, rfl, hle⟩

theorem delimiterEnd?_bounds {entry : HeredocEntry} (hdelim : entry.delimiter ≠ []) {pos : ℕ}
    (h : lx.delimiterEnd? entry = some pos) : lx.pos < pos ∧ pos ≤ lx.input.length := by
  have hlength := List.length_pos_iff.mpr hdelim
  simp only [delimiterEnd?] at h
  split_ifs at h with hprefix htabs
  all_goals
    cases h
    have := (List.isPrefixOf_iff_prefix.mp ‹_›).length_le
    rw [List.length_drop] at this
    omega

/-- The last line is not terminated: what is skipped, or the delimiter, ends with the input. -/
def DocumentEnds (entry : HeredocEntry) (lx : Lexer) : Prop :=
  lx.pos < lx.input.length ∧ ((lx.skipTabs entry).pos = lx.input.length ∨
    (lx.skipTabs entry).delimiterEnd? entry = some lx.input.length)

/-- The lexer reads the body of the given here-document. -/
structure InDocument (entry : HeredocEntry) (lx : Lexer) : Prop where
  mode : lx.lexerCurrentMode = .heredocBody
  token : lx.currentToken.isSome = true
  current : lx.heredocQueue[lx.heredocIndex]? = some entry

theorem Goes.inDocument {lx' : Lexer} {entry : HeredocEntry} (h : Goes lx lx')
    (hdoc : InDocument entry lx) (htoken : lx'.currentToken.isSome = true)
    (hqueue : lx'.heredocQueue = lx.heredocQueue)
    (hindex : lx'.heredocIndex = lx.heredocIndex) : InDocument entry lx' where
  mode := by
    rw [← hdoc.mode]
    simp only [lexerCurrentMode, h.modeStack]
  token := htoken
  current := by
    rw [hqueue, hindex]
    exact hdoc.current

theorem Sound.answered_finishHeredoc {lx lx' : Lexer} (entry : HeredocEntry) (h : Goes lx lx')
    (hmode : lx'.lexerCurrentMode = .heredocBody) :
    Answered lx (.ok, lx'.finishHeredoc entry) := by
  have hs := h.sound
  refine ⟨?_, .inl rfl, ?_, ?_, .inr (.inl ?_)⟩
  · unfold finishHeredoc
    dsimp only
    split_ifs with hlast
    · have htail : lx'.lexerPopMode.lexerCurrentMode ≠ .heredocBody := by
        intro heq
        unfold lexerCurrentMode lexerPopMode at heq
        cases hstack : lx'.modeStack.tail with
        | nil => simp [hstack] at heq
        | cons mode stack =>
          have := hs.below mode (by rw [hstack]; exact List.mem_cons_self)
          simp [hstack, this] at heq
      exact {
        inside := hs.inside
        word := fun _ => rfl
        document := fun heq => absurd heq htail
        notNormal := fun hmem => hs.notNormal (List.mem_of_mem_tail hmem)
        below := fun mode hmem => hs.below mode (List.mem_of_mem_tail hmem)
        delimiters := fun _ hmem => by cases hmem
        text := hs.text }
    · exact {
        inside := hs.inside
        word := fun hne => absurd hmode hne
        document := fun _ => ⟨rfl, Nat.lt_of_not_le hlast⟩
        notNormal := hs.notNormal
        below := hs.below
        delimiters := hs.delimiters
        text := hs.text }
  all_goals
    unfold finishHeredoc
    dsimp only
    split_ifs
  · exact h.input
  · exact h.input
  · exact Nat.le_of_lt h.pos
  · exact Nat.le_of_lt h.pos
  · exact h.pos
  · exact h.pos

theorem Sound.holds_heredocTurn {entry : HeredocEntry} {s : TextScan} (h : Sound s.lx)
    (hdoc : InDocument entry s.lx) (hend : ¬ DocumentEnds entry s.lx) :
    Holds (Next.Either (fun t => Goes s.lx t.lx ∧ InDocument entry t.lx) (Answered s.lx))
      (heredocTurn entry s) := by
  obtain ⟨lx, text⟩ := s
  dsimp only at h hdoc hend ⊢
  obtain ⟨tok, htok⟩ := Option.isSome_iff_exists.mp hdoc.token
  have hdelim := h.delimiters entry (List.mem_of_getElem? hdoc.current)
  unfold heredocTurn
  by_cases hstop : lx.lexerAtEnd = true
  · have hanswer : Answered lx
        (.incomplete, { lx with currentToken := some (tok.appendContent text) }) :=
      { sound := h.congr rfl h.inside rfl rfl (by simp [htok]) rfl rfl
        status := .inr (.inr rfl)
        input := rfl
        pos_le := le_refl _
        progress := .inr (.inr ⟨hstop, .inl ⟨rfl, rfl⟩⟩) }
    simpa [hstop, appendContent, htok] using hanswer
  have hpos := pos_lt_of_not_atEnd hstop
  obtain ⟨n, hskip, hn⟩ := skipTabs_eq h.inside entry
  have hskipped : (lx.advancedBy n).pos ≠ lx.input.length := fun heq =>
    hend ⟨hpos, .inl (hskip ▸ heq)⟩
  rw [advancedBy_pos] at hskipped
  -- A line that is not the delimiter: the lexer is not at the end and advances.
  have hline : ∀ t : TextScan, ∀ k, t.lx.input = lx.input → t.lx.pos = lx.pos + n + k → 0 < k →
      lx.pos + n + k ≤ lx.input.length → t.lx.modeStack = lx.modeStack →
      t.lx.inWord = lx.inWord → t.lx.currentToken = lx.currentToken →
      t.lx.heredocQueue = lx.heredocQueue → t.lx.heredocIndex = lx.heredocIndex →
      t.lx.tokens = lx.tokens → Goes lx t.lx ∧ InDocument entry t.lx := by
    intro t k hinput htpos hk hle hstack hword htoken hqueue hindex htokens
    have hgoes := h.moves (t := t.lx)
      ⟨by omega, by omega, hinput, hstack, hword, hqueue, hindex, htokens⟩ (by rw [htoken])
    exact ⟨hgoes, hgoes.inDocument hdoc (by rw [htoken]; exact hdoc.token) hqueue hindex⟩
  have hnext : ∀ c, c ≠ nul → (lx.advancedBy n).lexerPeekAhead 1 = c →
      lx.pos + n + 2 ≤ lx.input.length := by
    intro c hc heq
    by_contra hlt
    refine hc (heq ▸ lexerPeekAhead_of_le ?_)
    simp
    omega
  have hread : Holds (Next.Either (fun t => Goes lx t.lx ∧ InDocument entry t.lx) (Answered lx))
      (readLine entry { lx := lx.advancedBy n, text }) := by
    unfold readLine
    have hpos₁ : lx.pos + n < lx.input.length := by omega
    by_cases hnl : (lx.advancedBy n).lexerPeek = newline
    · have := hline ⟨(lx.advancedBy n).advanced.countLine, text ++ [newline]⟩ 1
        (by simp) (by simp) (by decide) hpos₁ (by simp) (by simp) (by simp) (by simp) (by simp)
        (by simp)
      simpa [hnl, hpos₁] using this
    by_cases hcut : entry.delimiterQuoted = false ∧ (lx.advancedBy n).lexerPeek = backslash ∧
        (lx.advancedBy n).lexerPeekAhead 1 = newline
    · have hpos₂ := hnext newline (by decide) hcut.2.2
      have := hline ⟨(lx.advancedBy n).advanced.advanced.countLine, text⟩ 2
        (by simp) (by simp) (by decide) hpos₂ (by simp) (by simp) (by simp) (by simp) (by simp)
        (by simp)
      simpa +decide [hcut.1, hcut.2.1, hcut.2.2, hpos₁, show lx.pos + n + 1 < lx.input.length by omega]
        using this
    by_cases hesc : entry.delimiterQuoted = false ∧ (lx.advancedBy n).lexerPeek = backslash ∧
        isHeredocEscapable ((lx.advancedBy n).lexerPeekAhead 1) = true
    · have hpos₂ : lx.pos + n + 2 ≤ lx.input.length := by
        refine hnext _ ?_ rfl
        intro heq
        rw [heq] at hesc
        exact absurd hesc.2.2 (by decide)
      have := hline ⟨(lx.advancedBy n).advanced.advanced,
        text ++ [(lx.advancedBy n).lexerPeekAhead 1]⟩ 2
        (by simp) (by simp) (by decide) hpos₂ (by simp) (by simp) (by simp) (by simp) (by simp)
        (by simp)
      have hne : (lx.advancedBy n).lexerPeekAhead 1 ≠ newline := fun heq =>
        hcut ⟨hesc.1, hesc.2.1, heq⟩
      simpa +decide [hesc.1, hesc.2.1, hesc.2.2, hne, hpos₁,
        show lx.pos + n + 1 < lx.input.length by omega] using this
    · have := hline ⟨(lx.advancedBy n).advanced, text ++ [(lx.advancedBy n).lexerPeek]⟩ 1
        (by simp) (by simp) (by decide) hpos₁ (by simp) (by simp) (by simp) (by simp) (by simp)
        (by simp)
      simpa [hnl, hcut, hesc, hpos₁] using this
  rw [if_neg hstop, hskip]
  unfold lexerCheckHeredocDelimiter
  cases hat : (lx.advancedBy n).delimiterEnd? entry with
  | none => simpa using hread
  | some pos =>
    have hbounds := delimiterEnd?_bounds hdelim hat
    have hpos' : pos ≠ lx.input.length := fun heq =>
      hend ⟨hpos, .inr (by rw [hskip, hat, heq])⟩
    simp only [advancedBy_pos, advancedBy_input] at hbounds
    by_cases hnl : lx.input[pos]?.getD nul = newline
    · have hgoes := h.moves (t := { (lx.advancedBy n).advancedBy (pos - (lx.pos + n) + 1) with
        currentToken := some (tok.appendContent text) })
        (by constructor <;> simp <;> omega) (by simp [*])
      have hanswer := Sound.answered_finishHeredoc entry hgoes
        (by rw [lexerCurrentMode, hgoes.modeStack]; exact hdoc.mode)
      simpa [hpos', hnl, appendContent, htok,
        show lx.pos + n + (pos - (lx.pos + n) + 1) ≤ lx.input.length by omega] using hanswer
    · simpa [hpos', hnl] using hread

/-- The temporary token of a here-document. -/
theorem Sound.startDocument (h : Sound lx) (hmode : lx.lexerCurrentMode = .heredocBody)
    {entry : HeredocEntry} (hentry : lx.heredocQueue[lx.heredocIndex]? = some entry) :
    (∃ tok, lx.startDocument = { lx with currentToken := some tok }) ∧ Sound lx.startDocument ∧
      InDocument entry lx.startDocument := by
  obtain ⟨tok, hstart⟩ : ∃ tok, lx.startDocument = { lx with currentToken := some tok } := by
    unfold Lexer.startDocument
    split
    · exact ⟨_, rfl⟩
    · next hsome =>
      obtain ⟨tok, htok⟩ := Option.ne_none_iff_exists'.mp hsome
      exact ⟨tok, by rw [← htok]⟩
  refine ⟨⟨tok, hstart⟩, ?_, ?_⟩
  · rw [hstart]
    exact {
      inside := h.inside
      word := fun hne => absurd hmode hne
      document := fun _ => h.document hmode
      notNormal := h.notNormal
      below := h.below
      delimiters := h.delimiters
      text := h.text }
  · rw [hstart]
    exact ⟨hmode, rfl, hentry⟩

theorem Sound.holds_lexerProcessHeredocBody (h : Sound lx)
    (hmode : lx.lexerCurrentMode = .heredocBody)
    (hsafe : ∀ entry t, lx.heredocQueue[lx.heredocIndex]? = some entry →
      Visits (heredocTurn entry) { lx := lx.startDocument } t → ¬ DocumentEnds entry t.lx) :
    Holds (Answered lx) lx.lexerProcessHeredocBody := by
  have hindex := (h.document hmode).2
  have hcurrent := List.getElem?_eq_getElem hindex
  obtain ⟨⟨tok, hstart⟩, hsound, hdoc⟩ := h.startDocument hmode hcurrent
  unfold lexerProcessHeredocBody
  rw [hcurrent]
  dsimp only
  refine (holds_loop (l := TextScan.lx) (K := fun t => InDocument _ t.lx)
    (S := fun t => ¬ DocumentEnds lx.heredocQueue[lx.heredocIndex] t.lx)
    (fun t ht hdoc hend => ht.holds_heredocTurn hdoc hend) (s := { lx := lx.startDocument })
    hsound hdoc (fun t ht => hsafe _ t hcurrent ht) ?_).mono fun answer ha => ?_
  · rw [hstart]
    exact Nat.lt_succ_self _
  · rw [hstart] at ha
    exact ⟨ha.sound, ha.status, ha.input, ha.pos_le, ha.progress⟩

end Migash.Lexer
