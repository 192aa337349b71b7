import Migash.Lexer.WordTexts

/-! # Assignment words

Which words the lexer takes for assignments, against what their text begins
with. The decision is right unless a name is invalid or nothing but empty quotes
follows the equals sign.
-/

namespace Migash

/-- The parts of the word without the first `n` characters of the first one. -/
def Token.partsBehind (tok : Token) (n : ℕ) : List Part :=
  match tok.parts with
  | [] => []
  | first :: others =>
    let value := (first.text.getD "").toList.drop n
    if value = [] then others else { first with text := some (String.ofList value) } :: others

namespace Lexer

open Library

variable {text name : List Char} {tok : Token} {lx u : Lexer}

/-! ## The decision -/

/-- A valid name. -/
def isName : List Char → Bool
  | [] => false
  | c :: cs => isNameStartChar c && cs.all isNameChar

/-- The text begins with an unquoted name and an unquoted equals sign. -/
def Assigns (text name : List Char) : Prop := isName name = true ∧ name ++ ['='] <+: lead text

/-- The word of the text is an assignment exactly if the text begins like one, and then the name and
the value are those of the text. -/
structure Classified (text : List Char) (tok done : Token) : Prop where
  type : done.type = .assignmentWord ↔ ∃ name, Assigns text name
  name : ∀ name, Assigns text name → done.assignmentName = some (String.ofList name)
  value : ∀ name, Assigns text name → done.assignmentValue = tok.partsBehind (name.length + 1)

theorem isName_noEquals (h : isName name = true) : '=' ∉ name := by
  cases name with
  | nil => exact List.not_mem_nil
  | cons c cs =>
    simp only [isName, Bool.and_eq_true, List.all_eq_true] at h
    intro hmem
    rcases List.mem_cons.mp hmem with rfl | hmem
    · exact absurd h.1 (by decide)
    · exact absurd (h.2 _ hmem) (by decide)

/-- Only what stands in front of the first equals sign can be the name. -/
theorem eq_leadName (hname : '=' ∉ name) (h : name ++ ['='] <+: lead text) :
    '=' ∈ lead text ∧ name = leadName text := by
  obtain ⟨rest, hrest⟩ := h
  rw [List.append_assoc, List.singleton_append] at hrest
  refine ⟨by rw [← hrest]; simp, ?_⟩
  rw [leadName, ← hrest, takeWhile_equals hname]

theorem assigns_iff (h : '=' ∈ lead text) :
    Assigns text name ↔ isName name = true ∧ name = leadName text := by
  constructor
  · exact fun hassigns => ⟨hassigns.1, (eq_leadName (isName_noEquals hassigns.1) hassigns.2).2⟩
  · rintro ⟨hname, rfl⟩
    obtain ⟨rest, hlead, -⟩ := lead_eq h
    refine ⟨hname, rest, ?_⟩
    rw [hlead, List.append_assoc, List.singleton_append]

/-- The first part of a word with an equals sign, cut at it. -/
theorem named_text (h : '=' ∈ lead text) (value : List Char) :
    (leadName text ++ '=' :: value).takeWhile (· ≠ '=') = leadName text ∧
      (leadName text ++ '=' :: value).drop ((leadName text).length + 1) = value := by
  obtain ⟨-, -, hname⟩ := lead_eq h
  exact ⟨takeWhile_equals hname, by rw [List.drop_append]; simp⟩

theorem Named.partsBehind {value : List Char} {others : List Part} (h : Named text tok)
    (hparts : tok.parts = { type := .literal, text := some (String.ofList
      (leadName text ++ '=' :: value)) } :: others) :
    tok.partsBehind ((leadName text).length + 1) =
      if value = [] then others
      else { type := .literal, text := some (String.ofList value) } :: others := by
  simp only [Token.partsBehind, hparts, Option.getD_some, String.toList_ofList,
    (named_text h.equals value).2]

/-- What `lexer_finalize_word` makes of a word with an equals sign. -/
theorem Named.promoted (h : Named text tok) (lx : Lexer) (hname : leadName text ≠ [])
    (hvalue : tok.partsBehind ((leadName text).length + 1) ≠ []) :
    (lx.finalized tok).type = .assignmentWord ∧
      (lx.finalized tok).assignmentName = some (String.ofList (leadName text)) ∧
      (lx.finalized tok).assignmentValue = tok.partsBehind ((leadName text).length + 1) := by
  obtain ⟨value, others, hparts⟩ := h.parts
  obtain ⟨htake, hdrop⟩ := named_text h.equals value
  rw [h.partsBehind hparts] at hvalue ⊢
  have hkept : ¬ (value = [] ∧ others = []) := by
    rintro ⟨rfl, rfl⟩
    exact hvalue rfl
  have hpromote : tok.tryPromoteToAssignment =
      { tok with
        type := .assignmentWord
        parts := []
        assignmentName := some (String.ofList (leadName text))
        assignmentValue :=
          if value = [] then others
          else { type := .literal, text := some (String.ofList value) } :: others } := by
    simp only [Token.tryPromoteToAssignment, h.flag, hparts, Option.getD_some, String.toList_ofList,
      htake, hdrop]
    rw [if_neg]
    simp [hname, hkept]
  unfold Lexer.finalized
  rw [hpromote]
  exact ⟨rfl, rfl, rfl⟩

theorem Named.notPromoted (h : Named text tok) (lx : Lexer)
    (hempty : leadName text = [] ∨ tok.partsBehind ((leadName text).length + 1) = []) :
    (lx.finalized tok).type = .word := by
  obtain ⟨value, others, hparts⟩ := h.parts
  obtain ⟨htake, hdrop⟩ := named_text h.equals value
  rw [h.partsBehind hparts] at hempty
  have hpromote : tok.tryPromoteToAssignment = { tok with type := .word } := by
    simp only [Token.tryPromoteToAssignment, h.flag, hparts, Option.getD_some, String.toList_ofList,
      htake, hdrop]
    rw [if_pos]
    rcases hempty with hname | hvalue
    · exact .inr (.inl hname)
    · refine .inr (.inr (.inr ?_))
      split at hvalue
      · next hnil => exact ⟨hnil, hvalue⟩
      · cases hvalue
  unfold Lexer.finalized
  rw [hpromote]
  rfl

theorem finalized_of_unflagged (h : tok.hasEqualsBeforeQuote = false) :
    (lx.finalized tok).type = .word := by
  have hword : tok.tryPromoteToAssignment.type = .word := by
    simp [Token.tryPromoteToAssignment, h]
  exact hword

theorem Barred.finalized (h : Barred tok) : (lx.finalized tok).type = .word := by
  rcases h with ⟨-, hflag⟩ | ⟨first, others, hparts, hfirst⟩
  · exact finalized_of_unflagged hflag
  cases hflag : tok.hasEqualsBeforeQuote with
  | false => exact finalized_of_unflagged hflag
  | true =>
    have hpromote : tok.tryPromoteToAssignment = { tok with type := .word } := by
      simp only [Token.tryPromoteToAssignment, hflag, hparts]
      rw [if_pos]
      refine hfirst.imp id fun hothers => .inr (.inl ?_)
      have hall : ∀ c ∈ (first.text.getD "").toList, decide (c ≠ '=') = true :=
        fun c hmem => decide_eq_true fun heq => hothers.2 (heq ▸ hmem)
      rw [List.takeWhile_eq_self_iff.mpr hall]
    unfold Lexer.finalized
    rw [hpromote]
    rfl

/-- What stands in front of the first equals sign is a name exactly if a part follows it. -/
def NamesWithValue (text : List Char) (tok : Token) : Prop :=
  ∀ name, '=' ∉ name → name ++ ['='] <+: lead text → name ≠ [] →
    (isName name = true ↔ tok.partsBehind (name.length + 1) ≠ [])

theorem Named.classified_iff (h : Named text tok) (lx : Lexer) :
    Classified text tok (lx.finalized tok) ↔ NamesWithValue text tok := by
  constructor
  · intro hclassified name hequals hpre hne
    obtain ⟨-, rfl⟩ := eq_leadName hequals hpre
    constructor
    · intro hname hnone
      have htype := hclassified.type.mpr ⟨_, (assigns_iff h.equals).mpr ⟨hname, rfl⟩⟩
      rw [h.notPromoted lx (.inr hnone)] at htype
      cases htype
    · intro hvalue
      obtain ⟨name, hassigns⟩ := hclassified.type.mp (h.promoted lx hne hvalue).1
      obtain ⟨hname, rfl⟩ := (assigns_iff h.equals).mp hassigns
      exact hname
  · intro hvalue
    obtain ⟨rest, hlead, hequals⟩ := lead_eq h.equals
    have hiff := hvalue (leadName text) hequals
      ⟨rest, by rw [hlead, List.append_assoc, List.singleton_append]⟩
    have hne : ∀ {name}, Assigns text name → leadName text = name ∧ name ≠ [] ∧
        isName name = true := by
      intro name hassigns
      obtain ⟨hname, rfl⟩ := (assigns_iff h.equals).mp hassigns
      refine ⟨rfl, fun hnil => ?_, hname⟩
      rw [hnil] at hname
      cases hname
    refine ⟨⟨fun htype => ?_, ?_⟩, fun name hassigns => ?_, fun name hassigns => ?_⟩
    · by_cases hnil : leadName text = []
      · rw [h.notPromoted lx (.inl hnil)] at htype
        cases htype
      · refine ⟨leadName text, (assigns_iff h.equals).mpr ⟨(hiff hnil).mpr fun hnone => ?_, rfl⟩⟩
        rw [h.notPromoted lx (.inr hnone)] at htype
        cases htype
    · rintro ⟨name, hassigns⟩
      obtain ⟨rfl, hnil, hname⟩ := hne hassigns
      exact (h.promoted lx hnil ((hiff hnil).mp hname)).1
    · obtain ⟨rfl, hnil, hname⟩ := hne hassigns
      exact (h.promoted lx hnil ((hiff hnil).mp hname)).2.1
    · obtain ⟨rfl, hnil, hname⟩ := hne hassigns
      exact (h.promoted lx hnil ((hiff hnil).mp hname)).2.2

/-- A word without an unquoted equals sign in its lead is no assignment. -/
theorem classified_of_noEquals (hequals : '=' ∉ lead text) {done : Token}
    (htype : done.type = .word) : Classified text tok done ↔ NamesWithValue text tok := by
  have hnone : ∀ name, ¬ name ++ ['='] <+: lead text := fun name hpre =>
    hequals (hpre.subset (by simp))
  refine iff_of_true ⟨⟨fun h => ?_, ?_⟩, fun name h => ?_, fun name h => ?_⟩ fun name _ h => ?_
  · rw [htype] at h
    cases h
  · rintro ⟨name, h⟩
    exact absurd h.2 (hnone name)
  · exact absurd h.2 (hnone name)
  · exact absurd h.2 (hnone name)
  · exact absurd h (hnone name)

/-! ## The words of the run -/

variable {input : List Char}

/-- Every word is classified by its text exactly if its name is valid where a part follows the
equals sign, and only there. -/
theorem lexerFinalizeWord_classified_iff {t : Tracing} {s : Traced}
    (ht : Visits tracedTokenizeTurn (startTracing input) t)
    (hmode : t.s.lx.lexerCurrentMode = .normal) (hs : Visits tracedNormalTurn t.head s)
    (hword : s.lx.inWord = true) (htok : s.lx.currentToken = some tok) :
    Classified (s.lx.textFrom s.wordStart) tok (s.lx.finalized tok) ↔
      NamesWithValue (s.lx.textFrom s.wordStart) tok := by
  have hstart := tracks_of_visits ht
  have hturns : ∀ u v, Visits tracedNormalTurn t.head u →
      Tracks u.wordStart u.lx ∧ u.lx.modeStack = [] → tracedNormalTurn u = .ok (.again v) →
      Tracks v.wordStart v.lx ∧ v.lx.modeStack = [] := fun u v _ hu hturn =>
    (hu.1.normalTurn hu.2).answer _ hturn
  have htracks := hs.invariant (I := fun s => Tracks s.wordStart s.lx ∧ s.lx.modeStack = [])
    ⟨hstart, hstart.modeStack_eq_nil hmode⟩ hturns
  obtain ⟨tok', htok', hfits⟩ := htracks.1.word hword
  obtain rfl := Option.some.inj (htok.symm.trans htok')
  cases hfits with
  | settled h =>
    cases h with
    | named h => exact h.classified_iff s.lx
    | barred hequals _ h => exact classified_of_noEquals hequals h.finalized
  | entered hne => exact absurd htracks.2 hne
  | growing _ hequals _ heq =>
    subst heq
    exact classified_of_noEquals hequals (finalized_of_unflagged (leadToken_plain hequals).flag)
  | ending _ hequals h => exact classified_of_noEquals hequals (finalized_of_unflagged h.flag)

/-- Every word of the input is classified by its text, once it is read to its end. -/
def ClassifiesWords (input : List Char) : Prop :=
  ∀ t s tok, Visits tracedTokenizeTurn (startTracing input) t →
    t.s.lx.lexerCurrentMode = .normal → Visits tracedNormalTurn t.head s →
    s.lx.inWord = true → s.lx.currentToken = some tok →
    s.lx.lexerAtEnd = true ∨ isDelimiterChar s.lx.lexerPeek = true →
    Classified (s.lx.textFrom s.wordStart) tok (s.lx.finalized tok)

/-- An assignment of one letter. -/
theorem lexerFinalizeWord_classified_letter : ∃ s tok,
    Visits tracedNormalTurn (startTracing ['x', '=', 'a']).head s ∧ s.lx.lexerAtEnd = true ∧
      s.lx.textFrom s.wordStart = ['x', '=', 'a'] ∧
      Classified (s.lx.textFrom s.wordStart) tok (s.lx.finalized tok) := by
  have hrun : ∃ s₁ s₂ s₃, tracedNormalTurn (startTracing ['x', '=', 'a']).head = .ok (.again s₁) ∧
      tracedNormalTurn s₁ = .ok (.again s₂) ∧ tracedNormalTurn s₂ = .ok (.again s₃) ∧
      s₃.lx.inWord = true ∧ s₃.lx.lexerAtEnd = true ∧
      s₃.lx.textFrom s₃.wordStart = ['x', '=', 'a'] ∧ ∃ tok, s₃.lx.currentToken = some tok ∧
      tok.partsBehind 2 ≠ [] := by
    exact ⟨_, _, _, rfl, rfl, rfl, rfl, rfl, rfl, _, rfl, nofun⟩
  obtain ⟨s₁, s₂, s₃, h₁, h₂, h₃, hword, hend, htext, tok, htok, hvalue⟩ := hrun
  have hs : Visits tracedNormalTurn (startTracing ['x', '=', 'a']).head s₃ :=
    .next (.next (.next .start h₁) h₂) h₃
  refine ⟨s₃, tok, hs, hend, htext, ?_⟩
  refine (lexerFinalizeWord_classified_iff .start rfl hs hword htok).mpr ?_
  intro name hequals hpre _
  obtain ⟨-, rfl⟩ := eq_leadName hequals hpre
  rw [htext]
  exact iff_of_true (by decide) hvalue

/-- The empty value is not seen, and the name is not checked. -/
theorem assignments_misclassified :
    ¬ ClassifiesWords ['x', '='] ∧ ¬ ClassifiesWords ['1', '=', 'a'] := by
  constructor
  · intro h
    have hrun : ∃ s₁ s₂, tracedNormalTurn (startTracing ['x', '=']).head = .ok (.again s₁) ∧
        tracedNormalTurn s₁ = .ok (.again s₂) ∧ s₂.lx.inWord = true ∧ s₂.lx.lexerAtEnd = true ∧
        s₂.lx.textFrom s₂.wordStart = ['x', '='] ∧ ∃ tok, s₂.lx.currentToken = some tok ∧
        (s₂.lx.finalized tok).type = .word := by
      exact ⟨_, _, rfl, rfl, rfl, rfl, rfl, _, rfl, rfl⟩
    obtain ⟨s₁, s₂, h₁, h₂, hword, hend, htext, tok, htok, htype⟩ := hrun
    have hclassified := h _ s₂ tok .start rfl (.next (.next .start h₁) h₂) hword htok (.inl hend)
    have hassigns : Assigns ['x', '='] ['x'] := ⟨by decide, by decide⟩
    rw [htext] at hclassified
    rw [hclassified.type.mpr ⟨_, hassigns⟩] at htype
    cases htype
  · intro h
    have hrun : ∃ s₁ s₂ s₃,
        tracedNormalTurn (startTracing ['1', '=', 'a']).head = .ok (.again s₁) ∧
        tracedNormalTurn s₁ = .ok (.again s₂) ∧ tracedNormalTurn s₂ = .ok (.again s₃) ∧
        s₃.lx.inWord = true ∧ s₃.lx.lexerAtEnd = true ∧
        s₃.lx.textFrom s₃.wordStart = ['1', '=', 'a'] ∧ ∃ tok, s₃.lx.currentToken = some tok ∧
        (s₃.lx.finalized tok).type = .assignmentWord := by
      exact ⟨_, _, _, rfl, rfl, rfl, rfl, rfl, rfl, _, rfl, rfl⟩
    obtain ⟨s₁, s₂, s₃, h₁, h₂, h₃, hword, hend, htext, tok, htok, htype⟩ := hrun
    have hclassified := h _ s₃ tok .start rfl (.next (.next (.next .start h₁) h₂) h₃) hword htok
      (.inl hend)
    obtain ⟨name, hname, hpre⟩ := hclassified.type.mp htype
    obtain ⟨-, rfl⟩ := eq_leadName (isName_noEquals hname) hpre
    rw [htext] at hname
    exact absurd hname (by decide)

end Lexer

end Migash
