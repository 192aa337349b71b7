import Migash.Expander.Words

/-! # What field splitting may see

A word is split as a whole, whatever its parts are. The fields it should have
come from the same machine, run on characters that remember whether an unquoted
expansion produced them.
-/

namespace Migash.Expander

open Exec (Shell)
open Library

/-- Is the part quoted? -/
def isQuoted (part : Part) : Bool := part.wasSingleQuoted || part.wasDoubleQuoted

/-- Does field splitting apply to what the part expands to? -/
def isSplit (part : Part) : Bool :=
  [.parameter, .commandSubst, .arithmetic].contains part.type && !isQuoted part

/-- A character of an expanded word, and whether an unquoted expansion produced it. -/
abbrev Marked := Char × Bool

/-- The text of a part, each character with its mark. -/
def marked (part : Part) (text : String) : List Marked := text.toList.map fun c => (c, isSplit part)

/-- The role of a character: only one that an unquoted expansion produced is a separator. -/
def markedRole (ifs : List Char) (c : Marked) : Role := if c.2 then role ifs c.1 else .other

/-- The characters of the word whose parts have expanded to these texts. -/
def markedText (parts : List Part) (texts : List String) : List Marked :=
  (List.zipWith marked parts texts).flatten

/-- The fields of the word, split at separators that unquoted expansions produced. A word with a
quoted part, or without an unquoted expansion, has a field at least. -/
def separatedFields (ifs : List Char) (parts : List Part) (texts : List String) : List String :=
  if parts.any isSplit then
    match fieldsOf (markedRole ifs) .begin (markedText parts texts) with
    | [] => if parts.any isQuoted then [""] else []
    | fields => fields.map fun field => String.ofList (field.map Prod.fst)
  else [String.join texts]

/-- No separator comes from anywhere else, and a quoted part does not leave the word without a
field. -/
def SeparatesOnly (ifs : List Char) (parts : List Part) (texts : List String) : Prop :=
  (∀ c ∈ markedText parts texts, c.2 = false → c.1 ∉ ifs) ∧
    (parts.any isQuoted → ∃ c ∈ (String.join texts).toList, role ifs c ≠ .white)

/-! ## Characters and their marks -/

section Marks

variable {ifs : List Char} {parts : List Part} {texts : List String}

theorem map_fst_marked (part : Part) (text : String) :
    (marked part text).map Prod.fst = text.toList := by
  simp [marked, Function.comp_def]

theorem map_fst_markedText (h : texts.length = parts.length) :
    (markedText parts texts).map Prod.fst = (String.join texts).toList := by
  induction parts generalizing texts with
  | nil =>
    rw [List.length_eq_zero_iff.mp h]
    rfl
  | cons part parts ih =>
    cases texts with
    | nil => simp at h
    | cons text texts =>
      have hlength : texts.length = parts.length := by simpa using h
      have hrest := ih hlength
      simp only [markedText] at hrest
      simp [markedText, map_fst_marked, hrest]

/-- A separator of the marked text is a separator of the text. -/
theorem role_of_markedRole {c : Marked} (h : role ifs c.1 = .other) :
    markedRole ifs c = .other := by
  unfold markedRole
  split
  · exact h
  · rfl

theorem markedRole_eq {c : Marked} (h : c.2 = false → c.1 ∉ ifs) :
    markedRole ifs c = role ifs c.1 := by
  unfold markedRole
  split
  · rfl
  · rename_i hc
    rw [Bool.not_eq_true] at hc
    exact (role_eq_other.mpr (h hc)).symm

/-- Two predicates that hold equally often, one of which follows from the other, agree. -/
theorem imp_of_countP_eq {α : Type} {p q : α → Bool} {l : List α} (hpq : ∀ a, p a → q a)
    (h : l.countP p = l.countP q) : ∀ a ∈ l, q a → p a := by
  induction l with
  | nil => simp
  | cons b l ih =>
    have hle : l.countP p ≤ l.countP q := List.countP_mono_left fun a _ => hpq a
    intro a ha hqa
    cases hp : p b with
    | true =>
      rw [List.countP_cons_of_pos hp, List.countP_cons_of_pos (hpq b hp)] at h
      rcases List.mem_cons.mp ha with rfl | ha
      · exact hp
      · exact ih (Nat.succ.inj h) a ha hqa
    | false =>
      rw [List.countP_cons_of_neg (by simp [hp])] at h
      cases hq : q b with
      | true =>
        rw [List.countP_cons_of_pos hq] at h
        omega
      | false =>
        rw [List.countP_cons_of_neg (by simp [hq])] at h
        rcases List.mem_cons.mp ha with rfl | ha
        · exact absurd hqa (by simp [hq])
        · exact ih h a ha hqa

theorem fieldsOf_of_unmarked (h : texts.length = parts.length)
    (hnone : ∀ c ∈ markedText parts texts, c.2 = false → c.1 ∉ ifs) :
    (fieldsOf (markedRole ifs) .begin (markedText parts texts)).map (List.map Prod.fst) =
      fieldsOf (role ifs) .begin (String.join texts).toList := by
  have hrole : ∀ c ∈ markedText parts texts, markedRole ifs c = role ifs c.1 :=
    fun c hc => markedRole_eq (hnone c hc)
  rw [fieldsOf_congr _ hrole, ← map_fst_markedText h]
  exact (fieldsOf_map Prod.fst .begin _).symm

/-- Splitting the text as a whole gives the fields of the marked text exactly if it finds no
separator elsewhere. -/
theorem fieldsOf_eq_iff (ifs : List Char) (h : texts.length = parts.length) :
    (fieldsOf (role ifs) .begin (String.join texts).toList).flatten =
        ((fieldsOf (markedRole ifs) .begin (markedText parts texts)).map
          (List.map Prod.fst)).flatten ↔
      ∀ c ∈ markedText parts texts, c.2 = false → c.1 ∉ ifs := by
  constructor
  · intro heq c hc hmark
    rw [← List.map_flatten, flatten_fieldsOf, flatten_fieldsOf, ← map_fst_markedText h] at heq
    have hlen := congrArg List.length heq
    simp only [Phase.read, List.nil_append, List.length_map, ← List.countP_eq_length_filter,
      List.countP_map] at hlen
    have himp := imp_of_countP_eq (fun a ha => by simpa using role_of_markedRole (by simpa using ha))
      hlen c hc (by simp [markedRole, hmark])
    exact role_eq_other.mp (by simpa using himp)
  · intro hnone
    rw [fieldsOf_of_unmarked h hnone]

/-- The fields of a word that is split. -/
theorem separatedFields_eq_iff (h : texts.length = parts.length) (hsplit : parts.any isSplit = true) :
    (fieldsOf (role ifs) .begin (String.join texts).toList).map String.ofList =
        separatedFields ifs parts texts ↔ SeparatesOnly ifs parts texts := by
  have hfields := fieldsOf_eq_iff ifs h
  have hwhite : fieldsOf (role ifs) .begin (String.join texts).toList = [] ↔
      ∀ c ∈ (String.join texts).toList, role ifs c = .white := fieldsOf_begin_eq_nil
  rw [separatedFields, if_pos hsplit, SeparatesOnly]
  by_cases hnone : ∀ c ∈ markedText parts texts, c.2 = false → c.1 ∉ ifs
  · have hmarked := fieldsOf_of_unmarked h hnone
    cases hmachine : fieldsOf (markedRole ifs) .begin (markedText parts texts) with
    | nil =>
      rw [hmachine, List.map_nil] at hmarked
      have hall := hwhite.mp hmarked.symm
      rw [← hmarked]
      constructor
      · intro heq
        refine ⟨hnone, fun hquoted => ?_⟩
        rw [if_pos hquoted] at heq
        cases heq
      · rintro ⟨-, hkeep⟩
        cases hquoted : parts.any isQuoted with
        | false => rfl
        | true =>
          obtain ⟨c, hc, hne⟩ := hkeep hquoted
          exact absurd (hall c hc) hne
    | cons field fields =>
      rw [hmachine] at hmarked
      rw [← hmarked]
      refine iff_of_true (by simp) ⟨hnone, fun _ => ?_⟩
      by_contra hno
      have hall : ∀ c ∈ (String.join texts).toList, role ifs c = .white := by
        intro c hc
        by_contra hne
        exact hno ⟨c, hc, hne⟩
      rw [hwhite.mpr hall] at hmarked
      cases hmarked
  · refine iff_of_false (fun heq => hnone (hfields.mp ?_)) fun hboth => hnone hboth.1
    have hflat := congrArg (fun fields => (fields.map String.toList).flatten) heq
    cases hmachine : fieldsOf (markedRole ifs) .begin (markedText parts texts) with
    | nil =>
      rw [hmachine] at hflat
      cases hquoted : parts.any isQuoted <;> simpa [hquoted, Function.comp_def] using hflat
    | cons field fields =>
      rw [hmachine] at hflat
      simpa [Function.comp_def] using hflat

end Marks

/-! ## Words -/

section Runs

variable {δ W : Type} (env : Env δ W)

/-- Every part expands to some text. -/
theorem expandPart_run (part : Part) (s : Shell δ W) :
    ∃ text t, (expandPart env part).run s = .ok (text, t) := by
  unfold expandPart expandParameterWithModifier
  cases part.type <;> simp only [Stateful.run_bind_ok (Stateful.run_get_eq s)]
  case parameter =>
    cases part.paramKind <;> simp only [] <;> (try split_ifs) <;> exact ⟨_, _, rfl⟩
  all_goals exact ⟨_, _, rfl⟩

theorem expandParts_run (parts : List Part) (s : Shell δ W) :
    ∃ texts t, (expandParts env parts).run s = .ok (texts, t) ∧ texts.length = parts.length := by
  induction parts generalizing s with
  | nil => exact ⟨[], s, rfl, rfl⟩
  | cons part parts ih =>
    obtain ⟨text, t, hpart⟩ := expandPart_run env part s
    obtain ⟨texts, u, hparts, hlen⟩ := ih t
    refine ⟨text :: texts, u, ?_, by simp [hlen]⟩
    rw [expandParts, Stateful.run_bind_ok hpart, Stateful.run_bind_ok hparts]
    rfl

/-- The word of the parts, with the flags the lexer gives it. -/
def wordOf (parts : List Part) : Token :=
  Token.recomputeExpansionFlags { type := .word, parts }

theorem wordOf_needsFieldSplitting (parts : List Part) :
    (wordOf parts).needsFieldSplitting = parts.any isSplit := by
  simp only [wordOf, Token.recomputeExpansionFlags, if_true, List.any_filter]
  congr 1
  funext part
  cases htype : part.type <;> simp [isSplit, isQuoted, htype]

theorem wordOf_needsExpansion (parts : List Part) :
    (wordOf parts).needsExpansion = false ↔ ∀ part ∈ parts, part.type = .literal := by
  simp [wordOf, Token.recomputeExpansionFlags]

theorem wordFields_of_isSplit {parts : List Part} (h : parts.any isSplit = true)
    {s t : Shell δ W} {texts : List String} (hrun : (expandParts env parts).run s = .ok (texts, t)) :
    (wordFields env (wordOf parts)).run s =
      .ok ((fieldsOf (role (getIfs env t)) .begin (String.join texts).toList).map String.ofList,
        t) := by
  have hsplit := (wordOf_needsFieldSplitting parts).trans h
  rw [wordFields_expanded env (by simp [hsplit])]
  have hexpand := expandPartsToString_run env hrun
  rw [Stateful.run_bind_ok (m := expandPartsToString env (wordOf parts).parts) hexpand, hsplit,
    if_pos rfl, fieldSplit_run]

theorem wordFields_of_not_isSplit {parts : List Part} (h : parts.any isSplit = false)
    {s t : Shell δ W} {texts : List String} (hrun : (expandParts env parts).run s = .ok (texts, t)) :
    (wordFields env (wordOf parts)).run s = .ok ([String.join texts], t) := by
  have hsplit := (wordOf_needsFieldSplitting parts).trans h
  cases hflags : !(wordOf parts).needsExpansion && !(wordOf parts).needsPathnameExpansion with
  | false =>
    rw [wordFields_expanded env (by rw [hsplit]; simpa using hflags)]
    have hexpand := expandPartsToString_run env hrun
    rw [Stateful.run_bind_ok (m := expandPartsToString env (wordOf parts).parts) hexpand, hsplit]
    rfl
  | true =>
    rw [Bool.and_eq_true, Bool.not_eq_true', Bool.not_eq_true'] at hflags
    have hliteral := (wordOf_needsExpansion parts).mp hflags.1
    rw [expandParts_literal env hliteral] at hrun
    cases hrun
    have htext : (wordOf parts).getAllText =
        String.join (parts.map fun part => part.text.getD "") := by
      rw [Token.getAllText]
      change String.join (parts.filterMap Part.text) = _
      clear hliteral hflags hsplit h
      induction parts with
      | nil => rfl
      | cons part parts ih => cases htext : part.text <;> simp [htext, ih]
    simp only [wordFields, hflags, hsplit, htext, Bool.not_false, Bool.and_self, if_true]
    rfl

/-- Word expansion splits at nothing but the separators that unquoted expansions produce, and keeps
a field for a quoted part, exactly if the word has no unquoted expansion, or its other parts bring
no character of `IFS` and, where one of them is quoted, something beside white space is left. -/
theorem wordFields_separated_iff (parts : List Part) (s : Shell δ W) :
    ∃ texts fields t, (expandParts env parts).run s = .ok (texts, t) ∧
      (wordFields env (wordOf parts)).run s = .ok (fields, t) ∧
      (fields = separatedFields (getIfs env t) parts texts ↔
        (parts.any isSplit → SeparatesOnly (getIfs env t) parts texts)) := by
  obtain ⟨texts, t, hrun, hlen⟩ := expandParts_run env parts s
  cases hsplit : parts.any isSplit with
  | false =>
    refine ⟨texts, _, t, hrun, wordFields_of_not_isSplit env hsplit hrun, ?_⟩
    simp [separatedFields, hsplit]
  | true =>
    refine ⟨texts, _, t, hrun, wordFields_of_isSplit env hsplit hrun, ?_⟩
    rw [separatedFields_eq_iff hlen hsplit]
    simp

end Runs

/-- `"a b"$1` -/
def quotedThenParameter : List Part :=
  [{ type := .literal, text := some "a b", wasDoubleQuoted := true },
    { type := .parameter, paramName := some "1" }]

/-- With `$1` set to `c`, the word `"a b"$1` is split in its quotes. -/
theorem quoted_space_splits :
    (wordFields (Env.plain Unit Unit) (wordOf quotedThenParameter)).run (shellWith ["c"]) =
        .ok (["a", "bc"], shellWith ["c"]) ∧
      (expandParts (Env.plain Unit Unit) quotedThenParameter).run (shellWith ["c"]) =
        .ok (["a b", "c"], shellWith ["c"]) ∧
      separatedFields (getIfs (Env.plain Unit Unit) (shellWith ["c"])) quotedThenParameter
        ["a b", "c"] = ["a bc"] := by
  refine ⟨rfl, rfl, ?_⟩
  decide

end Migash.Expander
