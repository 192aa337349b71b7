import Migash.Glob.Backtracking

/-! # Removing a matched prefix or suffix

The four removals of parameter expansion try the split points of the value one
after the other and take the first at which the pattern matches. The matcher is
that of the platform, so it is a parameter here.
-/

namespace Migash.PatternRemoval

open Library

/-! ## The source -/

/-- The loop over the split points: the first one where the pattern matches. -/
def firstSplit (matched : ℕ → Except Fault Bool) : List ℕ → Except Fault (Option ℕ)
  | [] => return none
  | i :: splits => do
    if ← matched i then return some i
    firstSplit matched splits

/-- A removal: the split points in their order, the part of the value that is matched and the part
that is returned. An empty pattern removes nothing. -/
def removal (globUtilMatch : List Char → List Char → Except Fault Bool)
    (splits : List Char → List ℕ) (candidate rest : ℕ → List Char → List Char) :
    Option (List Char) → Option (List Char) → Except Fault (List Char)
  | some value, some pattern =>
    if pattern = [] then return value
    else do
      match ← firstSplit (fun i => globUtilMatch pattern (candidate i value)) (splits value) with
      | some i => return rest i value
      | none => return value
  | _, _ => return []

/-- The split points from the start of the value to its end. -/
def upward (value : List Char) : List ℕ := List.range (value.length + 1)

/-- The split points from the end of the value to its start. -/
def downward (value : List Char) : List ℕ := (upward value).reverse

section Source

variable (globUtilMatch : List Char → List Char → Except Fault Bool)

/-- `remove_prefix_smallest`. -/
def removePrefixSmallest (value pattern : Option (List Char)) : Except Fault (List Char) :=
  removal globUtilMatch upward List.take List.drop value pattern

/-- `remove_prefix_largest`. -/
def removePrefixLargest (value pattern : Option (List Char)) : Except Fault (List Char) :=
  removal globUtilMatch downward List.take List.drop value pattern

/-- `remove_suffix_smallest`. -/
def removeSuffixSmallest (value pattern : Option (List Char)) : Except Fault (List Char) :=
  removal globUtilMatch downward List.drop List.take value pattern

/-- `remove_suffix_largest`. -/
def removeSuffixLargest (value pattern : Option (List Char)) : Except Fault (List Char) :=
  removal globUtilMatch upward List.drop List.take value pattern

end Source

/-! ## What is meant -/

/-- The first of two lengths is the one to take. -/
inductive Extent where
  | smallest | largest
  deriving DecidableEq, Repr

/-- `n` is at least as good as `m`. -/
def Extent.Prefers : Extent → ℕ → ℕ → Prop
  | .smallest, n, m => n ≤ m
  | .largest, n, m => m ≤ n

/-- The result is the value without the best prefix that is accepted, or the value itself. -/
def PrefixRemoved (extent : Extent) (accepts : List Char → Prop) (value result : List Char) : Prop :=
  (∃ taken, value = taken ++ result ∧ accepts taken ∧
    ∀ other, other <+: value → accepts other → extent.Prefers taken.length other.length) ∨
  (∀ other, other <+: value → ¬ accepts other) ∧ result = value

/-- The result is the value without the best suffix that is accepted, or the value itself. -/
def SuffixRemoved (extent : Extent) (accepts : List Char → Prop) (value result : List Char) : Prop :=
  (∃ taken, value = result ++ taken ∧ accepts taken ∧
    ∀ other, other <:+ value → accepts other → extent.Prefers taken.length other.length) ∨
  (∀ other, other <:+ value → ¬ accepts other) ∧ result = value

/-! ## The loop -/

/-- What is found in an ordered list comes before everything else that could be found. -/
theorem rel_of_find? {α : Type} {R : α → α → Prop} {l : List α} {p : α → Bool} {a b : α}
    (hordered : l.Pairwise R) (ha : l.find? p = some a) (hb : b ∈ l) (hpb : p b = true) :
    b = a ∨ R a b := by
  induction l with
  | nil => cases hb
  | cons x l ih =>
    obtain ⟨hx, hl⟩ := List.pairwise_cons.mp hordered
    by_cases hpx : p x = true
    · rw [List.find?_cons_of_pos hpx, Option.some.injEq] at ha
      subst ha
      rcases List.mem_cons.mp hb with rfl | hb
      · exact .inl rfl
      · exact .inr (hx b hb)
    · rw [List.find?_cons_of_neg hpx] at ha
      rcases List.mem_cons.mp hb with rfl | hb
      · exact absurd hpb hpx
      · exact ih hl ha hb

theorem firstSplit_eq {matched : ℕ → Except Fault Bool} {test : ℕ → Bool}
    (h : ∀ i, matched i = .ok (test i)) (splits : List ℕ) :
    firstSplit matched splits = .ok (splits.find? test) := by
  induction splits with
  | nil => rfl
  | cons i splits ih =>
    rw [firstSplit, h i]
    cases htest : test i with
    | true =>
      rw [List.find?_cons_of_pos htest]
      rfl
    | false =>
      rw [List.find?_cons_of_neg (by simp [htest])]
      exact ih

theorem mem_upward {value : List Char} {i : ℕ} : i ∈ upward value ↔ i ≤ value.length := by
  rw [upward, List.mem_range, Nat.lt_succ_iff]

theorem mem_downward {value : List Char} {i : ℕ} : i ∈ downward value ↔ i ≤ value.length := by
  rw [downward, List.mem_reverse, mem_upward]

theorem pairwise_upward (value : List Char) : (upward value).Pairwise (· < ·) :=
  List.pairwise_lt_range

theorem pairwise_downward (value : List Char) : (downward value).Pairwise (· > ·) :=
  List.pairwise_reverse.mpr (pairwise_upward value)

/-- What the matcher does for a pattern, and that an empty one matches nothing else than the empty
string. -/
structure Decides (globUtilMatch : List Char → List Char → Except Fault Bool)
    (accepts : List Char → List Char → Bool) : Prop where
  returns : ∀ pattern string, globUtilMatch pattern string = .ok (accepts pattern string)
  empty_iff : ∀ string, accepts [] string = true ↔ string = []

section Matcher

variable {globUtilMatch : List Char → List Char → Except Fault Bool}
  {accepts : List Char → List Char → Bool} (hglob : Decides globUtilMatch accepts)
include hglob

/-- A removal splits the value at the first point in its order where the pattern matches, if there
is one. -/
theorem removal_spec (candidate rest : ℕ → List Char → List Char) {splits : List Char → List ℕ}
    {R : ℕ → ℕ → Prop} {value pattern : List Char} (hpattern : pattern ≠ [])
    (hmem : ∀ i, i ∈ splits value ↔ i ≤ value.length) (hordered : (splits value).Pairwise R) :
    ∃ result, removal globUtilMatch splits candidate rest (some value) (some pattern) = .ok result ∧
      ((∃ i ≤ value.length, result = rest i value ∧ accepts pattern (candidate i value) = true ∧
          ∀ j ≤ value.length, accepts pattern (candidate j value) = true → j = i ∨ R i j) ∨
        (∀ j ≤ value.length, ¬ accepts pattern (candidate j value) = true) ∧ result = value) := by
  have hloop := firstSplit_eq (fun i => hglob.returns pattern (candidate i value)) (splits value)
  rw [removal, if_neg hpattern, hloop]
  cases hfind : (splits value).find? fun i => accepts pattern (candidate i value) with
  | none =>
    refine ⟨value, rfl, .inr ⟨fun j hj => ?_, rfl⟩⟩
    exact List.find?_eq_none.mp hfind j ((hmem j).mpr hj)
  | some i =>
    have hi : i ≤ value.length := (hmem i).mp (List.mem_of_find?_eq_some hfind)
    refine ⟨rest i value, rfl, .inl ⟨i, hi, rfl, ?_, fun j hj hacc => ?_⟩⟩
    · have hfound := List.find?_some hfind
      exact hfound
    · exact rel_of_find? hordered hfind ((hmem j).mpr hj) hacc

/-- An empty pattern removes the empty prefix and the empty suffix. -/
theorem removal_empty (extent : Extent) (splits : List Char → List ℕ)
    (candidate rest : ℕ → List Char → List Char) (value : List Char) :
    ∃ result, removal globUtilMatch splits candidate rest (some value) (some []) = .ok result ∧
      PrefixRemoved extent (accepts [] · = true) value result ∧
      SuffixRemoved extent (accepts [] · = true) value result := by
  have hempty : accepts [] [] = true := (hglob.empty_iff []).mpr rfl
  have hbest (other : List Char) (hother : accepts [] other = true) :
      extent.Prefers ([] : List Char).length other.length := by
    rw [(hglob.empty_iff other).mp hother]
    cases extent <;> exact Nat.le_refl 0
  refine ⟨value, rfl, .inl ⟨[], rfl, hempty, fun other _ => hbest other⟩, .inl ⟨[], ?_, hempty, ?_⟩⟩
  · exact (List.append_nil value).symm
  · exact fun other _ => hbest other

/-- A removal of prefixes, upward for the smallest and downward for the largest. -/
theorem prefixRemoved {extent : Extent} {splits : List Char → List ℕ} {R : ℕ → ℕ → Prop}
    {value : List Char} (pattern : List Char) (hmem : ∀ i, i ∈ splits value ↔ i ≤ value.length)
    (hordered : (splits value).Pairwise R)
    (hprefers : ∀ i j, j = i ∨ R i j → extent.Prefers i j) :
    ∃ result, removal globUtilMatch splits List.take List.drop (some value) (some pattern) =
        .ok result ∧ PrefixRemoved extent (accepts pattern · = true) value result := by
  by_cases hpattern : pattern = []
  · subst hpattern
    obtain ⟨result, hresult, hpre, -⟩ := removal_empty hglob extent splits List.take List.drop value
    exact ⟨result, hresult, hpre⟩
  · obtain ⟨result, hresult, hfound | ⟨hnone, heq⟩⟩ :=
      removal_spec hglob List.take List.drop hpattern hmem hordered
    · obtain ⟨i, hi, rfl, hacc, hbest⟩ := hfound
      refine ⟨_, hresult, .inl ⟨value.take i, (List.take_append_drop i value).symm, hacc, ?_⟩⟩
      intro other hother hotheracc
      have hlen : other.length ≤ value.length := hother.length_le
      rw [List.prefix_iff_eq_take.mp hother] at hotheracc
      rw [List.length_take_of_le hi]
      exact hprefers i other.length (hbest other.length hlen hotheracc)
    · refine ⟨_, hresult, .inr ⟨fun other hother hacc => ?_, heq⟩⟩
      rw [List.prefix_iff_eq_take.mp hother] at hacc
      exact hnone other.length hother.length_le hacc

/-- A removal of suffixes, downward for the smallest and upward for the largest. -/
theorem suffixRemoved {extent : Extent} {splits : List Char → List ℕ} {R : ℕ → ℕ → Prop}
    {value : List Char} (pattern : List Char) (hmem : ∀ i, i ∈ splits value ↔ i ≤ value.length)
    (hordered : (splits value).Pairwise R)
    (hprefers : ∀ i j, i ≤ value.length → j ≤ value.length → j = i ∨ R i j →
      extent.Prefers (value.length - i) (value.length - j)) :
    ∃ result, removal globUtilMatch splits List.drop List.take (some value) (some pattern) =
        .ok result ∧ SuffixRemoved extent (accepts pattern · = true) value result := by
  by_cases hpattern : pattern = []
  · subst hpattern
    obtain ⟨result, hresult, -, hsuf⟩ := removal_empty hglob extent splits List.drop List.take value
    exact ⟨result, hresult, hsuf⟩
  · obtain ⟨result, hresult, hfound | ⟨hnone, heq⟩⟩ :=
      removal_spec hglob List.drop List.take hpattern hmem hordered
    · obtain ⟨i, hi, rfl, hacc, hbest⟩ := hfound
      refine ⟨_, hresult, .inl ⟨value.drop i, (List.take_append_drop i value).symm, hacc, ?_⟩⟩
      intro other hother hotheracc
      have hlen : other.length ≤ value.length := hother.length_le
      rw [List.suffix_iff_eq_drop.mp hother] at hotheracc
      rw [List.length_drop, ← Nat.sub_sub_self hlen]
      exact hprefers i _ hi (Nat.sub_le _ _) (hbest _ (Nat.sub_le _ _) hotheracc)
    · refine ⟨_, hresult, .inr ⟨fun other hother hacc => ?_, heq⟩⟩
      rw [List.suffix_iff_eq_drop.mp hother] at hacc
      exact hnone _ (Nat.sub_le _ _) hacc

end Matcher

/-! ## The four removals -/

/-- Each removal takes the best of the prefixes or suffixes that the matcher accepts. -/
structure Removes (globUtilMatch : List Char → List Char → Except Fault Bool)
    (accepts : List Char → Prop) (value pattern : List Char) : Prop where
  prefixSmallest : ∃ result, removePrefixSmallest globUtilMatch (some value) (some pattern) =
    .ok result ∧ PrefixRemoved .smallest accepts value result
  prefixLargest : ∃ result, removePrefixLargest globUtilMatch (some value) (some pattern) =
    .ok result ∧ PrefixRemoved .largest accepts value result
  suffixSmallest : ∃ result, removeSuffixSmallest globUtilMatch (some value) (some pattern) =
    .ok result ∧ SuffixRemoved .smallest accepts value result
  suffixLargest : ∃ result, removeSuffixLargest globUtilMatch (some value) (some pattern) =
    .ok result ∧ SuffixRemoved .largest accepts value result

/-- With every matcher that returns and has the empty pattern match the empty string only. -/
theorem removes_of_decides {globUtilMatch : List Char → List Char → Except Fault Bool}
    {accepts : List Char → List Char → Bool} (hglob : Decides globUtilMatch accepts)
    (value pattern : List Char) : Removes globUtilMatch (accepts pattern · = true) value pattern where
  prefixSmallest := by
    refine prefixRemoved hglob pattern (fun _ => mem_upward) (pairwise_upward value) ?_
    intro i j hij
    change i ≤ j
    omega
  prefixLargest := by
    refine prefixRemoved hglob pattern (fun _ => mem_downward) (pairwise_downward value) ?_
    intro i j hij
    change j ≤ i
    omega
  suffixSmallest := by
    refine suffixRemoved hglob pattern (fun _ => mem_downward) (pairwise_downward value) ?_
    intro i j hi hj hij
    change value.length - i ≤ value.length - j
    omega
  suffixLargest := by
    refine suffixRemoved hglob pattern (fun _ => mem_upward) (pairwise_upward value) ?_
    intro i j hi hj hij
    change value.length - j ≤ value.length - i
    omega

/-- `glob_util_match` with its flags at 0. -/
def globMatch (pattern string : List Char) : Except Fault Bool :=
  Glob.globUtilMatch pattern string {}

theorem globMatch_decides : ∃ accepts, Decides globMatch accepts := by
  have hreturns (pattern string : List Char) : ∃ b, globMatch pattern string = .ok b := by
    obtain ⟨b, hb, -⟩ := Glob.globUtilMatch_fits pattern string {}
    exact ⟨b, hb⟩
  choose accepts haccepts using hreturns
  refine ⟨accepts, haccepts, fun string => ?_⟩
  have hempty := haccepts [] string
  cases string with
  | nil =>
    have hnil : globMatch [] [] = .ok true := rfl
    rw [hnil, Except.ok.injEq] at hempty
    exact ⟨fun _ => rfl, fun _ => hempty.symm⟩
  | cons c string =>
    have hcons : globMatch [] (c :: string) = .ok false := rfl
    rw [hcons, Except.ok.injEq] at hempty
    rw [← hempty]
    simp

/-- The removals of the shell's own matcher. -/
theorem globMatch_removes (value pattern : List Char) :
    Removes globMatch (globMatch pattern · = .ok true) value pattern := by
  obtain ⟨accepts, haccepts⟩ := globMatch_decides
  have hiff : (globMatch pattern · = .ok true) = (accepts pattern · = true) := by
    funext string
    rw [haccepts.returns pattern string, Except.ok.injEq]
  rw [hiff]
  exact removes_of_decides haccepts value pattern

example : removeSuffixSmallest globMatch (some "a.tar.gz".toList) (some ".*".toList) =
    .ok "a.tar".toList := by decide +kernel

end Migash.PatternRemoval
