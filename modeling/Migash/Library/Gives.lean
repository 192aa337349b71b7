import Mathlib.Data.List.Forall2

/-! # What a fallible computation gives

`Gives P r`: the computation `r` may stop without an answer, and an answer
satisfies `P`. One rule for each way of putting computations together.
-/

namespace Migash.Library

variable {ε α β : Type} {P : α → Prop} {Q : β → Prop}

/-- If `r` answers, its answer satisfies `P`. -/
structure Gives (P : α → Prop) (r : Except ε α) : Prop where
  answer : ∀ a, r = .ok a → P a

theorem Gives.ok {a : α} (h : P a) : Gives P (.ok a : Except ε α) := by
  constructor
  intro b hb
  cases hb
  exact h

theorem Gives.pure {a : α} (h : P a) : Gives P (Pure.pure a : Except ε α) := Gives.ok h

theorem Gives.error {e : ε} : Gives P (.error e : Except ε α) := by
  constructor
  intro a h
  cases h

theorem Gives.any (r : Except ε α) : Gives (fun _ => True) r := ⟨fun _ _ => trivial⟩

theorem Gives.mono {P' : α → Prop} {r : Except ε α} (h : Gives P r) (himp : ∀ a, P a → P' a) :
    Gives P' r := ⟨fun a ha => himp a (h.answer a ha)⟩

theorem Gives.and {P' : α → Prop} {r : Except ε α} (h : Gives P r) (h' : Gives P' r) :
    Gives (fun a => P a ∧ P' a) r := ⟨fun a ha => ⟨h.answer a ha, h'.answer a ha⟩⟩

theorem Gives.bind {r : Except ε α} {f : α → Except ε β} (h : Gives P r)
    (hf : ∀ a, P a → Gives Q (f a)) : Gives Q (r >>= f) := by
  cases r with
  | error e => exact Gives.error
  | ok a => exact hf a (h.answer a rfl)

/-- A step whose answer does not matter. -/
theorem Gives.andThen {r : Except ε α} {f : α → Except ε β} (hf : ∀ a, Gives Q (f a)) :
    Gives Q (r >>= f) := (Gives.any r).bind fun a _ => hf a

/-- A step whose answer is known to be one of its answers. -/
theorem Gives.bind_of {r : Except ε α} {f : α → Except ε β}
    (hf : ∀ a, r = .ok a → Gives Q (f a)) : Gives Q (r >>= f) := by
  cases r with
  | error e => exact Gives.error
  | ok a => exact hf a rfl

theorem Gives.map {r : Except ε α} {f : α → β} (h : Gives P r) (hf : ∀ a, P a → Q (f a)) :
    Gives Q (f <$> r) := by
  cases r with
  | error e => exact Gives.error
  | ok a => exact Gives.ok (hf a (h.answer a rfl))

theorem Gives.list_mapM {f : β → Except ε α} {xs : List β} (h : ∀ x ∈ xs, Gives P (f x)) :
    Gives (fun ys => ∀ y ∈ ys, P y) (xs.mapM f) := by
  induction xs with
  | nil => exact Gives.pure (by simp)
  | cons x xs ih =>
    rw [List.mapM_cons]
    have hxs := ih fun x' hx' => h x' (List.mem_cons_of_mem x hx')
    refine (h x List.mem_cons_self).bind fun y hy => hxs.bind fun ys hys => ?_
    apply Gives.pure
    intro y' hy'
    rcases List.mem_cons.mp hy' with rfl | hmem
    · exact hy
    · exact hys y' hmem

theorem Gives.option_mapM {f : β → Except ε α} {x : Option β} (h : ∀ b ∈ x, Gives P (f b)) :
    Gives (fun y => ∀ a ∈ y, P a) (x.mapM f) := by
  cases x with
  | none => exact Gives.pure (by simp)
  | some b => exact (h b rfl).map fun a ha => by simpa using ha

/-- Each answer belongs to the member at its place. -/
theorem Gives.list_forall₂ {R : β → α → Prop} {f : β → Except ε α} {xs : List β}
    (h : ∀ x ∈ xs, Gives (R x) (f x)) : Gives (List.Forall₂ R xs) (xs.mapM f) := by
  induction xs with
  | nil => exact Gives.pure .nil
  | cons x xs ih =>
    rw [List.mapM_cons]
    have hxs := ih fun x' hx' => h x' (List.mem_cons_of_mem x hx')
    exact (h x List.mem_cons_self).bind fun y hy => hxs.bind fun ys hys => Gives.pure (.cons hy hys)

theorem Gives.option_rel {R : β → α → Prop} {f : β → Except ε α} {x : Option β}
    (h : ∀ b, Gives (R b) (f b)) : Gives (Option.Rel R x) (x.mapM f) := by
  cases x with
  | none => exact Gives.pure .none
  | some b => exact (h b).map fun _ => .some

/-- A fold each of whose steps keeps `P`. -/
theorem Gives.foldlM {f : α → β → Except ε α} {xs : List β}
    (h : ∀ a b, P a → Gives P (f a b)) {a : α} (ha : P a) : Gives P (xs.foldlM f a) := by
  induction xs generalizing a with
  | nil => exact Gives.pure ha
  | cons b xs ih =>
    rw [List.foldlM_cons]
    exact (h a b ha).bind fun _ => ih

theorem option_rel_mono {R S : β → α → Prop} {x : Option β} {y : Option α} (h : Option.Rel R x y)
    (himp : ∀ b a, R b a → S b a) : Option.Rel S x y := by
  cases h with
  | some hba => exact .some (himp _ _ hba)
  | none => exact .none

/-! ## Computations that answer -/

/-- `r` answers, and its answer satisfies `P`. -/
structure Returns (P : α → Prop) (r : Except ε α) : Prop where
  exists_answer : ∃ a, r = .ok a ∧ P a

theorem Returns.ok {a : α} (h : P a) : Returns P (.ok a : Except ε α) := ⟨a, rfl, h⟩

theorem Returns.pure {a : α} (h : P a) : Returns P (Pure.pure a : Except ε α) := Returns.ok h

theorem Returns.of_eq {r : Except ε α} {a : α} (h : r = .ok a) (ha : P a) : Returns P r :=
  ⟨a, h, ha⟩

theorem Returns.mono {P' : α → Prop} {r : Except ε α} (h : Returns P r) (himp : ∀ a, P a → P' a) :
    Returns P' r := by
  obtain ⟨a, hr, ha⟩ := h
  exact ⟨a, hr, himp a ha⟩

theorem Returns.bind {r : Except ε α} {f : α → Except ε β} (h : Returns P r)
    (hf : ∀ a, P a → Returns Q (f a)) : Returns Q (r >>= f) := by
  obtain ⟨a, rfl, ha⟩ := h
  exact hf a ha

theorem Returns.map {r : Except ε α} {f : α → β} (h : Returns P r) (hf : ∀ a, P a → Q (f a)) :
    Returns Q (f <$> r) := by
  obtain ⟨a, rfl, ha⟩ := h
  exact ⟨f a, rfl, hf a ha⟩

/-- A step whose answer is known. -/
theorem Returns.bind_eq {r : Except ε α} {f : α → Except ε β} {a : α} (h : r = .ok a)
    (hf : Returns Q (f a)) : Returns Q (r >>= f) := by
  subst h
  exact hf

/-! ## Success step by step -/

theorem except_bind_eq_ok {r : Except ε α} {f : α → Except ε β} {b : β} :
    r >>= f = .ok b ↔ ∃ a, r = .ok a ∧ f a = .ok b := by
  cases r with
  | error e =>
    constructor
    · rintro ⟨⟩
    · rintro ⟨_, ⟨⟩, _⟩
  | ok a =>
    constructor
    · intro h
      exact ⟨a, rfl, h⟩
    · rintro ⟨_, ⟨⟩, h⟩
      exact h

theorem except_map_eq_ok {r : Except ε α} {f : α → β} {b : β} :
    f <$> r = .ok b ↔ ∃ a, r = .ok a ∧ f a = b := by
  cases r with
  | error e =>
    constructor
    · rintro ⟨⟩
    · rintro ⟨_, ⟨⟩, _⟩
  | ok a =>
    constructor
    · rintro ⟨⟩
      exact ⟨a, rfl, rfl⟩
    · rintro ⟨_, ⟨⟩, rfl⟩
      rfl

/-- A list whose members all succeed, one after the other. -/
theorem list_mapM_eq_ok {f : α → Except ε β} {as : List α} {bs : List β} :
    as.mapM f = .ok bs ↔ List.Forall₂ (fun a b => f a = .ok b) as bs := by
  induction as generalizing bs with
  | nil =>
    constructor
    · rintro ⟨⟩
      exact .nil
    · rintro ⟨⟩
      rfl
  | cons a as ih =>
    rw [List.mapM_cons, except_bind_eq_ok]
    constructor
    · rintro ⟨b, hb, hrest⟩
      obtain ⟨bs', hbs, hpure⟩ := except_bind_eq_ok.mp hrest
      cases hpure
      exact .cons hb (ih.mp hbs)
    · rintro (_ | ⟨hb, hbs⟩)
      exact ⟨_, hb, except_bind_eq_ok.mpr ⟨_, ih.mpr hbs, rfl⟩⟩

end Migash.Library
