import Mathlib.Data.List.Basic

/-! # Bracketed texts

A text of pieces that stand for themselves and of groups between brackets, as a
grammar and as what a scanner with a stack of open groups accepts.
-/

namespace Migash.Library

variable {α κ : Type}

/-- The pieces of a text. What stands for itself may depend on the text behind it. -/
structure Brackets (α κ : Type) where
  atom : List α → List α → Prop
  /-- A bracket that counts for nothing where no group is open. -/
  stray : List α → Prop
  opening : κ → List α → Prop
  closing : κ → List α → Prop
  /-- An atom does not see what is behind the end of its group. -/
  atom_closing {a s c u : List α} {k : κ} (h : closing k c) : atom a (s ++ (c ++ u)) ↔ atom a s

namespace Brackets

variable {b : Brackets α κ} {top : Bool} {stack : List κ} {a s t u : List α}

/-- Every group of the text is closed, by a bracket of its own kind. -/
inductive Matched (b : Brackets α κ) : Bool → List α → Prop
  | nil {top : Bool} : Matched b top []
  | atom {top : Bool} {a t : List α} (h : b.atom a t) (ht : Matched b top t) :
      Matched b top (a ++ t)
  | stray {a t : List α} (h : b.stray a) (ht : Matched b true t) : Matched b true (a ++ t)
  | group {top : Bool} {k : κ} {o s c t : List α} (ho : b.opening k o) (hs : Matched b false s)
      (hc : b.closing k c) (ht : Matched b top t) : Matched b top (o ++ (s ++ (c ++ t)))

/-- The text closes the open groups of the stack, and those it opens itself. -/
inductive Nested (b : Brackets α κ) : List κ → List α → Prop
  | nil : Nested b [] []
  | atom {stack : List κ} {a t : List α} (h : b.atom a t) (ht : Nested b stack t) :
      Nested b stack (a ++ t)
  | stray {a t : List α} (h : b.stray a) (ht : Nested b [] t) : Nested b [] (a ++ t)
  | opening {stack : List κ} {k : κ} {o t : List α} (h : b.opening k o)
      (ht : Nested b (k :: stack) t) : Nested b stack (o ++ t)
  | closing {stack : List κ} {k : κ} {c t : List α} (h : b.closing k c)
      (ht : Nested b stack t) : Nested b (k :: stack) (c ++ t)

/-- The text with the brackets that close the groups of the stack. -/
def Unwinds (b : Brackets α κ) : List κ → List α → Prop
  | [], t => b.Matched true t
  | k :: stack, t =>
    ∃ s c u, t = s ++ (c ++ u) ∧ b.Matched false s ∧ b.closing k c ∧ b.Unwinds stack u

theorem Nested.unwinds (h : b.Nested stack t) : b.Unwinds stack t := by
  induction h with
  | nil => exact .nil
  | @atom stack a t ha ht ih =>
    cases stack with
    | nil => exact .atom ha ih
    | cons k stack =>
      obtain ⟨s, c, u, rfl, hs, hc, hu⟩ := ih
      exact ⟨a ++ s, c, u, by simp, .atom ((b.atom_closing hc).mp ha) hs, hc, hu⟩
  | stray ha ht ih => exact .stray ha ih
  | @opening stack k o t ho ht ih =>
    obtain ⟨s, c, u, rfl, hs, hc, hu⟩ := ih
    cases stack with
    | nil => exact .group ho hs hc hu
    | cons k' stack =>
      obtain ⟨s', c', u', rfl, hs', hc', hu'⟩ := hu
      exact ⟨o ++ (s ++ (c ++ s')), c', u', by simp, .group ho hs hc hs', hc', hu'⟩
  | @closing stack k c t hc ht ih => exact ⟨[], c, t, rfl, .nil, hc, ih⟩

/-- What may follow a text in which every group is closed. -/
def Stops (b : Brackets α κ) (u : List α) : Prop :=
  u = [] ∨ ∃ k c t, b.closing k c ∧ u = c ++ t

theorem Stops.atom (h : b.Stops u) (ha : b.atom a s) : b.atom a (s ++ u) := by
  rcases h with rfl | ⟨k, c, t, hc, rfl⟩
  · rwa [List.append_nil]
  · exact (b.atom_closing hc).mpr ha

theorem Matched.nested (h : b.Matched top s) (htop : top = true → stack = [])
    (hu : b.Stops u) (hnested : b.Nested stack u) : b.Nested stack (s ++ u) := by
  induction h generalizing stack u with
  | nil => exact hnested
  | atom ha ht ih =>
    rw [List.append_assoc]
    exact .atom (hu.atom ha) (ih htop hu hnested)
  | stray ha ht ih =>
    cases htop rfl
    rw [List.append_assoc]
    exact .stray ha (ih htop hu hnested)
  | @group top k o s c t ho hs hc ht ihs iht =>
    have hrest : b.Nested (k :: stack) (c ++ (t ++ u)) := .closing hc (iht htop hu hnested)
    have hgroup : b.Nested (k :: stack) (s ++ (c ++ (t ++ u))) :=
      ihs nofun (.inr ⟨k, c, t ++ u, hc, rfl⟩) hrest
    simpa using Nested.opening ho hgroup

/-- The scanner accepts the texts of the grammar. -/
theorem nested_iff_matched : b.Nested [] t ↔ b.Matched true t := by
  constructor
  · exact Nested.unwinds
  · intro h
    have := h.nested (fun _ => rfl) (.inl rfl) .nil
    rwa [List.append_nil] at this

end Brackets

end Migash.Library
