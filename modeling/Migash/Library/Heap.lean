import Mathlib.Data.List.Basic

/-! # Objects behind pointers

A heap gives every new object an address of its own. An address that is freed
is never given out again.
-/

namespace Migash.Library

variable {α : Type*}

/-- The objects by their addresses. -/
structure Heap (α : Type*) where
  cells : List (Option α) := []

namespace Heap

/-- The object at an address. -/
def get (h : Heap α) (p : ℕ) : Option α := h.cells[p]?.join

/-- The address of a new object. -/
def alloc (h : Heap α) (a : α) : ℕ × Heap α := (h.cells.length, ⟨h.cells ++ [some a]⟩)

def free (h : Heap α) (p : ℕ) : Heap α := ⟨h.cells.set p none⟩

def set (h : Heap α) (p : ℕ) (a : α) : Heap α := ⟨h.cells.set p (some a)⟩

theorem lt_of_get {h : Heap α} {p : ℕ} {a : α} (ha : h.get p = some a) : p < h.cells.length := by
  by_contra hp
  rw [get, List.getElem?_eq_none (Nat.le_of_not_lt hp)] at ha
  cases ha

@[simp] theorem get_alloc_self (h : Heap α) (a : α) : (h.alloc a).2.get h.cells.length = some a := by
  simp [get, alloc]

@[simp] theorem get_set_self {h : Heap α} {p : ℕ} (hp : p < h.cells.length) (a : α) :
    (h.set p a).get p = some a := by
  simp [get, set, hp]

theorem get_free_of_ne (h : Heap α) {p q : ℕ} (hne : q ≠ p) : (h.free p).get q = h.get q := by
  simp [get, free, List.getElem?_set_ne hne.symm]

theorem get_set_of_ne (h : Heap α) {p q : ℕ} (hne : q ≠ p) (a : α) :
    (h.set p a).get q = h.get q := by
  simp [get, set, List.getElem?_set_ne hne.symm]

theorem get_alloc_of_ne (h : Heap α) {p : ℕ} (hne : p ≠ h.cells.length) (a : α) :
    (h.alloc a).2.get p = h.get p := by
  rcases Nat.lt_or_gt_of_ne hne with hlt | hgt
  · rw [get, get, alloc, List.getElem?_append_left hlt]
  · rw [get, get, alloc, List.getElem?_eq_none (by simp; omega),
      List.getElem?_eq_none (Nat.le_of_lt hgt)]

/-- A new address has no object yet. -/
@[simp] theorem get_length (h : Heap α) : h.get h.cells.length = none := by
  simp [get]

@[simp] theorem get_free_self (h : Heap α) (p : ℕ) : (h.free p).get p = none := by
  by_cases hp : p < h.cells.length <;> simp [get, free, hp]

/-- An object that is freed again was never seen. -/
theorem get_free_of_alloc {h h' : Heap α} {p : ℕ} (hp : h.get p = none)
    (hothers : ∀ q, q ≠ p → h'.get q = h.get q) : (h'.free p).get = h.get := by
  funext q
  by_cases hq : q = p
  · rw [hq, get_free_self, hp]
  · rw [get_free_of_ne _ hq, hothers q hq]

end Heap

end Migash.Library
