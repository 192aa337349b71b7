import Mathlib.Data.List.Basic
import Mathlib.Data.List.Infix
import Mathlib.Data.Int.Basic
import Mathlib.Tactic.Common

/-! # Blocks of memory

A block is a list of cells. A read or a write names a place by integers, as C does, and is
refused where it would leave the block. What a block starts with follows a write.
-/

namespace Migash.Library.Block

variable {α : Type*} {block l cells before after : List α} {i n : ℕ}

/-- The `count` cells from `start` on. -/
def window (block : List α) (start count : ℤ) : Option (List α) :=
  if 0 ≤ start ∧ 0 ≤ count ∧ start + count ≤ block.length then
    some ((block.drop start.toNat).take count.toNat)
  else none

/-- The block with `cells` in place of what was there from `i` on. -/
def patch (block : List α) (i : ℕ) (cells : List α) : List α :=
  block.take i ++ cells ++ block.drop (i + cells.length)

def overwrite (block : List α) (start : ℤ) (cells : List α) : Option (List α) :=
  if 0 ≤ start ∧ start + cells.length ≤ block.length then some (patch block start.toNat cells)
  else none

/-- A window into what a block is known to start with. -/
theorem window_eq (h : l <+: block) (hin : i + n ≤ l.length) :
    window block i n = some ((l.drop i).take n) := by
  obtain ⟨rest, rfl⟩ := h
  have hinside : (0 : ℤ) ≤ i ∧ (0 : ℤ) ≤ n ∧ (i + n : ℤ) ≤ (l ++ rest).length := by
    simp only [List.length_append]
    omega
  rw [window, if_pos hinside, Int.toNat_natCast, Int.toNat_natCast,
    List.drop_append_of_le_length (by omega),
    List.take_append_of_le_length (by simp only [List.length_drop]; omega)]

theorem overwrite_eq (hin : i + cells.length ≤ block.length) :
    overwrite block i cells = some (patch block i cells) := by
  rw [overwrite, if_pos (by omega), Int.toNat_natCast]

theorem length_patch (hin : i + cells.length ≤ block.length) :
    (patch block i cells).length = block.length := by
  simp only [patch, List.length_append, List.length_take, List.length_drop]
  omega

@[simp] theorem patch_nil : patch block i [] = block := by simp [patch]

/-- Cells between two parts of a block change, and the parts stay. -/
theorem patch_between {old : List α} (h : before ++ old ++ after <+: block)
    (hlength : cells.length = old.length) :
    before ++ cells ++ after <+: patch block before.length cells := by
  obtain ⟨rest, rfl⟩ := h
  refine ⟨rest, ?_⟩
  simp [patch, List.drop_append, hlength]

/-- Cells behind what the block starts with. -/
theorem patch_behind (h : l <+: block) (cells : List α) : l ++ cells <+: patch block l.length cells := by
  obtain ⟨rest, rfl⟩ := h
  rw [patch, List.take_left]
  exact List.prefix_append _ _

/-- What stands before the place of a write stays. -/
theorem take_patch : block.take i <+: patch block i cells := by
  rw [patch, List.append_assoc]
  exact List.prefix_append _ _

end Migash.Library.Block
