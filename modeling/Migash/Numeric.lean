import Mathlib.Algebra.Group.Int.Defs
import Mathlib.Algebra.Group.Nat.Defs
import Mathlib.Data.Int.Notation
import Mathlib.Data.Nat.Notation

/-! # Numbers in texts

The parts of the C library that read a `long`, with 64 bits.
-/

namespace Migash

/-- `isspace` in the C locale. -/
def isspace (c : Char) : Bool :=
  c = ' ' || 9 ≤ c.toNat && c.toNat ≤ 13

theorem isDigit_iff {c : Char} : c.isDigit = true ↔ 48 ≤ c.toNat ∧ c.toNat ≤ 57 := by
  change (decide ('0'.val ≤ c.val) && decide (c.val ≤ '9'.val)) = true ↔ _
  rw [Bool.and_eq_true, decide_eq_true_eq, decide_eq_true_eq]
  rfl

theorem isAlpha_iff {c : Char} :
    c.isAlpha = true ↔ 65 ≤ c.toNat ∧ c.toNat ≤ 90 ∨ 97 ≤ c.toNat ∧ c.toNat ≤ 122 := by
  change (decide ('A'.val ≤ c.val ∧ c.val ≤ 'Z'.val) ||
    (decide ('a'.val ≤ c.val) && decide (c.val ≤ 'z'.val))) = true ↔ _
  rw [Bool.or_eq_true, Bool.and_eq_true, decide_eq_true_eq, decide_eq_true_eq, decide_eq_true_eq]
  rfl

/-- The value of decimal digits. -/
def decimalValue (digits : List Char) : ℕ :=
  digits.foldl (fun n d => n * 10 + (d.toNat - '0'.toNat)) 0

def longMin : ℤ := -2 ^ 63

def longMax : ℤ := 2 ^ 63 - 1

/-- `strtol` in base 10: the value, which saturates, and the text behind it. Without digits nothing
is read. -/
def strtol (text : List Char) : ℤ × List Char :=
  let rest := text.dropWhile isspace
  let (negative, digits) := match rest with
    | '-' :: ds => (true, ds)
    | '+' :: ds => (false, ds)
    | ds => (false, ds)
  let number := digits.takeWhile Char.isDigit
  if number = [] then (0, text)
  else
    let magnitude : ℤ := decimalValue number
    (if negative then max (-magnitude) longMin else min magnitude longMax,
      digits.drop number.length)

/-- `string_atol`. -/
def stringAtol (text : String) : ℤ := (strtol text.toList).1

/-- `string_from_long`. -/
def stringFromLong (value : ℤ) : String := toString value

end Migash
