import Migash.Arithmetic.Climbing

/-! # Exact evaluation

The value of an expression over the integers, where it stays inside the range
of `long`: what the evaluator gives for every way of nesting the operators.
-/

namespace Migash.Arithmetic

open Exec (Shell)
open Library

/-- An exact result that is a `long`. -/
def inLong (v : ℤ) : Option ℤ := if longMin ≤ v ∧ v ≤ longMax then some v else none

/-- A unary operator on integers. -/
def exactUnary (op : UnaryOp) (a : ℤ) : Option ℤ :=
  match op with
  | .plus => some a
  | .minus => inLong (-a)
  | .bitNot => inLong (-a - 1)
  | .logicalNot => some (truth (a = 0))

/-- A binary operator on integers. C defines a remainder only where the quotient is a `long`. -/
def exactBinary (op : BinaryOp) (a b : ℤ) : Option ℤ :=
  match op with
  | .multiply => inLong (a * b)
  | .divide => if b = 0 then none else inLong (a.tdiv b)
  | .modulo => if b = 0 then none else (inLong (a.tdiv b)).map fun _ => a.tmod b
  | .plus => inLong (a + b)
  | .minus => inLong (a - b)
  | .leftShift => if 0 ≤ b ∧ b ≤ 63 then inLong (a * 2 ^ b.toNat) else none
  | .rightShift => if 0 ≤ b ∧ b ≤ 63 then some (a / 2 ^ b.toNat) else none
  | .less => some (truth (a < b))
  | .lessEqual => some (truth (a ≤ b))
  | .greater => some (truth (a > b))
  | .greaterEqual => some (truth (a ≥ b))
  | .equal => some (truth (a = b))
  | .notEqual => some (truth (a ≠ b))
  | .bitAnd => some (bitwise (· &&& ·) a b)
  | .bitXor => some (bitwise (· ^^^ ·) a b)
  | .bitOr => some (bitwise (· ||| ·) a b)

/-- The value under C of an expression over literals, unary and binary operators and parentheses,
if no operation on the way leaves the range of `long`, divides by zero or shifts by an amount
outside `[0, 63]`. -/
def Expr.value : Expr → Option ℤ
  | literal l => inLong l.value
  | paren e => e.value
  | unary op e => e.value.bind (exactUnary op)
  | binary op a b => a.value.bind fun x => b.value.bind (exactBinary op x)
  | _ => none

theorem inLong_eq_some {v w : ℤ} : inLong v = some w ↔ (longMin ≤ v ∧ v ≤ longMax) ∧ v = w := by
  simp [inLong]

theorem wrapLong_of_mem {v : ℤ} (h : longMin ≤ v ∧ v ≤ longMax) : wrapLong v = v := by
  obtain ⟨hlow, hhigh⟩ := h
  rw [longMin] at hlow
  rw [longMax] at hhigh
  refine Int.bmod_eq_of_le ?_ ?_ <;> omega

theorem applyUnary_exact {op : UnaryOp} {a v : ℤ} (h : exactUnary op a = some v) :
    applyUnary op.type a = v := by
  cases op with
  | plus => exact Option.some.inj h
  | minus =>
    obtain ⟨hrange, rfl⟩ := inLong_eq_some.mp h
    exact wrapLong_of_mem hrange
  | bitNot => exact (inLong_eq_some.mp h).2
  | logicalNot => exact Option.some.inj h

/-- A quotient that is a `long` raises no signal. -/
theorem divided_of_inLong {message : String} {op : ℤ → ℤ → ℤ} {a b q : ℤ} (hb : b ≠ 0)
    (h : inLong (a.tdiv b) = some q) : divided message op a b = .value (op a b) := by
  have hsignal : ¬ (a = longMin ∧ b = -1) := by
    rintro ⟨rfl, rfl⟩
    have hnone : inLong (longMin.tdiv (-1)) = none := by decide
    rw [hnone] at h
    cases h
  rw [divided, if_neg hb, if_neg hsignal]

theorem emod_of_mem {b : ℤ} (h : 0 ≤ b ∧ b ≤ 63) : b % 64 = b := by omega

theorem applyBinary_exact {op : BinaryOp} {a b v : ℤ} (h : exactBinary op a b = some v) :
    applyBinary op.type a b = .value v := by
  cases op with
  | multiply | plus | minus =>
    obtain ⟨hrange, rfl⟩ := inLong_eq_some.mp h
    exact congrArg Outcome.value (wrapLong_of_mem hrange)
  | divide =>
    by_cases hb : b = 0
    · simp [exactBinary, hb] at h
    · rw [exactBinary, if_neg hb] at h
      have hq := inLong_eq_some.mp h
      rw [BinaryOp.type, applyBinary, divided_of_inLong hb h, hq.2]
  | modulo =>
    by_cases hb : b = 0
    · simp [exactBinary, hb] at h
    · rw [exactBinary, if_neg hb, Option.map_eq_some_iff] at h
      obtain ⟨q, hq, rfl⟩ := h
      rw [BinaryOp.type, applyBinary, divided_of_inLong hb hq]
  | leftShift =>
    rw [exactBinary] at h
    split_ifs at h with hcount
    obtain ⟨hrange, rfl⟩ := inLong_eq_some.mp h
    rw [BinaryOp.type, applyBinary, shiftLeft, emod_of_mem hcount, wrapLong_of_mem hrange]
  | rightShift =>
    rw [exactBinary] at h
    split_ifs at h with hcount
    rw [BinaryOp.type, applyBinary, shiftRight, emod_of_mem hcount, Option.some.inj h]
  | less | lessEqual | greater | greaterEqual | equal | notEqual | bitAnd | bitXor | bitOr =>
    exact congrArg Outcome.value (Option.some.inj h)

variable {δ W : Type}

/-- An expression with a value is evaluated to it, and changes nothing. -/
theorem Expr.exec_of_value (e : Expr) {v : ℤ} (h : e.value = some v) (s : Shell δ W) :
    e.exec s = some (v, s) := by
  induction e generalizing v with
  | literal l =>
    obtain ⟨hrange, rfl⟩ := inLong_eq_some.mp h
    rw [exec, wrapLong_of_mem hrange]
  | paren e ih => exact ih h
  | unary op e ih =>
    obtain ⟨a, ha, hv⟩ := Option.bind_eq_some_iff.mp h
    simp [exec, ih ha, applyUnary_exact hv]
  | binary op a b iha ihb =>
    obtain ⟨x, hx, h⟩ := Option.bind_eq_some_iff.mp h
    obtain ⟨y, hy, hv⟩ := Option.bind_eq_some_iff.mp h
    simp [exec, iha hx, ihb hy, applyBinary_exact hv, Outcome.value?]
  | var x | and a b | or a b | cond c a b | assign x op e => cases h

/-- An expression over literals, unary and binary operators and parentheses that has a value under
C is read to its end and evaluated to this value. -/
theorem parseExpression_value (e : Expr) {v : ℤ} (h : e.value = some v) (s : Shell δ W) {n : ℕ}
    (hn : 2 * e.text.length + 1 < n) :
    parseExpression n 0 ⟨e.text, s⟩ = .ok v ⟨[], s⟩ := by
  have hclimb := climbs_text e (e.exec_of_value h s)
  have hlevel := e.level_pos
  have hnil : Follows e.level [] := .nil (by omega)
  have := hclimb.parse (m := 0) (n := n) (le_refl _) (by omega) hnil
    (by decide : (-1 : ℤ) < 0) (by simpa using hn)
  simpa using this

/-! ## An example -/

def Literal.small (d : Char) (h : d.isDigit = true) : Literal where
  radix := .decimal
  digits := [d]
  nonempty := by simp
  valid := by simpa [Radix.digit] using h
  decimal _ := by
    by_cases hd : d = '0'
    · exact .inl (by rw [hd])
    · exact .inr (by simpa using hd)

/-- `7-(4-2)*-3` -/
def nested : Expr :=
  .binary .minus (.literal (.small '7' rfl))
    (.binary .multiply
      (.binary .minus (.literal (.small '4' rfl)) (.literal (.small '2' rfl)))
      (.unary .minus (.literal (.small '3' rfl))))

theorem parseExpression_nested :
    nested.text = ['7', '-', '(', '4', '-', '2', ')', '*', '-', '3'] ∧
      parseExpression 22 0 ⟨nested.text, Shell.initial (δ := Unit) ()⟩ =
        .ok 13 ⟨[], Shell.initial ()⟩ :=
  ⟨rfl, parseExpression_value nested (by decide) (Shell.initial ()) (by decide)⟩

end Migash.Arithmetic
