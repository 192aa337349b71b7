import Migash.Arithmetic.Exact

/-! # Operands that C leaves out

The evaluator evaluates while it parses. It returns from `&&` and `||` without
having read the operand it does not need, and evaluates both branches of `?:`.
-/

namespace Migash.Arithmetic

open Exec (Shell)
open Library

variable {δ W : Type}

/-! ## Where nothing is left out -/

namespace Expr

/-- Every `&&` and `||` that is met needs its right operand, and every branch of a `?:` that is not
selected could be evaluated and assigns nothing. -/
def Straight : Expr → Shell δ W → Prop
  | literal _, _ | var _, _ => True
  | paren e, s | unary _ e, s | assign _ _ e, s => e.Straight s
  | binary _ a b, s => a.Straight s ∧ ∀ v t, a.eval s = some (v, t) → b.Straight t
  | and a b, s => a.Straight s ∧ ∀ v t, a.eval s = some (v, t) → v ≠ 0 ∧ b.Straight t
  | or a b, s => a.Straight s ∧ ∀ v t, a.eval s = some (v, t) → v = 0 ∧ b.Straight t
  | cond c a b, s =>
    c.Straight s ∧ ∀ v t, c.eval s = some (v, t) →
      if v ≠ 0 then
        a.Straight t ∧ ∀ w u, a.eval t = some (w, u) →
          b.assignments = 0 ∧ (b.eval u).isSome ∧ b.Straight u
      else (a.assignments = 0 ∧ (a.eval t).isSome ∧ a.Straight t) ∧ b.Straight t

section Eval

attribute [local simp] Expr.eval

variable {s t : Shell δ W} {v : ℤ} {a b c : Expr}

theorem eval_binary {op : BinaryOp} : (binary op a b).eval s = some (v, t) ↔
    ∃ left u right, a.eval s = some (left, u) ∧ b.eval u = some (right, t) ∧
      applyBinary op.type left right = .value v := by
  simp only [eval, Option.bind_eq_bind, Option.bind_eq_some_iff, Prod.exists, Option.pure_def,
    Option.some.injEq, Prod.mk.injEq, Outcome.value?_eq]
  constructor
  · rintro ⟨left, u, ha, right, w, hb, v', hv, rfl, rfl⟩
    exact ⟨left, u, right, ha, hb, hv⟩
  · rintro ⟨left, u, right, ha, hb, hv⟩
    exact ⟨left, u, ha, right, t, hb, v, hv, rfl, rfl⟩

theorem exec_binary {op : BinaryOp} : (binary op a b).exec s = some (v, t) ↔
    ∃ left u right, a.exec s = some (left, u) ∧ b.exec u = some (right, t) ∧
      applyBinary op.type left right = .value v := by
  simp only [exec, Option.bind_eq_bind, Option.bind_eq_some_iff, Prod.exists, Option.pure_def,
    Option.some.injEq, Prod.mk.injEq, Outcome.value?_eq]
  constructor
  · rintro ⟨left, u, ha, right, w, hb, v', hv, rfl, rfl⟩
    exact ⟨left, u, right, ha, hb, hv⟩
  · rintro ⟨left, u, right, ha, hb, hv⟩
    exact ⟨left, u, ha, right, t, hb, v, hv, rfl, rfl⟩

theorem eval_unary {op : UnaryOp} : (unary op a).eval s = some (v, t) ↔
    ∃ w, a.eval s = some (w, t) ∧ applyUnary op.type w = v := by
  simp [eval]

theorem exec_unary {op : UnaryOp} : (unary op a).exec s = some (v, t) ↔
    ∃ w, a.exec s = some (w, t) ∧ applyUnary op.type w = v := by
  simp [exec]

theorem eval_and : (and a b).eval s = some (v, t) ↔
    ∃ left u, a.eval s = some (left, u) ∧ (left = 0 ∧ v = 0 ∧ t = u ∨
      left ≠ 0 ∧ ∃ right, b.eval u = some (right, t) ∧ truth (right ≠ 0) = v) := by
  simp only [eval, Option.bind_eq_bind, Option.bind_eq_some_iff, Prod.exists]
  refine exists_congr fun left => exists_congr fun u => and_congr_right fun _ => ?_
  by_cases hleft : left = 0
  · simp [hleft, eq_comm]
  · simp [hleft, Option.bind_eq_some_iff]

theorem eval_or : (or a b).eval s = some (v, t) ↔
    ∃ left u, a.eval s = some (left, u) ∧ (left ≠ 0 ∧ v = 1 ∧ t = u ∨
      left = 0 ∧ ∃ right, b.eval u = some (right, t) ∧ truth (right ≠ 0) = v) := by
  simp only [eval, Option.bind_eq_bind, Option.bind_eq_some_iff, Prod.exists]
  refine exists_congr fun left => exists_congr fun u => and_congr_right fun _ => ?_
  by_cases hleft : left = 0
  · simp [hleft, Option.bind_eq_some_iff]
  · simp [hleft, eq_comm]

theorem eval_cond : (cond c a b).eval s = some (v, t) ↔
    ∃ value u, c.eval s = some (value, u) ∧
      (value ≠ 0 ∧ a.eval u = some (v, t) ∨ value = 0 ∧ b.eval u = some (v, t)) := by
  simp only [eval, Option.bind_eq_bind, Option.bind_eq_some_iff, Prod.exists]
  refine exists_congr fun value => exists_congr fun u => and_congr_right fun _ => ?_
  by_cases hvalue : value = 0 <;> simp [hvalue]

theorem eval_assign {x : Name} {op : AssignOp} : (assign x op a).eval s = some (v, t) ↔
    ∃ right u, a.eval s = some (right, u) ∧
      assignedValue op.type (readVariable u x.toString) right = .value v ∧
      setVariable u x.toString v = t := by
  simp only [eval, Option.bind_eq_bind, Option.bind_eq_some_iff, Prod.exists, Option.pure_def,
    Option.some.injEq, Prod.mk.injEq, Outcome.value?_eq]
  constructor
  · rintro ⟨right, u, ha, v', hv, rfl, rfl⟩
    exact ⟨right, u, ha, hv, rfl⟩
  · rintro ⟨right, u, ha, hv, rfl⟩
    exact ⟨right, u, ha, v, hv, rfl, rfl⟩

end Eval

/-! ## Counting assignments -/

/-- `exec` makes every assignment of an expression. -/
theorem history_exec (e : Expr) {s t : Shell δ W} {v : ℤ} (h : e.exec s = some (v, t)) :
    t.history.length = s.history.length + e.assignments := by
  induction e generalizing s t v with
  | literal l => cases (Prod.mk.inj (Option.some.inj h)).2; rfl
  | var x => cases (Prod.mk.inj (Option.some.inj h)).2; rfl
  | paren e ih => exact ih h
  | unary op e ih =>
    obtain ⟨w, he, -⟩ := exec_unary.mp h
    exact ih he
  | binary op a b iha ihb =>
    obtain ⟨left, u, right, ha, hb, -⟩ := exec_binary.mp h
    rw [ihb hb, iha ha, assignments, Nat.add_assoc]
  | and a b iha ihb =>
    obtain ⟨left, u, right, ha, -, hb, -⟩ := exec_and.mp h
    rw [ihb hb, iha ha, assignments, Nat.add_assoc]
  | or a b iha ihb =>
    obtain ⟨left, u, right, ha, -, hb, -⟩ := exec_or.mp h
    rw [ihb hb, iha ha, assignments, Nat.add_assoc]
  | cond c a b ihc iha ihb =>
    obtain ⟨value, u, trueValue, w, falseValue, hc, ha, hb, -⟩ := exec_cond.mp h
    rw [ihb hb, iha ha, ihc hc, assignments, Nat.add_assoc, Nat.add_assoc, Nat.add_assoc]
  | assign x op e ih =>
    obtain ⟨right, u, he, -, rfl⟩ := exec_assign.mp h
    rw [history_setVariable, ih he, assignments, Nat.add_assoc]

/-- `eval` makes no more than these. -/
theorem history_eval (e : Expr) {s t : Shell δ W} {v : ℤ} (h : e.eval s = some (v, t)) :
    t.history.length ≤ s.history.length + e.assignments := by
  induction e generalizing s t v with
  | literal l => cases (Prod.mk.inj (Option.some.inj h)).2; exact le_refl _
  | var x => cases (Prod.mk.inj (Option.some.inj h)).2; exact le_refl _
  | paren e ih => exact ih h
  | unary op e ih =>
    obtain ⟨w, he, -⟩ := eval_unary.mp h
    exact ih he
  | binary op a b iha ihb =>
    obtain ⟨left, u, right, ha, hb, -⟩ := eval_binary.mp h
    have := iha ha
    have := ihb hb
    simp only [assignments]
    omega
  | and a b iha ihb =>
    obtain ⟨left, u, ha, ⟨-, -, rfl⟩ | ⟨-, right, hb, -⟩⟩ := eval_and.mp h
    · have := iha ha
      simp only [assignments]
      omega
    · have := iha ha
      have := ihb hb
      simp only [assignments]
      omega
  | or a b iha ihb =>
    obtain ⟨left, u, ha, ⟨-, -, rfl⟩ | ⟨-, right, hb, -⟩⟩ := eval_or.mp h
    · have := iha ha
      simp only [assignments]
      omega
    · have := iha ha
      have := ihb hb
      simp only [assignments]
      omega
  | cond c a b ihc iha ihb =>
    obtain ⟨value, u, hc, ⟨-, ha⟩ | ⟨-, hb⟩⟩ := eval_cond.mp h
    · have := ihc hc
      have := iha ha
      simp only [assignments]
      omega
    · have := ihc hc
      have := ihb hb
      simp only [assignments]
      omega
  | assign x op e ih =>
    obtain ⟨right, u, he, -, rfl⟩ := eval_assign.mp h
    have := ih he
    rw [history_setVariable]
    simp only [assignments]
    omega

/-- Without assignments the state stays as it is. -/
theorem eval_state (e : Expr) (hno : e.assignments = 0) {s t : Shell δ W} {v : ℤ}
    (h : e.eval s = some (v, t)) : t = s := by
  induction e generalizing s t v with
  | literal l => exact (Prod.mk.inj (Option.some.inj h)).2.symm
  | var x => exact (Prod.mk.inj (Option.some.inj h)).2.symm
  | paren e ih => exact ih hno h
  | unary op e ih =>
    obtain ⟨w, he, -⟩ := eval_unary.mp h
    exact ih hno he
  | binary op a b iha ihb =>
    obtain ⟨hna, hnb⟩ := Nat.add_eq_zero_iff.mp hno
    obtain ⟨left, u, right, ha, hb, -⟩ := eval_binary.mp h
    exact (ihb hnb hb).trans (iha hna ha)
  | and a b iha ihb =>
    obtain ⟨hna, hnb⟩ := Nat.add_eq_zero_iff.mp hno
    obtain ⟨left, u, ha, ⟨-, -, rfl⟩ | ⟨-, right, hb, -⟩⟩ := eval_and.mp h
    · exact iha hna ha
    · exact (ihb hnb hb).trans (iha hna ha)
  | or a b iha ihb =>
    obtain ⟨hna, hnb⟩ := Nat.add_eq_zero_iff.mp hno
    obtain ⟨left, u, ha, ⟨-, -, rfl⟩ | ⟨-, right, hb, -⟩⟩ := eval_or.mp h
    · exact iha hna ha
    · exact (ihb hnb hb).trans (iha hna ha)
  | cond c a b ihc iha ihb =>
    obtain ⟨hnca, hnb⟩ := Nat.add_eq_zero_iff.mp hno
    obtain ⟨hnc, hna⟩ := Nat.add_eq_zero_iff.mp hnca
    obtain ⟨value, u, hc, ⟨-, ha⟩ | ⟨-, hb⟩⟩ := eval_cond.mp h
    · exact (iha hna ha).trans (ihc hnc hc)
    · exact (ihb hnb hb).trans (ihc hnc hc)
  | assign x op e ih => exact absurd hno (Nat.succ_ne_zero _)

/-! ## Evaluating every operand -/

/-- Where nothing is left out, evaluating everything is C. -/
theorem exec_of_straight (e : Expr) {s t : Shell δ W} {v : ℤ} (hs : e.Straight s)
    (h : e.eval s = some (v, t)) : e.exec s = some (v, t) := by
  induction e generalizing s t v with
  | literal l => exact h
  | var x => exact h
  | paren e ih => exact ih hs h
  | unary op e ih =>
    obtain ⟨w, he, hw⟩ := eval_unary.mp h
    exact exec_unary.mpr ⟨w, ih hs he, hw⟩
  | binary op a b iha ihb =>
    obtain ⟨left, u, right, ha, hb, hv⟩ := eval_binary.mp h
    exact exec_binary.mpr ⟨left, u, right, iha hs.1 ha, ihb (hs.2 left u ha) hb, hv⟩
  | and a b iha ihb =>
    obtain ⟨left, u, ha, hcase⟩ := eval_and.mp h
    obtain ⟨hne, hb'⟩ := hs.2 left u ha
    rcases hcase with ⟨hzero, -⟩ | ⟨-, right, hb, hv⟩
    · exact absurd hzero hne
    · exact exec_and.mpr ⟨left, u, right, iha hs.1 ha, hne, ihb hb' hb, hv⟩
  | or a b iha ihb =>
    obtain ⟨left, u, ha, hcase⟩ := eval_or.mp h
    obtain ⟨hzero, hb'⟩ := hs.2 left u ha
    rcases hcase with ⟨hne, -⟩ | ⟨-, right, hb, hv⟩
    · exact absurd hzero hne
    · exact exec_or.mpr ⟨left, u, right, iha hs.1 ha, hzero, ihb hb' hb, hv⟩
  | cond c a b ihc iha ihb =>
    obtain ⟨value, u, hc, hcase⟩ := eval_cond.mp h
    have hbranches := hs.2 value u hc
    rw [exec_cond]
    rcases hcase with ⟨hne, ha⟩ | ⟨hzero, hb⟩
    · rw [if_pos hne] at hbranches
      obtain ⟨hstraight, hidle⟩ := hbranches
      obtain ⟨hnone, hsome, hstraight'⟩ := hidle v t ha
      obtain ⟨⟨w, t'⟩, hw⟩ := Option.isSome_iff_exists.mp hsome
      cases eval_state b hnone hw
      exact ⟨value, u, v, t, w, ihc hs.1 hc, iha hstraight ha, ihb hstraight' hw, if_pos hne⟩
    · rw [if_neg (by simpa using hzero)] at hbranches
      obtain ⟨⟨hnone, hsome, hstraight⟩, hstraight'⟩ := hbranches
      obtain ⟨⟨w, t'⟩, hw⟩ := Option.isSome_iff_exists.mp hsome
      cases eval_state a hnone hw
      exact ⟨value, u, w, u, v, ihc hs.1 hc, iha hstraight hw, ihb hstraight' hb,
        if_neg (by simpa using hzero)⟩
  | assign x op e ih =>
    obtain ⟨right, u, he, hv, ht⟩ := eval_assign.mp h
    exact exec_assign.mpr ⟨right, u, ih hs he, hv, ht⟩

/-- An expression without assignments that can be evaluated as a whole is evaluated the same way
in C. -/
theorem eval_of_exec (e : Expr) (hno : e.assignments = 0) {s t : Shell δ W} {v : ℤ}
    (h : e.exec s = some (v, t)) : e.eval s = some (v, s) ∧ e.Straight s ∧ t = s := by
  induction e generalizing s t v with
  | literal l => cases (Prod.mk.inj (Option.some.inj h)).2; exact ⟨h, trivial, rfl⟩
  | var x => cases (Prod.mk.inj (Option.some.inj h)).2; exact ⟨h, trivial, rfl⟩
  | paren e ih => exact ih hno h
  | unary op e ih =>
    obtain ⟨w, he, hw⟩ := exec_unary.mp h
    obtain ⟨he', hs, rfl⟩ := ih hno he
    exact ⟨eval_unary.mpr ⟨w, he', hw⟩, hs, rfl⟩
  | binary op a b iha ihb =>
    obtain ⟨hna, hnb⟩ := Nat.add_eq_zero_iff.mp hno
    obtain ⟨left, u, right, ha, hb, hv⟩ := exec_binary.mp h
    obtain ⟨ha', hsa, rfl⟩ := iha hna ha
    obtain ⟨hb', hsb, rfl⟩ := ihb hnb hb
    refine ⟨eval_binary.mpr ⟨left, _, right, ha', hb', hv⟩, ⟨hsa, ?_⟩, rfl⟩
    intro v t hat
    cases ha'.symm.trans hat
    exact hsb
  | and a b iha ihb =>
    obtain ⟨hna, hnb⟩ := Nat.add_eq_zero_iff.mp hno
    obtain ⟨left, u, right, ha, hne, hb, hv⟩ := exec_and.mp h
    obtain ⟨ha', hsa, rfl⟩ := iha hna ha
    obtain ⟨hb', hsb, rfl⟩ := ihb hnb hb
    refine ⟨eval_and.mpr ⟨left, _, ha', .inr ⟨hne, right, hb', hv⟩⟩, ⟨hsa, ?_⟩, rfl⟩
    intro v t hat
    cases ha'.symm.trans hat
    exact ⟨hne, hsb⟩
  | or a b iha ihb =>
    obtain ⟨hna, hnb⟩ := Nat.add_eq_zero_iff.mp hno
    obtain ⟨left, u, right, ha, hzero, hb, hv⟩ := exec_or.mp h
    obtain ⟨ha', hsa, rfl⟩ := iha hna ha
    obtain ⟨hb', hsb, rfl⟩ := ihb hnb hb
    refine ⟨eval_or.mpr ⟨left, _, ha', .inr ⟨hzero, right, hb', hv⟩⟩, ⟨hsa, ?_⟩, rfl⟩
    intro v t hat
    cases ha'.symm.trans hat
    exact ⟨hzero, hsb⟩
  | cond c a b ihc iha ihb =>
    obtain ⟨hnca, hnb⟩ := Nat.add_eq_zero_iff.mp hno
    obtain ⟨hnc, hna⟩ := Nat.add_eq_zero_iff.mp hnca
    obtain ⟨value, u, trueValue, w, falseValue, hc, ha, hb, rfl⟩ := exec_cond.mp h
    obtain ⟨hc', hsc, rfl⟩ := ihc hnc hc
    obtain ⟨ha', hsa, rfl⟩ := iha hna ha
    obtain ⟨hb', hsb, rfl⟩ := ihb hnb hb
    by_cases hvalue : value = 0
    · refine ⟨eval_cond.mpr ⟨value, _, hc', .inr ⟨hvalue, ?_⟩⟩, ⟨hsc, ?_⟩, rfl⟩
      · simpa [hvalue] using hb'
      · intro v t hct
        cases hc'.symm.trans hct
        simpa [hvalue] using ⟨⟨hna, by simp [ha'], hsa⟩, hsb⟩
    · refine ⟨eval_cond.mpr ⟨value, _, hc', .inl ⟨hvalue, ?_⟩⟩, ⟨hsc, ?_⟩, rfl⟩
      · simpa [hvalue] using ha'
      · intro v t hct
        cases hc'.symm.trans hct
        rw [if_pos hvalue]
        refine ⟨hsa, fun w u hau => ?_⟩
        cases ha'.symm.trans hau
        exact ⟨hnb, by simp [hb'], hsb⟩
  | assign x op e ih => exact absurd hno (Nat.succ_ne_zero _)

/-- Evaluating everything gives what C gives only where nothing is left out: each assignment that C
does not make would be one assignment too many. -/
theorem straight_of_exec (e : Expr) {s t t' : Shell δ W} {v v' : ℤ} (h : e.exec s = some (v, t))
    (h' : e.eval s = some (v', t'))
    (hlen : t'.history.length = s.history.length + e.assignments) :
    e.Straight s ∧ v = v' ∧ t = t' := by
  induction e generalizing s t t' v v' with
  | literal l | var x => cases h.symm.trans h'; exact ⟨trivial, rfl, rfl⟩
  | paren e ih => exact ih h h' hlen
  | unary op e ih =>
    obtain ⟨w, he, rfl⟩ := exec_unary.mp h
    obtain ⟨w', he', rfl⟩ := eval_unary.mp h'
    obtain ⟨hs, rfl, rfl⟩ := ih he he' hlen
    exact ⟨hs, rfl, rfl⟩
  | binary op a b iha ihb =>
    obtain ⟨left, u, right, ha, hb, hv⟩ := exec_binary.mp h
    obtain ⟨left', u', right', ha', hb', hv'⟩ := eval_binary.mp h'
    have hlena := history_eval a ha'
    have hlenb := history_eval b hb'
    rw [assignments] at hlen
    obtain ⟨hsa, rfl, rfl⟩ := iha ha ha' (by omega)
    obtain ⟨hsb, rfl, rfl⟩ := ihb hb hb' (by omega)
    refine ⟨⟨hsa, fun v t hat => ?_⟩, Outcome.value.inj (hv.symm.trans hv'), rfl⟩
    cases ha'.symm.trans hat
    exact hsb
  | and a b iha ihb =>
    obtain ⟨left, u, right, ha, hne, hb, rfl⟩ := exec_and.mp h
    obtain ⟨left', u', ha', hcase⟩ := eval_and.mp h'
    have hlena := history_eval a ha'
    rw [assignments] at hlen
    rcases hcase with ⟨hzero, -, rfl⟩ | ⟨-, right', hb', rfl⟩
    · obtain ⟨-, rfl, -⟩ := iha ha ha' (by omega)
      exact absurd hzero hne
    · have hlenb := history_eval b hb'
      obtain ⟨hsa, rfl, rfl⟩ := iha ha ha' (by omega)
      obtain ⟨hsb, rfl, rfl⟩ := ihb hb hb' (by omega)
      refine ⟨⟨hsa, fun v t hat => ?_⟩, rfl, rfl⟩
      cases ha'.symm.trans hat
      exact ⟨hne, hsb⟩
  | or a b iha ihb =>
    obtain ⟨left, u, right, ha, hzero, hb, rfl⟩ := exec_or.mp h
    obtain ⟨left', u', ha', hcase⟩ := eval_or.mp h'
    have hlena := history_eval a ha'
    rw [assignments] at hlen
    rcases hcase with ⟨hne, -, rfl⟩ | ⟨-, right', hb', rfl⟩
    · obtain ⟨-, rfl, -⟩ := iha ha ha' (by omega)
      exact absurd hzero hne
    · have hlenb := history_eval b hb'
      obtain ⟨hsa, rfl, rfl⟩ := iha ha ha' (by omega)
      obtain ⟨hsb, rfl, rfl⟩ := ihb hb hb' (by omega)
      refine ⟨⟨hsa, fun v t hat => ?_⟩, rfl, rfl⟩
      cases ha'.symm.trans hat
      exact ⟨hzero, hsb⟩
  | cond c a b ihc iha ihb =>
    obtain ⟨value, u, trueValue, w, falseValue, hc, ha, hb, rfl⟩ := exec_cond.mp h
    obtain ⟨value', u', hc', hcase⟩ := eval_cond.mp h'
    have hlenc := history_eval c hc'
    rw [assignments] at hlen
    rcases hcase with ⟨hne, ha'⟩ | ⟨hzero, hb'⟩
    · have hlena := history_eval a ha'
      obtain ⟨hsc, rfl, rfl⟩ := ihc hc hc' (by omega)
      obtain ⟨hsa, rfl, rfl⟩ := iha ha ha' (by omega)
      have hnone : b.assignments = 0 := by omega
      obtain ⟨hbe, hsb, rfl⟩ := eval_of_exec b hnone hb
      refine ⟨⟨hsc, fun v t hct => ?_⟩, if_pos hne, rfl⟩
      cases hc'.symm.trans hct
      rw [if_pos hne]
      refine ⟨hsa, fun w u hau => ?_⟩
      cases ha'.symm.trans hau
      exact ⟨hnone, by simp [hbe], hsb⟩
    · have hlenb := history_eval b hb'
      obtain ⟨hsc, rfl, rfl⟩ := ihc hc hc' (by omega)
      have hnone : a.assignments = 0 := by omega
      obtain ⟨hae, hsa, rfl⟩ := eval_of_exec a hnone ha
      obtain ⟨hsb, rfl, rfl⟩ := ihb hb hb' (by omega)
      refine ⟨⟨hsc, fun v t hct => ?_⟩, if_neg (not_not.mpr hzero), rfl⟩
      cases hc'.symm.trans hct
      rw [if_neg (not_not.mpr hzero)]
      exact ⟨⟨hnone, by simp [hae], hsa⟩, hsb⟩
  | assign x op e ih =>
    obtain ⟨right, u, he, hv, rfl⟩ := exec_assign.mp h
    obtain ⟨right', u', he', hv', rfl⟩ := eval_assign.mp h'
    rw [history_setVariable, assignments] at hlen
    obtain ⟨hs, rfl, rfl⟩ := ih he he' (by omega)
    cases Outcome.value.inj (hv.symm.trans hv')
    exact ⟨hs, rfl, rfl⟩

/-- Evaluating everything is C where nothing is left out, and nowhere else. -/
theorem exec_iff_straight (e : Expr) {s t : Shell δ W} {v : ℤ} (h : e.eval s = some (v, t)) :
    e.exec s = some (v, t) ↔ e.Straight s :=
  ⟨fun hexec => (straight_of_exec e hexec h (history_exec e hexec)).1,
    fun hs => exec_of_straight e hs h⟩

end Expr

/-! ## What is left behind -/

/-- The text goes on with a token that is no operator and closes nothing. -/
def Stuck (text : List Char) : Prop :=
  nextPrecedence text < 0 ∧ (getToken text).1.type ∉ [.colon, .rparen, .eof]

/-- The parser fails, or stops where nothing around it can go on. -/
def Lost (r : Result δ W) : Prop := ∀ v s, r = .ok v s → Stuck s.text

theorem Lost.bind {r : Result δ W} (h : Lost r) {f : ℤ → MathParser δ W → Result δ W}
    (hf : ∀ v s, Stuck s.text → Lost (f v s)) : Lost (r.bind f) := by
  cases r with
  | ok v s => exact hf v s (h v s rfl)
  | fail | fault => intro v s hr; cases hr

theorem lost_fail {message : String} {s : MathParser δ W} : Lost (.fail message s) := by
  intro v s hr
  cases hr

theorem lost_reply {o : Outcome} (h : ∀ v, o ≠ .value v) (s : MathParser δ W)
    (f : ℤ → MathParser δ W → Result δ W) : Lost ((o.reply s).bind f) := by
  cases o with
  | value v => exact absurd rfl (h v)
  | error | signal => intro v s hr; cases hr

theorem lost_parseOperators {m : ℤ} (hm : 0 ≤ m) (n : ℕ) (left : ℤ) (s : MathParser δ W)
    (h : Stuck s.text) : Lost (parseOperators n m left s) := by
  cases n with
  | zero => intro v t hr; cases hr
  | succ n =>
    rw [parseOperators_stop n.succ_pos (h.1.trans_le hm)]
    rintro v t hr
    cases hr
    exact h

theorem Stuck.reply {m : ℤ} (hm : 0 ≤ m) (n : ℕ) (o : Outcome) {s : MathParser δ W}
    (h : Stuck s.text) : Lost ((o.reply s).bind fun v s => parseOperators n m v s) := by
  cases o with
  | value v => exact lost_parseOperators hm n v s h
  | error | signal => intro v t hr; cases hr

/-- Wherever the text of an expression stands, the parser is lost in it. -/
def Loses (p : ℤ) (text : List Char) (s : Shell δ W) : Prop :=
  ∀ m rest n, 0 ≤ m → m ≤ p → Follows p rest → 2 * (text ++ rest).length + 1 < n →
    Lost (parseExpression n m ⟨text ++ rest, s⟩)

theorem Loses.paren {l : ℤ} {text : List Char} {s : Shell δ W} (h : Loses l text s) (hl : 0 ≤ l)
    (p : ℤ) : Loses p ('(' :: (text ++ [')'])) s := by
  intro m rest n hm hmp hrest hn
  obtain ⟨n, rfl⟩ : ∃ k, n = k + 2 := ⟨n - 2, by omega⟩
  simp only [List.length_append, List.length_cons, List.length_nil] at hn
  have hinner := h 0 (')' :: rest) n (le_refl 0) hl (.close hl)
    (by simp only [List.length_append, List.length_cons]; omega)
  rw [List.cons_append, List.append_assoc, List.singleton_append, parseExpression_paren]
  refine Lost.bind (hinner.bind fun v s hs => ?_) fun v s hs => lost_parseOperators hm _ v s hs
  have hne : s.next.1.type ≠ .rparen := fun heq => hs.2 (by simp [← heq, MathParser.next])
  rw [if_pos hne]
  exact lost_fail

theorem Loses.wrap {l : ℤ} {text : List Char} {s : Shell δ W} (h : Loses l text s) (hl : 0 ≤ l)
    (p : ℤ) : Loses p (Expr.wrap p l text) s := by
  unfold Expr.wrap
  split_ifs with hlt
  · exact h.paren hl p
  · intro m rest n hm hmp hrest hn
    have hle := not_lt.mp hlt
    exact h m rest n hm (hmp.trans hle) (hrest.mono hle) hn

section Operator

variable {p : ℤ} {text text' : List Char} {s u : Shell δ W} {type : MathTokenType} {leftValue : ℤ}

/-- Lost in the left operand. -/
theorem Loses.left (type : MathTokenType) (h : Loses (getPrecedence type) text s)
    (htype : type.spelling ≠ []) (hlow : 3 < getPrecedence type) (hassign : isAssignment type = false)
    (hstart : StartsOperand text') :
    Loses (getPrecedence type) (text ++ (type.spelling ++ text')) s := by
  intro m rest n hm hmp hrest hn
  have hfollows : Follows (getPrecedence type) (type.spelling ++ (text' ++ rest)) :=
    .spelling htype (hstart.append rest).endsOperator hassign (le_refl _)
      fun hle => absurd hlow (by omega)
  simp only [List.append_assoc] at hn ⊢
  exact h m _ n hm hmp hfollows hn

/-- Behind the left operand, the parser is about to read the operator. -/
theorem Climbs.reaches (h : Climbs (getPrecedence type) text s leftValue u)
    (htype : type.spelling ≠ []) (hlow : 3 < getPrecedence type)
    (hassign : isAssignment type = false) (hstart : StartsOperand text') {m : ℤ}
    {rest : List Char} {n : ℕ} (hm : 0 ≤ m) (hmp : m ≤ getPrecedence type)
    (hn : 2 * ((text ++ (type.spelling ++ text')) ++ rest).length + 1 < n) :
    ∃ k, 2 * (text' ++ rest).length + 1 < k ∧
      parseExpression n m ⟨(text ++ (type.spelling ++ text')) ++ rest, s⟩ =
        parseOperators (k + 1) m leftValue ⟨type.spelling ++ (text' ++ rest), u⟩ := by
  have hfollows : Follows (getPrecedence type) (type.spelling ++ (text' ++ rest)) :=
    .spelling htype (hstart.append rest).endsOperator hassign (le_refl _)
      fun hle => absurd hlow (by omega)
  have hlen := length_spelling htype
  simp only [List.append_assoc] at hn ⊢
  obtain ⟨k, hk, hrun⟩ := h m _ n hm hmp hfollows hn
  rw [List.length_append] at hk
  exact ⟨k - 1, by omega, by rw [hrun, Nat.sub_add_cancel (by omega)]⟩

/-- Lost in the right operand. -/
theorem Loses.right (type : MathTokenType) (ha : Climbs (getPrecedence type) text s leftValue u)
    (hb : Loses (getPrecedence type + 1) text' u) (htype : type.spelling ≠ [])
    (hlow : 3 < getPrecedence type) (hassign : isAssignment type = false)
    (hstart : StartsOperand text') (hor : type = .logicalOr → leftValue = 0)
    (hand : type = .logicalAnd → leftValue ≠ 0) :
    Loses (getPrecedence type) (text ++ (type.spelling ++ text')) s := by
  intro m rest n hm hmp hrest hn
  obtain ⟨k, hk, hrun⟩ := ha.reaches htype hlow hassign hstart hm hmp hn
  have hcomma : type ≠ .comma := by rintro rfl; exact absurd hlow (by decide)
  have hquestion : type ≠ .question := by rintro rfl; exact absurd hlow (by decide)
  rw [hrun, parseOperators_operand htype (hstart.append rest) hmp hcomma hquestion hor hand]
  exact (hb _ rest k (by omega) (le_refl _) (hrest.mono (by omega)) hk).bind
    fun v s hs => hs.reply hm k _

/-- Both operands are read, and the operator fails. -/
theorem Loses.operator (type : MathTokenType) {right : ℤ} {t : Shell δ W}
    (ha : Climbs (getPrecedence type) text s leftValue u)
    (hb : Climbs (getPrecedence type + 1) text' u right t) (htype : type.spelling ≠ [])
    (hlow : 3 < getPrecedence type) (hassign : isAssignment type = false)
    (hstart : StartsOperand text') (hor : type = .logicalOr → leftValue = 0)
    (hand : type = .logicalAnd → leftValue ≠ 0)
    (hv : ∀ v, applyBinary type leftValue right ≠ .value v) :
    Loses (getPrecedence type) (text ++ (type.spelling ++ text')) s := by
  intro m rest n hm hmp hrest hn
  obtain ⟨k, hk, hrun⟩ := ha.reaches htype hlow hassign hstart hm hmp hn
  have hcomma : type ≠ .comma := by rintro rfl; exact absurd hlow (by decide)
  have hquestion : type ≠ .question := by rintro rfl; exact absurd hlow (by decide)
  have hparse := hb.parse (by omega) (le_refl _) (hrest.mono (by omega))
    (hrest.precedence.trans_lt (by omega)) hk
  rw [hrun, parseOperators_operand htype (hstart.append rest) hmp hcomma hquestion hor hand,
    hparse]
  exact lost_reply hv _ _

/-- The right operand is not needed, and left in the text. -/
theorem Loses.skip (type : MathTokenType) (ha : Climbs (getPrecedence type) text s leftValue u)
    (hskip : type = .logicalOr ∧ leftValue ≠ 0 ∨ type = .logicalAnd ∧ leftValue = 0)
    (hstart : StartsOperand text') (hstuck : ∀ rest, EndsWord rest → Stuck (text' ++ rest)) :
    Loses (getPrecedence type) (text ++ (type.spelling ++ text')) s := by
  have htype : type.spelling ≠ [] := by rcases hskip with ⟨rfl, -⟩ | ⟨rfl, -⟩ <;> decide
  have hlow : 3 < getPrecedence type := by rcases hskip with ⟨rfl, -⟩ | ⟨rfl, -⟩ <;> decide
  have hassign : isAssignment type = false := by rcases hskip with ⟨rfl, -⟩ | ⟨rfl, -⟩ <;> rfl
  intro m rest n hm hmp hrest hn
  obtain ⟨k, hk, hrun⟩ := ha.reaches htype hlow hassign hstart hm hmp hn
  rw [hrun, parseOperators_skip (hstart.append rest) hmp hskip]
  rintro v t hr
  cases hr
  exact hstuck rest hrest.endsWord

end Operator

section Branches

variable {p : ℤ} {s : Shell δ W} {tc ta tb : List Char} {la lb : ℤ}

/-- Lost in the condition of `?:`. -/
theorem Loses.condition (hc : Loses 4 tc s) : Loses 3 (tc ++ ('?' :: (ta ++ (':' :: tb)))) s := by
  intro m rest n hm hmp hrest hn
  rw [List.append_assoc] at hn ⊢
  exact hc m _ n hm (by omega) (.question (by decide)) hn

variable {value : ℤ} {u : Shell δ W}

/-- Behind the condition, the parser is about to read the branches. -/
theorem Climbs.reaches_branches (hc : Climbs 4 tc s value u) {m : ℤ} {rest : List Char} {n : ℕ}
    (hm : 0 ≤ m) (hmp : m ≤ 3)
    (hn : 2 * ((tc ++ ('?' :: (ta ++ (':' :: tb)))) ++ rest).length + 1 < n) :
    ∃ k, 2 * (ta ++ (':' :: (tb ++ rest))).length + 1 < k ∧
      parseExpression n m ⟨(tc ++ ('?' :: (ta ++ (':' :: tb)))) ++ rest, s⟩ =
        parseOperators (k + 1) m value ⟨'?' :: (ta ++ (':' :: (tb ++ rest))), u⟩ := by
  simp only [List.append_assoc, List.cons_append] at hn ⊢
  obtain ⟨k, hk, hrun⟩ := hc m _ n hm (by omega) (.question (by decide)) hn
  rw [List.length_cons] at hk
  exact ⟨k - 1, by omega, by rw [hrun, Nat.sub_add_cancel (by omega)]⟩

/-- Lost in the first branch. -/
theorem Loses.branch (hc : Climbs 4 tc s value u) (ha : Loses la ta u) (hla : 2 ≤ la) :
    Loses 3 (tc ++ ('?' :: (ta ++ (':' :: tb)))) s := by
  intro m rest n hm hmp hrest hn
  obtain ⟨k, hk, hrun⟩ := hc.reaches_branches hm hmp hn
  rw [hrun, parseOperators_question hmp]
  refine Lost.bind (ha 0 _ k (le_refl 0) (by omega) (.colon (by omega)) hk) fun v s hs => ?_
  have hne : s.next.1.type ≠ .colon := fun heq => hs.2 (by simp [← heq, MathParser.next])
  rw [if_pos hne]
  exact lost_fail

/-- Lost in the second branch. -/
theorem Loses.otherBranch (hc : Climbs 4 tc s value u) {trueValue : ℤ} {w : Shell δ W}
    (ha : Climbs la ta u trueValue w) (hla : 2 ≤ la) (hb : Loses 3 tb w) :
    Loses 3 (tc ++ ('?' :: (ta ++ (':' :: tb)))) s := by
  intro m rest n hm hmp hrest hn
  obtain ⟨k, hk, hrun⟩ := hc.reaches_branches hm hmp hn
  have hfollows : Follows la (':' :: (tb ++ rest)) := .colon (by omega)
  have hread := ha.parse (le_refl 0) (by omega) hfollows
    (by decide : (-1 : ℤ) < 0) hk
  have hcolon : (⟨':' :: (tb ++ rest), w⟩ : MathParser δ W).next =
      ({ type := .colon }, ⟨tb ++ rest, w⟩) := rfl
  rw [List.length_append, List.length_cons] at hk
  rw [hrun, parseOperators_question hmp, hread]
  simp only [Reply.bind_ok, hcolon, ne_eq, not_true, if_false]
  exact (hb 3 rest k (by decide) (le_refl 3) hrest (by omega)).bind
    fun v s hs => lost_parseOperators hm k _ s hs

/-- Lost in the value of an assignment. -/
theorem Loses.assign (x : Name) (op : AssignOp) (h : Loses la ta s) (hla : 2 ≤ la)
    (hstart : StartsOperand ta) : Loses 2 (x.text ++ (op.type.spelling ++ ta)) s := by
  intro m rest n hm hmp hrest hn
  simp only [Name.text, List.length_append, List.length_cons] at hn
  obtain ⟨n, rfl⟩ : ∃ k, n = k + 2 := ⟨n - 2, by omega⟩
  rw [List.append_assoc, List.append_assoc, parseExpression_assign x op (hstart.append rest)]
  refine Lost.bind (h 0 rest n (le_refl 0) (by omega) (hrest.mono hla)
    (by rw [List.length_append]; omega)) fun v s hs => ?_
  cases hv : assignedValue op.type (readVariable s.frame x.toString) v with
  | value v => exact lost_parseOperators hm _ v _ hs
  | error | signal => intro v t hr; cases hr

/-- The value of an assignment is read, and the operator fails. -/
theorem Climbs.loses_assign (x : Name) (op : AssignOp) (h : Climbs la ta s value u) (hla : 2 ≤ la)
    (hstart : StartsOperand ta)
    (hv : ∀ v, assignedValue op.type (readVariable u x.toString) value ≠ .value v) :
    Loses 2 (x.text ++ (op.type.spelling ++ ta)) s := by
  intro m rest n hm hmp hrest hn
  simp only [Name.text, List.length_append, List.length_cons] at hn
  obtain ⟨n, rfl⟩ : ∃ k, n = k + 2 := ⟨n - 2, by omega⟩
  have hright := h.parse (m := 0) (n := n) (le_refl _) (by omega) (hrest.mono hla)
    (hrest.low (by decide)) (by rw [List.length_append]; omega)
  rw [List.append_assoc, List.append_assoc, parseExpression_assign x op (hstart.append rest),
    hright]
  exact lost_reply hv _ _

end Branches

/-! ## Operands without a sign -/

/-- Not a text that starts with a sign. -/
def Unsigned (text : List Char) : Prop := text.head? ≠ some '+' ∧ text.head? ≠ some '-'

theorem Unsigned.left {text text' : List Char} (h : Unsigned (text ++ text'))
    (hstart : StartsOperand text) : Unsigned text := by
  obtain ⟨c, hc, -⟩ := hstart
  cases text with
  | nil => cases hc
  | cons d text => exact h

theorem stuck_paren (rest : List Char) : Stuck ('(' :: rest) :=
  ⟨(by decide : (-1 : ℤ) < 0), (by decide : MathTokenType.lparen ∉ _)⟩

/-- Where an operand starts, and not with a sign, a loop over operators cannot go on. -/
theorem stuck_wrap {text rest : List Char} {p l : ℤ} (h : Unsigned text → Stuck (text ++ rest))
    (hsign : Unsigned (Expr.wrap p l text)) : Stuck (Expr.wrap p l text ++ rest) := by
  unfold Expr.wrap at hsign ⊢
  split_ifs with hlt
  · exact stuck_paren _
  · rw [if_neg hlt] at hsign
    exact h hsign

theorem stuck_text (e : Expr) (hsign : Unsigned e.text) {rest : List Char} (hrest : EndsWord rest) :
    Stuck (e.text ++ rest) := by
  induction e generalizing rest with
  | literal l =>
    rw [Stuck, nextPrecedence, Expr.text, getToken_literal l hrest]
    exact ⟨(by decide : (-1 : ℤ) < 0), (by decide : MathTokenType.number ∉ _)⟩
  | var x =>
    rw [Stuck, nextPrecedence, Expr.text, getToken_name x hrest]
    exact ⟨(by decide : (-1 : ℤ) < 0), (by decide : MathTokenType.variable ∉ _)⟩
  | paren e => exact stuck_paren _
  | unary op e =>
    have htype : op.type.spelling ≠ [] := by cases op <;> decide
    have hstart := (e.startsOperand.wrap 14 e.level).append rest
    rw [Stuck, nextPrecedence, Expr.text, List.append_assoc,
      getToken_spelling htype hstart.endsOperator]
    cases op with
    | plus => exact absurd rfl hsign.1
    | minus => exact absurd rfl hsign.2
    | bitNot => exact ⟨(by decide : (-1 : ℤ) < 0), (by decide : MathTokenType.bitNot ∉ _)⟩
    | logicalNot =>
      exact ⟨(by decide : (-1 : ℤ) < 0), (by decide : MathTokenType.logicalNot ∉ _)⟩
  | binary op a b iha =>
    have htype : op.type.spelling ≠ [] := by cases op <;> decide
    rw [Expr.text, List.append_assoc, List.append_assoc]
    exact stuck_wrap (fun h => iha h (endsWord_spelling _ htype))
      (hsign.left (a.startsOperand.wrap _ _))
  | and a b iha =>
    rw [Expr.text, List.append_assoc, List.append_assoc]
    exact stuck_wrap (fun h => iha h (endsWord_spelling _ (by decide)))
      (hsign.left (a.startsOperand.wrap _ _))
  | or a b iha =>
    rw [Expr.text, List.append_assoc, List.append_assoc]
    exact stuck_wrap (fun h => iha h (endsWord_spelling _ (by decide)))
      (hsign.left (a.startsOperand.wrap _ _))
  | cond c a b ihc =>
    rw [Expr.text, List.append_assoc]
    exact stuck_wrap (fun h => ihc h (endsWord_spelling .question (by decide)))
      (hsign.left (c.startsOperand.wrap _ _))
  | assign x op e =>
    have htype : op.type.spelling ≠ [] := by cases op <;> decide
    rw [Stuck, nextPrecedence, Expr.text, List.append_assoc, List.append_assoc,
      getToken_name x (endsWord_spelling _ htype)]
    exact ⟨(by decide : (-1 : ℤ) < 0), (by decide : MathTokenType.variable ∉ _)⟩

/-- No right operand of `&&` or `||` is written with a sign first, which an operator could be. -/
def Expr.SignFree : Expr → Prop
  | literal _ | var _ => True
  | paren e | unary _ e | assign _ _ e => e.SignFree
  | binary _ a b => a.SignFree ∧ b.SignFree
  | and a b => a.SignFree ∧ b.SignFree ∧ Unsigned (wrap 6 b.level b.text)
  | or a b => a.SignFree ∧ b.SignFree ∧ Unsigned (wrap 5 b.level b.text)
  | cond c a b => c.SignFree ∧ a.SignFree ∧ b.SignFree

/-- The text of an expression that cannot be evaluated as a whole loses the parser. -/
theorem lost_text (e : Expr) (hsign : e.SignFree) {s : Shell δ W} (h : e.exec s = none) :
    Loses e.level e.text s := by
  induction e generalizing s with
  | literal l | var x => cases h
  | paren e ih => exact (ih hsign h).paren (by have := e.level_pos; omega) _
  | unary op e ih =>
    have hlose := (ih hsign (by simpa [Expr.exec] using h)).wrap
      (by have := e.level_pos; omega) 14
    have hstart := e.startsOperand.wrap 14 e.level
    intro m rest n hm hmp hrest hn
    have htype : op.type.spelling ≠ [] := by cases op <;> decide
    have hlen := length_spelling htype
    simp only [Expr.text, List.length_append] at hn
    obtain ⟨n, rfl⟩ : ∃ k, n = k + 1 := ⟨n - 1, by omega⟩
    rw [Expr.text, List.append_assoc, parseExpression_unary op (hstart.append rest)]
    exact (hlose 14 rest n (by decide) (le_refl _) hrest
      (by rw [List.length_append]; omega)).bind fun v s hs => lost_parseOperators hm n _ s hs
  | binary op a b iha ihb =>
    have hprec := op.precedence
    have htype : op.type.spelling ≠ [] := by cases op <;> decide
    have hassign : isAssignment op.type = false := by cases op <;> rfl
    have hstart := b.startsOperand.wrap (getPrecedence op.type + 1) b.level
    have hor : op.type ≠ .logicalOr := by cases op <;> decide
    have hand : op.type ≠ .logicalAnd := by cases op <;> decide
    cases ha : a.exec s with
    | none =>
      exact ((iha hsign.1 ha).wrap (by have := a.level_pos; omega) _).left _ htype (by omega) hassign
        hstart
    | some va =>
      have hclimb := (climbs_text a ha).wrap (by have := a.level_pos; omega) (getPrecedence op.type)
      cases hb : b.exec va.2 with
      | none =>
        exact .right _ hclimb ((ihb hsign.2 hb).wrap (by have := b.level_pos; omega) _) htype
          (by omega) hassign hstart (absurd · hor) (absurd · hand)
      | some vb =>
        refine .operator _ hclimb ((climbs_text b hb).wrap (by have := b.level_pos; omega) _) htype
          (by omega) hassign hstart (absurd · hor) (absurd · hand) fun v hv => ?_
        have := Expr.exec_binary.mpr ⟨va.1, va.2, vb.1, ha, hb, hv⟩
        rw [h] at this
        cases this
  | and a b iha ihb =>
    have hstart := b.startsOperand.wrap 6 b.level
    cases ha : a.exec s with
    | none =>
      exact Loses.left .logicalAnd
        ((iha hsign.1 ha).wrap (by have := a.level_pos; omega) _) (by decide) (by decide) rfl hstart
    | some va =>
      have hclimb := (climbs_text a ha).wrap (by have := a.level_pos; omega) 5
      by_cases hzero : va.1 = 0
      · exact Loses.skip .logicalAnd hclimb (.inr ⟨rfl, hzero⟩) hstart
          fun rest hrest => stuck_wrap (fun h => stuck_text b h hrest) hsign.2.2
      · have hb : b.exec va.2 = none := by
          by_contra hne
          obtain ⟨vb, hb⟩ := Option.ne_none_iff_exists'.mp hne
          have := Expr.exec_and.mpr ⟨va.1, va.2, vb.1, ha, hzero, hb, rfl⟩
          rw [h] at this
          cases this
        exact Loses.right .logicalAnd hclimb
          ((ihb hsign.2.1 hb).wrap (by have := b.level_pos; omega) _) (by decide) (by decide) rfl
          hstart (fun h => absurd h (by decide)) fun _ => hzero
  | or a b iha ihb =>
    have hstart := b.startsOperand.wrap 5 b.level
    cases ha : a.exec s with
    | none =>
      exact Loses.left .logicalOr
        ((iha hsign.1 ha).wrap (by have := a.level_pos; omega) _) (by decide) (by decide) rfl hstart
    | some va =>
      have hclimb := (climbs_text a ha).wrap (by have := a.level_pos; omega) 4
      by_cases hzero : va.1 = 0
      · have hb : b.exec va.2 = none := by
          by_contra hne
          obtain ⟨vb, hb⟩ := Option.ne_none_iff_exists'.mp hne
          have := Expr.exec_or.mpr ⟨va.1, va.2, vb.1, ha, hzero, hb, rfl⟩
          rw [h] at this
          cases this
        exact Loses.right .logicalOr hclimb
          ((ihb hsign.2.1 hb).wrap (by have := b.level_pos; omega) _) (by decide) (by decide) rfl
          hstart (fun _ => hzero) fun h => absurd h (by decide)
      · exact Loses.skip .logicalOr hclimb (.inl ⟨rfl, hzero⟩) hstart
          fun rest hrest => stuck_wrap (fun h => stuck_text b h hrest) hsign.2.2
  | cond c a b ihc iha ihb =>
    cases hc : c.exec s with
    | none => exact ((ihc hsign.1 hc).wrap (by have := c.level_pos; omega) 4).condition
    | some vc =>
      have hclimb := (climbs_text c hc).wrap (by have := c.level_pos; omega) 4
      cases ha : a.exec vc.2 with
      | none => exact .branch hclimb (iha hsign.2.1 ha) a.level_pos
      | some va =>
        have hb : b.exec va.2 = none := by
          by_contra hne
          obtain ⟨vb, hb⟩ := Option.ne_none_iff_exists'.mp hne
          have := Expr.exec_cond.mpr ⟨vc.1, vc.2, va.1, va.2, vb.1, hc, ha, hb, rfl⟩
          rw [h] at this
          cases this
        exact .otherBranch hclimb (climbs_text a ha) a.level_pos
          ((ihb hsign.2.2 hb).wrap (by have := b.level_pos; omega) 3)
  | assign x op e ih =>
    cases he : e.exec s with
    | none => exact .assign x op (ih hsign he) e.level_pos e.startsOperand
    | some ve =>
      refine (climbs_text e he).loses_assign x op e.level_pos e.startsOperand fun v hv => ?_
      have := Expr.exec_assign.mpr ⟨ve.1, ve.2, he, hv, rfl⟩
      rw [h] at this
      cases this

/-! ## The evaluation of a text -/

/-- An expression that can be evaluated as a whole is evaluated so. -/
theorem evaluateText_of_exec (e : Expr) {s t : Shell δ W} {v : ℤ} (h : e.exec s = some (v, t))
    {n : ℕ} (hn : 2 * e.text.length + 1 < n) :
    evaluateText n ⟨e.text, s⟩ = .ok v ⟨[], t⟩ := by
  have hlevel := e.level_pos
  have hnil : Follows e.level [] := .nil (by omega)
  have hparse := (climbs_text e h).parse (m := 0) (n := n) (le_refl _) (by omega) hnil
    (by decide : (-1 : ℤ) < 0) (by simpa using hn)
  rw [List.append_nil] at hparse
  rw [evaluateText, hparse]
  rfl

/-- One that cannot is not evaluated at all. -/
theorem evaluateText_of_exec_none (e : Expr) (hsign : e.SignFree) {s : Shell δ W}
    (h : e.exec s = none) {n : ℕ} (hn : 2 * e.text.length + 1 < n) (v : ℤ) (t : MathParser δ W) :
    evaluateText n ⟨e.text, s⟩ ≠ .ok v t := by
  have hlevel := e.level_pos
  have hlost := lost_text e hsign h 0 [] n (le_refl _) (by omega) (.nil (by omega))
    (by simpa using hn)
  rw [List.append_nil] at hlost
  rw [evaluateText]
  cases hparse : parseExpression n 0 ⟨e.text, s⟩ with
  | ok w u =>
    have hne : u.next.1.type ≠ .eof := fun heq =>
      (hlost w u hparse).2 (by simp [← heq, MathParser.next])
    rw [Reply.bind_ok, if_pos hne]
    rintro ⟨⟩
  | fail | fault => rintro ⟨⟩

/-- The expression of one digit. -/
def digit (d : Char) (h : d.isDigit = true) : Expr := .literal (.small d h)

theorem eval_digit {d : Char} {h : d.isDigit = true} {v : ℤ}
    (hv : wrapLong (digitsValue 10 [d]) = v) (s : Shell δ W) :
    (digit d h).eval s = some (v, s) := congrArg (fun v => some (v, s)) hv

end Migash.Arithmetic
