import Migash.Library.While

/-! # Two computations side by side

`Follows R r r'` says that `r'` does what `r` does: it stops with the same broken
contract, or answers with something that `R` relates to the answer of `r`. About a
computation that has run out of fuel nothing is said.
-/

namespace Migash.Library

variable {α α' β β' σ σ' : Type}

/-- The second computation follows the first one. -/
inductive Follows (R : α → α' → Prop) : Except Fault α → Except Fault α' → Prop where
  | ok {a : α} {a' : α'} (h : R a a') : Follows R (.ok a) (.ok a')
  | contract (text : String) : Follows R (.error (.contract text)) (.error (.contract text))
  | fuel (r' : Except Fault α') : Follows R (.error .fuel) r'

variable {R : α → α' → Prop} {S : β → β' → Prop}

theorem Follows.pure {a : α} {a' : α'} (h : R a a') :
    Follows R (Pure.pure a : Except Fault α) (Pure.pure a') := .ok h

/-- Two computations that stop with the same fault. -/
theorem Follows.fault (cause : Fault) : Follows R (.error cause) (.error cause) := by
  cases cause with
  | contract text => exact .contract text
  | fuel => exact .fuel _

/-- Every computation follows itself. -/
theorem Follows.self (r : Except Fault α) : Follows (fun a a' => a' = a) r r := by
  cases r with
  | ok a => exact .ok rfl
  | error cause => exact .fault cause

theorem Follows.mono {R' : α → α' → Prop} {r : Except Fault α} {r' : Except Fault α'}
    (h : Follows R r r') (himp : ∀ a a', R a a' → R' a a') : Follows R' r r' := by
  cases h with
  | ok h => exact .ok (himp _ _ h)
  | contract text => exact .contract text
  | fuel r' => exact .fuel r'

theorem Follows.bind {r : Except Fault α} {r' : Except Fault α'} {f : α → Except Fault β}
    {f' : α' → Except Fault β'} (h : Follows R r r') (hf : ∀ a a', R a a' → Follows S (f a) (f' a')) :
    Follows S (r >>= f) (r' >>= f') := by
  cases h with
  | ok h => exact hf _ _ h
  | contract text => exact .contract text
  | fuel r' => exact .fuel _

theorem Follows.ite {c c' : Prop} [Decidable c] [Decidable c'] (hc : c ↔ c')
    {r t : Except Fault α} {r' t' : Except Fault α'} (hthen : c → Follows R r r')
    (helse : ¬ c → Follows R t t') :
    Follows R (if c then r else t) (if c' then r' else t') := by
  by_cases h : c
  · rw [if_pos h, if_pos (hc.mp h)]
    exact hthen h
  · rw [if_neg h, if_neg fun h' => h (hc.mpr h')]
    exact helse h

/-- What is known of the answers of the first computation alone. -/
theorem Follows.and_left {r : Except Fault α} {r' : Except Fault α'} {P : α → Prop}
    (h : Follows R r r') (hP : ∀ a, r = .ok a → P a) :
    Follows (fun a a' => R a a' ∧ P a) r r' := by
  cases h with
  | ok h => exact .ok ⟨h, hP _ rfl⟩
  | contract text => exact .contract text
  | fuel r' => exact .fuel r'

/-- What the first computation answers, the second one answers as well. -/
theorem Follows.exists_ok {r' : Except Fault α'} {a : α} (h : Follows R (.ok a) r') :
    ∃ a', r' = .ok a' ∧ R a a' := by
  cases h with
  | ok h => exact ⟨_, rfl, h⟩

/-- Two turns go on, or answer, both. -/
def Next.Both (S : σ → σ' → Prop) (R : α → α' → Prop) : Next σ α → Next σ' α' → Prop
  | .again s, .again s' => S s s'
  | .done a, .done a' => R a a'
  | _, _ => False

/-- Two loops whose turns follow each other. The second one may take more turns. -/
theorem Follows.iterate {S : σ → σ' → Prop} {turn : σ → Except Fault (Next σ α)}
    {turn' : σ' → Except Fault (Next σ' α')}
    (hturn : ∀ s s', S s s' → Follows (Next.Both S R) (turn s) (turn' s')) {n m : ℕ} (hnm : n ≤ m)
    {s : σ} {s' : σ'} (hs : S s s') :
    Follows R (Library.iterate turn n s) (Library.iterate turn' m s') := by
  induction n generalizing m s s' with
  | zero => exact .fuel _
  | succ n ih =>
    obtain ⟨m, rfl⟩ : ∃ k, m = k + 1 := ⟨m - 1, by omega⟩
    have hnext := hturn s s' hs
    rw [Library.iterate, Library.iterate]
    refine hnext.bind fun x x' hx => ?_
    cases x with
    | again t =>
      cases x' with
      | again t' => exact ih (Nat.le_of_succ_le_succ hnm) hx
      | done a' => exact hx.elim
    | done a =>
      cases x' with
      | again t' => exact hx.elim
      | done a' => exact .ok hx

end Migash.Library
