import Mathlib.Data.List.Basic
import Mathlib.Data.List.Infix

/-! # Runs of a deterministic system

A run feeds a list of inputs to a step function. What holds of every state of
a run is decided step by step.
-/

namespace Migash.Library

variable {α σ : Type*} {step : σ → α → σ} {P : σ → Prop} {Q : α → σ → Prop}

/-- What every step keeps holds at the end of a run. -/
theorem foldl_invariant (hstep : ∀ s a, P s → P (step s a)) {s : σ} (hs : P s) (as : List α) :
    P (as.foldl step s) := by
  induction as generalizing s with
  | nil => exact hs
  | cons a as ih => exact ih (hstep s a hs)

/-- A step in front of a shorter run. -/
theorem prefix_of_prefix_concat {before as : List α} {a : α} (h : before ++ [a] <+: as) :
    before <+: as := (List.prefix_append before [a]).trans h

/-- The step behind a prefix of a run is one of its inputs. -/
theorem mem_of_prefix_concat {before as : List α} {a : α} (h : before ++ [a] <+: as) : a ∈ as :=
  h.subset List.mem_concat_self

theorem concat_prefix_singleton {before : List α} {a b : α} (h : before ++ [a] <+: [b]) :
    before = [] ∧ a = b := by
  have hlength := h.length_le
  rw [List.length_append, List.length_singleton, List.length_singleton] at hlength
  have hnil : before = [] := List.length_eq_zero_iff.mp (by omega)
  subst hnil
  exact ⟨rfl, List.mem_singleton.mp (mem_of_prefix_concat h)⟩

/-- If each input of a run keeps `P` exactly where `Q` allows it, then `P` holds in every state of the
run exactly if `Q` allows every input of it. -/
theorem forall_prefix_iff {as : List α} (hstep : ∀ a ∈ as, ∀ s, P s → (P (step s a) ↔ Q a s)) {s : σ}
    (hs : P s) :
    (∀ before, before <+: as → P (before.foldl step s)) ↔
      ∀ before a, before ++ [a] <+: as → Q a (before.foldl step s) := by
  constructor
  · intro h before a hprefix
    have hafter := h _ hprefix
    rw [List.foldl_concat] at hafter
    exact (hstep a (mem_of_prefix_concat hprefix) _ (h before (prefix_of_prefix_concat hprefix))).mp hafter
  · intro h before
    induction before using List.reverseRecOn with
    | nil => exact fun _ => hs
    | append_singleton before a ih =>
      intro hprefix
      rw [List.foldl_concat]
      exact (hstep a (mem_of_prefix_concat hprefix) _ (ih (prefix_of_prefix_concat hprefix))).mpr
        (h before a hprefix)

/-- The same for a property `P` that is kept together with an invariant `I`. -/
theorem forall_prefix_iff_of_invariant {I : σ → Prop} {as : List α}
    (hkeep : ∀ a ∈ as, ∀ s, I s → Q a s → I (step s a))
    (hbreak : ∀ a ∈ as, ∀ s, I s → P (step s a) → Q a s) (hP : ∀ s, I s → P s) {s : σ} (hs : I s) :
    (∀ before, before <+: as → P (before.foldl step s)) ↔
      ∀ before a, before ++ [a] <+: as → Q a (before.foldl step s) := by
  have hiff (a : α) (ha : a ∈ as) (t : σ) (ht : I t) : I (step t a) ↔ Q a t :=
    ⟨fun h => hbreak a ha t ht (hP _ h), hkeep a ha t ht⟩
  rw [← forall_prefix_iff hiff hs]
  constructor
  · intro h before
    induction before using List.reverseRecOn with
    | nil => exact fun _ => hs
    | append_singleton before a ih =>
      intro hprefix
      have hbefore := ih (prefix_of_prefix_concat hprefix)
      have ha := mem_of_prefix_concat hprefix
      have hafter := h _ hprefix
      rw [List.foldl_concat] at hafter ⊢
      exact hkeep a ha _ hbefore (hbreak a ha _ hbefore hafter)
  · exact fun h before hprefix => hP _ (h before hprefix)

end Migash.Library
