import Migash.Library.Forward

/-! # Pre- and postconditions

What a computation that moves forward leaves behind, told for its answers and
its failures: an answer lands in a postcondition, a failure in an invariant, from
which an `attempt` goes on.
-/

namespace Migash.Library.Forward

variable {σ ε α β : Type}

/-- From a state of `p` an answer of the computation is in `q`, and a failure in `i`. -/
structure Triple [Preorder σ] (i p : σ → Prop) (m : Forward σ ε α) (q : α → σ → Prop) : Prop where
  answers : ∀ {s a t}, p s → m.run s = .ok a t → q a t
  fails : ∀ {s e t}, p s → m.run s = .fail e t → i t

/-- The computation keeps the invariant, whether it answers or fails. -/
abbrev Keeps [Preorder σ] (i : σ → Prop) (m : Forward σ ε α) : Prop := Triple i i m fun _ => i

namespace Triple

section Rules

variable [Preorder σ] {i p p' : σ → Prop} {q : α → σ → Prop} {r : β → σ → Prop}

theorem weaken {m : Forward σ ε α} (h : Triple i p m q) (hp : ∀ {s}, p' s → p s) :
    Triple i p' m q :=
  ⟨fun hs => h.answers (hp hs), fun hs => h.fails (hp hs)⟩

theorem pure {a : α} (h : ∀ {s}, p s → q a s) :
    Triple i p (Pure.pure a : Forward σ ε α) q where
  answers hs hrun := by
    cases hrun
    exact h hs
  fails _ hrun := by cases hrun

theorem failure {e : ε} (h : ∀ {s}, p s → i s) :
    Triple i p (Forward.failure e : Forward σ ε α) q where
  answers _ hrun := by cases hrun
  fails hs hrun := by
    cases hrun
    exact h hs

theorem stop {c : Fault} : Triple i p (Forward.stop c : Forward σ ε α) q where
  answers _ hrun := by cases hrun
  fails _ hrun := by cases hrun

theorem inspect (f : σ → α) :
    Triple i p (Forward.inspect f : Forward σ ε α) fun a s => p s ∧ f s = a where
  answers hs hrun := by
    cases hrun
    exact ⟨hs, rfl⟩
  fails _ hrun := by cases hrun

theorem update {f : σ → σ} {hf : ∀ s, s ≤ f s} {q : Unit → σ → Prop}
    (h : ∀ {s}, p s → q () (f s)) : Triple i p (Forward.update f hf : Forward σ ε Unit) q where
  answers hs hrun := by
    cases hrun
    exact h hs
  fails _ hrun := by cases hrun

theorem bind {m : Forward σ ε α} {f : α → Forward σ ε β} (hm : Triple i p m q)
    (hf : ∀ a, Triple i (q a) (f a) r) : Triple i p (m >>= f) r where
  answers hs hrun := by
    rw [run_bind, Reply.bind_eq_ok] at hrun
    obtain ⟨a, t, ha, hrest⟩ := hrun
    exact (hf a).answers (hm.answers hs ha) hrest
  fails {s e t} hs hrun := by
    rw [run_bind] at hrun
    cases hm' : m.run s with
    | ok a u =>
      rw [hm'] at hrun
      exact (hf a).fails (hm.answers hs hm') hrun
    | fail e' u =>
      rw [hm'] at hrun
      cases hrun
      exact hm.fails hs hm'
    | fault c =>
      rw [hm'] at hrun
      cases hrun

theorem map {m : Forward σ ε α} {f : α → β} (hm : Triple i p m fun a => r (f a)) :
    Triple i p (f <$> m) r := by
  rw [← bind_pure_comp]
  exact hm.bind fun a => pure id

theorem ite {c : Prop} [Decidable c] {m m' : Forward σ ε α} (h : c → Triple i p m q)
    (h' : ¬ c → Triple i p m' q) : Triple i p (if c then m else m') q := by
  split
  · next hc => exact h hc
  · next hc => exact h' hc

theorem attempt {m : Forward σ ε α} (h : Triple i p m fun _ => i) :
    Triple i p (Forward.attempt m) fun _ => i where
  answers {s a t} hs hrun := by
    rw [run_attempt] at hrun
    split at hrun
    · next a u hm =>
      cases hrun
      exact h.answers hs hm
    · next e u hm =>
      cases hrun
      exact h.fails hs hm
    · cases hrun
  fails {s e t} _ hrun := by
    rw [run_attempt] at hrun
    split at hrun <;> cases hrun

theorem orBack {back : σ → σ → σ} {hback : ∀ {s t}, s ≤ t → s ≤ back s t} {m : Forward σ ε α}
    (h : Triple i p m fun _ => i) (hi : ∀ {s t}, p s → i t → i (back s t)) :
    Triple i p (Forward.orBack back hback m) fun _ => i where
  answers {s a t} hs hrun := by
    rw [run_orBack] at hrun
    split at hrun
    · next a u hm =>
      cases hrun
      exact h.answers hs hm
    · next e u hm =>
      cases hrun
      exact hi hs (h.fails hs hm)
    · cases hrun
  fails {s e t} _ hrun := by
    rw [run_orBack] at hrun
    split at hrun <;> cases hrun

/-- Go on from what an attempt answered, and from what it failed with. -/
theorem attempt_bind {m : Forward σ ε α} {f : Except ε α → Forward σ ε β}
    (hm : Triple i p m fun _ => i) (hok : ∀ a, Triple i i (f (.ok a)) r)
    (herror : ∀ e, Triple i i (f (.error e)) r) : Triple i p (Forward.attempt m >>= f) r :=
  hm.attempt.bind fun
    | .ok a => hok a
    | .error e => herror e

theorem orBack_bind {back : σ → σ → σ} {hback : ∀ {s t}, s ≤ t → s ≤ back s t}
    {m : Forward σ ε α} {f : Option α → Forward σ ε β} (hm : Triple i p m fun _ => i)
    (hi : ∀ {s t}, p s → i t → i (back s t)) (hsome : ∀ a, Triple i i (f (some a)) r)
    (hnone : Triple i i (f none) r) : Triple i p (Forward.orBack back hback m >>= f) r :=
  (hm.orBack hi).bind fun
    | some a => hsome a
    | none => hnone

theorem forEach {f : α → Forward σ ε β} (h : ∀ a, Keeps i (f a)) (as : List α) :
    Keeps i (Forward.forEach f as) := by
  induction as with
  | nil => exact pure id
  | cons a as ih => exact (h a).bind fun _ => ih.bind fun _ => pure id

end Rules

theorem loop [Measured σ] {i : σ → Prop} {body : α → Forward σ ε (Option α)}
    (h : ∀ a, Keeps i (body a)) (a : α) : Keeps i (Forward.loop body a) := by
  have hturns : ∀ n a, Keeps i (iterate body n a) := by
    intro n
    induction n with
    | zero => exact fun _ => stop
    | succ n ih =>
      refine fun a => (h a).bind fun o => ?_
      cases o with
      | none => exact pure id
      | some a' => exact ih a'
  exact ⟨fun {s _ _} hs hrun => (hturns (remaining s + 1) a).answers hs hrun,
    fun {s _ _} hs hrun => (hturns (remaining s + 1) a).fails hs hrun⟩

end Triple

end Migash.Library.Forward
