import Mathlib.Order.Nat

/-! # Computations that only move forward

A state monad with failure for readers of a finite input. Every computation
carries the proof that it never moves its state backwards in a preorder, so
that monotonicity composes for free; progress, the possible failures and the
adequacy of fuel are then predicates with one rule for each combinator.
-/

namespace Migash.Library

/-- A preorder of reader states in which the amount of input left can only shrink. -/
class Measured (σ : Type) extends Preorder σ where
  remaining : σ → ℕ
  remaining_anti : ∀ {s t : σ}, s ≤ t → remaining t ≤ remaining s

export Measured (remaining remaining_anti)

/-- Why a computation stopped without an answer: a broken contract of a callee, or a recursion
deeper than its fuel. -/
inductive Fault where
  | contract (text : String)
  | fuel
  deriving DecidableEq, Repr

/-- The answer of a computation: a value, a failure that leaves a state behind, or a fault. -/
inductive Reply (σ ε α : Type) where
  | ok (value : α) (state : σ)
  | fail (failure : ε) (state : σ)
  | fault (cause : Fault)

namespace Reply

variable {σ ε α β : Type}

/-- Continue after a success; failures and faults are passed on. -/
def bind : Reply σ ε α → (α → σ → Reply σ ε β) → Reply σ ε β
  | .ok a s, f => f a s
  | .fail e s, _ => .fail e s
  | .fault c, _ => .fault c

@[simp] theorem bind_ok (a : α) (s : σ) (f : α → σ → Reply σ ε β) :
    (Reply.ok a s).bind f = f a s := rfl

@[simp] theorem bind_fail (e : ε) (s : σ) (f : α → σ → Reply σ ε β) :
    (Reply.fail e s).bind f = .fail e s := rfl

@[simp] theorem bind_fault (c : Fault) (f : α → σ → Reply σ ε β) :
    (Reply.fault c).bind f = .fault c := rfl

theorem bind_eq_ok {r : Reply σ ε α} {f : α → σ → Reply σ ε β} {b : β} {t : σ} :
    r.bind f = .ok b t ↔ ∃ a s, r = .ok a s ∧ f a s = .ok b t := by
  cases r with
  | ok a s => simp [and_assoc]
  | fail e s => simp
  | fault c => simp

/-- Whatever state the answer leaves behind, it is not before `s`. -/
def From [Preorder σ] (s : σ) : Reply σ ε α → Prop
  | .ok _ t | .fail _ t => s ≤ t
  | .fault _ => True

theorem bind_assoc {γ : Type} (r : Reply σ ε α) (f : α → σ → Reply σ ε β)
    (g : β → σ → Reply σ ε γ) : (r.bind f).bind g = r.bind fun a s => (f a s).bind g := by
  cases r <;> rfl

theorem From.bind [Preorder σ] {s : σ} {r : Reply σ ε α} {f : α → σ → Reply σ ε β}
    (hr : r.From s) (hf : ∀ a t, (f a t).From t) : (r.bind f).From s := by
  cases r with
  | fail e t => exact hr
  | fault c => trivial
  | ok a t =>
    have h := hf a t
    rw [bind_ok]
    generalize f a t = q at h
    cases q with
    | ok b u => exact le_trans hr h
    | fail e u => exact le_trans hr h
    | fault c => trivial

end Reply

/-- A computation that never moves its state backwards. -/
structure Forward (σ : Type) [Preorder σ] (ε α : Type) where
  run : σ → Reply σ ε α
  forward : ∀ s, (run s).From s

namespace Forward

section Combinators

variable {σ ε α β : Type} [Preorder σ]

instance : Monad (Forward σ ε) where
  pure a := ⟨fun s => .ok a s, fun s => le_refl s⟩
  bind m f := ⟨fun s => (m.run s).bind fun a t => (f a).run t,
    fun s => (m.forward s).bind fun a t => (f a).forward t⟩

@[simp] theorem run_pure (a : α) (s : σ) : (pure a : Forward σ ε α).run s = .ok a s := rfl

@[simp] theorem run_bind (m : Forward σ ε α) (f : α → Forward σ ε β) (s : σ) :
    (m >>= f).run s = (m.run s).bind fun a t => (f a).run t := rfl

@[simp] theorem run_map (f : α → β) (m : Forward σ ε α) (s : σ) :
    (f <$> m).run s = (m.run s).bind fun a t => .ok (f a) t := rfl

theorem eq_of_run {m m' : Forward σ ε α} (h : ∀ s, m.run s = m'.run s) : m = m' := by
  obtain ⟨run, _⟩ := m
  obtain ⟨run', _⟩ := m'
  obtain rfl : run = run' := funext h
  rfl

instance : LawfulMonad (Forward σ ε) := by
  refine LawfulMonad.mk' _ ?_ ?_ ?_
  · intro α m
    apply eq_of_run
    intro s
    change (m.run s).bind (fun a t => .ok a t) = m.run s
    cases m.run s <;> rfl
  · intro α β a f
    rfl
  · intro α β γ m f g
    apply eq_of_run
    intro s
    exact Reply.bind_assoc _ _ _

/-- Read the state. -/
def inspect (f : σ → α) : Forward σ ε α := ⟨fun s => .ok (f s) s, fun s => le_refl s⟩

@[simp] theorem run_inspect (f : σ → α) (s : σ) :
    (inspect f : Forward σ ε α).run s = .ok (f s) s := rfl

/-- Replace the state by a later one. -/
def update (f : σ → σ) (h : ∀ s, s ≤ f s) : Forward σ ε Unit := ⟨fun s => .ok () (f s), h⟩

@[simp] theorem run_update (f : σ → σ) (h : ∀ s, s ≤ f s) (s : σ) :
    (update f h : Forward σ ε Unit).run s = .ok () (f s) := rfl

/-- Give up with a failure. -/
def failure (e : ε) : Forward σ ε α := ⟨fun s => .fail e s, fun s => le_refl s⟩

@[simp] theorem run_failure (e : ε) (s : σ) : (failure e : Forward σ ε α).run s = .fail e s := rfl

/-- Stop with a fault. -/
def stop (c : Fault) : Forward σ ε α := ⟨fun _ => .fault c, fun _ => trivial⟩

@[simp] theorem run_stop (c : Fault) (s : σ) : (stop c : Forward σ ε α).run s = .fault c := rfl

/-- Turn a failure into a value, keeping the state it left. -/
def attempt (m : Forward σ ε α) : Forward σ ε (Except ε α) where
  run s := match m.run s with
    | .ok a t => .ok (.ok a) t
    | .fail e t => .ok (.error e) t
    | .fault c => .fault c
  forward s := by
    have h := m.forward s
    generalize m.run s = r at h
    cases r with
    | ok a t => exact h
    | fail e t => exact h
    | fault c => trivial

theorem run_attempt (m : Forward σ ε α) (s : σ) :
    (attempt m).run s = match m.run s with
      | .ok a t => .ok (.ok a) t
      | .fail e t => .ok (.error e) t
      | .fault c => .fault c := rfl

/-- On a failure go back to a state computed from the one at the start and the one reached. -/
def orBack (back : σ → σ → σ) (h : ∀ {s t}, s ≤ t → s ≤ back s t) (m : Forward σ ε α) :
    Forward σ ε (Option α) where
  run s := match m.run s with
    | .ok a t => .ok (some a) t
    | .fail _ t => .ok none (back s t)
    | .fault c => .fault c
  forward s := by
    have hm := m.forward s
    generalize m.run s = r at hm
    cases r with
    | ok a t => exact hm
    | fail e t => exact h hm
    | fault c => trivial

theorem run_orBack (back : σ → σ → σ) (h : ∀ {s t}, s ≤ t → s ≤ back s t)
    (m : Forward σ ε α) (s : σ) :
    (orBack back h m).run s = match m.run s with
      | .ok a t => .ok (some a) t
      | .fail _ t => .ok none (back s t)
      | .fault c => .fault c := rfl

/-- Apply a computation to each element of a list, from left to right. -/
def forEach (f : α → Forward σ ε β) : List α → Forward σ ε (List β)
  | [] => pure []
  | a :: as => do
    let b ← f a
    let bs ← forEach f as
    return b :: bs

/-- Iterate a body until it answers `none`, at most `n` times. -/
def iterate (body : α → Forward σ ε (Option α)) : ℕ → α → Forward σ ε α
  | 0, _ => stop .fuel
  | n + 1, a => do
    match ← body a with
    | none => pure a
    | some a' => iterate body n a'

theorem le_of_ok {m : Forward σ ε α} {s t : σ} {a : α} (h : m.run s = .ok a t) : s ≤ t := by
  have hm := m.forward s
  rwa [h] at hm

theorem le_of_fail {m : Forward σ ε α} {s t : σ} {e : ε} (h : m.run s = .fail e t) : s ≤ t := by
  have hm := m.forward s
  rwa [h] at hm

end Combinators

variable {σ ε α β : Type} [Measured σ]

/-- A loop: enough iterations for a body that consumes input whenever it goes on. -/
def loop (body : α → Forward σ ε (Option α)) (a : α) : Forward σ ε α where
  run s := (iterate body (remaining s + 1) a).run s
  forward s := (iterate body (remaining s + 1) a).forward s

/-! ## Fuel -/

/-- From states with fewer than `n` units of input left the computation does not run out of
fuel. -/
def Within (n : ℕ) (m : Forward σ ε α) : Prop :=
  ∀ s, remaining s < n → m.run s ≠ .fault .fuel

namespace Within

variable {n : ℕ}

theorem mono {k : ℕ} {m : Forward σ ε α} (h : Within n m) (hk : k ≤ n) : Within k m :=
  fun s hs => h s (hs.trans_le hk)

theorem pure (a : α) : Within n (Pure.pure a : Forward σ ε α) := fun _ _ => by simp

theorem inspect (f : σ → α) : Within n (Forward.inspect f : Forward σ ε α) := fun _ _ => by simp

theorem update (f : σ → σ) (h : ∀ s, s ≤ f s) :
    Within n (Forward.update f h : Forward σ ε Unit) := fun _ _ => by simp

theorem failure (e : ε) : Within n (Forward.failure e : Forward σ ε α) := fun _ _ => by simp

theorem stop {c : Fault} (hc : c ≠ .fuel) : Within n (Forward.stop c : Forward σ ε α) :=
  fun _ _ => by simpa using hc

theorem bind {m : Forward σ ε α} {f : α → Forward σ ε β} (hm : Within n m)
    (hf : ∀ a, Within n (f a)) : Within n (m >>= f) := by
  intro s hs
  have h := hm s hs
  have hle := m.forward s
  rw [run_bind]
  generalize m.run s = r at h hle
  cases r with
  | ok a t => exact hf a t ((remaining_anti hle).trans_lt hs)
  | fail e t => simp
  | fault c => simpa using h

theorem ite {p : Prop} [Decidable p] {m m' : Forward σ ε α} (h : Within n m) (h' : Within n m') :
    Within n (if p then m else m') := by
  split
  · exact h
  · exact h'

theorem attempt {m : Forward σ ε α} (h : Within n m) : Within n (Forward.attempt m) := by
  intro s hs
  have h := h s hs
  rw [run_attempt]
  generalize m.run s = r at h
  cases r <;> simp_all

theorem orBack {back : σ → σ → σ} (hb : ∀ {s t}, s ≤ t → s ≤ back s t) {m : Forward σ ε α}
    (h : Within n m) : Within n (Forward.orBack back hb m) := by
  intro s hs
  have h := h s hs
  rw [run_orBack]
  generalize m.run s = r at h
  cases r <;> simp_all

theorem map {m : Forward σ ε α} (f : α → β) (h : Within n m) : Within n (f <$> m) :=
  h.bind fun _ => pure _

theorem forEach {f : α → Forward σ ε β} (h : ∀ a, Within n (f a)) (as : List α) :
    Within n (Forward.forEach f as) := by
  induction as with
  | nil => exact pure _
  | cons a as ih => exact (h a).bind fun _ => ih.bind fun _ => pure _

end Within

/-! ## Progress -/

/-- Whenever the computation succeeds with a value in `p`, some input was consumed. -/
def Consumes (p : α → Prop) (m : Forward σ ε α) : Prop :=
  ∀ s a t, m.run s = .ok a t → p a → remaining t < remaining s

namespace Consumes

theorem bind_left {p : α → Prop} {q : β → Prop} {m : Forward σ ε α} {f : α → Forward σ ε β}
    (h : Consumes p m) (hp : ∀ a, p a) : Consumes q (m >>= f) := by
  intro s b t hrun _
  rw [run_bind, Reply.bind_eq_ok] at hrun
  obtain ⟨a, u, hm, hf⟩ := hrun
  exact (remaining_anti (le_of_ok hf)).trans_lt (h s a u hm (hp a))

theorem map {q : β → Prop} {m : Forward σ ε α} {f : α → β} (h : Consumes (fun a => q (f a)) m) :
    Consumes q (f <$> m) := by
  intro s b t hrun hq
  change (m >>= fun a => Pure.pure (f a)).run s = _ at hrun
  rw [run_bind, Reply.bind_eq_ok] at hrun
  obtain ⟨a, u, hm, hf⟩ := hrun
  simp only [run_pure, Reply.ok.injEq] at hf
  obtain ⟨rfl, rfl⟩ := hf
  exact h s a u hm hq

/-- A body that goes on exactly when an inner computation succeeds, and that one consumes. -/
theorem attempt_bind {q : β → Prop} {m : Forward σ ε α} {f : Except ε α → Forward σ ε β}
    (hm : Consumes (fun _ => True) m) (hf : ∀ e, Consumes q (f (.error e))) :
    Consumes q (Forward.attempt m >>= f) := by
  intro s b t hrun hq
  rw [run_bind, Reply.bind_eq_ok] at hrun
  obtain ⟨a, u, ha, hb⟩ := hrun
  rw [run_attempt] at ha
  cases hrun : m.run s with
  | ok a' t' =>
    have hlt := hm s a' t' hrun trivial
    simp only [hrun, Reply.ok.injEq] at ha
    obtain ⟨rfl, rfl⟩ := ha
    exact (remaining_anti (le_of_ok hb)).trans_lt hlt
  | fail e t' =>
    have hle := le_of_fail hrun
    simp only [hrun, Reply.ok.injEq] at ha
    obtain ⟨rfl, rfl⟩ := ha
    exact (hf e t' b t hb hq).trans_le (remaining_anti hle)
  | fault c => simp [hrun] at ha

theorem orBack_bind {q : β → Prop} {back : σ → σ → σ} (h : ∀ {s t}, s ≤ t → s ≤ back s t)
    {m : Forward σ ε α} {f : Option α → Forward σ ε β} (hm : Consumes (fun _ => True) m)
    (hf : Consumes q (f none)) : Consumes q (Forward.orBack back h m >>= f) := by
  intro s b t hrun hq
  rw [run_bind, Reply.bind_eq_ok] at hrun
  obtain ⟨a, u, ha, hb⟩ := hrun
  rw [run_orBack] at ha
  cases hrun : m.run s with
  | ok a' t' =>
    have hlt := hm s a' t' hrun trivial
    simp only [hrun, Reply.ok.injEq] at ha
    obtain ⟨rfl, rfl⟩ := ha
    exact (remaining_anti (le_of_ok hb)).trans_lt hlt
  | fail e t' =>
    have hle := h (le_of_fail hrun)
    simp only [hrun, Reply.ok.injEq] at ha
    obtain ⟨rfl, rfl⟩ := ha
    exact (hf _ b t hb hq).trans_le (remaining_anti hle)
  | fault c => simp [hrun] at ha

theorem bind_right {q : β → Prop} {m : Forward σ ε α} {f : α → Forward σ ε β}
    (h : ∀ a, Consumes q (f a)) : Consumes q (m >>= f) := by
  intro s b t hrun hq
  rw [run_bind, Reply.bind_eq_ok] at hrun
  obtain ⟨a, u, hm, hf⟩ := hrun
  exact (h a u b t hf hq).trans_le (remaining_anti (le_of_ok hm))

theorem pure {p : α → Prop} {a : α} (h : ¬ p a) : Consumes p (Pure.pure a : Forward σ ε α) := by
  intro s b t hrun hp
  simp only [run_pure, Reply.ok.injEq] at hrun
  exact absurd (hrun.1 ▸ hp) h

theorem failure {p : α → Prop} (e : ε) : Consumes p (Forward.failure e : Forward σ ε α) := by
  intro s b t hrun
  simp at hrun

theorem ite {p : α → Prop} {c : Prop} [Decidable c] {m m' : Forward σ ε α}
    (h : c → Consumes p m) (h' : ¬ c → Consumes p m') : Consumes p (if c then m else m') := by
  split
  · next hc => exact h hc
  · next hc => exact h' hc

end Consumes

/-! ## Failures -/

/-- Every failure of the computation is one of `p`. -/
def FailsOnly (p : ε → Prop) (m : Forward σ ε α) : Prop :=
  ∀ s e t, m.run s = .fail e t → p e

namespace FailsOnly

variable {p : ε → Prop}

theorem pure (a : α) : FailsOnly p (Pure.pure a : Forward σ ε α) := fun _ _ _ h => by simp at h

theorem inspect (f : σ → α) : FailsOnly p (Forward.inspect f : Forward σ ε α) :=
  fun _ _ _ h => by simp at h

theorem update (f : σ → σ) (h : ∀ s, s ≤ f s) :
    FailsOnly p (Forward.update f h : Forward σ ε Unit) := fun _ _ _ h => by simp at h

theorem failure {e : ε} (h : p e) : FailsOnly p (Forward.failure e : Forward σ ε α) := by
  intro s e' t hrun
  simp only [run_failure, Reply.fail.injEq] at hrun
  exact hrun.1 ▸ h

theorem bind {m : Forward σ ε α} {f : α → Forward σ ε β} (hm : FailsOnly p m)
    (hf : ∀ a, FailsOnly p (f a)) : FailsOnly p (m >>= f) := by
  intro s e t hrun
  rw [run_bind] at hrun
  cases h : m.run s with
  | ok a u => exact hf a u e t (by simpa [h] using hrun)
  | fail e' u =>
    simp only [h, Reply.bind_fail, Reply.fail.injEq] at hrun
    exact hrun.1 ▸ hm s e' u h
  | fault c => simp [h] at hrun

theorem map {m : Forward σ ε α} (f : α → β) (h : FailsOnly p m) : FailsOnly p (f <$> m) :=
  h.bind fun _ => pure _

theorem ite {c : Prop} [Decidable c] {m m' : Forward σ ε α} (h : FailsOnly p m)
    (h' : FailsOnly p m') : FailsOnly p (if c then m else m') := by
  split
  · exact h
  · exact h'

theorem attempt (m : Forward σ ε α) : FailsOnly p (Forward.attempt m) := by
  intro s e t hrun
  rw [run_attempt] at hrun
  cases h : m.run s <;> simp [h] at hrun

theorem orBack {back : σ → σ → σ} (h : ∀ {s t}, s ≤ t → s ≤ back s t) (m : Forward σ ε α) :
    FailsOnly p (Forward.orBack back h m) := by
  intro s e t hrun
  rw [run_orBack] at hrun
  cases h : m.run s <;> simp [h] at hrun

theorem forEach {f : α → Forward σ ε β} (h : ∀ a, FailsOnly p (f a)) (as : List α) :
    FailsOnly p (Forward.forEach f as) := by
  induction as with
  | nil => exact pure _
  | cons a as ih => exact (h a).bind fun _ => ih.bind fun _ => pure _

theorem loop {body : α → Forward σ ε (Option α)} (h : ∀ a, FailsOnly p (body a)) (a : α) :
    FailsOnly p (Forward.loop body a) := by
  have hiter : ∀ n a, FailsOnly p (Forward.iterate body n a) := by
    intro n
    induction n with
    | zero => exact fun a s e t hrun => by simp [Forward.iterate] at hrun
    | succ n ih =>
      refine fun a => (h a).bind fun o => ?_
      cases o with
      | none => exact pure _
      | some a' => exact ih a'
  exact fun s e t hrun => hiter (remaining s + 1) a s e t hrun

end FailsOnly

/-! ## Values -/

/-- From the state `s₀` on, every value satisfies `p`. -/
def YieldsAfter (s₀ : σ) (p : α → Prop) (m : Forward σ ε α) : Prop :=
  ∀ s a t, s₀ ≤ s → m.run s = .ok a t → p a

namespace YieldsAfter

variable {s₀ : σ} {p : α → Prop} {q : β → Prop}

theorem pure {a : α} (h : p a) : YieldsAfter s₀ p (Pure.pure a : Forward σ ε α) := by
  intro s b t _ hrun
  simp only [run_pure, Reply.ok.injEq] at hrun
  exact hrun.1 ▸ h

theorem failure (e : ε) : YieldsAfter s₀ p (Forward.failure e : Forward σ ε α) :=
  fun _ _ _ _ h => by simp at h

theorem stop (c : Fault) : YieldsAfter s₀ p (Forward.stop c : Forward σ ε α) :=
  fun _ _ _ _ hrun => nomatch hrun

theorem bind_of {m : Forward σ ε β} {f : β → Forward σ ε α} (hm : YieldsAfter s₀ q m)
    (hf : ∀ b, q b → YieldsAfter s₀ p (f b)) : YieldsAfter s₀ p (m >>= f) := by
  intro s a t hs hrun
  rw [run_bind, Reply.bind_eq_ok] at hrun
  obtain ⟨b, u, hb, hfb⟩ := hrun
  exact hf b (hm s b u hs hb) u a t (hs.trans (le_of_ok hb)) hfb

theorem bind {m : Forward σ ε β} {f : β → Forward σ ε α} (hf : ∀ b, YieldsAfter s₀ p (f b)) :
    YieldsAfter s₀ p (m >>= f) :=
  bind_of (q := fun _ => True) (fun _ _ _ _ _ => trivial) fun b _ => hf b

theorem map {m : Forward σ ε β} {f : β → α} (hm : YieldsAfter s₀ q m) (hf : ∀ b, q b → p (f b)) :
    YieldsAfter s₀ p (f <$> m) := by
  intro s a t hs hrun
  rw [run_map, Reply.bind_eq_ok] at hrun
  obtain ⟨b, u, hb, ha⟩ := hrun
  cases ha
  exact hf b (hm s b t hs hb)

theorem ite {c : Prop} [Decidable c] {m m' : Forward σ ε α} (h : c → YieldsAfter s₀ p m)
    (h' : ¬ c → YieldsAfter s₀ p m') : YieldsAfter s₀ p (if c then m else m') := by
  split_ifs with hc
  · exact h hc
  · exact h' hc

theorem attempt {m : Forward σ ε α} (h : YieldsAfter s₀ p m) :
    YieldsAfter s₀ (fun r => ∀ a ∈ r.toOption, p a) (Forward.attempt m) := by
  intro s r t hs hrun
  rw [run_attempt] at hrun
  cases hm : m.run s with
  | ok a u =>
    rw [hm] at hrun
    cases hrun
    intro a' ha'
    cases ha'
    exact h s a _ hs hm
  | fail e u =>
    rw [hm] at hrun
    cases hrun
    intro a' ha'
    cases ha'
  | fault c =>
    rw [hm] at hrun
    cases hrun

theorem orBack {back : σ → σ → σ} {hback : ∀ {s t}, s ≤ t → s ≤ back s t} {m : Forward σ ε α}
    (h : YieldsAfter s₀ p m) :
    YieldsAfter s₀ (fun o => ∀ a ∈ o, p a) (Forward.orBack back hback m) := by
  intro s o t hs hrun
  rw [run_orBack] at hrun
  cases hm : m.run s with
  | ok a u =>
    rw [hm] at hrun
    cases hrun
    intro a' ha'
    cases ha'
    exact h s a _ hs hm
  | fail e u =>
    rw [hm] at hrun
    cases hrun
    intro a' ha'
    cases ha'
  | fault c =>
    rw [hm] at hrun
    cases hrun

/-- A loop keeps what each turn of its body keeps. -/
theorem loop {body : α → Forward σ ε (Option α)}
    (hb : ∀ a, p a → YieldsAfter s₀ (fun o => ∀ a' ∈ o, p a') (body a)) {a : α} (ha : p a) :
    YieldsAfter s₀ p (Forward.loop body a) := by
  intro s b t hs hrun
  change (iterate body (remaining s + 1) a).run s = .ok b t at hrun
  generalize remaining s + 1 = n at hrun
  induction n generalizing a s with
  | zero => cases hrun
  | succ n ih =>
    rw [iterate, run_bind, Reply.bind_eq_ok] at hrun
    obtain ⟨o, u, ho, hrest⟩ := hrun
    cases o with
    | none =>
      cases hrest
      exact ha
    | some a' => exact ih (hb a ha s _ u hs ho a' rfl) u (hs.trans (le_of_ok ho)) hrest

theorem forEach {f : β → Forward σ ε α} {as : List β} (h : ∀ a ∈ as, YieldsAfter s₀ p (f a)) :
    YieldsAfter s₀ (fun bs => bs.length = as.length ∧ ∀ b ∈ bs, p b) (Forward.forEach f as) := by
  induction as with
  | nil => exact pure ⟨rfl, by simp⟩
  | cons a as ih =>
    have hrest := ih fun a' ha' => h a' (List.mem_cons_of_mem a ha')
    refine bind_of (h a List.mem_cons_self) fun b hb => bind_of hrest ?_
    rintro bs ⟨hlength, hbs⟩
    exact pure ⟨by simp [hlength], List.forall_mem_cons.mpr ⟨hb, hbs⟩⟩

end YieldsAfter

/-- Every value the computation succeeds with is one of `p`. -/
def Yields (p : α → Prop) (m : Forward σ ε α) : Prop :=
  ∀ s a t, m.run s = .ok a t → p a

/-- A computation yields what it yields from each state on. -/
theorem yields_iff {p : α → Prop} {m : Forward σ ε α} :
    Yields p m ↔ ∀ s₀, YieldsAfter s₀ p m :=
  ⟨fun h _ s a t _ hrun => h s a t hrun, fun h s a t hrun => h s s a t le_rfl hrun⟩

namespace Yields

variable {p : α → Prop} {q : β → Prop}

theorem after {m : Forward σ ε α} (h : Yields p m) (s₀ : σ) : YieldsAfter s₀ p m := yields_iff.mp h s₀

theorem pure {a : α} (h : p a) : Yields p (Pure.pure a : Forward σ ε α) :=
  yields_iff.mpr fun _ => .pure h

theorem failure (e : ε) : Yields p (Forward.failure e : Forward σ ε α) :=
  yields_iff.mpr fun _ => .failure e

theorem bind {m : Forward σ ε β} {f : β → Forward σ ε α} (hf : ∀ b, Yields p (f b)) :
    Yields p (m >>= f) :=
  yields_iff.mpr fun s₀ => .bind fun b => (hf b).after s₀

/-- The second half may use what the first one yields. -/
theorem bind_of {m : Forward σ ε β} {f : β → Forward σ ε α} (hm : Yields q m)
    (hf : ∀ b, q b → Yields p (f b)) : Yields p (m >>= f) :=
  yields_iff.mpr fun s₀ => .bind_of (hm.after s₀) fun b hb => (hf b hb).after s₀

theorem ite {c : Prop} [Decidable c] {m m' : Forward σ ε α} (h : c → Yields p m)
    (h' : ¬ c → Yields p m') : Yields p (if c then m else m') :=
  yields_iff.mpr fun s₀ => .ite (fun hc => (h hc).after s₀) fun hc => (h' hc).after s₀

/-- A loop keeps what each turn of its body keeps. -/
theorem loop {body : α → Forward σ ε (Option α)}
    (hb : ∀ a, p a → Yields (fun o => ∀ a' ∈ o, p a') (body a)) {a : α} (ha : p a) :
    Yields p (Forward.loop body a) :=
  yields_iff.mpr fun s₀ => .loop (fun a ha => (hb a ha).after s₀) ha

theorem forEach {f : β → Forward σ ε α} {as : List β} (h : ∀ a ∈ as, Yields p (f a)) :
    Yields (fun bs => bs.length = as.length ∧ ∀ b ∈ bs, p b) (Forward.forEach f as) :=
  yields_iff.mpr fun s₀ => .forEach fun a ha => (h a ha).after s₀

theorem attempt {m : Forward σ ε α} (h : Yields p m) :
    Yields (fun r => ∀ a ∈ r.toOption, p a) (Forward.attempt m) :=
  yields_iff.mpr fun s₀ => .attempt (h.after s₀)

theorem orBack {back : σ → σ → σ} {hback : ∀ {s t}, s ≤ t → s ≤ back s t} {m : Forward σ ε α}
    (h : Yields p m) : Yields (fun o => ∀ a ∈ o, p a) (Forward.orBack back hback m) :=
  yields_iff.mpr fun s₀ => .orBack (h.after s₀)

end Yields

/-- A computation that consumes input before it continues may continue with less fuel. -/
theorem Within.bind_consume {n : ℕ} {m : Forward σ ε α} {f : α → Forward σ ε β}
    (hm : Within (n + 1) m) (hc : Consumes (fun _ => True) m) (hf : ∀ a, Within n (f a)) :
    Within (n + 1) (m >>= f) := by
  intro s hs
  have h := hm s hs
  rw [run_bind]
  cases hrun : m.run s with
  | ok a t => exact hf a t (by have := hc s a t hrun trivial; omega)
  | fail e t => simp
  | fault c => simpa [hrun] using h

/-! ## Loops -/

section Loop

variable {body : α → Forward σ ε (Option α)}

private theorem iterate_fuel (hb : ∀ a, Consumes (fun o => o.isSome) (body a)) :
    ∀ n k a s, remaining s < n → remaining s < k →
      (iterate body n a).run s = (iterate body k a).run s := by
  intro n
  induction n with
  | zero => intro k a s h; omega
  | succ n ih =>
    intro k a s hn hk
    obtain ⟨k, rfl⟩ : ∃ j, k = j + 1 := ⟨k - 1, by omega⟩
    simp only [iterate, run_bind]
    cases hrun : (body a).run s with
    | fail e t => rfl
    | fault c => rfl
    | ok o t =>
      cases o with
      | none => rfl
      | some a' =>
        have hlt := hb a s (some a') t hrun rfl
        exact ih k a' t (by omega) (by omega)

/-- One turn of a loop whose body consumes input whenever it goes on. -/
theorem run_loop (hb : ∀ a, Consumes (fun o => o.isSome) (body a)) (a : α) (s : σ) :
    (loop body a).run s = ((body a).run s).bind fun o t =>
      match o with
      | none => .ok a t
      | some a' => (loop body a').run t := by
  change (iterate body (remaining s + 1) a).run s = _
  simp only [iterate, run_bind]
  cases hrun : (body a).run s with
  | fail e t => rfl
  | fault c => rfl
  | ok o t =>
    cases o with
    | none => rfl
    | some a' =>
      have hlt := hb a s (some a') t hrun rfl
      simp only [Reply.bind_ok]
      exact iterate_fuel hb _ (remaining t + 1) a' t (by omega) (by omega)

/-- A loop whose body stops at once. -/
theorem run_loop_break {a : α} {s t : σ} (h : (body a).run s = .ok none t) :
    (loop body a).run s = .ok a t := by
  change (iterate body (remaining s + 1) a).run s = _
  simp [iterate, h]

private theorem iterate_within {n : ℕ} (hw : ∀ a, Within n (body a))
    (hb : ∀ a, Consumes (fun o => o.isSome) (body a)) :
    ∀ k a s, remaining s < n → remaining s < k → (iterate body k a).run s ≠ .fault .fuel := by
  intro k
  induction k with
  | zero => intro a s _ h; omega
  | succ k ih =>
    intro a s hs hk
    have h := hw a s hs
    simp only [iterate, run_bind]
    cases hrun : (body a).run s with
    | fail e t => simp
    | fault c => simpa [hrun] using h
    | ok o t =>
      cases o with
      | none => simp
      | some a' =>
        have hlt := hb a s (some a') t hrun rfl
        exact ih a' t (by omega) (by omega)

theorem Within.loop {n : ℕ} (hw : ∀ a, Within n (body a))
    (hb : ∀ a, Consumes (fun o => o.isSome) (body a)) (a : α) :
    Within n (Forward.loop body a) :=
  fun s hs => iterate_within hw hb _ a s hs (Nat.lt_succ_self _)

end Loop

end Forward

end Migash.Library
