import Mathlib.Order.Defs.Unbundled

/-! # Computations with a state that may stop

`Ensures m s Q` says that `m`, started in `s`, either stops or ends with `Q`.
One rule for each way of putting computations together, and the equations that
run a computation step by step.
-/

namespace Migash.Library

/-- Computations over a state `σ` that may stop with an `ε`. -/
abbrev Stateful (σ ε α : Type) := StateT σ (Except ε) α

variable {σ ε α β : Type}

namespace Stateful

/-- What a computation gives when its first half answers. -/
theorem run_bind_ok {m : Stateful σ ε α} {f : α → Stateful σ ε β} {s t : σ} {a : α}
    (h : m.run s = .ok (a, t)) : (m >>= f).run s = (f a).run t := by
  rw [StateT.run_bind, h]
  rfl

theorem run_bind_error {m : Stateful σ ε α} {f : α → Stateful σ ε β} {s : σ} {e : ε}
    (h : m.run s = .error e) : (m >>= f).run s = .error e := by
  rw [StateT.run_bind, h]
  rfl

theorem run_bind_eq_ok {m : Stateful σ ε α} {f : α → Stateful σ ε β} {s u : σ} {b : β} :
    (m >>= f).run s = .ok (b, u) ↔ ∃ a t, m.run s = .ok (a, t) ∧ (f a).run t = .ok (b, u) := by
  cases h : m.run s with
  | error e => simp [run_bind_error h]
  | ok p =>
    obtain ⟨a, t⟩ := p
    rw [run_bind_ok h]
    constructor
    · intro hfa
      exact ⟨a, t, rfl, hfa⟩
    · rintro ⟨a', t', heq, hfa⟩
      cases heq
      exact hfa

@[simp] theorem run_throw_eq (e : ε) (s : σ) :
    (throw e : Stateful σ ε α).run s = .error e := rfl

@[simp] theorem run_pure_eq (a : α) (s : σ) :
    (pure a : Stateful σ ε α).run s = .ok (a, s) := rfl

@[simp] theorem run_get_eq (s : σ) : (get : Stateful σ ε σ).run s = .ok (s, s) := rfl

@[simp] theorem run_set_eq (s t : σ) :
    (set t : Stateful σ ε PUnit).run s = .ok (⟨⟩, t) := rfl

@[simp] theorem run_modify_eq (g : σ → σ) (s : σ) :
    (modify g : Stateful σ ε PUnit).run s = .ok (⟨⟩, g s) := rfl

end Stateful

/-- If `m` answers when it is started in `s`, its answer and the state it leaves satisfy `Q`. -/
structure Ensures (m : Stateful σ ε α) (s : σ) (Q : α → σ → Prop) : Prop where
  answer : ∀ a t, m.run s = .ok (a, t) → Q a t

namespace Ensures

variable {m : Stateful σ ε α} {f : α → Stateful σ ε β} {s : σ} {P Q : α → σ → Prop}
  {R : β → σ → Prop}

theorem mono (h : Ensures m s P) (himp : ∀ a t, P a t → Q a t) : Ensures m s Q :=
  ⟨fun a t hrun => himp a t (h.answer a t hrun)⟩

theorem any : Ensures m s fun _ _ => True := ⟨fun _ _ _ => trivial⟩

theorem and (hP : Ensures m s P) (hQ : Ensures m s Q) : Ensures m s fun a t => P a t ∧ Q a t :=
  ⟨fun a t hrun => ⟨hP.answer a t hrun, hQ.answer a t hrun⟩⟩

theorem of_ok {a : α} {t : σ} (h : m.run s = .ok (a, t)) (hQ : Q a t) : Ensures m s Q := by
  constructor
  intro b u hrun
  cases h.symm.trans hrun
  exact hQ

theorem of_error {e : ε} (h : m.run s = .error e) : Ensures m s Q := by
  constructor
  intro b u hrun
  cases h.symm.trans hrun

theorem of_pure {a : α} (h : Q a s) : Ensures (pure a : Stateful σ ε α) s Q :=
  of_ok (Stateful.run_pure_eq a s) h

theorem of_throw {e : ε} : Ensures (throw e : Stateful σ ε α) s Q :=
  of_error (Stateful.run_throw_eq e s)

theorem bind (h : Ensures m s P) (hf : ∀ a t, P a t → Ensures (f a) t R) :
    Ensures (m >>= f) s R := by
  constructor
  intro b u hrun
  obtain ⟨a, t, hm, hfa⟩ := Stateful.run_bind_eq_ok.mp hrun
  exact (hf a t (h.answer a t hm)).answer b u hfa

/-- A first half whose outcome is known. -/
theorem bind_ok {a : α} {t : σ} (hm : m.run s = .ok (a, t)) (h : Ensures (f a) t R) :
    Ensures (m >>= f) s R := by
  constructor
  intro b u hrun
  rw [Stateful.run_bind_ok hm] at hrun
  exact h.answer b u hrun

theorem get_bind {f : σ → Stateful σ ε β} (h : Ensures (f s) s R) : Ensures (get >>= f) s R :=
  bind_ok (Stateful.run_get_eq s) h

theorem modify_bind {g : σ → σ} {f : PUnit → Stateful σ ε β} (h : Ensures (f ⟨⟩) (g s) R) :
    Ensures (modify g >>= f) s R :=
  bind_ok (Stateful.run_modify_eq g s) h

theorem set_bind {t : σ} {f : PUnit → Stateful σ ε β} (h : Ensures (f ⟨⟩) t R) :
    Ensures (set t >>= f) s R :=
  bind_ok (Stateful.run_set_eq s t) h

end Ensures

/-- Whatever state `m` is started in, its answer satisfies `P`. -/
structure Answers (P : α → Prop) (m : Stateful σ ε α) : Prop where
  ensures : ∀ s, Ensures m s fun a _ => P a

namespace Answers

variable {P : α → Prop} {Q : β → Prop} {m : Stateful σ ε α} {f : α → Stateful σ ε β}

theorem of_pure {a : α} (h : P a) : Answers P (pure a : Stateful σ ε α) :=
  ⟨fun _ => Ensures.of_pure h⟩

theorem of_throw {e : ε} : Answers P (throw e : Stateful σ ε α) := ⟨fun _ => Ensures.of_throw⟩

theorem any (m : Stateful σ ε α) : Answers (fun _ => True) m := ⟨fun _ => Ensures.any⟩

theorem bind (h : Answers P m) (hf : ∀ a, P a → Answers Q (f a)) : Answers Q (m >>= f) :=
  ⟨fun s => (h.ensures s).bind fun a t ha => (hf a ha).ensures t⟩

/-- A step whose answer does not matter. -/
theorem andThen (hf : ∀ a, Answers Q (f a)) : Answers Q (m >>= f) :=
  (any m).bind fun a _ => hf a

theorem map {g : α → β} (h : Answers P m) (hg : ∀ a, P a → Q (g a)) : Answers Q (g <$> m) := by
  rw [map_eq_pure_bind]
  exact h.bind fun a ha => of_pure (hg a ha)

end Answers

/-- Whatever state `m` is started in, the state it leaves is related to it. -/
structure Keeps (r : σ → σ → Prop) (m : Stateful σ ε α) : Prop where
  ensures : ∀ s, Ensures m s fun _ t => r s t

namespace Keeps

variable {r : σ → σ → Prop} [Std.Refl r] [IsTrans σ r] {m : Stateful σ ε α}
  {f : α → Stateful σ ε β}

omit [IsTrans σ r] in
theorem of_pure (a : α) : Keeps r (pure a : Stateful σ ε α) :=
  ⟨fun s => Ensures.of_pure (refl_of r s)⟩

omit [Std.Refl r] [IsTrans σ r] in
theorem of_throw (e : ε) : Keeps r (throw e : Stateful σ ε α) := ⟨fun _ => Ensures.of_throw⟩

omit [Std.Refl r] [IsTrans σ r] in
theorem of_modify {g : σ → σ} (h : ∀ s, r s (g s)) :
    Keeps r (modify g : Stateful σ ε PUnit) :=
  ⟨fun s => Ensures.of_ok (Stateful.run_modify_eq g s) (h s)⟩

omit [IsTrans σ r] in
theorem of_get : Keeps r (get : Stateful σ ε σ) :=
  ⟨fun s => Ensures.of_ok (Stateful.run_get_eq s) (refl_of r s)⟩

omit [Std.Refl r] in
theorem bind (h : Keeps r m) (hf : ∀ a, Keeps r (f a)) : Keeps r (m >>= f) :=
  ⟨fun s => (h.ensures s).bind fun a t hst =>
    ((hf a).ensures t).mono fun _ _ htu => trans_of r hst htu⟩

theorem map {g : α → β} (h : Keeps r m) : Keeps r (g <$> m) := by
  rw [map_eq_pure_bind]
  exact h.bind fun a => of_pure (g a)

omit [Std.Refl r] [IsTrans σ r] in
theorem mono {r' : σ → σ → Prop} (h : Keeps r m) (himp : ∀ s t, r s t → r' s t) : Keeps r' m :=
  ⟨fun s => (h.ensures s).mono fun _ t => himp s t⟩

/-- A loop over a list. -/
theorem forIn {as : List α} {b : β} {f : α → β → Stateful σ ε (ForInStep β)}
    (h : ∀ a b, Keeps r (f a b)) : Keeps r (ForIn.forIn as b f) := by
  induction as generalizing b with
  | nil => exact of_pure b
  | cons a as ih =>
    rw [List.forIn_cons]
    refine (h a b).bind fun step => ?_
    cases step with
    | done b => exact of_pure b
    | yield b => exact ih

end Keeps

end Migash.Library
