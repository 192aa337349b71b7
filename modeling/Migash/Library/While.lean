import Migash.Library.Forward

/-! # While loops

A loop is the iteration of one turn that says whether to go on. `Visits` are the
states at its head; a loop that comes to an end has passed all of them.
-/

namespace Migash.Library

/-- What a turn of a loop leads to: the next turn, or the loop's answer. -/
inductive Next (σ α : Type) where
  | again (state : σ)
  | done (answer : α)

variable {σ α : Type} {turn : σ → Except Fault (Next σ α)} {s t : σ} {a : α} {n : ℕ}

/-- The loop, at most `n` turns. -/
def iterate (turn : σ → Except Fault (Next σ α)) : ℕ → σ → Except Fault α
  | 0, _ => .error .fuel
  | n + 1, s => do
    match ← turn s with
    | .again t => iterate turn n t
    | .done a => return a

theorem iterate_again (h : turn s = .ok (.again t)) (n : ℕ) :
    iterate turn (n + 1) s = iterate turn n t := by
  simp [iterate, h, bind, Except.bind]

theorem iterate_done (h : turn s = .ok (.done a)) (n : ℕ) : iterate turn (n + 1) s = .ok a := by
  simp [iterate, h, bind, Except.bind, pure, Except.pure]

theorem iterate_error {e : Fault} (h : turn s = .error e) (n : ℕ) :
    iterate turn (n + 1) s = .error e := by
  simp [iterate, h, bind, Except.bind]

theorem iterate_congr (h : turn s = turn t) (n : ℕ) : iterate turn n s = iterate turn n t := by
  cases n with
  | zero => rfl
  | succ n => simp only [iterate, h]

/-- What holds at the start and survives every turn holds of the last one. -/
theorem iterate_rule {I : σ → Prop} {Q : α → Prop}
    (hagain : ∀ s t, I s → turn s = .ok (.again t) → I t)
    (hdone : ∀ s a, I s → turn s = .ok (.done a) → Q a) (hs : I s)
    (h : iterate turn n s = .ok a) : Q a := by
  induction n generalizing s with
  | zero => cases h
  | succ n ih =>
    cases hturn : turn s with
    | error e =>
      rw [iterate_error hturn] at h
      cases h
    | ok x =>
      cases x with
      | again t =>
        rw [iterate_again hturn] at h
        exact ih (hagain s t hs hturn) h
      | done b =>
        rw [iterate_done hturn] at h
        cases h
        exact hdone s a hs hturn

/-- A loop whose turns make a measure smaller needs no more turns than that. -/
theorem iterate_enough {I : σ → Prop} (measure : σ → ℕ)
    (hagain : ∀ s t, I s → turn s = .ok (.again t) → I t ∧ measure t < measure s) {m : ℕ}
    (hs : I s) (h : iterate turn m s = .ok a) (hn : measure s < n) : iterate turn n s = .ok a := by
  induction m generalizing s n with
  | zero => cases h
  | succ m ih =>
    cases n with
    | zero => exact absurd hn (Nat.not_lt_zero _)
    | succ n =>
      cases hturn : turn s with
      | error e =>
        rw [iterate_error hturn] at h
        cases h
      | ok x =>
        cases x with
        | again t =>
          obtain ⟨ht, hlt⟩ := hagain s t hs hturn
          rw [iterate_again hturn] at h ⊢
          exact ih ht h (by omega)
        | done b =>
          rw [iterate_done hturn] at h ⊢
          exact h

/-- A greater bound gives the same answer. -/
theorem iterate_add (h : iterate turn n s = .ok a) (k : ℕ) : iterate turn (n + k) s = .ok a := by
  induction n generalizing s with
  | zero => cases h
  | succ n ih =>
    rw [Nat.add_right_comm]
    cases hturn : turn s with
    | error e =>
      rw [iterate_error hturn] at h
      cases h
    | ok next =>
      cases next with
      | again t =>
        rw [iterate_again hturn] at h ⊢
        exact ih h
      | done b =>
        rw [iterate_done hturn] at h ⊢
        exact h

/-- The answer of a loop does not depend on the bound. -/
theorem iterate_unique {b : α} {m : ℕ} (h : iterate turn n s = .ok a)
    (h' : iterate turn m s = .ok b) : a = b := by
  induction n generalizing s m with
  | zero => cases h
  | succ n ih =>
    cases m with
    | zero => cases h'
    | succ m =>
      cases hturn : turn s with
      | error e =>
        rw [iterate_error hturn] at h
        cases h
      | ok next =>
        cases next with
        | again t =>
          rw [iterate_again hturn] at h h'
          exact ih h h'
        | done c =>
          rw [iterate_done hturn] at h h'
          exact Except.ok.inj (h.symm.trans h')

/-- The states at the head of the loop that is started in `s`. -/
inductive Visits (turn : σ → Except Fault (Next σ α)) (s : σ) : σ → Prop where
  | start : Visits turn s s
  | next {t u : σ} (h : Visits turn s t) (hturn : turn t = .ok (.again u)) : Visits turn s u

theorem Visits.head {u : σ} (hturn : turn s = .ok (.again t)) (h : Visits turn t u) :
    Visits turn s u := by
  induction h with
  | start => exact .next .start hturn
  | next h hnext ih => exact .next ih hnext

theorem Visits.eq_or_next {u : σ} (h : Visits turn s u) :
    u = s ∨ ∃ t, turn s = .ok (.again t) ∧ Visits turn t u := by
  induction h with
  | start => exact .inl rfl
  | @next v w h hturn ih =>
    rcases ih with rfl | ⟨t, ht, hvisits⟩
    · exact .inr ⟨w, hturn, .start⟩
    · exact .inr ⟨t, ht, .next hvisits hturn⟩

theorem Visits.invariant {I : σ → Prop} (h : Visits turn s t) (hs : I s)
    (hturn : ∀ t u, Visits turn s t → I t → turn t = .ok (.again u) → I u) : I t := by
  induction h with
  | start => exact hs
  | next h hnext ih => exact hturn _ _ h ih hnext

/-- A loop that answers gives the same answer from every state at its head. -/
theorem Visits.iterate_eq (h : Visits turn s t) (hrun : iterate turn n s = .ok a) :
    ∃ m, iterate turn m t = .ok a := by
  induction h with
  | start => exact ⟨n, hrun⟩
  | next h hturn ih =>
    obtain ⟨m, hm⟩ := ih
    cases m with
    | zero => cases hm
    | succ m => exact ⟨m, (iterate_again hturn m).symm.trans hm⟩

/-- The turns of a loop that answers are themselves answered, and its last one gives the answer. -/
theorem Visits.turn_eq (h : Visits turn s t) (hrun : iterate turn n s = .ok a) :
    turn t = .ok (.done a) ∨ ∃ u, turn t = .ok (.again u) := by
  obtain ⟨m, hm⟩ := h.iterate_eq hrun
  cases m with
  | zero => cases hm
  | succ m =>
    cases hturn : turn t with
    | error e =>
      rw [iterate_error hturn] at hm
      cases hm
    | ok x =>
      cases x with
      | again u => exact .inr ⟨u, rfl⟩
      | done b =>
        rw [iterate_done hturn] at hm
        cases hm
        exact .inl rfl

/-- Where a turn leads to satisfies `p` if the loop goes on and `q` if it ends. -/
def Next.Either (p : σ → Prop) (q : α → Prop) : Next σ α → Prop
  | .again s => p s
  | .done a => q a

@[simp] theorem Next.either_again {p : σ → Prop} {q : α → Prop} :
    Next.Either p q (.again s) ↔ p s := Iff.rfl

@[simp] theorem Next.either_done {p : σ → Prop} {q : α → Prop} :
    Next.Either p q (.done a) ↔ q a := Iff.rfl

theorem Next.Either.mono {p p' : σ → Prop} {q q' : α → Prop} {x : Next σ α} (h : x.Either p q)
    (hp : ∀ s, p s → p' s) (hq : ∀ a, q a → q' a) : x.Either p' q' := by
  cases x with
  | again s => exact hp s h
  | done a => exact hq a h

/-- The computation answers, and its answer satisfies `P`. -/
def Holds (P : α → Prop) (r : Except Fault α) : Prop := ∃ a, r = .ok a ∧ P a

@[simp] theorem holds_ok {P : α → Prop} : Holds P (.ok a) ↔ P a := by
  simp [Holds]

@[simp] theorem holds_pure {P : α → Prop} : Holds P (pure a) ↔ P a := holds_ok

@[simp] theorem holds_error {P : α → Prop} {e : Fault} : Holds P (.error e) ↔ False := by
  simp [Holds]

@[simp] theorem holds_bind {P : α → Prop} {r : Except Fault σ} {f : σ → Except Fault α} :
    Holds P (r >>= f) ↔ Holds (fun b => Holds P (f b)) r := by
  cases r with
  | error e => simp [bind, Except.bind]
  | ok b => simp [bind, Except.bind]

@[simp] theorem holds_map {P : α → Prop} {r : Except Fault σ} {f : σ → α} :
    Holds P (f <$> r) ↔ Holds (fun b => P (f b)) r := by
  cases r with
  | error e => simp [Functor.map, Except.map]
  | ok b => simp [Functor.map, Except.map]

@[simp] theorem holds_ite {P : α → Prop} {c : Prop} [Decidable c] {r r' : Except Fault α} :
    Holds P (if c then r else r') ↔ if c then Holds P r else Holds P r' := by
  split <;> rfl

theorem Holds.mono {P Q : α → Prop} {r : Except Fault α} (h : Holds P r) (himp : ∀ a, P a → Q a) :
    Holds Q r := by
  obtain ⟨a, hr, ha⟩ := h
  exact ⟨a, hr, himp a ha⟩

theorem Holds.of_eq {P : α → Prop} {r : Except Fault α} (h : Holds P r) (hr : r = .ok a) :
    P a := by
  rw [hr] at h
  exact holds_ok.mp h

/-- The rule for total correctness: every turn keeps the invariant and makes the measure smaller,
or answers as it should. -/
theorem iterate_holds {I : σ → Prop} {Q : α → Prop} (measure : σ → ℕ)
    (hturn : ∀ s, I s → Holds (Next.Either (fun t => I t ∧ measure t < measure s) Q) (turn s))
    (hs : I s) (hn : measure s < n) : Holds Q (iterate turn n s) := by
  induction n generalizing s with
  | zero => exact absurd hn (Nat.not_lt_zero _)
  | succ n ih =>
    obtain ⟨x, hx, hnext⟩ := hturn s hs
    cases x with
    | again t =>
      rw [iterate_again hx]
      exact ih hnext.1 (by have := hnext.2; omega)
    | done a => exact ⟨a, iterate_done hx n, hnext⟩

/-- The computation does not answer. -/
abbrev Breaks (r : Except Fault α) : Prop := ¬ Holds (fun _ => True) r

/-- A loop that answers has no turn that does not. -/
theorem Visits.not_breaks (h : Visits turn s t) (hrun : iterate turn n s = .ok a) :
    ¬ Breaks (turn t) := by
  intro hbreaks
  rcases h.turn_eq hrun with hturn | ⟨u, hturn⟩
  · exact hbreaks ⟨_, hturn, trivial⟩
  · exact hbreaks ⟨_, hturn, trivial⟩

theorem not_again_of_done (hlast : turn s = .ok (.done a)) (hagain : turn s = .ok (.again t)) :
    False := by
  rw [hlast] at hagain
  cases hagain

/-- The answer of a loop whose last turn is known. -/
theorem Visits.answer_eq {last : α} (h : Visits turn s t) (hrun : iterate turn n s = .ok a)
    (hlast : turn t = .ok (.done last)) : a = last := by
  rcases h.turn_eq hrun with hturn | ⟨u, hturn⟩
  · rw [hlast] at hturn
    cases hturn
    rfl
  · exact absurd hturn (not_again_of_done hlast)

/-- A loop that stays in a set of states it cannot answer from never answers. -/
theorem iterate_ne_ok {S : σ → Prop}
    (hturn : ∀ s, S s → (∃ e, turn s = .error e) ∨ ∃ t, turn s = .ok (.again t) ∧ S t)
    (hs : S s) (n : ℕ) (a : α) : iterate turn n s ≠ .ok a := by
  induction n generalizing s with
  | zero =>
    intro h
    cases h
  | succ n ih =>
    rcases hturn s hs with ⟨e, he⟩ | ⟨t, ht, hS⟩
    · rw [iterate_error he]
      exact fun h => by cases h
    · rw [iterate_again ht]
      exact ih hS

end Migash.Library
