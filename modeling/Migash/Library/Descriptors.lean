import Mathlib.Data.List.Basic
import Mathlib.Logic.Function.Basic
import Mathlib.Order.Basic

/-! # Descriptor tables

The table of one process: which open file description each descriptor refers
to, and the POSIX calls that change it. There is no limit on the number of
descriptors, so a call fails only on a descriptor that is not open.
-/

namespace Migash.Library

variable {δ : Type}

/-- An open descriptor: its open file description and the close-on-exec flag. -/
structure Descriptor (δ : Type) where
  file : δ
  closeOnExec : Bool := false
  deriving DecidableEq, Repr

/-- A descriptor table. Only finitely many descriptors are open. -/
structure Descriptors (δ : Type) where
  get : ℕ → Option (Descriptor δ)
  bound : ℕ
  closed_of_le : ∀ fd, bound ≤ fd → get fd = none

namespace Descriptors

/-- No descriptor is open. -/
def empty : Descriptors δ where
  get _ := none
  bound := 0
  closed_of_le _ _ := rfl

/-- The entry of one descriptor is replaced. -/
def set (t : Descriptors δ) (fd : ℕ) (d : Option (Descriptor δ)) : Descriptors δ where
  get fd' := if fd' = fd then d else t.get fd'
  bound := max t.bound (fd + 1)
  closed_of_le fd' h := by
    have hfd : fd' ≠ fd := by omega
    rw [if_neg hfd]
    exact t.closed_of_le fd' (by omega)

@[simp] theorem get_set_self (t : Descriptors δ) (fd : ℕ) (d : Option (Descriptor δ)) :
    (t.set fd d).get fd = d := by simp [set]

@[simp] theorem get_set_of_ne (t : Descriptors δ) {fd fd' : ℕ} (d : Option (Descriptor δ))
    (h : fd' ≠ fd) : (t.set fd d).get fd' = t.get fd' := by simp [set, h]

/-! ## The lowest free descriptor -/

/-- The first closed descriptor among `fd` and the `n` after it, the last one if there is none. -/
def firstFree (t : Descriptors δ) : ℕ → ℕ → ℕ
  | 0, fd => fd
  | n + 1, fd => if (t.get fd).isNone then fd else firstFree t n (fd + 1)

/-- The lowest closed descriptor that is not below `least`. -/
def lowestFree (t : Descriptors δ) (least : ℕ) : ℕ := t.firstFree (t.bound - least) least

theorem get_firstFree (t : Descriptors δ) (n fd : ℕ) (h : t.bound ≤ fd + n) :
    t.get (t.firstFree n fd) = none := by
  induction n generalizing fd with
  | zero => exact t.closed_of_le fd (by simpa using h)
  | succ n ih =>
    unfold firstFree
    split_ifs with hfree
    · simpa using hfree
    · exact ih (fd + 1) (by omega)

@[simp] theorem get_lowestFree (t : Descriptors δ) (least : ℕ) : t.get (t.lowestFree least) = none :=
  t.get_firstFree _ _ (by omega)

/-! ## The calls -/

/-- `close`, which fails on a closed descriptor. -/
def close (t : Descriptors δ) (fd : ℕ) : Option (Descriptors δ) :=
  if (t.get fd).isSome then some (t.set fd none) else none

/-- `dup2`. The copy is not close-on-exec; duplicating a descriptor onto itself does nothing. -/
def dup2 (t : Descriptors δ) (old new : ℕ) : Option (Descriptors δ) :=
  match t.get old with
  | none => none
  | some d => if old = new then some t else some (t.set new (some { d with closeOnExec := false }))

/-- `fcntl` with `F_DUPFD_CLOEXEC`: the copy takes the lowest free descriptor not below `least`. -/
def dupFrom (t : Descriptors δ) (fd least : ℕ) : Option (ℕ × Descriptors δ) :=
  match t.get fd with
  | none => none
  | some d =>
    some (t.lowestFree least, t.set (t.lowestFree least) (some { d with closeOnExec := true }))

/-- `open` of the given file: it takes the lowest free descriptor. -/
def openFile (t : Descriptors δ) (file : δ) : ℕ × Descriptors δ :=
  (t.lowestFree 0, t.set (t.lowestFree 0) (some { file }))

/-- `pipe`: the read end is opened first. -/
def pipe (t : Descriptors δ) (readEnd writeEnd : δ) : ℕ × ℕ × Descriptors δ :=
  let (r, t) := t.openFile readEnd
  let (w, t) := t.openFile writeEnd
  (r, w, t)

/-- `close` whose answer is not looked at. -/
def discard (t : Descriptors δ) (fd : ℕ) : Descriptors δ := (t.close fd).getD t

theorem close_eq_some {t t' : Descriptors δ} {fd : ℕ} (h : t.close fd = some t') :
    t' = t.set fd none := by
  unfold close at h
  split_ifs at h
  exact (Option.some.inj h).symm

@[simp] theorem get_discard_self (t : Descriptors δ) (fd : ℕ) : (t.discard fd).get fd = none := by
  cases hfd : t.get fd <;> simp [discard, close, hfd]

@[simp] theorem get_discard_of_ne (t : Descriptors δ) {fd fd' : ℕ} (h : fd' ≠ fd) :
    (t.discard fd).get fd' = t.get fd' := by
  cases hfd : t.get fd <;> simp [discard, close, hfd, h]

@[simp] theorem discard_eq_self_iff {t : Descriptors δ} {fd : ℕ} :
    t.discard fd = t ↔ t.get fd = none := by
  constructor
  · intro h
    rw [← h, get_discard_self]
  · intro h
    simp [discard, close, h]

/-- A successful `dup2` changes the new descriptor only. -/
theorem get_dup2_of_ne {t t' : Descriptors δ} {old new fd : ℕ} (h : t.dup2 old new = some t')
    (hfd : fd ≠ new) : t'.get fd = t.get fd := by
  unfold dup2 at h
  split at h
  · cases h
  · split_ifs at h <;> cases h
    · rfl
    · exact get_set_of_ne _ _ hfd

theorem dup2_eq_some {t : Descriptors δ} {old new : ℕ} {d : Descriptor δ} (h : t.get old = some d)
    (hne : old ≠ new) :
    t.dup2 old new = some (t.set new (some { d with closeOnExec := false })) := by
  simp [dup2, h, hne]

theorem dupFrom_eq_some {t t' : Descriptors δ} {fd least new : ℕ}
    (h : t.dupFrom fd least = some (new, t')) :
    ∃ d, t.get fd = some d ∧ new = t.lowestFree least ∧
      t' = t.set (t.lowestFree least) (some { d with closeOnExec := true }) := by
  unfold dupFrom at h
  split at h
  · cases h
  · rename_i d hd
    cases h
    exact ⟨d, hd, rfl, rfl⟩

theorem get_foldl_discard (fds : List ℕ) (t : Descriptors δ) (fd : ℕ) :
    (fds.foldl discard t).get fd = if fd ∈ fds then none else t.get fd := by
  induction fds generalizing t with
  | nil => simp
  | cons fd' fds ih =>
    rw [List.foldl_cons, ih]
    by_cases hfd : fd = fd'
    · subst hfd
      simp
    · simp [hfd]

/-- A pipe opens two free descriptors. -/
structure PipeOpened (t : Descriptors δ) (readEnd writeEnd : δ) (r w : ℕ) (t' : Descriptors δ) :
    Prop where
  read_free : t.get r = none
  write_free : t.get w = none
  ne : r ≠ w
  read : t'.get r = some { file := readEnd }
  write : t'.get w = some { file := writeEnd }
  others : ∀ fd, fd ≠ r → fd ≠ w → t'.get fd = t.get fd

theorem pipe_opened (t : Descriptors δ) (readEnd writeEnd : δ) :
    PipeOpened t readEnd writeEnd (t.pipe readEnd writeEnd).1 (t.pipe readEnd writeEnd).2.1
      (t.pipe readEnd writeEnd).2.2 := by
  simp only [pipe, openFile]
  set r := t.lowestFree 0
  set t₁ := t.set r (some { file := readEnd })
  set w := t₁.lowestFree 0
  have hr : t.get r = none := get_lowestFree t 0
  have hw : t₁.get w = none := get_lowestFree t₁ 0
  have hne : w ≠ r := by
    intro heq
    rw [heq, get_set_self] at hw
    cases hw
  refine ⟨hr, ?_, hne.symm, ?_, get_set_self .., fun fd hfd hfd' => ?_⟩
  · rw [← hw, get_set_of_ne _ _ hne]
  · rw [get_set_of_ne _ _ hne.symm, get_set_self]
  · rw [get_set_of_ne _ _ hfd', get_set_of_ne _ _ hfd]

/-! ## Temporary descriptors -/

/-- Closing a temporary descriptor leaves every descriptor as it was before it was opened. -/
theorem get_discard_fresh {t t₁ : Descriptors δ} {new : ℕ} (hnew : t.get new = none)
    (ht : ∀ fd, fd ≠ new → t₁.get fd = t.get fd) (fd : ℕ) :
    (t₁.discard new).get fd = t.get fd := by
  by_cases hfd : fd = new
  · rw [hfd, get_discard_self, hnew]
  · rw [get_discard_of_ne _ hfd, ht fd hfd]

/-- A temporary descriptor that is duplicated onto `target` and closed leaves the descriptors
other than `target` as they were before it was opened. -/
theorem get_discard_dup2 {t t₁ t' : Descriptors δ} {new target fd : ℕ} (hnew : t.get new = none)
    (ht : ∀ fd, fd ≠ new → t₁.get fd = t.get fd) (h : t₁.dup2 new target = some t')
    (hfd : fd ≠ target) : (t'.discard new).get fd = t.get fd := by
  by_cases hfd' : fd = new
  · rw [hfd', get_discard_self, hnew]
  · rw [get_discard_of_ne _ hfd', get_dup2_of_ne h hfd, ht fd hfd']

/-- The write end of a pipe, closed first, leaves the descriptors other than the read end as they
were. -/
theorem get_pipe_discard_write (t : Descriptors δ) (readEnd writeEnd : δ) {fd : ℕ}
    (hfd : fd ≠ (t.pipe readEnd writeEnd).1) :
    ((t.pipe readEnd writeEnd).2.2.discard (t.pipe readEnd writeEnd).2.1).get fd = t.get fd := by
  simp only [pipe, openFile] at hfd ⊢
  rw [get_discard_fresh (get_lowestFree _ 0) fun _ h => get_set_of_ne _ _ h, get_set_of_ne _ _ hfd]

/-- The read end of a pipe, closed first, leaves the descriptors other than the write end as they
were, and the write end was free. -/
theorem get_pipe_discard_read (t : Descriptors δ) (readEnd writeEnd : δ) :
    t.get (t.pipe readEnd writeEnd).2.1 = none ∧ ∀ fd, fd ≠ (t.pipe readEnd writeEnd).2.1 →
      ((t.pipe readEnd writeEnd).2.2.discard (t.pipe readEnd writeEnd).1).get fd = t.get fd := by
  simp only [pipe, openFile]
  set r := t.lowestFree 0
  set t₁ := t.set r (some { file := readEnd })
  have hw : t₁.get (t₁.lowestFree 0) = none := get_lowestFree t₁ 0
  have hne : t₁.lowestFree 0 ≠ r := by
    intro heq
    rw [heq, get_set_self] at hw
    cases hw
  refine ⟨by rw [← hw, get_set_of_ne _ _ hne], fun fd hfd => ?_⟩
  by_cases hfd' : fd = r
  · rw [hfd', get_discard_self, get_lowestFree]
  · rw [get_discard_of_ne _ hfd', get_set_of_ne _ _ hfd, get_set_of_ne _ _ hfd']

end Descriptors

end Migash.Library
