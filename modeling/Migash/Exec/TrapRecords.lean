import Migash.Exec.PendingTraps

/-! # The records of a trap store

`trap_store_set` writes the record of a signal before it asks the system for the
disposition, and `trap_store_set_exit` records an action whatever it is told about
it. The queries are compared with the last call on each signal.
-/

namespace Migash.Exec.TrapRecords

open Library FrameScopes
open PendingTraps (Disposition Platform trapStoreGet trapStoreSetExit wanted)

/-! ## The calls -/

/-- `sigaction`, with the disposition that the signal had; `none` is -1. -/
abbrev Sigaction (W : Type) := ℕ → Disposition → W → Option Disposition × W

/-- A trap store, the saved dispositions of the store for signal handlers if there is one, and the
system. -/
structure State (W : Type) where
  store : TrapStore
  sigActs : Option (List (Option Disposition)) := none
  world : W

section Calls

variable {W : Type} (p : Platform) (sigaction : Sigaction W)

/-- `sig_act_store_set_and_save`. -/
def sigActStoreSetAndSave (acts : List (Option Disposition)) (signo : ℕ) (new : Disposition) (w : W) :
    Bool × List (Option Disposition) × W :=
  if signo = 0 then (true, acts.set 0 (some .default), w)
  else
    match acts[signo]? with
    | none => (false, acts, w)
    | some saved =>
      if signo = p.sigkill ∨ signo = p.sigstop then (false, acts, w)
      else
        match saved, sigaction signo new w with
        | _, (none, w) => (false, acts, w)
        | none, (some old, w) => (true, acts.set signo (some old), w)
        | some _, (some _, w) => (true, acts, w)

/-- `sig_act_store_restore_one`. -/
def sigActStoreRestoreOne (acts : List (Option Disposition)) (signo : ℕ) (w : W) : W :=
  match acts[signo]? with
  | some (some original) =>
    if signo = 0 ∨ signo = p.sigkill ∨ signo = p.sigstop then w else (sigaction signo original w).2
  | _ => w

/-- The part of `trap_store_set` that asks for the disposition, and whether it gets it. -/
def install (signo : ℕ) (trap : TrapAction) (s : State W) : Bool × State W :=
  match wanted trap, s.sigActs with
  | none, _ => (true, s)
  | some .trapHandler, some acts =>
    let (installed, acts, world) := sigActStoreSetAndSave p sigaction acts signo .trapHandler s.world
    (installed, { s with sigActs := some acts, world })
  | some new, _ =>
    let (old, world) := sigaction signo new s.world
    (old.isSome, { s with world })

/-- `trap_store_set`. -/
def trapStoreSet (signo : ℕ) (trap : TrapAction) (s : State W) : Except Fault (Bool × State W) :=
  if s.store.traps.length ≤ signo then .error (.contract "signal_number < store->capacity")
  else if signo = p.sigkill ∨ signo = p.sigstop then .ok (false, s)
  else if signo = 0 then .ok (true, { s with store := trapStoreSetExit trap.action s.store })
  else
    .ok (install p sigaction signo trap
      { s with store := { s.store with traps := s.store.traps.set signo trap } })

/-- `trap_store_clear_exit`. -/
def trapStoreClearExit (store : TrapStore) : TrapStore :=
  { store with exitTrapSet := false, exitAction := none }

/-- `trap_store_clear`. -/
def trapStoreClear (signo : ℕ) (s : State W) : Except Fault (State W) :=
  if s.store.traps.length ≤ signo then .error (.contract "signal_number < store->capacity")
  else if signo = 0 then .ok { s with store := trapStoreClearExit s.store }
  else
    .ok { s with
      store := { s.store with traps := s.store.traps.set signo {} }
      world := match s.sigActs with
        | some acts => sigActStoreRestoreOne p sigaction acts signo s.world
        | none => (sigaction signo .default s.world).2 }

/-- A call of `trap_store_set`, `trap_store_set_exit` or `trap_store_clear`. -/
inductive Call where
  | set (signo : ℕ) (trap : TrapAction)
  | setExit (trap : TrapAction)
  | clear (signo : ℕ)
  deriving DecidableEq, Repr

/-- What a call returns, `true` for a function that returns nothing. -/
def Call.apply (s : State W) : Call → Except Fault (Bool × State W)
  | set signo trap => trapStoreSet p sigaction signo trap s
  | setExit trap => .ok (true, { s with store := trapStoreSetExit trap.action s.store })
  | clear signo => do return (true, ← trapStoreClear p sigaction signo s)

/-- A sequence of calls: whether all of them return `true`. -/
def runCalls : List Call → State W → Except Fault (Bool × State W)
  | [], s => .ok (true, s)
  | call :: calls, s => do
    let (success, s) ← call.apply p sigaction s
    let (others, s) ← runCalls calls s
    return (success && others, s)

end Calls

/-! ## The queries -/

/-- `trap_store_is_set`. -/
def trapStoreIsSet (store : TrapStore) (signo : ℕ) : Except Fault Bool :=
  match store.traps[signo]? with
  | none => .error (.contract "signal_number < store->capacity")
  | some trap => .ok (!trap.isDefault || trap.isIgnored || trap.action.isSome)

/-- `trap_store_is_exit_set`. -/
def trapStoreIsExitSet (store : TrapStore) : Bool := store.exitTrapSet

/-- `trap_store_get_exit`. Without a trap it is a new empty string. -/
def trapStoreGetExit (store : TrapStore) : Option String :=
  if store.exitTrapSet then store.exitAction else some ""

/-- The part of `exec_frame_pop` that runs the EXIT trap, with the action that is run. -/
def popExitTrap (exitTrapRuns : Bool) (store : TrapStore) : Except Fault (Option String) :=
  if exitTrapRuns ∧ store.exitTrapSet then do
    store.runExitTrap
    return store.exitAction
  else .ok none

/-! ## What the queries are to report -/

/-- A trap as the user sees it. -/
inductive Shown where
  | ignored
  | action (text : String)
  deriving DecidableEq, Repr

/-- The text that a trap runs. -/
def Shown.text : Shown → Option String
  | ignored => none
  | action text => some text

/-- The trap that the arguments of a call describe: an ignored signal, the default, or an action,
where no action is the default. -/
def shown (trap : TrapAction) : Option Shown :=
  if trap.isIgnored then some .ignored
  else if trap.isDefault then none
  else trap.action.map .action

namespace Call

/-- The signal that a call is about; EXIT is 0. -/
def target : Call → ℕ
  | set signo _ => signo
  | setExit _ => 0
  | clear signo => signo

/-- The arguments for the record, if the call is not a `trap_store_clear`. -/
def trap : Call → Option TrapAction
  | set _ trap => some trap
  | setExit trap => some trap
  | clear _ => none

end Call

/-- What the last call on each signal has asked for, behind calls that are known. -/
def lastSetFrom (last : ℕ → Option TrapAction) (calls : List Call) : ℕ → Option TrapAction :=
  calls.foldl (fun last call => Function.update last call.target call.trap) last

def lastSet (calls : List Call) : ℕ → Option TrapAction := lastSetFrom (fun _ => none) calls

/-- The traps that were set and not cleared or reset since. -/
def traps (calls : List Call) (signo : ℕ) : Option Shown := (lastSet calls signo).bind shown

/-- What the queries say about a signal agrees with its trap. -/
structure ReportsSignal (store : TrapStore) (signo : ℕ) (trap : Option Shown) : Prop where
  isSet : trapStoreIsSet store signo = .ok trap.isSome
  get : ∃ found, trapStoreGet (some store) signo = .ok found ∧ found.map shown = trap.map some

/-- Whether there is an EXIT trap agrees with it, and a frame that is popped runs it if it has an
action. -/
structure RunsExit (store : TrapStore) (trap : Option Shown) : Prop where
  isExitSet : trapStoreIsExitSet store = trap.isSome
  pop : ∀ exitTrapRuns,
    popExitTrap exitTrapRuns store = .ok (if exitTrapRuns then trap.bind Shown.text else none)

/-- The queries report the traps. -/
structure Reports (store : TrapStore) (traps : ℕ → Option Shown) : Prop where
  signals : ∀ signo, 0 < signo → signo < store.traps.length → ReportsSignal store signo (traps signo)
  exit : RunsExit store (traps 0)
  getExit : trapStoreGetExit store = (traps 0).bind Shown.text

/-! ## What the records hold -/

/-- The records hold what the last calls have asked for. -/
structure Recorded (store : TrapStore) (last : ℕ → Option TrapAction) : Prop where
  signals : ∀ signo, 0 < signo → signo < store.traps.length →
    store.traps[signo]? = some ((last signo).getD {})
  exitTrapSet : store.exitTrapSet = (last 0).isSome
  exitAction : store.exitAction = (last 0).bind TrapAction.action

section Records

variable {W : Type} {p : Platform} {sigaction : Sigaction W} {s s' : State W}
  {last : ℕ → Option TrapAction} {call : Call} {calls : List Call} {success : Bool}

theorem recorded_create (n : ℕ) : Recorded (TrapStore.create n) fun _ => none where
  signals signo _ hlt := by
    rw [TrapStore.create, List.length_replicate] at hlt
    simp only [TrapStore.create, List.getElem?_replicate, if_pos hlt, Option.getD_none]
  exitTrapSet := rfl
  exitAction := rfl

/-- A call on EXIT changes the two fields for it. -/
theorem Recorded.exit {store : TrapStore} (h : Recorded store last) (trap : Option TrapAction) :
    Recorded
      { store with exitTrapSet := trap.isSome, exitAction := trap.bind TrapAction.action }
      (Function.update last 0 trap) where
  signals signo hpos hlt := by
    rw [Function.update_of_ne (Nat.ne_of_gt hpos)]
    exact h.signals signo hpos hlt
  exitTrapSet := by rw [Function.update_self]
  exitAction := by rw [Function.update_self]

/-- A call on a signal changes its record. -/
theorem Recorded.signal {store : TrapStore} (h : Recorded store last) {signo : ℕ}
    (hpos : signo ≠ 0) (trap : Option TrapAction) :
    Recorded { store with traps := store.traps.set signo (trap.getD {}) }
      (Function.update last signo trap) where
  signals other hother hlt := by
    rw [List.length_set] at hlt
    by_cases hsame : other = signo
    · subst hsame
      rw [Function.update_self, List.getElem?_set_self hlt]
    · rw [Function.update_of_ne hsame, List.getElem?_set_ne (Ne.symm hsame)]
      exact h.signals other hother hlt
  exitTrapSet := by rw [Function.update_of_ne (Ne.symm hpos), h.exitTrapSet]
  exitAction := by rw [Function.update_of_ne (Ne.symm hpos), h.exitAction]

/-- The system does not write into the trap store. -/
@[simp] theorem install_store (signo : ℕ) (trap : TrapAction) (s : State W) :
    (install p sigaction signo trap s).2.store = s.store := by
  unfold install
  split <;> rfl

/-- Whether a disposition is installed does not depend on the trap store. -/
theorem install_fst (signo : ℕ) (trap : TrapAction) (s : State W) (store : TrapStore) :
    (install p sigaction signo trap { s with store }).1 = (install p sigaction signo trap s).1 := by
  unfold install
  dsimp only
  cases wanted trap with
  | none => rfl
  | some new =>
    cases new with
    | trapHandler => cases s.sigActs <;> rfl
    | default => rfl
    | ignored => rfl

/-- What a call that returns `true` leaves in the records. -/
theorem Recorded.apply (h : Recorded s.store last)
    (happly : call.apply p sigaction s = .ok (true, s')) :
    Recorded s'.store (Function.update last call.target call.trap) := by
  cases call with
  | set signo trap =>
    rw [Call.apply, trapStoreSet] at happly
    split_ifs at happly with hin hkill hzero
    · cases happly
    · cases happly
      subst hzero
      exact h.exit (some trap)
    · have hstate : _ = s' := congrArg Prod.snd (Except.ok.inj happly)
      rw [← hstate, install_store]
      exact h.signal hzero (some trap)
  | setExit trap =>
    cases happly
    exact h.exit (some trap)
  | clear signo =>
    rw [Call.apply, trapStoreClear] at happly
    split_ifs at happly with hin hzero
    · cases happly
    · cases happly
      subst hzero
      exact h.exit none
    · cases happly
      exact h.signal hzero none

theorem length_apply (happly : call.apply p sigaction s = .ok (success, s')) :
    s'.store.traps.length = s.store.traps.length := by
  cases call with
  | set signo trap =>
    rw [Call.apply, trapStoreSet] at happly
    split_ifs at happly with hin hkill hzero
    · cases happly
      rfl
    · cases happly
      rfl
    · have hstate : _ = s' := congrArg Prod.snd (Except.ok.inj happly)
      rw [← hstate, install_store]
      exact List.length_set
  | setExit trap =>
    cases happly
    rfl
  | clear signo =>
    rw [Call.apply, trapStoreClear] at happly
    split_ifs at happly with hin hzero
    · cases happly
    · cases happly
      rfl
    · cases happly
      exact List.length_set

/-- Behind calls that all return `true`, the records hold what the last of them have asked for. -/
theorem Recorded.run (h : Recorded s.store last)
    (hrun : runCalls p sigaction calls s = .ok (true, s')) :
    Recorded s'.store (lastSetFrom last calls) := by
  induction calls generalizing s last with
  | nil =>
    cases hrun
    exact h
  | cons call calls ih =>
    rw [runCalls] at hrun
    cases happly : call.apply p sigaction s with
    | error cause =>
      rw [happly] at hrun
      cases hrun
    | ok answer =>
      obtain ⟨success, t⟩ := answer
      cases hothers : runCalls p sigaction calls t with
      | error cause =>
        simp only [happly, hothers, bind, Except.bind] at hrun
        cases hrun
      | ok answer =>
        obtain ⟨others, u⟩ := answer
        simp only [happly, hothers, bind, Except.bind, pure, Except.pure, Except.ok.injEq,
          Prod.mk.injEq, Bool.and_eq_true] at hrun
        obtain ⟨⟨rfl, rfl⟩, rfl⟩ := hrun
        exact ih (h.apply happly) hothers

end Records

/-! ## When the queries report the traps -/

/-- The arguments do not contradict each other: the signal is ignored, or there is an action just when
it is not the default that is asked for. -/
def Consistent (trap : TrapAction) : Prop :=
  trap.isIgnored = true ∨ trap.isDefault ≠ trap.action.isSome

/-- The arguments ask for an action. -/
def Acts (trap : TrapAction) : Prop :=
  trap.isIgnored = false ∧ trap.isDefault = false ∧ trap.action.isSome = true

section Reports

variable {store : TrapStore} {last : ℕ → Option TrapAction}

theorem Recorded.reportsSignal_iff (h : Recorded store last) {signo : ℕ} (hpos : 0 < signo)
    (hlt : signo < store.traps.length) :
    ReportsSignal store signo ((last signo).bind shown) ↔
      ∀ trap, last signo = some trap → Consistent trap := by
  have hrecord := h.signals signo hpos hlt
  have hset : trapStoreIsSet store signo = .ok (!((last signo).getD {}).isDefault ||
      ((last signo).getD {}).isIgnored || ((last signo).getD {}).action.isSome) := by
    rw [trapStoreIsSet, hrecord]
  have hget : trapStoreGet (some store) signo = .ok
      (if ((last signo).getD {}).isDefault && !((last signo).getD {}).isIgnored &&
          ((last signo).getD {}).action.isNone then none else some ((last signo).getD {})) := by
    rw [trapStoreGet, hrecord]
  constructor
  · rintro ⟨hisSet, -⟩ trap hlast
    rw [hset, hlast] at hisSet
    obtain ⟨action, isIgnored, isDefault⟩ := trap
    unfold Consistent
    cases action <;> cases isIgnored <;> cases isDefault <;> simp [shown] at hisSet ⊢
  · intro hconsistent
    cases hlast : last signo with
    | none =>
      rw [hlast] at hset hget
      exact ⟨hset, _, hget, rfl⟩
    | some trap =>
      rw [hlast] at hset hget
      have htrap := hconsistent trap hlast
      obtain ⟨action, isIgnored, isDefault⟩ := trap
      refine ⟨hset.trans ?_, _, hget, ?_⟩
      · cases action <;> cases isIgnored <;> cases isDefault <;>
          simp [shown, Consistent] at htrap ⊢
      · cases action <;> cases isIgnored <;> cases isDefault <;>
          simp [shown, Consistent] at htrap ⊢

theorem Recorded.runsExit_iff (h : Recorded store last) :
    RunsExit store ((last 0).bind shown) ↔ ∀ trap, last 0 = some trap → Acts trap := by
  constructor
  · rintro ⟨hset, hpop⟩ trap hlast
    have hrun := hpop true
    rw [trapStoreIsExitSet, h.exitTrapSet, hlast] at hset
    rw [popExitTrap, TrapStore.runExitTrap, h.exitTrapSet, h.exitAction, hlast] at hrun
    obtain ⟨action, isIgnored, isDefault⟩ := trap
    unfold Acts
    cases action <;> cases isIgnored <;> cases isDefault <;>
      simp [shown, Shown.text, bind, Except.bind, pure, Except.pure] at hset hrun ⊢
  · intro hacts
    cases hlast : last 0 with
    | none =>
      refine ⟨by rw [trapStoreIsExitSet, h.exitTrapSet, hlast]; rfl, fun exitTrapRuns => ?_⟩
      rw [popExitTrap, h.exitTrapSet, hlast]
      cases exitTrapRuns <;> rfl
    | some trap =>
      obtain ⟨action, isIgnored, isDefault⟩ := trap
      obtain ⟨rfl, rfl, haction⟩ := hacts _ hlast
      obtain ⟨text, rfl⟩ := Option.isSome_iff_exists.mp haction
      refine ⟨by rw [trapStoreIsExitSet, h.exitTrapSet, hlast]; rfl, fun exitTrapRuns => ?_⟩
      rw [popExitTrap, TrapStore.runExitTrap, h.exitTrapSet, h.exitAction, hlast]
      cases exitTrapRuns <;> rfl

theorem Recorded.getExit_iff (h : Recorded store last) :
    trapStoreGetExit store = ((last 0).bind shown).bind Shown.text ↔
      ∃ trap, last 0 = some trap ∧ (trap.action = none ∨ Acts trap) := by
  rw [trapStoreGetExit, h.exitTrapSet, h.exitAction]
  cases hlast : last 0 with
  | none => simp
  | some trap =>
    obtain ⟨action, isIgnored, isDefault⟩ := trap
    cases action <;> cases isIgnored <;> cases isDefault <;> simp [shown, Shown.text, Acts]

/-- The EXIT trap has to be set to an action, or one of its queries is wrong. -/
theorem Recorded.reports_iff (h : Recorded store last) :
    Reports store (fun signo => (last signo).bind shown) ↔
      (∀ signo trap, 0 < signo → signo < store.traps.length → last signo = some trap →
        Consistent trap) ∧ ∃ trap, last 0 = some trap ∧ Acts trap := by
  constructor
  · rintro ⟨hsignals, hexit, hget⟩
    refine ⟨fun signo trap hpos hlt hlast =>
      (h.reportsSignal_iff hpos hlt).mp (hsignals signo hpos hlt) trap hlast, ?_⟩
    obtain ⟨trap, hlast, -⟩ := h.getExit_iff.mp hget
    exact ⟨trap, hlast, h.runsExit_iff.mp hexit trap hlast⟩
  · rintro ⟨hsignals, trap, hlast, hacts⟩
    refine ⟨fun signo hpos hlt => (h.reportsSignal_iff hpos hlt).mpr fun trap =>
      hsignals signo trap hpos hlt, h.runsExit_iff.mpr ?_, h.getExit_iff.mpr ⟨trap, hlast, .inr hacts⟩⟩
    intro other hother
    rw [hlast] at hother
    cases hother
    exact hacts

end Reports

/-! ## A call that fails -/

section Failure

variable {W : Type} (p : Platform) (sigaction : Sigaction W)

/-- The call writes another record for its signal, and then the system refuses the disposition. -/
def OverwritesRefused (s : State W) : Call → Prop
  | .set signo trap =>
    signo ≠ 0 ∧ signo ≠ p.sigkill ∧ signo ≠ p.sigstop ∧
      (install p sigaction signo trap s).1 = false ∧
      ∃ record, s.store.traps[signo]? = some record ∧ record ≠ trap
  | _ => False

variable {p sigaction}

theorem apply_false_iff (s : State W) (call : Call) :
    (∀ s', call.apply p sigaction s = .ok (false, s') → s'.store = s.store) ↔
      ¬ OverwritesRefused p sigaction s call := by
  cases call with
  | set signo trap =>
    constructor
    · rintro hkeeps ⟨hzero, hkill, hstop, hrefused, record, hrecord, hne⟩
      have hlt : signo < s.store.traps.length := (List.getElem?_eq_some_iff.mp hrecord).1
      have happly : Call.apply p sigaction s (.set signo trap) = .ok (install p sigaction signo trap
          { s with store := { s.store with traps := s.store.traps.set signo trap } }) := by
        rw [Call.apply, trapStoreSet, if_neg (Nat.not_le.mpr hlt),
          if_neg (not_or.mpr ⟨hkill, hstop⟩), if_neg hzero]
      have hstore := hkeeps _ (happly.trans (congrArg Except.ok (Prod.ext
        ((install_fst signo trap s _).trans hrefused) rfl)))
      rw [install_store] at hstore
      have htraps : s.store.traps.set signo trap = s.store.traps := congrArg TrapStore.traps hstore
      have hsame := congrArg (fun traps => traps[signo]?) htraps
      rw [List.getElem?_set_self hlt, hrecord] at hsame
      exact hne (Option.some.inj hsame).symm
    · intro hno s' happly
      rw [Call.apply, trapStoreSet] at happly
      split_ifs at happly with hin hkill hzero
      · cases happly
        rfl
      · cases happly
      · have hstate : _ = s' := congrArg Prod.snd (Except.ok.inj happly)
        have hrefused : _ = false := congrArg Prod.fst (Except.ok.inj happly)
        rw [install_fst] at hrefused
        rw [not_le] at hin
        rw [← hstate, install_store]
        -- The record that is written is the one that is there.
        have hsame : s.store.traps[signo] = trap := by
          by_contra hne
          rw [not_or] at hkill
          exact hno ⟨hzero, hkill.1, hkill.2, hrefused, _, List.getElem?_eq_getElem hin, hne⟩
        dsimp only
        rw [← hsame, List.set_getElem_self]
  | setExit trap => simp [OverwritesRefused, Call.apply]
  | clear signo =>
    simp only [OverwritesRefused, not_false_iff, iff_true]
    intro s' happly
    rw [Call.apply] at happly
    cases hclear : trapStoreClear p sigaction signo s with
    | error cause =>
      rw [hclear] at happly
      cases happly
    | ok t =>
      rw [hclear] at happly
      cases happly

end Failure

/-! ## All calls -/

section All

variable {W : Type} {p : Platform} {sigaction : Sigaction W}

/-- The trap store that the builtin writes into changes as it does here. -/
theorem trapStoreSet_pending {signo : ℕ} {trap : TrapAction} {s s' : State W} {success : Bool}
    (h : trapStoreSet p sigaction signo trap s = .ok (success, s')) :
    ∃ new, PendingTraps.trapStoreSet p signo trap s.store = .ok (s'.store, new) := by
  rw [trapStoreSet] at h
  rw [PendingTraps.trapStoreSet]
  split_ifs at h ⊢ with hin hkill hzero
  · cases h
    exact ⟨_, rfl⟩
  · cases h
    exact ⟨_, rfl⟩
  · have hstate : _ = s' := congrArg Prod.snd (Except.ok.inj h)
    rw [← hstate, install_store]
    exact ⟨_, rfl⟩
  · have hstate : _ = s' := congrArg Prod.snd (Except.ok.inj h)
    rw [← hstate, install_store]
    exact ⟨_, rfl⟩

/-- A call that fails leaves the records as they were unless it has overwritten one of them, and
behind calls that all succeed the queries report the traps just when no call contradicted itself and
the last call on EXIT asked for an action. -/
theorem trapStore_reports_iff {calls : List Call} {s s' : State W}
    (hstart : s.store = TrapStore.create p.maxSignalNumber)
    (hrun : runCalls p sigaction calls s = .ok (true, s')) :
    (∀ (t : State W) call, (∀ t', call.apply p sigaction t = .ok (false, t') → t'.store = t.store) ↔
      ¬ OverwritesRefused p sigaction t call) ∧
    (Reports s'.store (traps calls) ↔
      (∀ signo trap, 0 < signo → signo < s'.store.traps.length → lastSet calls signo = some trap →
        Consistent trap) ∧ ∃ trap, lastSet calls 0 = some trap ∧ Acts trap) ∧
    (RunsExit s'.store (traps calls 0) ↔ ∀ trap, lastSet calls 0 = some trap → Acts trap) := by
  have hrecorded : Recorded s'.store (lastSet calls) :=
    Recorded.run (hstart ▸ recorded_create p.maxSignalNumber) hrun
  exact ⟨apply_false_iff, hrecorded.reports_iff, hrecorded.runsExit_iff⟩

/-- A signal that is ignored, another one with an action, and an action for EXIT. -/
theorem trapStore_reports_set :
    let s : State Unit := { store := TrapStore.create 28, world := () }
    let calls : List Call := [.set 2 { isIgnored := true, isDefault := false },
      .set 15 { action := some "echo", isDefault := false },
      .setExit { action := some "echo", isDefault := false }]
    ∃ s', runCalls Platform.linux (fun _ _ w => (some .default, w)) calls s = .ok (true, s') ∧
      (Reports s'.store (traps calls) ↔
        (∀ signo trap, 0 < signo → signo < s'.store.traps.length → lastSet calls signo = some trap →
          Consistent trap) ∧ ∃ trap, lastSet calls 0 = some trap ∧ Acts trap) := by
  intro s calls
  have hrun : ∃ s', runCalls Platform.linux (fun _ _ w => (some .default, w)) calls s =
      .ok (true, s') := ⟨_, rfl⟩
  obtain ⟨s', hrun⟩ := hrun
  exact ⟨s', hrun, (@trapStore_reports_iff _ _ _ _ s _ rfl hrun).2.1⟩

/-- `trap - EXIT` is recorded as a trap without an action, which the frame then runs; and an action
that the system refuses for a signal stays in the record. -/
theorem exitReset_recorded :
    let accepts : Sigaction Unit := fun _ _ w => (some .default, w)
    let refuses : Sigaction Unit := fun _ _ w => (none, w)
    let s : State Unit := { store := TrapStore.create 28, world := () }
    (∃ s', runCalls Platform.linux accepts [.setExit { isDefault := true }] s = .ok (true, s') ∧
      ¬ Reports s'.store (traps [.setExit { isDefault := true }]) ∧
      popExitTrap true s'.store = .error (.contract "store->exit_action")) ∧
    ∃ s', Call.apply Platform.linux refuses s (.set 2 { action := some "echo", isDefault := false }) =
      .ok (false, s') ∧ s'.store ≠ s.store := by
  intro accepts refuses s
  refine ⟨⟨_, rfl, fun hreports => ?_, rfl⟩, _, rfl, by decide⟩
  exact absurd hreports.exit.isExitSet (by decide)

end All

end Migash.Exec.TrapRecords
