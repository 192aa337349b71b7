import Migash.Exec.FrameStack

/-! # Traps between the lines

The `trap` builtin writes into the trap store of the top frame. A signal that
arrives calls `trap_handler`, which looks into a store of its own that nobody
sets, and a driver that has done a line looks into the store of the executor,
which `exec_frame_create_top_level` has left without one.
-/

namespace Migash.Exec.PendingTraps

open Library FrameScopes FrameStack

/-- The signals of the system: `NSIG`, `get_max_signal_number`, the two signals that cannot be
caught, and whether `sigaction` accepts a signal. -/
structure Platform where
  nsig : ℕ
  maxSignalNumber : ℕ
  sigkill : ℕ
  sigstop : ℕ
  sigaction : ℕ → Bool

/-- Linux. -/
def Platform.linux : Platform where
  nsig := 65
  maxSignalNumber := 28
  sigkill := 9
  sigstop := 19
  sigaction := fun _ => true

/-- What the kernel does with a signal. -/
inductive Disposition where
  | default | ignored | trapHandler
  deriving DecidableEq, Repr

/-- What can be seen of the traps from outside; the signal number of EXIT is 0. -/
inductive TrapEvent where
  /-- the text of an action is executed as commands -/
  | executed (signo : ℕ) (action : String)
  | printed (text : String)
  deriving DecidableEq, Repr

/-- The trap stores that there are pointers to, the frames, and `executor->last_exit_status`. -/
structure Shell where
  stack : Executor := {}
  /-- `executor->traps` -/
  execTraps : Option TrapStore := none
  /-- `traps` of the top frame, which the frames in it share -/
  frameTraps : Option TrapStore := none
  /-- `signal_handler_trap_store` -/
  handlerTraps : Option TrapStore := none
  disposition : ℕ → Disposition := fun _ => .default
  trapPending : ℕ → Bool := fun _ => false
  lastExitStatus : ℤ := 0
  events : List TrapEvent := []

/-! ## The trap store -/

/-- `trap_store_set_exit`. A reset is an action like any other. -/
def trapStoreSetExit (action : Option String) (store : TrapStore) : TrapStore :=
  { store with exitTrapSet := true, exitAction := action }

/-- What `trap_store_set` asks `sigaction` for. -/
def wanted (trap : TrapAction) : Option Disposition :=
  if trap.isIgnored then some .ignored
  else if trap.isDefault then some .default
  else if trap.action.isSome then some .trapHandler
  else none

/-- `trap_store_set`, with the disposition that the signal gets if it gets a new one. That it may
fail is only told to the user. -/
def trapStoreSet (p : Platform) (signo : ℕ) (trap : TrapAction) (store : TrapStore) :
    Except Fault (TrapStore × Option Disposition) :=
  if store.traps.length ≤ signo then .error (.contract "signal_number < store->capacity")
  else if signo = p.sigkill ∨ signo = p.sigstop then .ok (store, none)
  else if signo = 0 then .ok (trapStoreSetExit trap.action store, none)
  else
    .ok ({ store with traps := store.traps.set signo trap },
      if p.sigaction signo then wanted trap else none)

/-- `trap_store_get`. -/
def trapStoreGet (store : Option TrapStore) (signo : ℕ) : Except Fault (Option TrapAction) :=
  match store with
  | none => .error (.contract "store")
  | some store =>
    match store.traps[signo]? with
    | none => .error (.contract "signal_number < store->capacity")
    | some trap =>
      .ok (if trap.isDefault && !trap.isIgnored && trap.action.isNone then none else some trap)

/-! ## The builtin and the signals -/

/-- The first operand of `trap`: `-`, the empty string, or commands. -/
inductive TrapArg where
  | reset
  | ignore
  | commands (text : String)
  deriving DecidableEq, Repr

/-- The trap that `builtin_trap` sets for an operand. -/
def TrapArg.trap : TrapArg → TrapAction
  | .reset => { isDefault := true }
  | .ignore => { isIgnored := true, isDefault := false }
  | .commands text => { action := some text, isDefault := false }

/-- `trap ARG SIGNAL`; a call with several signals is several calls. -/
structure TrapCall where
  arg : TrapArg
  signo : ℕ
  deriving DecidableEq, Repr

namespace Shell

/-- `exec_frame_create_top_level`, on top of a new frame with a trap store of its own. -/
def createTopLevel (p : Platform) (s : Shell) : Except Fault Shell := do
  let (_, stack) ← execFrameCreateTopLevel s.stack
  return { s with
    stack
    frameTraps := some (s.execTraps.getD (TrapStore.create p.maxSignalNumber))
    execTraps := none }

/-- `frame_set_trap` and `frame_set_exit_trap`, in the store that `get_trap_store` chooses. -/
def setTrap (p : Platform) (signo : ℕ) (trap : TrapAction) (s : Shell) : Except Fault Shell :=
  let set (store : TrapStore) : Except Fault (TrapStore × (ℕ → Disposition)) := do
    if signo = 0 then return (trapStoreSetExit trap.action store, s.disposition)
    let (store, new) ← trapStoreSet p signo trap store
    return (store, Function.update s.disposition signo (new.getD (s.disposition signo)))
  match s.frameTraps, s.execTraps with
  | some store, _ => do
    let (store, disposition) ← set store
    return { s with frameTraps := some store, disposition }
  | none, some store => do
    let (store, disposition) ← set store
    return { s with execTraps := some store, disposition }
  | none, none => .ok s

/-- `builtin_trap` with one signal. `trap_parse_signal_spec` takes the numbers below `NSIG`. -/
def trap (p : Platform) (call : TrapCall) (s : Shell) : Except Fault Shell :=
  if p.nsig ≤ call.signo then .ok s else s.setTrap p call.signo call.arg.trap

/-- `trap_handler`: the action is not executed, only printed. -/
def trapHandler (signo : ℕ) (s : Shell) : Except Fault Shell :=
  match s.handlerTraps with
  | none => .ok s
  | some store => do
    match (← trapStoreGet (some store) signo).bind (·.action) with
    | none => return s
    | some action =>
      return { s with
        events := s.events ++
          [.printed s!"Executing trap action for signal {signo}: {action}"] }

/-- A signal arrives. What a signal does that has no handler does not concern the traps. -/
def arrive (signo : ℕ) (s : Shell) : Except Fault Shell :=
  match s.disposition signo with
  | .default | .ignored => .ok s
  | .trapHandler => s.trapHandler signo

/-- The action that is installed for a signal. -/
def installed (s : Shell) (signo : ℕ) : Option String :=
  s.frameTraps.bind fun store => store.traps[signo]?.bind (·.action)

/-- The action that is installed for EXIT. -/
def installedExit (s : Shell) : Option String := s.frameTraps.bind (·.exitAction)

end Shell

/-- A new shell in which `trap` was called and signals have arrived. Nothing in the shell sets
`trap_pending`; it is taken as it is found. -/
def lineEnd (p : Platform) (calls : List TrapCall) (arrived : List ℕ) (flagged : ℕ → Bool)
    (status : ℤ) : Except Fault Shell := do
  let s ← Shell.createTopLevel p {}
  let s ← calls.foldlM (fun s call => s.trap p call) s
  let s ← arrived.foldlM (fun s signo => s.arrive signo) s
  return { s with trapPending := flagged, lastExitStatus := status }

/-! ## The drivers -/

/-- `exec_execute_stream_repl`, `exec_execute_stream_with_line_editor`, and
`exec_execute_stream_once` behind a stream with the given status. -/
inductive Driver where
  | streamRepl
  | lineEditor
  | streamOnce (status : ExecStatus)
  deriving DecidableEq, Repr

/-- Whether the driver comes to its trap loop. -/
def Driver.handlesTraps : Driver → Bool
  | .streamRepl | .lineEditor => true
  | .streamOnce status => status = .ok

/-- How the trap loop of a driver ends: it goes on behind the loop, or stops for the outcome of an
action. -/
inductive LoopEnd where
  | goesOn | exit | error
  deriving DecidableEq, Repr

/-- `frame_execute_string`. `execute` is what the commands of a text do to `$?`. -/
def frameExecuteString (execute : String → ℤ → ExecStatus × ℤ) (text : String) (exitStatus : ℤ) :
    ExecStatus × ℤ :=
  if text = "" then (.ok, exitStatus)
  else
    let (status, exitStatus) := execute text exitStatus
    match status with
    | .ok | .empty | .exit => (.ok, exitStatus)
    | .error | .notImpl | .incomplete => (.error, exitStatus)

/-- How a driver executes the action of a trap. -/
def Driver.execute (d : Driver) (execute : String → ℤ → ExecStatus × ℤ) (text : String)
    (exitStatus : ℤ) : ExecStatus × ℤ :=
  match d with
  | .lineEditor => execute text exitStatus
  | .streamRepl | .streamOnce _ => frameExecuteString execute text exitStatus

/-- At which outcome a driver leaves the loop. -/
def Driver.leaves : Driver → ExecStatus → Option LoopEnd
  | .streamRepl, .exit | .lineEditor, .exit => some .exit
  | .streamOnce _, .error => some .error
  | _, _ => none

/-- One turn of the trap loop. -/
def trapTurn (d : Driver) (execute : String → ℤ → ExecStatus × ℤ) (signo : ℕ) (s : Shell) :
    Except Fault (Option LoopEnd × Shell) :=
  if s.trapPending signo then do
    let s := { s with trapPending := Function.update s.trapPending signo false }
    match (← trapStoreGet s.execTraps signo).bind (·.action) with
    | none => return (none, s)
    | some action => do
      let saved := s.lastExitStatus
      let (_, stack) ← FrameStack.execFramePush s.stack.currentFrame .trap s.stack
      let (status, _) := d.execute execute action s.lastExitStatus
      let (_, stack) ← FrameStack.execFramePop .currentFrame stack
      return (d.leaves status,
        { s with stack, lastExitStatus := saved, events := s.events ++ [.executed signo action] })
  else return (none, s)

/-- The trap loop, with the signals that it still has to look at. -/
def trapLoop (d : Driver) (execute : String → ℤ → ExecStatus × ℤ) :
    List ℕ → Shell → Except Fault (LoopEnd × Shell)
  | [], s => .ok (.goesOn, s)
  | signo :: rest, s => do
    let (leaves, s) ← trapTurn d execute signo s
    match leaves with
    | some loopEnd => return (loopEnd, s)
    | none => trapLoop d execute rest s

/-- What a driver does about the traps behind a line. -/
def processPendingTraps (p : Platform) (d : Driver) (execute : String → ℤ → ExecStatus × ℤ)
    (s : Shell) : Except Fault (LoopEnd × Shell) :=
  if d.handlesTraps then trapLoop d execute (List.range' 1 (p.nsig - 1)) s else .ok (.goesOn, s)

/-! ## The end of the shell -/

/-- How the shell ends: by the `exit` builtin in the top frame, or by `exec_destroy`. -/
inductive ShellEnd where
  | exitBuiltin
  | destroy
  deriving DecidableEq, Repr

namespace Shell

/-- `trap_store_run_exit_trap`. -/
def runExitTrap (store : TrapStore) (s : Shell) : Except Fault Shell := do
  store.runExitTrap
  return { s with
    events := s.events ++
      [.printed s!"Executing EXIT trap action: {store.exitAction.getD default}"] }

/-- `frame_run_exit_traps`. -/
def frameRunExitTraps (s : Shell) : Except Fault Shell :=
  match s.frameTraps <|> s.execTraps with
  | none => .ok s
  | some store =>
    if store.exitTrapSet then
      match store.exitAction with
      | none | some "" => .ok s
      | some _ => s.runExitTrap store
    else .ok s

/-- `exec_frame_pop` with the pointer to the current frame, and the EXIT trap. -/
def popCurrent (s : Shell) : Except Fault Shell :=
  match s.stack.currentFrame with
  | none => .error (.contract "frame")
  | some frame => do
    let ⟨type, _⟩ ← deref s.stack.frames frame
    let (_, stack) ← FrameStack.execFramePop .currentFrame s.stack
    let s := { s with stack }
    if (execFramePolicies type).exitTrapRuns then
      match s.frameTraps with
      | none => return s
      | some store => if store.exitTrapSet then s.runExitTrap store else return s
    else return s

/-- The loop of `exec_destroy`. -/
def destroy : ℕ → Shell → Except Fault Shell
  | 0, _ => .error .fuel
  | n + 1, s => if s.stack.currentFrame = none then .ok s else do destroy n (← s.popCurrent)

def close (how : ShellEnd) (s : Shell) : Except Fault Shell :=
  match how with
  | .exitBuiltin => s.frameRunExitTraps
  | .destroy => s.destroy (s.stack.frames.cells.length + 1)

end Shell

/-! ## What is promised -/

section Promise

variable {p : Platform} {d : Driver} {execute : String → ℤ → ExecStatus × ℤ}
  {calls : List TrapCall} {arrived : List ℕ} {flagged : ℕ → Bool} {status : ℤ} {s s' : Shell}

/-- The signals that are pending at the end of a line: those that have arrived, and those that are
flagged. -/
def Pending (p : Platform) (arrived : List ℕ) (s : Shell) (signo : ℕ) : Prop :=
  signo ∈ arrived ∨ 0 < signo ∧ signo < p.nsig ∧ s.trapPending signo = true

/-- The actions of the pending signals were executed once each, and the driver goes on with `$?` as it
was, unless an action has ended the shell; at the end of the shell the EXIT action is executed once. -/
structure Handles (p : Platform) (d : Driver) (execute : String → ℤ → ExecStatus × ℤ)
    (arrived : List ℕ) (s : Shell) (loopEnd : LoopEnd) (s' : Shell) : Prop where
  once : ∀ signo action, Pending p arrived s signo → s.installed signo = some action →
    s'.events.count (.executed signo action) = 1
  exitStatus : s'.lastExitStatus = s.lastExitStatus
  goesOn : loopEnd = .goesOn ∨ ∃ signo action, .executed signo action ∈ s'.events ∧
    (d.leaves (d.execute execute action s.lastExitStatus).1).isSome
  exit : ∀ action, s.installedExit = some action → ∀ how, ∃ s'', s'.close how = .ok s'' ∧
    s''.events.count (.executed 0 action) = 1

/-- No pending signal has an action, none is flagged if the driver looks at the flags, and there is no
action for EXIT. -/
structure NothingToDo (p : Platform) (d : Driver) (arrived : List ℕ) (s : Shell) : Prop where
  flagged : ∀ signo, 0 < signo → signo < p.nsig → s.trapPending signo = true →
    d.handlesTraps = false ∧ s.installed signo = none
  arrived : ∀ signo ∈ arrived, s.installed signo = none
  exit : s.installedExit = none

/-- Neither the executor nor the signal handler knows a trap store, and nothing was executed. -/
structure Unaware (s : Shell) : Prop where
  execTraps : s.execTraps = none
  handlerTraps : s.handlerTraps = none
  events : s.events = []

theorem Unaware.setTrap (h : Unaware s) {signo : ℕ} {trap : TrapAction}
    (hset : s.setTrap p signo trap = .ok s') : Unaware s' := by
  unfold Shell.setTrap at hset
  rw [h.execTraps] at hset
  cases hframe : s.frameTraps with
  | none =>
    rw [hframe] at hset
    cases hset
    exact h
  | some store =>
    rw [hframe] at hset
    obtain ⟨⟨new, disposition⟩, -, hrest⟩ := except_bind_eq_ok.mp hset
    cases hrest
    exact ⟨rfl, h.handlerTraps, h.events⟩

theorem Unaware.trap (h : Unaware s) {call : TrapCall} (htrap : s.trap p call = .ok s') :
    Unaware s' := by
  unfold Shell.trap at htrap
  split_ifs at htrap
  · cases htrap
    exact h
  · exact h.setTrap htrap

/-- The handler does nothing with a signal. -/
theorem Unaware.arrive (h : Unaware s) (signo : ℕ) : s.arrive signo = .ok s := by
  unfold Shell.arrive Shell.trapHandler
  rw [h.handlerTraps]
  cases s.disposition signo <;> rfl

theorem Unaware.arriveAll (h : Unaware s) (arrived : List ℕ) :
    arrived.foldlM (fun s signo => s.arrive signo) s = .ok s := by
  induction arrived with
  | nil => rfl
  | cons signo arrived ih =>
    rw [List.foldlM_cons, h.arrive signo]
    exact ih

theorem Unaware.trapAll (h : Unaware s) (hall : calls.foldlM (fun s call => s.trap p call) s = .ok s') :
    Unaware s' := by
  induction calls generalizing s with
  | nil =>
    cases hall
    exact h
  | cons call calls ih =>
    rw [List.foldlM_cons] at hall
    obtain ⟨t, htrap, hrest⟩ := except_bind_eq_ok.mp hall
    exact ih (h.trap htrap) hrest

theorem lineEnd_unaware (h : lineEnd p calls arrived flagged status = .ok s) : Unaware s := by
  unfold lineEnd at h
  obtain ⟨top, htop, h⟩ := except_bind_eq_ok.mp h
  obtain ⟨set, hset, h⟩ := except_bind_eq_ok.mp h
  have hnew : Unaware top := by
    cases htop
    exact ⟨rfl, rfl, rfl⟩
  have hunaware := hnew.trapAll hset
  rw [hunaware.arriveAll] at h
  cases h
  exact ⟨hunaware.execTraps, hunaware.handlerTraps, hunaware.events⟩

/-- A turn for a flagged signal looks into a store that is not there. -/
theorem Unaware.trapTurn_eq (h : Unaware s) (d : Driver) (execute : String → ℤ → ExecStatus × ℤ)
    (signo : ℕ) :
    trapTurn d execute signo s =
      if s.trapPending signo then .error (.contract "store") else .ok (none, s) := by
  unfold trapTurn
  split_ifs with hflagged
  · simp only [h.execTraps]
    rfl
  · rfl

theorem Unaware.trapLoop_iff (h : Unaware s) (signos : List ℕ) {loopEnd : LoopEnd} :
    trapLoop d execute signos s = .ok (loopEnd, s') ↔
      (∀ signo ∈ signos, s.trapPending signo = false) ∧ loopEnd = .goesOn ∧ s' = s := by
  induction signos with
  | nil =>
    rw [trapLoop, Except.ok.injEq, Prod.mk.injEq]
    exact ⟨fun ⟨h, h'⟩ => ⟨fun _ hmem => absurd hmem List.not_mem_nil, h.symm, h'.symm⟩,
      fun ⟨_, h, h'⟩ => ⟨h.symm, h'.symm⟩⟩
  | cons signo signos ih =>
    rw [trapLoop, h.trapTurn_eq]
    by_cases hflagged : s.trapPending signo = true
    · rw [if_pos hflagged]
      refine iff_of_false (fun h => nomatch h) fun ⟨hall, _⟩ => ?_
      rw [hall signo List.mem_cons_self] at hflagged
      exact Bool.false_ne_true hflagged
    · rw [if_neg hflagged, List.forall_mem_cons]
      have hfalse : s.trapPending signo = false := by simpa using hflagged
      refine ih.trans ?_
      rw [and_iff_right hfalse]

/-- What a driver does that is told of no trap store. -/
theorem Unaware.processPendingTraps_iff (h : Unaware s) {loopEnd : LoopEnd} :
    processPendingTraps p d execute s = .ok (loopEnd, s') ↔
      (∀ signo, 0 < signo → signo < p.nsig → s.trapPending signo = true → d.handlesTraps = false) ∧
        loopEnd = .goesOn ∧ s' = s := by
  unfold processPendingTraps
  split_ifs with hhandles
  · rw [h.trapLoop_iff]
    refine and_congr_left fun _ => forall_congr' fun signo => ?_
    rw [List.mem_range'_1, hhandles]
    constructor
    · intro hnone hpos hlt hflagged
      rw [hnone ⟨hpos, by omega⟩] at hflagged
      exact hflagged.symm
    · intro hnone ⟨hpos, hlt⟩
      by_contra hflagged
      exact Bool.false_ne_true (hnone hpos (by omega) (by simpa using hflagged)).symm
  · rw [Except.ok.injEq, Prod.mk.injEq]
    constructor
    · rintro ⟨rfl, rfl⟩
      exact ⟨fun _ _ _ _ => by simpa using hhandles, rfl, rfl⟩
    · rintro ⟨-, rfl, rfl⟩
      exact ⟨rfl, rfl⟩

/-- The `exit` builtin executes no action. -/
theorem frameRunExitTraps_count {signo : ℕ} {action : String} (h : s.frameRunExitTraps = .ok s') :
    s'.events.count (.executed signo action) = s.events.count (.executed signo action) := by
  unfold Shell.frameRunExitTraps Shell.runExitTrap at h
  split at h
  · cases h
    rfl
  · split_ifs at h
    · split at h
      · cases h
        rfl
      · cases h
        rfl
      · obtain ⟨_, -, h⟩ := except_bind_eq_ok.mp h
        cases h
        rw [List.count_append, List.count_singleton]
        simp
    · cases h
      rfl

/-- A call of `trap` with EXIT and a reset breaks a contract when the shell is destroyed. -/
theorem destroy_without_action {frame : ℕ} {store : TrapStore} (n : ℕ)
    (hcurrent : s.stack.currentFrame = some frame)
    (hframe : s.stack.frames.get frame = some ⟨.topLevel, none⟩) (hstore : s.frameTraps = some store)
    (hset : store.exitTrapSet = true) (hnone : store.exitAction = none) :
    s.destroy (n + 1) = .error (.contract "store->exit_action") := by
  have hpop : FrameStack.execFramePop .currentFrame s.stack = .ok (none,
      { frames := s.stack.frames.free frame
        currentFrame := none, topFrame := none, topFrameInitialized := false }) := by
    unfold FrameStack.execFramePop FramePtr.frame
    simp only [hcurrent, deref_of_get hframe, bind, Except.bind, pure, Except.pure]
  unfold Shell.destroy Shell.popCurrent Shell.runExitTrap TrapStore.runExitTrap
  rw [if_neg (by simp [hcurrent]), hcurrent]
  simp only [deref_of_get hframe, hpop, hstore, hset, hnone, bind, Except.bind, execFramePolicies,
    if_true]

end Promise

end Migash.Exec.PendingTraps
