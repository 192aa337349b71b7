import Migash.Exec.Frame
import Migash.Library.Gives
import Migash.Library.Heap

/-! # What a frame shares with its parent

Behind each pointer of a frame lies a store that the frame shares with its
parent, has copied from it or owns. A pop frees what the frame does not share.
A dot script with arguments puts positional parameters of its own in the place
of the shared ones; without arguments it writes its `$0` into the shared ones.
-/

namespace Migash.Exec.FrameScopes

open Library

/-! ## The stores -/

/-- `trap_action_t`. -/
structure TrapAction where
  action : Option String := none
  isIgnored : Bool := false
  isDefault : Bool := true
  deriving DecidableEq, Repr

/-- `trap_store_t`; the actions are indexed by the signal number. -/
structure TrapStore where
  traps : List TrapAction
  exitTrapSet : Bool := false
  exitAction : Option String := none
  deriving DecidableEq, Repr

/-- `trap_store_create`. -/
def TrapStore.create (maxSignalNumber : ℕ) : TrapStore where
  traps := List.replicate (maxSignalNumber + 1) {}

/-- `trap_store_reset_non_ignored`. The EXIT trap stays as it is. -/
def TrapStore.resetNonIgnored (t : TrapStore) : TrapStore :=
  { t with
    traps := t.traps.map fun trap =>
      if trap.isIgnored then trap else { trap with action := none, isDefault := true } }

/-- `trap_store_run_exit_trap`: the action is only printed. -/
def TrapStore.runExitTrap (t : TrapStore) : Except Fault Unit :=
  match t.exitAction with
  | some _ => .ok ()
  | none => .error (.contract "store->exit_action")

/-- `func_store_clone`. -/
def funcStoreClone (store : FuncStore) : Except Fault FuncStore :=
  store.mapM fun entry => do
    return (entry.1,
      { func := ← entry.2.func.clone
        redirections := entry.2.redirections.map execRedirectionsClone })

/-- The stores of all frames. -/
structure Memory where
  variables_ : Heap VariableStore := {}
  positionalParams : Heap PositionalParams := {}
  openFds : Heap FdTable := {}
  traps : Heap TrapStore := {}
  optFlags : Heap OptFlags := {}
  workingDirectory : Heap String := {}
  umask : Heap ℕ := {}
  functions : Heap FuncStore := {}
  aliases : Heap (List (String × String)) := {}

/-- `miga_frame_t`: the pointers to its stores, and the two numbers that push and pop copy. -/
structure ScopedFrame where
  type : FrameType
  variables_ : ℕ
  localVariables : Option ℕ := none
  positionalParams : Option ℕ
  savedPositionalParams : Option ℕ := none
  openFds : ℕ
  traps : ℕ
  optFlags : ℕ
  workingDirectory : ℕ
  umask : ℕ
  functions : ℕ
  aliases : ℕ
  lastExitStatus : ℤ := 0
  lastBgPid : ℤ := 0
  deriving DecidableEq, Repr

/-- What `miga_exec_t` and the system give to a frame that has no parent to take it from. -/
structure Startup where
  shellName : String
  argv : List String
  envp : VariableStore
  cwd : String
  umask : ℕ
  maxSignalNumber : ℕ

/-! ## Push -/

/-- The scope that `EXEC_FRAME_POLICIES` gives to a frame's variables, descriptors, traps, options,
working directory, umask, functions and aliases: the same one for all of them. -/
def storeScope : FrameType → Scope
  | .topLevel => .own
  | .subshell | .backgroundJob | .pipelineCmd => .copy
  | .braceGroup | .function | .loop | .trap | .pipeline | .dotScript | .eval => .share

section Push

variable {α : Type}

/-- The object behind a pointer. -/
def deref (heap : Heap α) (p : ℕ) : Except Fault α :=
  match heap.get p with
  | some a => .ok a
  | none => .error (.contract "dangling pointer")

theorem deref_of_get {heap : Heap α} {p : ℕ} {a : α} (h : heap.get p = some a) :
    deref heap p = .ok a := by
  rw [deref, h]

theorem deref_of_none {heap : Heap α} {p : ℕ} (h : heap.get p = none) :
    deref heap p = .error (.contract "dangling pointer") := by
  rw [deref, h]

/-- `INIT_BY_SCOPE`. -/
def initByScope (scope : Scope) (heap : Heap α) (parent : ℕ) (create : α)
    (clone : α → Except Fault α) : Except Fault (ℕ × Heap α) :=
  match scope with
  | .own => return heap.alloc create
  | .copy => do return heap.alloc (← clone (← deref heap parent))
  | .share => return (parent, heap)

/-- A pointer that must not be NULL. -/
def notNull (what : String) : Option α → Except Fault α
  | some a => .ok a
  | none => .error (.contract what)

/-- `positional_params_get_arg0`. -/
def getArg0 (heap : Heap PositionalParams) (p : Option ℕ) : Except Fault (Option String) := do
  return (← deref heap (← notNull "params" p)).arg0

/-- `positional_params_create_from_strlist`; NULL if there are too many. -/
def createFromStrlist (heap : Heap PositionalParams) (arg0 : Option String)
    (arguments : List String) : Except Fault (Option ℕ × Heap PositionalParams) :=
  if arguments.length > 4096 then .ok (none, heap)
  else do
    let arg0 ← notNull "other" arg0
    let (p, heap) := heap.alloc ⟨some arg0, arguments⟩
    return (some p, heap)

/-- The scope switch of `init_positional_params`: the pointer, the one that it replaces for the time
of a dot script, and the heap. -/
def initPositionalScope (startup : Startup) (type : FrameType) (arguments : Option (List String))
    (heap : Heap PositionalParams) (parent : Option ℕ) :
    Except Fault (Option ℕ × Option ℕ × Heap PositionalParams) :=
  match (execFramePolicies type).positionalScope with
  | .own =>
    if type = .topLevel then
      if startup.argv.length > 4096 then return (none, none, heap)
      else
        let (p, heap) := heap.alloc ⟨some startup.shellName, startup.argv⟩
        return (some p, none, heap)
    else
      match (execFramePolicies type).callArgs, arguments with
      | true, some arguments => do
        let (p, heap) ← createFromStrlist heap (← getArg0 heap parent) arguments
        return (p, none, heap)
      | _, _ =>
        let (p, heap) := heap.alloc ⟨none, []⟩
        return (some p, none, heap)
  | .copy => do
    let src ← deref heap (← notNull "src" parent)
    let (p, heap) := heap.alloc { src with arg0 := some (src.arg0.getD "miga") }
    return (some p, none, heap)
  | .share =>
    match (execFramePolicies type).canOverride, arguments with
    | true, some arguments => do
      let (p, heap) ← createFromStrlist heap (← getArg0 heap parent) arguments
      return (p, parent, heap)
    | _, _ => return (parent, none, heap)

/-- `positional_params_set_arg0`: the object behind the pointer is changed. -/
def setArg0 (heap : Heap PositionalParams) (p : Option ℕ) (arg0 : String) :
    Except Fault (Heap PositionalParams) := do
  let p ← notNull "params" p
  return heap.set p { ← deref heap p with arg0 := some arg0 }

/-- `init_positional_params`. -/
def initPositionalParams (startup : Startup) (type : FrameType) (params : ExecParams)
    (heap : Heap PositionalParams) (parent : Option ℕ) :
    Except Fault (Option ℕ × Option ℕ × Heap PositionalParams) := do
  let (p, saved, heap) ← initPositionalScope startup type params.arguments heap parent
  match (execFramePolicies type).setsArg0, params.scriptPath with
  | true, some path => return (p, saved, ← setArg0 heap p path)
  | _, _ => return (p, saved, heap)

/-- `exec_frame_push` for a frame with a parent. -/
def execFramePush (startup : Startup) (type : FrameType) (params : ExecParams)
    (parent : ScopedFrame) (m : Memory) : Except Fault (ScopedFrame × Memory) := do
  let scope := storeScope type
  let (variables_, variablesHeap) ←
    initByScope scope m.variables_ parent.variables_ startup.envp
      fun v => .ok (VariableStore.empty.copyAll v)
  let (localVariables, variablesHeap) :=
    if (execFramePolicies type).hasLocals then
      let (p, heap) := variablesHeap.alloc .empty
      (some p, heap)
    else (none, variablesHeap)
  let (positionalParams, savedPositionalParams, positionalHeap) ←
    initPositionalParams startup type params m.positionalParams parent.positionalParams
  let (openFds, fdsHeap) ← initByScope scope m.openFds parent.openFds {} .ok
  -- whatever copies the traps resets them as well
  let (traps, trapsHeap) ← initByScope scope m.traps parent.traps
    (.create startup.maxSignalNumber) fun t => .ok t.resetNonIgnored
  let (optFlags, optionsHeap) ← initByScope scope m.optFlags parent.optFlags {} .ok
  let (workingDirectory, cwdHeap) ←
    initByScope scope m.workingDirectory parent.workingDirectory startup.cwd .ok
  let (umask, umaskHeap) ← initByScope scope m.umask parent.umask startup.umask .ok
  let (functions, functionsHeap) ← initByScope scope m.functions parent.functions []
    funcStoreClone
  let (aliases, aliasesHeap) ← initByScope scope m.aliases parent.aliases [] .ok
  return (
    { type, variables_, localVariables, positionalParams, savedPositionalParams, openFds, traps,
      optFlags, workingDirectory, umask, functions, aliases
      lastExitStatus := parent.lastExitStatus
      lastBgPid := parent.lastBgPid },
    { variables_ := variablesHeap, positionalParams := positionalHeap, openFds := fdsHeap
      traps := trapsHeap, optFlags := optionsHeap, workingDirectory := cwdHeap, umask := umaskHeap
      functions := functionsHeap, aliases := aliasesHeap })

/-! ## Pop -/

/-- A store that the frame does not share is destroyed. -/
def cleanup (scope : Scope) (heap : Heap α) (p : ℕ) : Heap α :=
  if scope = .share then heap else heap.free p

/-- A store behind a pointer that may be NULL. -/
def freeOption (heap : Heap α) (p : Option ℕ) : Heap α :=
  match p with
  | some p => heap.free p
  | none => heap

/-- The positional parameters of `cleanup_frame_resources`. -/
def cleanupPositionalParams (type : FrameType) (p saved : Option ℕ)
    (heap : Heap PositionalParams) : Heap PositionalParams :=
  let heap :=
    if (execFramePolicies type).positionalScope = .share then heap else freeOption heap p
  if saved.isSome ∧ p ≠ saved then freeOption heap p else heap

/-- `cleanup_frame_resources`. -/
def cleanupFrameResources (frame : ScopedFrame) (m : Memory) : Memory :=
  let scope := storeScope frame.type
  { variables_ := freeOption (cleanup scope m.variables_ frame.variables_) frame.localVariables
    positionalParams :=
      cleanupPositionalParams frame.type frame.positionalParams frame.savedPositionalParams
        m.positionalParams
    openFds := cleanup scope m.openFds frame.openFds
    traps := cleanup scope m.traps frame.traps
    optFlags := cleanup scope m.optFlags frame.optFlags
    workingDirectory := cleanup scope m.workingDirectory frame.workingDirectory
    umask := cleanup scope m.umask frame.umask
    functions := cleanup scope m.functions frame.functions
    aliases := cleanup scope m.aliases frame.aliases }

/-- The EXIT trap of a frame that ends. -/
def popExitTrap (frame : ScopedFrame) (m : Memory) : Except Fault Unit :=
  if (execFramePolicies frame.type).exitTrapRuns then do
    let traps ← deref m.traps frame.traps
    if traps.exitTrapSet then traps.runExitTrap else return ()
  else return ()

/-- `exec_frame_pop` for a frame with a parent, which it hands back. -/
def execFramePop (frame parent : ScopedFrame) (m : Memory) :
    Except Fault (ScopedFrame × Memory) := do
  popExitTrap frame m
  let parent :=
    if (execFramePolicies frame.type).affectsParentStatus then
      { parent with lastExitStatus := frame.lastExitStatus }
    else parent
  return (parent, cleanupFrameResources frame m)

/-- A push and the pop right behind it. -/
def pushPop (startup : Startup) (type : FrameType) (params : ExecParams) (parent : ScopedFrame)
    (m : Memory) : Except Fault (ScopedFrame × Memory) := do
  let (frame, m) ← execFramePush startup type params parent m
  execFramePop frame parent m

end Push

/-! ## What the parent has afterwards -/

/-- The parent's positional parameters. -/
def ScopedFrame.positional (frame : ScopedFrame) (m : Memory) : Option PositionalParams :=
  frame.positionalParams.bind m.positionalParams.get

/-- Behind every pointer of the frame lies what lay there before. -/
structure Unchanged (frame : ScopedFrame) (m m' : Memory) : Prop where
  variables_ : m'.variables_.get frame.variables_ = m.variables_.get frame.variables_
  positional : frame.positional m' = frame.positional m
  openFds : m'.openFds.get frame.openFds = m.openFds.get frame.openFds
  traps : m'.traps.get frame.traps = m.traps.get frame.traps
  optFlags : m'.optFlags.get frame.optFlags = m.optFlags.get frame.optFlags
  workingDirectory : m'.workingDirectory.get frame.workingDirectory =
    m.workingDirectory.get frame.workingDirectory
  umask : m'.umask.get frame.umask = m.umask.get frame.umask
  functions : m'.functions.get frame.functions = m.functions.get frame.functions
  aliases : m'.aliases.get frame.aliases = m.aliases.get frame.aliases

/-- A call with arguments needs the `$0` of its parent, unless there are too many of them. A dot
script with arguments must not have too many; one without sets the `$0` of its parent, so that this
has to be the script's name already. -/
def Restores (params : ExecParams) (before : Option PositionalParams) : FrameType → Prop
  | .function => ∀ arguments, params.arguments = some arguments →
      ∃ a, before = some a ∧ (arguments.length ≤ 4096 → a.arg0.isSome)
  | .dotScript =>
    match params.arguments with
    | some arguments => ∃ a, before = some a ∧ (arguments.length ≤ 4096 → a.arg0.isSome) ∧
        (params.scriptPath.isSome → arguments.length ≤ 4096)
    | none => ∀ path, params.scriptPath = some path → ∃ a, before = some a ∧ a.arg0 = some path
  | _ => True

/-! ## A frame that shares its stores -/

variable {startup : Startup} {type : FrameType} {params : ExecParams} {parent : ScopedFrame}
  {m m' : Memory} {heap heap' : Heap PositionalParams} {p : Option ℕ}

/-- The part of a push and a pop that deals with the positional parameters. -/
def positionalPushPop (startup : Startup) (type : FrameType) (params : ExecParams)
    (heap : Heap PositionalParams) (p : Option ℕ) : Except Fault (Heap PositionalParams) := do
  let (p, saved, heap) ← initPositionalParams startup type params heap p
  return cleanupPositionalParams type p saved heap

theorem exitTrapRuns_of_share (h : storeScope type = .share) :
    (execFramePolicies type).exitTrapRuns = false := by
  cases type with
  | topLevel | subshell | backgroundJob | pipelineCmd => cases h
  | braceGroup | function | loop | trap | pipeline | dotScript | eval => rfl

/-- The local variables of a function live as long as its frame. -/
def variablesPushPop (type : FrameType) (heap : Heap VariableStore) : Heap VariableStore :=
  if (execFramePolicies type).hasLocals then (heap.alloc .empty).2.free heap.cells.length
  else heap

theorem get_variablesPushPop (heap : Heap VariableStore) :
    (variablesPushPop type heap).get = heap.get := by
  unfold variablesPushPop
  split_ifs
  · exact Heap.get_free_of_alloc heap.get_length fun q hq => heap.get_alloc_of_ne hq _
  · rfl

/-- Behind a push and a pop the parent frame is what it was, and only the heaps of the variables and
of the positional parameters have seen anything. -/
theorem pushPop_of_share (h : storeScope type = .share) :
    pushPop startup type params parent m = (do
      let heap ← positionalPushPop startup type params m.positionalParams parent.positionalParams
      return (parent,
        { m with variables_ := variablesPushPop type m.variables_, positionalParams := heap })) := by
  have htrap := exitTrapRuns_of_share h
  unfold pushPop execFramePush positionalPushPop
  simp only [h, initByScope, bind_assoc, pure_bind]
  congr 1
  funext x
  cases hlocals : (execFramePolicies type).hasLocals <;>
    simp [execFramePop, popExitTrap, htrap, cleanupFrameResources, cleanup, h, variablesPushPop,
      hlocals, freeOption, Heap.alloc]

/-! ## Its positional parameters -/

/-- The positional parameters of a call. -/
def callParams (heap : Heap PositionalParams) (p : Option ℕ) (arguments : List String) :
    Except Fault (Option ℕ × Heap PositionalParams) := do
  createFromStrlist heap (← getArg0 heap p) arguments

theorem getArg0_of_some {a : PositionalParams} (h : p.bind heap.get = some a) :
    getArg0 heap p = .ok a.arg0 := by
  obtain ⟨q, rfl, hq⟩ := Option.bind_eq_some_iff.mp h
  change (do return (← deref heap q).arg0) = _
  rw [deref_of_get hq]
  rfl

theorem getArg0_of_none (h : p.bind heap.get = none) : ∃ e, getArg0 heap p = .error e := by
  cases p with
  | none => exact ⟨_, rfl⟩
  | some q =>
    refine ⟨.contract "dangling pointer", ?_⟩
    change (do return (← deref heap q).arg0) = _
    rw [deref_of_none h]
    rfl

/-- The parameters of a call are a new object, unless they are too many. -/
inductive CallParams (heap : Heap PositionalParams) (arguments : List String) :
    Option ℕ × Heap PositionalParams → Prop
  | tooMany (h : 4096 < arguments.length) : CallParams heap arguments (none, heap)
  | new (h : arguments.length ≤ 4096) (name : String) :
      CallParams heap arguments
        (some heap.cells.length, (heap.alloc ⟨some name, arguments⟩).2)

theorem callParams_ok {arguments : List String} {r : Option ℕ × Heap PositionalParams}
    (h : callParams heap p arguments = .ok r) :
    ∃ a, p.bind heap.get = some a ∧ (arguments.length ≤ 4096 → a.arg0.isSome) ∧
      CallParams heap arguments r := by
  cases hbefore : p.bind heap.get with
  | none =>
    obtain ⟨e, he⟩ := getArg0_of_none hbefore
    rw [callParams, he] at h
    cases h
  | some a =>
    rw [callParams, getArg0_of_some hbefore] at h
    change createFromStrlist heap a.arg0 arguments = .ok r at h
    unfold createFromStrlist at h
    split_ifs at h with hlength
    · cases h
      exact ⟨a, rfl, fun hle => absurd hle (by omega), .tooMany hlength⟩
    · cases harg0 : a.arg0 with
      | none =>
        rw [harg0] at h
        cases h
      | some name =>
        rw [harg0] at h
        cases h
        exact ⟨a, rfl, fun _ => by simp [harg0], .new (by omega) name⟩

theorem callParams_of_arg0 {arguments : List String} {a : PositionalParams}
    (hbefore : p.bind heap.get = some a) (harg0 : arguments.length ≤ 4096 → a.arg0.isSome) :
    ∃ r, callParams heap p arguments = .ok r := by
  rw [callParams, getArg0_of_some hbefore]
  change ∃ r, createFromStrlist heap a.arg0 arguments = .ok r
  unfold createFromStrlist
  split_ifs with hlength
  · exact ⟨_, rfl⟩
  · obtain ⟨name, hname⟩ := Option.isSome_iff_exists.mp (harg0 (by omega))
    rw [hname]
    exact ⟨_, rfl⟩

/-- What is freed at the end is the new object. -/
theorem CallParams.get_freeOption {arguments : List String} {r : Option ℕ × Heap PositionalParams}
    (h : CallParams heap arguments r) : (freeOption r.2 r.1).get = heap.get := by
  cases h with
  | tooMany hlength => rfl
  | new hlength name =>
    exact Heap.get_free_of_alloc heap.get_length fun q hq => heap.get_alloc_of_ne hq _

/-- The new object is not the one of the parent. -/
theorem CallParams.ne {arguments : List String} {r : Option ℕ × Heap PositionalParams}
    (h : CallParams heap arguments r) {a : PositionalParams} (hbefore : p.bind heap.get = some a) :
    p.isSome ∧ r.1 ≠ p := by
  obtain ⟨q, rfl, hq⟩ := Option.bind_eq_some_iff.mp hbefore
  refine ⟨rfl, ?_⟩
  cases h with
  | tooMany hlength => simp
  | new hlength name =>
    rintro heq
    cases heq
    rw [heap.get_length] at hq
    cases hq

/-- Do the positional parameters survive a push and a pop? -/
def PositionalSurvive (startup : Startup) (type : FrameType) (params : ExecParams)
    (heap : Heap PositionalParams) (p : Option ℕ) : Prop :=
  ∃ heap', positionalPushPop startup type params heap p = .ok heap' ∧
    p.bind heap'.get = p.bind heap.get

theorem positionalSurvive_function_iff :
    PositionalSurvive startup .function params heap p ↔
      Restores params (p.bind heap.get) .function := by
  cases harguments : params.arguments with
  | none =>
    refine iff_of_true ⟨_, ?_, congrArg p.bind (Heap.get_free_of_alloc heap.get_length
      fun q hq => heap.get_alloc_of_ne hq ⟨none, []⟩)⟩ ?_
    · simp only [positionalPushPop, initPositionalParams, initPositionalScope, execFramePolicies,
        harguments]
      rfl
    · intro arguments h
      cases harguments.symm.trans h
  | some arguments =>
    have hrun : positionalPushPop startup .function params heap p = (do
        let r ← callParams heap p arguments
        return freeOption r.2 r.1) := by
      simp [positionalPushPop, initPositionalParams, initPositionalScope, execFramePolicies,
        harguments, callParams, cleanupPositionalParams]
    constructor
    · rintro ⟨heap', hrun', -⟩ arguments' h
      cases harguments.symm.trans h
      rw [hrun] at hrun'
      obtain ⟨r, hr, -⟩ := except_bind_eq_ok.mp hrun'
      obtain ⟨a, ha, harg0, -⟩ := callParams_ok hr
      exact ⟨a, ha, harg0⟩
    · intro h
      obtain ⟨a, ha, harg0⟩ := h arguments harguments
      obtain ⟨r, hr⟩ := callParams_of_arg0 ha harg0
      obtain ⟨-, -, -, hcall⟩ := callParams_ok hr
      refine ⟨freeOption r.2 r.1, ?_, by rw [hcall.get_freeOption]⟩
      rw [hrun, hr]
      rfl

/-- What `positional_params_set_arg0` changes is the object. -/
theorem setArg0_of_some {a : PositionalParams} (h : p.bind heap.get = some a) (path : String) :
    ∃ q, p = some q ∧ heap.get q = some a ∧
      setArg0 heap p path = .ok (heap.set q { a with arg0 := some path }) := by
  obtain ⟨q, rfl, hq⟩ := Option.bind_eq_some_iff.mp h
  refine ⟨q, rfl, hq, ?_⟩
  change (do return heap.set q { ← deref heap q with arg0 := some path }) = _
  rw [deref_of_get hq]
  rfl

theorem setArg0_of_none (h : p.bind heap.get = none) (path : String) :
    ∃ e, setArg0 heap p path = .error e := by
  cases p with
  | none => exact ⟨_, rfl⟩
  | some q =>
    refine ⟨.contract "dangling pointer", ?_⟩
    change (do return heap.set q { ← deref heap q with arg0 := some path }) = _
    rw [deref_of_none h]
    rfl

/-- Without arguments a dot script writes into what it shares. -/
theorem positionalSurvive_dotScript_iff_of_none (harguments : params.arguments = none) :
    PositionalSurvive startup .dotScript params heap p ↔
      Restores params (p.bind heap.get) .dotScript := by
  rw [Restores, harguments]
  cases hpath : params.scriptPath with
  | none =>
    refine iff_of_true ⟨heap, ?_, rfl⟩ (by simp)
    simp only [positionalPushPop, initPositionalParams, initPositionalScope, execFramePolicies,
      harguments, hpath]
    rfl
  | some path =>
    have hrun : positionalPushPop startup .dotScript params heap p = setArg0 heap p path := by
      simp [positionalPushPop, initPositionalParams, initPositionalScope, execFramePolicies,
        harguments, hpath, cleanupPositionalParams]
    constructor
    · rintro ⟨heap', hrun', hsame⟩ path' heq
      cases heq
      rw [hrun] at hrun'
      cases hbefore : p.bind heap.get with
      | none =>
        obtain ⟨e, he⟩ := setArg0_of_none hbefore path
        cases hrun'.symm.trans he
      | some a =>
        obtain ⟨q, rfl, hq, hset⟩ := setArg0_of_some hbefore path
        cases hrun'.symm.trans hset
        change (heap.set q { a with arg0 := some path }).get q = heap.get q at hsame
        rw [Heap.get_set_self (Heap.lt_of_get hq), hq, Option.some.injEq] at hsame
        exact ⟨a, rfl, by rw [← hsame]⟩
    · intro h
      obtain ⟨a, hbefore, harg0⟩ := h path rfl
      obtain ⟨q, rfl, hq, hset⟩ := setArg0_of_some hbefore path
      refine ⟨_, hrun.trans hset, ?_⟩
      change (heap.set q { a with arg0 := some path }).get q = heap.get q
      rw [Heap.get_set_self (Heap.lt_of_get hq), hq, ← harg0]

/-- The name of a dot script is written into the new object, which is freed at the end. -/
theorem CallParams.setArg0 {arguments : List String} {r : Option ℕ × Heap PositionalParams}
    (h : CallParams heap arguments r) (path : String) :
    (arguments.length ≤ 4096 → ∃ heap', setArg0 r.2 r.1 path = .ok heap' ∧
        (freeOption heap' r.1).get = heap.get) ∧
      (4096 < arguments.length → ∃ e, setArg0 r.2 r.1 path = .error e) := by
  cases h with
  | tooMany hlength => exact ⟨fun hle => absurd hle (by omega), fun _ => ⟨_, rfl⟩⟩
  | new hlength name =>
    refine ⟨fun _ => ?_, fun hlt => absurd hlt (by omega)⟩
    obtain ⟨q, hq, -, hset⟩ := setArg0_of_some (p := some heap.cells.length)
      (heap.get_alloc_self ⟨some name, arguments⟩) path
    cases hq
    refine ⟨_, hset, Heap.get_free_of_alloc heap.get_length fun q hq => ?_⟩
    rw [Heap.get_set_of_ne _ hq, heap.get_alloc_of_ne hq]

/-- With arguments it writes into an object of its own. -/
theorem positionalSurvive_dotScript_iff_of_some {arguments : List String}
    (harguments : params.arguments = some arguments) :
    PositionalSurvive startup .dotScript params heap p ↔
      Restores params (p.bind heap.get) .dotScript := by
  have hcleanup : ∀ {r : Option ℕ × Heap PositionalParams} {a : PositionalParams}
      {heap' : Heap PositionalParams}, CallParams heap arguments r → p.bind heap.get = some a →
      cleanupPositionalParams .dotScript r.1 p heap' = freeOption heap' r.1 := by
    intro r a heap' hcall ha
    obtain ⟨hsome, hne⟩ := hcall.ne ha
    simp [cleanupPositionalParams, execFramePolicies, hsome, hne]
  rw [Restores, harguments]
  cases hpath : params.scriptPath with
  | none =>
    have hrun : positionalPushPop startup .dotScript params heap p = (do
        let r ← callParams heap p arguments
        return cleanupPositionalParams .dotScript r.1 p r.2) := by
      simp [positionalPushPop, initPositionalParams, initPositionalScope, execFramePolicies,
        harguments, callParams, hpath]
    constructor
    · rintro ⟨heap', hrun', -⟩
      rw [hrun] at hrun'
      obtain ⟨r, hr, -⟩ := except_bind_eq_ok.mp hrun'
      obtain ⟨a, ha, harg0, -⟩ := callParams_ok hr
      exact ⟨a, ha, harg0, by simp⟩
    · rintro ⟨a, ha, harg0, -⟩
      obtain ⟨r, hr⟩ := callParams_of_arg0 ha harg0
      obtain ⟨-, -, -, hcall⟩ := callParams_ok hr
      refine ⟨freeOption r.2 r.1, ?_, by rw [hcall.get_freeOption]⟩
      rw [hrun, hr, ← hcleanup hcall ha]
      rfl
  | some path =>
    have hrun : positionalPushPop startup .dotScript params heap p = (do
        let r ← callParams heap p arguments
        let heap ← setArg0 r.2 r.1 path
        return cleanupPositionalParams .dotScript r.1 p heap) := by
      simp [positionalPushPop, initPositionalParams, initPositionalScope, execFramePolicies,
        harguments, callParams, hpath]
    constructor
    · rintro ⟨heap', hrun', -⟩
      rw [hrun] at hrun'
      obtain ⟨r, hr, hset⟩ := except_bind_eq_ok.mp hrun'
      obtain ⟨a, ha, harg0, hcall⟩ := callParams_ok hr
      refine ⟨a, ha, harg0, fun _ => ?_⟩
      by_contra hlt
      obtain ⟨e, he⟩ := (hcall.setArg0 path).2 (by omega)
      rw [he] at hset
      cases hset
    · rintro ⟨a, ha, harg0, hlength⟩
      obtain ⟨r, hr⟩ := callParams_of_arg0 ha harg0
      obtain ⟨-, -, -, hcall⟩ := callParams_ok hr
      obtain ⟨heap', hset, hget⟩ := (hcall.setArg0 path).1 (hlength rfl)
      refine ⟨freeOption heap' r.1, ?_, by rw [hget]⟩
      rw [hrun, hr, ← hcleanup hcall ha]
      change (do
        let heap ← setArg0 r.2 r.1 path
        return cleanupPositionalParams .dotScript r.1 p heap) = _
      rw [hset]
      rfl

theorem positionalSurvive_iff (startup : Startup) (h : storeScope type = .share) :
    PositionalSurvive startup type params heap p ↔
      Restores params (p.bind heap.get) type := by
  cases type with
  | topLevel | subshell | backgroundJob | pipelineCmd => cases h
  | braceGroup | loop | trap | pipeline | eval => exact iff_of_true ⟨heap, rfl, rfl⟩ trivial
  | function => exact positionalSurvive_function_iff
  | dotScript =>
    cases harguments : params.arguments with
    | none => exact positionalSurvive_dotScript_iff_of_none harguments
    | some arguments => exact positionalSurvive_dotScript_iff_of_some harguments

/-- A push and the pop right behind it leave the parent frame and everything behind its pointers as
they were exactly if they restore the positional parameters. -/
theorem pushPop_unchanged_iff (startup : Startup) (params : ExecParams) (parent : ScopedFrame)
    (m : Memory) (hshare : storeScope type = .share) :
    (∃ m', pushPop startup type params parent m = .ok (parent, m') ∧ Unchanged parent m m') ↔
      Restores params (parent.positional m) type := by
  rw [ScopedFrame.positional, ← positionalSurvive_iff startup hshare,
    pushPop_of_share hshare]
  constructor
  · rintro ⟨m', hrun, hsame⟩
    obtain ⟨heap', hheap, hm⟩ := except_bind_eq_ok.mp hrun
    cases hm
    exact ⟨heap', hheap, hsame.positional⟩
  · rintro ⟨heap', hheap, hsame⟩
    rw [hheap]
    exact ⟨_, rfl, congrFun (get_variablesPushPop _) _, hsame, rfl, rfl, rfl, rfl, rfl, rfl, rfl⟩

/-! ## One shell -/

/-- The stores of a shell whose only frame is the top-level one. -/
def topMemory : Memory where
  variables_ := ⟨[some .empty]⟩
  positionalParams := ⟨[some ⟨some "miga", ["one"]⟩]⟩
  openFds := ⟨[some {}]⟩
  traps := ⟨[some ⟨[], false, none⟩]⟩
  optFlags := ⟨[some {}]⟩
  workingDirectory := ⟨[some "/"]⟩
  umask := ⟨[some 18]⟩
  functions := ⟨[some []]⟩
  aliases := ⟨[some []]⟩

/-- Its frame. -/
def topFrame : ScopedFrame where
  type := .topLevel
  variables_ := 0
  positionalParams := some 0
  openFds := 0
  traps := 0
  optFlags := 0
  workingDirectory := 0
  umask := 0
  functions := 0
  aliases := 0

def topStartup : Startup := ⟨"miga", ["one"], .empty, "/", 18, 31⟩

/-- With an argument a dot script restores everything. -/
theorem dotScript_with_argument_restores :
    storeScope .dotScript = .share ∧
      ∃ m', pushPop topStartup .dotScript
          { arguments := some ["two"], scriptPath := some "lib.sh" } topFrame topMemory =
            .ok (topFrame, m') ∧
        Unchanged topFrame topMemory m' :=
  ⟨rfl, (pushPop_unchanged_iff topStartup _ topFrame topMemory rfl).mpr
    ⟨_, rfl, fun _ => rfl, fun _ => by decide⟩⟩

/-- Without one it leaves its name behind as the `$0` of the caller. -/
theorem dotScript_renames_the_shell :
    storeScope .dotScript = .share ∧
      ∃ m', pushPop topStartup .dotScript { scriptPath := some "lib.sh" } topFrame topMemory =
          .ok (topFrame, m') ∧
        topFrame.positional topMemory = some ⟨some "miga", ["one"]⟩ ∧
        topFrame.positional m' = some ⟨some "lib.sh", ["one"]⟩ ∧ ¬ Unchanged topFrame topMemory m' := by
  refine ⟨rfl, _, rfl, rfl, rfl, ?_⟩
  intro h
  have hpositional : some (⟨some "lib.sh", ["one"]⟩ : PositionalParams) =
      some ⟨some "miga", ["one"]⟩ := h.positional
  exact absurd hpositional (by decide)

end Migash.Exec.FrameScopes
