import Migash.Exec.State

/-! # Frames

A frame is pushed for every construct that needs a scope of its own. Its body
is whatever its parameters name first: a syntax tree, a condition, a list of
words or a list of pipeline commands.
-/

namespace Migash.Exec

open Library Redirect

variable {δ W : Type}

/-- The functions of the executor through which it calls itself, and a bound on the further turns of
one condition loop. -/
structure Callees (δ W : Type) where
  dispatch : Ast → ExecM δ W ExecuteResult
  compoundList : Ast → ExecM δ W ExecuteResult
  andOrList : Ast → ExecM δ W ExecuteResult
  fuel : ℕ

/-- `exec_params_t`. A descriptor that is not set is zero. -/
structure ExecParams where
  body : Option Ast := none
  redirections : Option (List ExecRedirection) := none
  arguments : Option (List String) := none
  scriptPath : Option String := none
  condition : Option Ast := none
  untilMode : Bool := false
  iterationWords : Option (List String) := none
  loopVarName : Option String := none
  pipelineCommands : Option (List Ast) := none
  pipelineNegated : Bool := false
  stdinPipeFd : Int := 0
  stdoutPipeFd : Int := 0
  pipeFdsToClose : List ℕ := []
  commandArgs : Option Ast := none

/-! ## Push and pop -/

/-- `positional_params_create_from_strlist`. -/
def positionalParamsCreateFromStrlist (arg0 : Option String) (params : List String) :
    ExecM δ W (Option PositionalParams) :=
  if params.length > 4096 then pure none
  else do
    let arg0 ← expectsNotNull "other" arg0
    return some ⟨some arg0, params⟩

/-- `positional_params_get_arg0`. -/
def positionalParamsGetArg0 (p : Option PositionalParams) : ExecM δ W (Option String) := do
  let p ← expectsNotNull "params" p
  return p.arg0

/-- The scope switch of `init_positional_params`: the parameters of the new frame, and the parent's
when a dot script sets them aside. -/
def initPositionalScope (policy : FramePolicy) (params : ExecParams) (parent : Frame) :
    ExecM δ W (Option PositionalParams × Option (Option PositionalParams)) :=
  match policy.positionalScope with
  | .own =>
    match policy.callArgs, params.arguments with
    | true, some arguments => do
      let arg0 ← positionalParamsGetArg0 parent.positionalParams
      return (← positionalParamsCreateFromStrlist arg0 arguments, none)
    | _, _ => return (some ⟨none, []⟩, none)
  | .copy => do
    let p ← expectsNotNull "src" parent.positionalParams
    return (some { p with arg0 := some (p.arg0.getD "miga") }, none)
  | .share =>
    match policy.canOverride, params.arguments with
    | true, some arguments => do
      let arg0 ← positionalParamsGetArg0 parent.positionalParams
      return (← positionalParamsCreateFromStrlist arg0 arguments, some parent.positionalParams)
    | _, _ => return (parent.positionalParams, none)

/-- `init_positional_params`. -/
def initPositionalParams (policy : FramePolicy) (params : ExecParams) (parent : Frame) :
    ExecM δ W (Option PositionalParams × Option (Option PositionalParams)) := do
  let (own, saved) ← initPositionalScope policy params parent
  match policy.setsArg0, params.scriptPath with
  | true, some path =>
    let p ← expectsNotNull "params" own
    return (some { p with arg0 := some path }, saved)
  | _, _ => return (own, saved)

/-- `exec_frame_push`. -/
def execFramePush (type : FrameType) (params : ExecParams) : ExecM δ W Unit := do
  let policy := execFramePolicies type
  let s ← get
  let parent := s.frame
  let (positionalParams, savedPositionalParams) ← initPositionalParams policy params parent
  let frame : Frame :=
    { type, positionalParams, savedPositionalParams
      localVariables := if policy.hasLocals then some .empty else none
      loopDepth := if policy.isLoop then parent.loopDepth + 1 else parent.loopDepth
      lastExitStatus := parent.lastExitStatus
      lastBgPid := parent.lastBgPid }
  modify fun s => { s with frame, callers := parent :: s.callers }

/-- The parent frame behind the pop of `child`: it shares the positional parameters unless the child
had its own, and takes over the exit status if the policy says so. -/
def Frame.popped (parent child : Frame) : Frame :=
  let policy := execFramePolicies child.type
  { parent with
    positionalParams :=
      if policy.positionalScope = .share ∧ child.savedPositionalParams.isNone then
        child.positionalParams
      else parent.positionalParams
    lastExitStatus :=
      if policy.affectsParentStatus then child.lastExitStatus else parent.lastExitStatus }

def Shell.pop (s : Shell δ W) : Shell δ W :=
  match s.callers with
  | [] => s
  | parent :: callers => { s with frame := parent.popped s.frame, callers }

/-- The EXIT trap of a frame that ends. -/
def runExitTrap (env : Env δ W) (type : FrameType) : ExecM δ W Unit :=
  if (execFramePolicies type).exitTrapRuns then env.runExitTrap else pure ()

/-- `exec_frame_pop` for a frame with a parent. -/
def execFramePop (env : Env δ W) (type : FrameType) : ExecM δ W Unit := do
  runExitTrap env type
  modify Shell.pop

/-! ## Loops -/

/-- What a loop does after a run of its body. -/
inductive LoopStep where
  | leave (result : ExecuteResult)
  | next (result : ExecuteResult)

def LoopStep.result : LoopStep → ExecuteResult
  | .leave result | .next result => result

/-- The reaction of both loop functions to the result of their body. -/
def afterBody (result body : ExecuteResult) : LoopStep :=
  let taken := { result with exitStatus := body.exitStatus, hasExitStatus := body.hasExitStatus }
  match body.flow with
  | .break_ =>
    if body.flowDepth > 1 then .leave { body with flowDepth := body.flowDepth - 1 }
    else .leave taken
  | .continue_ =>
    if body.flowDepth > 1 then .leave { body with flowDepth := body.flowDepth - 1 }
    else .next taken
  | .return_ | .top => .leave body
  | .normal => if body.status ≠ .ok then .leave body else .next taken

section Loops

variable (callees : Callees δ W)

/-- The call of the body in `exec_frame_execute_iteration_loop`. -/
def iterationBody : Ast → ExecM δ W ExecuteResult
  | .commandList items separators => callees.compoundList (.commandList items separators)
  | body => callees.dispatch body

/-- The loop of `exec_frame_execute_iteration_loop`. -/
def iterationTurns (var : String) (body : Ast) :
    List String → ExecuteResult → ExecM δ W ExecuteResult
  | [], result => return result
  | word :: words, result => do
    emit .body
    modify fun s => s.assign { name := var, value := some word }
    let bodyResult ← iterationBody callees body
    match afterBody result bodyResult with
    | .leave result => return result
    | .next result => iterationTurns var body words result

/-- `exec_frame_execute_iteration_loop`. -/
def execFrameExecuteIterationLoop (params : ExecParams) : ExecM δ W ExecuteResult := do
  let var ← expectsNotNull "params->loop_var_name" params.loopVarName
  let words ← expectsNotNull "params->iteration_words" params.iterationWords
  let body ← expectsNotNull "params->body" params.body
  iterationTurns callees var body words { hasExitStatus := true }

/-- The call of the body in `exec_frame_execute_condition_loop`: a command list goes to the
iteration loop. -/
def conditionBody (params : ExecParams) : Ast → ExecM δ W ExecuteResult
  | .commandList _ _ => execFrameExecuteIterationLoop callees params
  | body => callees.dispatch body

/-- Does this outcome of its condition end a loop? -/
def loopEnds (untilMode : Bool) (exitStatus : ℤ) : Bool :=
  if untilMode then exitStatus = 0 else exitStatus ≠ 0

/-- The loop of `exec_frame_execute_condition_loop`. -/
def conditionTurns (params : ExecParams) (condition body : Ast) :
    ℕ → ExecuteResult → ExecM δ W ExecuteResult
  | 0, _ => throw (.fault .fuel)
  | fuel + 1, result => do
    emit .test
    let cond ← callees.dispatch condition
    if cond.status ≠ .ok then return cond
    else if loopEnds params.untilMode cond.exitStatus then return result
    else
      emit .body
      let bodyResult ← conditionBody callees params body
      match afterBody result bodyResult with
      | .leave result => return result
      | .next result => conditionTurns params condition body fuel result

/-- `exec_frame_execute_condition_loop`. -/
def execFrameExecuteConditionLoop (params : ExecParams) : ExecM δ W ExecuteResult := do
  let condition ← expectsNotNull "params->condition" params.condition
  let body ← expectsNotNull "params->body" params.body
  conditionTurns callees params condition body (callees.fuel + 1) { hasExitStatus := true }

end Loops

/-! ## Child processes -/

/-- The outcome of a child process that runs `m` from `s` on and ends with `code`. -/
def childProcess (m : ExecM δ W ℤ) (s : Shell δ W) (world : W) : Except Fault (ℤ × W) :=
  match m.run { s with world } with
  | .ok (status, s) => .ok (status, s.world)
  | .error (.exit status world) => .ok (status, world)
  | .error (.fault cause) => .error cause

/-- Fork a child that runs `m` from the present state on, changed by `prepare`. -/
def fork (env : Env δ W) (prepare : Shell δ W → Shell δ W) (m : ExecM δ W ℤ) :
    ExecM δ W (Except String ℤ) := do
  let s ← get
  syscall (env.fork (childProcess m (prepare s)))

/-- The exit status of a child whose wait status is known. -/
def WaitStatus.exitStatus : WaitStatus → ℤ
  | .exited code => code
  | .signaled signal => 128 + signal
  | .other => 127

section Pipeline

variable (env : Env δ W)

/-- `pipes`: the two ends of each pipe, where they are still open. -/
abbrev Pipes := List (Option ℕ × Option ℕ)

/-- The descriptors in `pipes` that are open. -/
def Pipes.fds (pipes : Pipes) : List ℕ := pipes.flatMap fun p => p.1.toList ++ p.2.toList

def Shell.closeFds (fds : List ℕ) (s : Shell δ W) : Shell δ W :=
  { s with descriptors := fds.foldl Descriptors.discard s.descriptors }

/-- Create all pipes up front. On an error those that are open are left in the list. -/
def createPipes : ℕ → Pipes → ExecM δ W (Bool × Pipes)
  | 0, pipes => return (true, pipes)
  | n + 1, pipes => do
    match ← syscall env.pipe with
    | .error e =>
      setError s!"pipe() failed: {e}"
      return (false, pipes)
    | .ok (readEnd, writeEnd) =>
      let s ← get
      let (r, w, descriptors) := s.descriptors.pipe readEnd writeEnd
      set { s with descriptors }
      createPipes n (pipes ++ [(some r, some w)])

def dupOnto (source : Option ℕ) (target : ℕ) (descriptors : Descriptors δ) : Descriptors δ :=
  (source.bind fun fd => descriptors.dup2 fd target).getD descriptors

/-- The descriptors of child `i`: its pipes on its standard input and output, and no others. -/
def pipelineChildFds (pipes : Pipes) (i : ℕ) (s : Shell δ W) : Shell δ W :=
  let descriptors :=
    if 0 < i then dupOnto (pipes[i - 1]?.bind Prod.fst) 0 s.descriptors else s.descriptors
  let descriptors := dupOnto (pipes[i]?.bind Prod.snd) 1 descriptors
  { s with descriptors := pipes.fds.foldl Descriptors.discard descriptors }

/-- What child `i` runs. -/
def pipelineChild (callees : Callees δ W) (isNegated : Bool) (cmd : Ast) : ExecM δ W ℤ := do
  let result ← callees.dispatch cmd
  if result.hasExitStatus then
    if isNegated then return if result.exitStatus = 0 then 1 else 0
    else return result.exitStatus
  else return 0

/-- The parent closes the ends that only child `i` needed. -/
def closeUsedPipes (pipes : Pipes) (i : ℕ) : ExecM δ W Pipes := do
  let writeEnd := (pipes[i]?.bind Prod.snd).toList
  let readEnd := if 0 < i then (pipes[i - 1]?.bind Prod.fst).toList else []
  modify (Shell.closeFds (writeEnd ++ readEnd))
  return (pipes.modify i fun p => (p.1, none)).modify (i - 1) fun p =>
    if 0 < i then (none, p.2) else p

/-- Fork one child for each command. If a fork fails the children are killed and reaped. -/
def forkCommands (callees : Callees δ W) (isNegated : Bool) :
    List Ast → ℕ → Pipes → List ℤ → ExecM δ W (Bool × Pipes × List ℤ)
  | [], _, pipes, pids => return (true, pipes, pids)
  | cmd :: cmds, i, pipes, pids => do
    match ← fork env (pipelineChildFds pipes i) (pipelineChild callees isNegated cmd) with
    | .error e =>
      setError s!"fork() failed in pipeline: {e}"
      for pid in pids do syscall fun world => ((), env.kill pid world)
      for pid in pids do discard <| syscall (env.waitpid pid)
      return (false, pipes, pids)
    | .ok pid =>
      let pipes ← closeUsedPipes pipes i
      forkCommands callees isNegated cmds (i + 1) pipes (pids ++ [pid])

/-- Wait for all children; the status is that of the last one. -/
def waitAll : List ℤ → ℤ → ExecM δ W ℤ
  | [], last => return last
  | pid :: pids, last => do
    match ← syscall (env.waitpid pid) with
    | .error .echild => waitAll pids (if pids = [] then 127 else last)
    | .error (.other e) =>
      setError s!"waitpid() failed for pid {pid}: {e}"
      waitAll pids (if pids = [] then 127 else last)
    | .ok status => waitAll pids (if pids = [] then status.exitStatus else last)

/-- `is_negated` applied to an exit status. -/
def negated (isNegated : Bool) (status : ℤ) : ℤ :=
  if isNegated then if status = 0 then 1 else 0 else status

/-- The part of `exec_frame_execute_pipeline_orchestrate` for several commands. -/
def orchestrateMany (callees : Callees δ W) (commands : List Ast) (isNegated : Bool) :
    ExecM δ W ExecuteResult := do
  let (created, pipes) ← createPipes env (commands.length - 1) []
  if created then
    let (forked, pipes, pids) ← forkCommands env callees isNegated commands 0 pipes []
    modify (Shell.closeFds pipes.fds)
    if forked then
      let last ← waitAll env pids 0
      let status := negated isNegated last
      setLastExitStatus status
      return { hasExitStatus := true, exitStatus := status }
    else return { status := .error, hasExitStatus := true, exitStatus := 1 }
  else
    modify (Shell.closeFds pipes.fds)
    return { status := .error, hasExitStatus := true, exitStatus := 1 }

/-- `exec_frame_execute_pipeline_orchestrate`. -/
def execFrameExecutePipelineOrchestrate (callees : Callees δ W) (params : ExecParams) :
    ExecM δ W ExecuteResult := do
  let commands ← expectsNotNull "params->pipeline_commands" params.pipelineCommands
  let isNegated := params.pipelineNegated
  match commands with
  | [] => return { hasExitStatus := true, exitStatus := if isNegated then 1 else 0 }
  | [cmd] =>
    let result ← callees.dispatch cmd
    if isNegated && result.hasExitStatus then
      return { result with exitStatus := if result.exitStatus = 0 then 1 else 0 }
    else return result
  | cmds => orchestrateMany env callees cmds isNegated

end Pipeline

/-! ## The frame body -/

section FrameBody

variable (env : Env δ W) (callees : Callees δ W)

/-- One pipe end of `execute_frame_body` becomes a standard descriptor. A descriptor that the
parameters leave at zero counts as one. -/
def setupPipeFd (source : Int) (target : ℕ) : ExecM δ W Unit :=
  modify fun s =>
    if 0 ≤ source then
      let descriptors := dupOnto (some source.toNat) target s.descriptors
      let flags : FdFlags := { redirected := true }
      { s with
        descriptors := descriptors.discard source.toNat
        openFds := s.openFds.add target flags (fdTableGenerateNameEx source.toNat flags) }
    else s

/-- The pipe set-up of `execute_frame_body`. -/
def setupPipeFds (params : ExecParams) : ExecM δ W Unit := do
  setupPipeFd params.stdinPipeFd 0
  setupPipeFd params.stdoutPipeFd 1
  modify fun s =>
    { s.closeFds params.pipeFdsToClose with
      openFds := params.pipeFdsToClose.foldl FdTable.markClosed s.openFds }

/-- The body of a loop frame is the body of the loop. -/
def emitBody (type : FrameType) : ExecM δ W Unit :=
  if type = .loop then emit .body else pure ()

/-- The choice of `execute_frame_body`: the first parameter that is set says what is run. -/
def executeFrameWork (type : FrameType) (params : ExecParams) : ExecM δ W ExecuteResult :=
  match params.body with
  | some body => do
    emitBody type
    callees.dispatch body
  | none =>
    if params.condition.isSome then execFrameExecuteConditionLoop callees params
    else if params.iterationWords.isSome then execFrameExecuteIterationLoop callees params
    else if params.pipelineCommands.isSome then
      execFrameExecutePipelineOrchestrate env callees params
    else return { hasExitStatus := true }

/-- The redirections of a frame are applied, if it has any. -/
def applyFrameRedirections : Option (List ExecRedirection) → ExecM δ W Bool
  | some redirs => execRedirectApplyRedirectons env redirs
  | none => return true

def restoreFrameRedirections : Option (List ExecRedirection) → ExecM δ W Unit
  | some _ => execRedirectRestoreRedirections
  | none => return ()

/-- `execute_frame_body`. -/
def executeFrameBody (type : FrameType) (params : ExecParams) : ExecM δ W ExecuteResult := do
  let applied ← applyFrameRedirections env params.redirections
  if applied then
    setupPipeFds params
    let result ← executeFrameWork env callees type params
    restoreFrameRedirections params.redirections
    return handleControlFlow (execFramePolicies type) result
  else return { hasExitStatus := true, exitStatus := 1 }

/-- `exec_in_frame` behind the fork: push, execute, pop. -/
def runFrame (type : FrameType) (params : ExecParams) : ExecM δ W ExecuteResult := do
  execFramePush type params
  let result ← executeFrameBody env callees type params
  setLastExitStatus result.exitStatus
  execFramePop env type
  return result

/-- `exec_in_frame` for a policy that forks. -/
def forkFrame (type : FrameType) (params : ExecParams) : ExecM δ W ExecuteResult := do
  match ← fork env id (ExecuteResult.exitStatus <$> runFrame env callees type params) with
  | .error _ => return { hasExitStatus := true, exitStatus := 1 }
  | .ok pid =>
    if (execFramePolicies type).isBackground then
      let node ← expectsNotNull "params->command_args" params.commandArgs
      modify fun s =>
        { s.emit (.launched node) with
          frame := { s.frame with lastBgPid := pid }
          jobs := (pid, node) :: s.jobs }
      return { hasExitStatus := true, exitStatus := 0 }
    else
      match ← syscall (env.waitpid pid) with
      | .error _ => contract "status is not set"
      | .ok .other => return { hasExitStatus := true, exitStatus := 128 + 127 }
      | .ok status => return { hasExitStatus := true, exitStatus := status.exitStatus }

/-- `exec_in_frame`. -/
def execInFrame (type : FrameType) (params : ExecParams) : ExecM δ W ExecuteResult :=
  if (execFramePolicies type).forks then forkFrame env callees type params
  else runFrame env callees type params

end FrameBody

end Migash.Exec
