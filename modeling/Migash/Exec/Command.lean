import Migash.Exec.Frame

/-! # Simple commands

A command with a word, a redirection list or both runs against a temporary copy
of the variable store, which is thrown away at the end. Only a command that has
neither assigns to the store in force.
-/

namespace Migash.Exec

open Library Redirect

variable {δ W : Type}

/-- The text of `$-`. -/
def OptFlags.text (o : OptFlags) (isInteractive : Bool) : String :=
  let flag (set : Bool) (text : String) : String := if set then text else ""
  flag o.allexport "a" ++ flag o.errexit "e" ++ flag o.noclobber "C" ++ flag o.noglob "f" ++
    flag o.noexec "n" ++ flag o.nounset "u" ++ flag o.verbose "v" ++ flag o.xtrace "x" ++
    flag isInteractive "i"

/-- `populate_special_variables`. -/
def populateSpecialVariables (store : VariableStore) (s : Shell δ W) : VariableStore :=
  let store := store.tryAdd "?" (some (toString s.frame.lastExitStatus)) false false
  let store :=
    if 0 < s.frame.lastBgPid then store.tryAdd "!" (some (toString s.frame.lastBgPid)) false false
    else store
  let store :=
    match s.shellPid with
    | some pid => store.tryAdd "$" (some (toString pid)) false false
    | none => store
  let store :=
    match s.lastArgument with
    | some text => store.tryAdd "_" (some text) false false
    | none => store
  store.tryAdd "-" (some (s.optFlags.text s.isInteractive)) false false

section

variable (env : Env δ W)

/-- The assignment loop of `build_temp_store_for_siple_command`. The right-hand sides are expanded
against the store that is still in force. An assignment that no command word follows is recorded
as one. -/
def overlayAssignments (hasWords : Bool) :
    List Token → VariableStore → ExecM δ W VariableStore
  | [], temp => return temp
  | tok :: toks, temp => do
    let value ← expand (env.expandAssignmentValue tok)
    let name ← expectsNotNull "name" tok.assignmentName
    if hasWords then overlayAssignments hasWords toks (temp.tryAdd name value true false)
    else do
      modify fun s => s.emit (.assigned (some (s.depth + 1)) { name, value })
      overlayAssignments hasWords toks (temp.tryAdd name value true false)

/-- `build_temp_store_for_siple_command`. -/
def buildTempStoreForSipleCommand (hasWords : Bool) (assignments : List Token) :
    ExecM δ W VariableStore := do
  let s ← get
  overlayAssignments env hasWords assignments
    (populateSpecialVariables (VariableStore.empty.copyAll s.variables_) s)

/-- One turn of `apply_prefix_assignments`: the assignment goes to the temporary store, which is then
`temp`, and to the store that is set aside. -/
def Shell.assignPrefix (s : Shell δ W) (a : Assignment) (temp : VariableStore) : Shell δ W :=
  { s.emit (.assigned (some (s.depth - 1)) a) with
    variables_ := temp
    frame := { s.frame with savedVariables := s.frame.savedVariables.map a.apply } }

/-- `apply_prefix_assignments`. -/
def applyPrefixAssignments : List Token → ExecM δ W Bool
  | [] => return true
  | tok :: toks => do
    let value ← expand (env.expandAssignmentValue tok)
    let name ← expectsNotNull "name" tok.assignmentName
    let s ← get
    match s.variables_.add name value false false with
    | .error e => do
      setError s!"Cannot assign variable (error {e.number})"
      return false
    | .ok temp => do
      set (s.assignPrefix { name, value } temp)
      applyPrefixAssignments toks

/-- The assignments of a command without words and without a redirection list. -/
def assignmentOnly : List Token → ExecM δ W ExecuteResult
  | [] => do
    setLastExitStatus 0
    return {}
  | tok :: toks => do
    match ← expand (env.expandAssignmentValue tok) with
    | none => do
      setError "assignment expansion failed"
      return { status := .error }
    | some value => do
      let name ← expectsNotNull "name" tok.assignmentName
      let s ← get
      match s.variables_.add name (some value) false false with
      | .error e => do
        setError s!"cannot assign variable (error {e.number})"
        return { status := .error }
      | .ok _ => do
        set (s.assign { name, value := some value })
        assignmentOnly toks

/-- What the main part of a simple command leaves in `status` and `cmd_exit_status`. -/
structure CommandOutcome where
  status : ExecStatus := .ok
  exitStatus : ℤ := 0

/-- Run a function or a builtin between the apply and the restore of the redirections. -/
def withRedirections (redirs : List ExecRedirection) (m : ExecM δ W ℤ) :
    ExecM δ W CommandOutcome := do
  if ← execRedirectApplyRedirectons env redirs then
    let exitStatus ← m
    execRedirectRestoreRedirections
    return { exitStatus }
  else return { status := .error }

/-- `exec_frame_execute_function_body`. -/
def execFrameExecuteFunctionBody (callees : Callees δ W) (f : StoredFunction)
    (arguments : List String) : ExecM δ W ExecuteResult := do
  emit .function
  let result ← execInFrame env callees .function
    { body := some f.func, arguments := some arguments, redirections := f.redirections }
  emit (.functionEnd result.flow)
  return result

/-- The child of an external command. -/
def externalChild (store : VariableStore) (words : List String) (redirs : List ExecRedirection) :
    ExecM δ W ℤ := do
  if ← execRedirectApplyRedirectons env redirs then
    let s ← get
    let cloexec := (s.openFds.entries.filter (·.flags.closeOnExec)).map FdEntry.fd
    syscall (env.exec words store (cloexec.foldl Descriptors.discard s.descriptors))
  else return 127

/-- The exit status of an external command. -/
def externalStatus (store : VariableStore) (words : List String) (redirs : List ExecRedirection) :
    ExecM δ W ℤ := do
  match ← fork env id (externalChild env store words redirs) with
  | .error e => do
    setError s!"fork failed: {e}"
    return 127
  | .ok pid => do
    match ← syscall (env.waitpid pid) with
    | .error _ => return 127
    | .ok status => return status.exitStatus

/-- External command execution. -/
def runExternal (cmdName : String) (words : List String) (redirs : List ExecRedirection) :
    ExecM δ W CommandOutcome := do
  if cmdName = "" then
    setError "empty command name"
    return { exitStatus := 127 }
  else
    let s ← get
    let exitStatus ← externalStatus env s.variables_ words redirs
    modify fun s =>
      if exitStatus = 127 ∧ s.error.isNone then s.setError s!"{cmdName}: command not found" else s
    return { exitStatus }

/-- A special builtin keeps its prefix assignments. -/
def persistAssignments (cmdName : String) (assignments : List Token) : ExecM δ W Bool :=
  match env.builtin cmdName with
  | some (.special, _) => applyPrefixAssignments env assignments
  | _ => return true

/-- A function of that name comes first, then a builtin, then an external command. -/
def runNamed (callees : Callees δ W) (cmdName : String) (words : List String)
    (redirs : List ExecRedirection) : ExecM δ W CommandOutcome := do
  let s ← get
  match FuncStore.get s.functions cmdName with
  | some f =>
    withRedirections env redirs
      (ExecuteResult.exitStatus <$> execFrameExecuteFunctionBody env callees f (words.drop 1))
  | none =>
    match env.builtin cmdName with
    | some (_, builtinFn) => withRedirections env redirs (builtinFn words)
    | none => runExternal env cmdName words redirs

/-- The command words, expanded. -/
def runWords (callees : Callees δ W) (assignments : List Token) (redirs : List ExecRedirection)
    (words : List String) : ExecM δ W CommandOutcome := do
  let cmdName ← expectsNotNull "str" words.head?
  if Token.isReservedWord cmdName then
    setError s!"{cmdName}: syntax error - reserved word in command position"
    return { exitStatus := 2 }
  else
    if ← persistAssignments env cmdName assignments then runNamed env callees cmdName words redirs
    else return { status := .error }

/-- `done_execution`: the exit status and `$_`. -/
def doneExecution (words : List String) (outcome : CommandOutcome) : ExecM δ W ExecStatus := do
  setLastExitStatus outcome.exitStatus
  modify fun s => if 1 < words.length then { s with lastArgument := words.getLast? } else s
  return outcome.status

/-- The part of `exec_frame_execute_simple_command_impl` that runs against the temporary store. -/
def runInTempStore (callees : Callees δ W) (words assignments : List Token)
    (redirections : List Migash.Redirection) : ExecM δ W ExecStatus := do
  match execRedirectionsCreateFromAstNodes redirections with
  | .error e => do
    setError e
    return .error
  | .ok redirs =>
    if words = [] then doneExecution [] {}
    else
      match ← expand (env.expandWords words) with
      | none => return .error
      | some expanded => do
        let outcome ← runWords env callees assignments redirs expanded
        doneExecution expanded outcome

/-- The swap to the temporary store. -/
def swapIn (temp : VariableStore) : ExecM δ W Unit :=
  modify fun s =>
    { s with variables_ := temp, frame := { s.frame with savedVariables := some s.variables_ } }

/-- `out_restore_vars`: the temporary store is gone. -/
def restoreVariables : ExecM δ W Unit := do
  let s ← get
  let saved ← expectsNotNull "frame->variables" s.frame.savedVariables
  set { s with variables_ := saved, frame := { s.frame with savedVariables := none } }

/-- `exec_frame_execute_simple_command_impl`. -/
def execFrameExecuteSimpleCommandImpl (callees : Callees δ W) (words : Option (List Token))
    (redirections : Option (List Migash.Redirection)) (assignments : Option (List Token)) :
    ExecM δ W ExecuteResult :=
  let wordTokens := words.getD []
  let assignTokens := assignments.getD []
  if wordTokens = [] ∧ redirections = none then assignmentOnly env assignTokens
  else do
    let temp ← buildTempStoreForSipleCommand env (wordTokens ≠ []) assignTokens
    swapIn temp
    let status ← runInTempStore env callees wordTokens assignTokens (redirections.getD [])
    restoreVariables
    return { status }

end

end Migash.Exec
