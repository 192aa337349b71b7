import Migash.Exec.Command

/-! # The executor

One function for each kind of node. The functions that call each other in a
cycle do so through a `Callees`; `executor` ties the knot, with a bound on the
depth of the calls.
-/

namespace Migash.Exec

open Library Redirect

variable {δ W : Type}

section

variable (env : Env δ W) (callees : Callees δ W)

/-! ## Simple commands, pipelines and groups -/

/-- `exec_frame_execute_simple_command`: the pending control flow of the frame becomes that of the
result. -/
def execFrameExecuteSimpleCommand (words : Option (List Token))
    (redirections : Option (List Migash.Redirection)) (assignments : Option (List Token)) :
    ExecM δ W ExecuteResult := do
  emit (.command (.simpleCommand words redirections assignments))
  let result ← execFrameExecuteSimpleCommandImpl env callees words redirections assignments
  let s ← get
  let flow := s.frame.pendingControlFlow
  let depth := s.frame.pendingFlowDepth
  set ({ s with
      frame := { s.frame with pendingControlFlow := .normal, pendingFlowDepth := 0 } }.emit
    (.commandEnd s.frame.lastExitStatus flow depth))
  return { result with flow := flow, flowDepth := depth }

/-- `exec_frame_execute_pipeline`. -/
def execFrameExecutePipeline (commands : List Ast) (isNegated : Bool) : ExecM δ W ExecuteResult :=
  execInFrame env callees .pipeline
    { pipelineCommands := some commands, pipelineNegated := isNegated }

/-- `exec_frame_execute_subshell`. -/
def execFrameExecuteSubshell (body : Ast) : ExecM δ W ExecuteResult :=
  execInFrame env callees .subshell { body := some body }

/-- `exec_frame_execute_brace_group`. -/
def execFrameExecuteBraceGroup (body : Ast) (redirs : Option (List ExecRedirection)) :
    ExecM δ W ExecuteResult :=
  execInFrame env callees .braceGroup { body := some body, redirections := redirs }

/-- `exec_frame_execute_background_job`. -/
def execFrameExecuteBackgroundJob (body : Ast) : ExecM δ W ExecuteResult :=
  execInFrame env callees .backgroundJob { body := some body, commandArgs := some body }

/-- `exec_frame_execute_redirected_command`. -/
def execFrameExecuteRedirectedCommand (command : Ast) (redirections : List Migash.Redirection) :
    ExecM δ W ExecuteResult :=
  if redirections = [] then execFrameExecuteBraceGroup env callees command none
  else
    match execRedirectionsCreateFromAstNodes redirections with
    | .error e => do
      setError e
      return { status := .error, hasExitStatus := true, exitStatus := 1 }
    | .ok redirs => execFrameExecuteBraceGroup env callees command (some redirs)

/-! ## Compound commands -/

/-- Does the condition of an if clause select its branch? -/
def conditionHolds (cond : ExecuteResult) : Bool := cond.hasExitStatus && cond.exitStatus = 0

/-- The elif clauses of `exec_frame_execute_if_clause`; none of them taken is no result. -/
def elifClauses : List Ast → ExecM δ W (Option ExecuteResult)
  | [] => return none
  | .ifClause condition thenBody _ _ :: elifs => do
    let cond ← callees.dispatch condition
    if cond.status ≠ .ok then return some cond
    else if conditionHolds cond then some <$> callees.dispatch thenBody
    else elifClauses elifs
  | _ :: elifs => elifClauses elifs

/-- `exec_frame_execute_if_clause`. -/
def execFrameExecuteIfClause (condition thenBody : Ast) (elifList : Option (List Ast))
    (elseBody : Option Ast) : ExecM δ W ExecuteResult := do
  let cond ← callees.dispatch condition
  if cond.status ≠ .ok then return cond
  else if conditionHolds cond then callees.dispatch thenBody
  else
    match ← elifClauses callees (elifList.getD []) with
    | some result => return result
    | none =>
      match elseBody with
      | some body => callees.dispatch body
      | none => return { hasExitStatus := true }

/-- `exec_frame_execute_while_clause`. -/
def execFrameExecuteWhileClause (condition body : Ast) (isUntil : Bool) :
    ExecM δ W ExecuteResult := do
  emit (.loop none)
  let result ← execFrameExecuteConditionLoop callees
    { condition := some condition, body := some body, untilMode := isUntil }
  emit (.loopEnd result.flow)
  return result

/-- `exec_frame_execute_for_loop`. -/
def execFrameExecuteForLoop (var : String) (words : List String) (body : Ast) :
    ExecM δ W ExecuteResult := do
  emit (.loop (some words.length))
  let result ← execInFrame env callees .loop
    { iterationWords := some words, loopVarName := some var, body := some body }
  emit (.loopEnd result.flow)
  return result

/-- The word list of `exec_frame_execute_for_clause`: a failed expansion is an empty list, and
without words the positional parameters are taken. -/
def forWords (words : Option (List Token)) : ExecM δ W (List String) :=
  match words with
  | some (tok :: toks) => do
    let expanded ← expand (env.expandWords (tok :: toks))
    return expanded.getD []
  | _ => do
    let s ← get
    let params ← expectsNotNull "params" s.frame.positionalParams
    return params.params

/-- `exec_frame_execute_for_clause`. -/
def execFrameExecuteForClause (var : String) (words : Option (List Token)) (body : Ast) :
    ExecM δ W ExecuteResult := do
  let words ← forWords env words
  execFrameExecuteForLoop env callees var words body

/-- Does one of the patterns match? A pattern whose expansion fails is passed over. -/
def anyPattern (word : String) : List Token → ExecM δ W Bool
  | [] => return false
  | tok :: toks => do
    match ← expand (env.expandWordNosplit tok) with
    | some pattern => if env.fnmatch pattern word then return true else anyPattern word toks
    | none => anyPattern word toks

/-- The first item with a matching pattern is executed. -/
def caseItems (word : String) : List Ast → ExecM δ W ExecuteResult
  | [] => return { hasExitStatus := true }
  | .caseItem patterns body _ :: items => do
    if ← anyPattern env word patterns then
      match body with
      | some body => callees.dispatch body
      | none => return { hasExitStatus := true }
    else caseItems word items
  | _ :: items => caseItems word items

/-- `exec_frame_execute_case_clause`. -/
def execFrameExecuteCaseClause (word : Token) (items : List Ast) : ExecM δ W ExecuteResult := do
  match ← expand (env.expandWordNosplit word) with
  | none => do
    setError "Failed to expand case word"
    return { status := .error, hasExitStatus := true, exitStatus := 1 }
  | some text => caseItems env callees text items

/-- `func_store_add_ex`. -/
def funcStoreAddEx (name : String) (body : Ast) (redirs : Option (List ExecRedirection)) :
    ExecM δ W Bool :=
  if FuncStore.isValidName name then
    match body.clone with
    | .ok func => do
      modify fun s =>
        { s with
          functions :=
            s.functions.insertOrAssign name ⟨func, redirs.map execRedirectionsClone⟩ }
      return true
    | .error e => throw (.fault e)
  else return false

/-- The failure of a function definition. -/
def functionDefError (text : String) : ExecM δ W ExecuteResult := do
  setError text
  return { status := .error, hasExitStatus := true, exitStatus := 1 }

/-- `exec_frame_execute_function_def_clause`. -/
def execFrameExecuteFunctionDefClause (name : String) (body : Ast)
    (redirections : Option (List Migash.Redirection)) : ExecM δ W ExecuteResult :=
  match execRedirectionsCreateFromAstNodes (redirections.getD []) with
  | .error _ => functionDefError s!"Failed to convert redirections for function '{name}'"
  | .ok redirs => do
    if ← funcStoreAddEx name body (if redirs = [] then none else some redirs) then
      return { hasExitStatus := true }
    else functionDefError s!"Failed to define function '{name}'"

/-! ## And-or lists -/

/-- The switch over the type of an operand in `exec_frame_execute_and_or_list`. -/
def operandCase : Ast → Option (ExecM δ W ExecuteResult)
  | .commandList items separators => some (callees.compoundList (.commandList items separators))
  | .andOrList left right op => some (callees.andOrList (.andOrList left right op))
  | .pipeline commands isNegated => some (execFrameExecutePipeline env callees commands isNegated)
  | .simpleCommand words redirections assignments =>
    some (execFrameExecuteSimpleCommand env callees words redirections assignments)
  | _ => none

/-- The default case of that switch. -/
def unsupportedOperand (node : Ast) : ExecM δ W ExecuteResult := do
  setError s!"Unsupported AST node type in and_or_list: {node.typeNumber} ({node.typeToString})"
  return { status := .notImpl }

/-- Is the right operand to be executed? -/
def executeRight (op : AndorOperator) (exitStatus : ℤ) : Bool :=
  match op with
  | .and => exitStatus = 0
  | .or => exitStatus ≠ 0

/-- The end of `exec_frame_execute_and_or_list`. -/
def andOrEnd (result : ExecuteResult) : ExecM δ W ExecuteResult := do
  setLastExitStatus result.exitStatus
  return result

/-- The right operand, when it is to be executed. -/
def andOrRight (right : Ast) : ExecM δ W ExecuteResult :=
  match operandCase env callees right with
  | none => unsupportedOperand right
  | some run => do
    let result ← run
    if result.status ≠ .ok then return result else andOrEnd result

/-- `exec_frame_execute_and_or_list`. -/
def execFrameExecuteAndOrList (left right : Ast) (op : AndorOperator) :
    ExecM δ W ExecuteResult :=
  match operandCase env callees left with
  | none => unsupportedOperand left
  | some run => do
    let result ← run
    if result.status ≠ .ok then return result
    else if executeRight op result.exitStatus then andOrRight env callees right
    else andOrEnd result

/-! ## Command lists -/

/-- The switch of `exec_frame_execute_compound_list`, and the background case before it. -/
def listItemCase (sep : CmdSeparator) (cmd : Ast) : Option (ExecM δ W ExecuteResult) :=
  if sep = .background then some (execFrameExecuteBackgroundJob env callees cmd)
  else
    match cmd with
    | .pipeline commands isNegated =>
      some (execFrameExecutePipeline env callees commands isNegated)
    | .andOrList left right op => some (execFrameExecuteAndOrList env callees left right op)
    | .commandList items separators => some (callees.compoundList (.commandList items separators))
    | .simpleCommand words redirections assignments =>
      some (execFrameExecuteSimpleCommand env callees words redirections assignments)
    | .braceGroup body => some (execFrameExecuteBraceGroup env callees body none)
    | .subshell body => some (execFrameExecuteSubshell env callees body)
    | .ifClause condition thenBody elifList elseBody =>
      some (execFrameExecuteIfClause callees condition thenBody elifList elseBody)
    | .whileClause condition body => some (execFrameExecuteWhileClause callees condition body false)
    | .untilClause condition body => some (execFrameExecuteWhileClause callees condition body true)
    | .forClause var words body => some (execFrameExecuteForClause env callees var words body)
    | .caseClause word items => some (execFrameExecuteCaseClause env callees word items)
    | .redirectedCommand command redirections =>
      some (execFrameExecuteRedirectedCommand env callees command redirections)
    | .functionDef name body redirections =>
      some (execFrameExecuteFunctionDefClause name body redirections)
    | _ => none

/-- The result of a list takes over the exit status of an item that reports one. -/
def ExecuteResult.takeStatus (result item : ExecuteResult) : ExecuteResult :=
  if item.hasExitStatus then
    { result with hasExitStatus := true, exitStatus := item.exitStatus }
  else result

/-- The frame takes over the exit status of an item that reports one. -/
def recordItemStatus (item : ExecuteResult) : ExecM δ W Unit :=
  modify fun s => if item.hasExitStatus then s.setLastExitStatus item.exitStatus else s

/-- The loop of `exec_frame_execute_compound_list`. -/
def listTurns : List Ast → List CmdSeparator → ExecuteResult → ExecM δ W ExecuteResult
  | [], _, result => return result
  | _ :: _, [], _ => contract "index < list->len"
  | cmd :: items, sep :: separators, result =>
    match listItemCase env callees sep cmd with
    | none => do
      setError
        s!"Unsupported command type in compound list: {cmd.typeNumber} ({cmd.typeToString})"
      return { result with status := .notImpl }
    | some run => do
      let item ← run
      if item.status ≠ .ok then return { result.takeStatus item with status := item.status }
      else
        recordItemStatus item
        if sep = .end_ then return result.takeStatus item
        else listTurns items separators (result.takeStatus item)

/-- `exec_frame_execute_compound_list`. -/
def execFrameExecuteCompoundList (items : List Ast) (separators : List CmdSeparator) :
    ExecM δ W ExecuteResult :=
  if items = [] then return { hasExitStatus := true }
  else listTurns env callees items separators {}

/-! ## Dispatch -/

/-- The switch of `exec_frame_execute_dispatch`. -/
def dispatchCase : Ast → Option (ExecM δ W ExecuteResult)
  | .commandList items separators =>
    some (execFrameExecuteCompoundList env callees items separators)
  | .andOrList left right op => some (execFrameExecuteAndOrList env callees left right op)
  | .pipeline commands isNegated => some (execFrameExecutePipeline env callees commands isNegated)
  | .simpleCommand words redirections assignments =>
    some (execFrameExecuteSimpleCommand env callees words redirections assignments)
  | .subshell body => some (execFrameExecuteSubshell env callees body)
  | .braceGroup body => some (execFrameExecuteBraceGroup env callees body none)
  | .ifClause condition thenBody elifList elseBody =>
    some (execFrameExecuteIfClause callees condition thenBody elifList elseBody)
  | .whileClause condition body => some (execFrameExecuteWhileClause callees condition body false)
  | .untilClause condition body => some (execFrameExecuteWhileClause callees condition body true)
  | .forClause var words body => some (execFrameExecuteForClause env callees var words body)
  | .redirectedCommand command redirections =>
    some (execFrameExecuteRedirectedCommand env callees command redirections)
  | .caseClause word items => some (execFrameExecuteCaseClause env callees word items)
  | .functionDef name body redirections =>
    some (execFrameExecuteFunctionDefClause name body redirections)
  | _ => none

/-- The exit status of a result that reports one becomes `$?`. -/
def Shell.recordStatus (s : Shell δ W) (result : ExecuteResult) : Shell δ W :=
  if result.hasExitStatus then
    { s.setLastExitStatus result.exitStatus with
      lastExitStatus := result.exitStatus, lastExitStatusSet := true }
  else s

/-- `exec_frame_execute_dispatch`. -/
def execFrameExecuteDispatch (node : Ast) : ExecM δ W ExecuteResult :=
  match dispatchCase env callees node with
  | none => do
    setError s!"Unsupported AST node type: {node.typeNumber} {node.typeToString}"
    return { status := .notImpl }
  | some run => do
    let result ← run
    modify fun s => s.recordStatus result
    return result

end

/-! ## The knot -/

/-- The executor with a bound on the depth of its calls. -/
def executor (env : Env δ W) : ℕ → Callees δ W
  | 0 =>
    { dispatch := fun _ => throw (.fault .fuel)
      compoundList := fun _ => throw (.fault .fuel)
      andOrList := fun _ => throw (.fault .fuel)
      fuel := 0 }
  | n + 1 =>
    { dispatch := execFrameExecuteDispatch env (executor env n)
      compoundList := fun node =>
        match node with
        | .commandList items separators =>
          execFrameExecuteCompoundList env (executor env n) items separators
        | _ => contract "list->type == AST_COMMAND_LIST"
      andOrList := fun node =>
        match node with
        | .andOrList left right op => execFrameExecuteAndOrList env (executor env n) left right op
        | _ => contract "list->type == AST_AND_OR_LIST"
      fuel := n }

end Migash.Exec
