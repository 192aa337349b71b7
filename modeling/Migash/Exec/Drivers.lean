import Migash.Exec.Session
import Migash.Exec.Streams

/-! # Reading commands

The callers of `exec_frame_string_core`: the loop over the lines of a stream, the loop
over the lines of a line editor, the function for lines that are fed one by one, and the
dot builtin. What they print, the traps and the signals are left out.
-/

namespace Migash.Exec

open Library Lexer

section Drivers

variable {δ W : Type} (fe : FrontEnd δ W) (callees : Callees δ W)

/-- What `exec_frame_stream_core` returns, with the outcome of the line if there was one. -/
structure StreamAnswer where
  status : ExecStatus
  outcome : Option Outcome
  session : Session
  fp : Stream

/-- The switch of `exec_frame_stream_core` over the status of its line. -/
def streamStatus : ExecStatus → ExecStatus
  | .incomplete => .incomplete
  | .error => .error
  | _ => .ok

/-- `exec_frame_stream_core`. -/
def execFrameStreamCore (session : Session) (fp : Stream) : ExecM δ W StreamAnswer := do
  let (line, fp) := fp.readLine
  if line = [] then return { status := .ok, outcome := none, session, fp }
  else
    let (outcome, session) ← execFrameStringCore fe callees session line
    return { status := streamStatus outcome.status, outcome := some outcome, session, fp }

/-! ## The loops -/

/-- What a loop over lines goes on with, and what became of the lines so far. -/
structure Reader where
  session : Session := {}
  needContinuation : Bool := false
  outcomes : List Outcome := []

/-- A top-level `return`, or the end of the shell, is on its way. -/
def Shell.leaves (s : Shell δ W) : Bool :=
  (s.frame.pendingControlFlow = .return_ ∨ s.frame.pendingControlFlow = .top) ∧ s.callers.isEmpty

/-- The steps of `exec_execute_stream_repl` from the status of a line on: how it goes on, and what it
ends with if it does not. -/
def Reader.dispatch (interactive : Bool) (s : Shell δ W) (status : ExecStatus) (r : Reader) :
    Reader × Option ExecStatus :=
  match status with
  | .incomplete => ({ r with needContinuation := true }, none)
  | .error =>
    let r := { r with session := r.session.reset, needContinuation := false }
    if !interactive ∧ s.optFlags.errexit ∧ s.lastExitStatus ≠ 0 then (r, some .error)
    else (r, if s.leaves then some .exit else none)
  | _ => ({ r with needContinuation := false }, if s.leaves then some .exit else none)

@[simp] theorem Reader.dispatch_outcomes (interactive : Bool) (s : Shell δ W) (status : ExecStatus)
    (r : Reader) : (r.dispatch interactive s status).1.outcomes = r.outcomes := by
  cases status with
  | error =>
    unfold Reader.dispatch
    dsimp only
    split_ifs <;> rfl
  | _ => rfl

/-- The loop of `exec_execute_stream_repl` over a stream that is no terminal, at most `n` turns. -/
def replLoop : ℕ → Reader → Stream → ExecM δ W (ExecStatus × Reader)
  | 0, _, _ => throw (.fault .fuel)
  | n + 1, r, fp => do
    let a ← execFrameStreamCore fe callees r.session fp
    let r := { r with session := a.session, outcomes := r.outcomes ++ a.outcome.toList }
    if a.fp.eof then return (if r.needContinuation then .error else .ok, r)
    else
      match r.dispatch false (← get) a.status with
      | (r, some result) => return (result, r)
      | (r, none) => replLoop n r a.fp

/-- `exec_execute_stream_repl` in a shell that is not interactive. Every turn but the last one takes
a character. -/
def execExecuteStreamRepl (session : Session) (content : List Char) :
    ExecM δ W (ExecStatus × Reader) :=
  replLoop fe callees (content.length + 1) { session } { content }

/-- What `exec_execute_stream_repl` does with a line. -/
def replLine (interactive : Bool) (r : Reader) (line : List Char) :
    ExecM δ W (Reader × Option ExecStatus) := do
  let (outcome, session) ← execFrameStringCore fe callees r.session line
  let r := { r with session, outcomes := r.outcomes ++ [outcome] }
  return r.dispatch interactive (← get) (streamStatus outcome.status)

/-- The end of the shell is on its way, or a top-level `return`, as the two other drivers see it. -/
def Shell.wantsExit (s : Shell δ W) : Bool :=
  s.frame.pendingControlFlow = .top ∨
    (s.callers.isEmpty ∧ s.frame.pendingControlFlow = .return_)

/-- What `exec_execute_stream_with_line_editor` does with a line, to which it adds a newline. -/
def editorLine (r : Reader) (line : List Char) : ExecM δ W (Reader × Option ExecStatus) := do
  let (outcome, session) ← execFrameStringCore fe callees r.session (line ++ [newline])
  let r := { r with session, outcomes := r.outcomes ++ [outcome] }
  if outcome.status = .incomplete then return ({ r with needContinuation := true }, none)
  else
    let r := { r with
      needContinuation := false
      session := if outcome.status = .error then r.session.reset else r.session }
    return (r, if (← get).wantsExit then some .exit else none)

/-- The switch of `exec_execute_command_string_partial_cstr` over the status of its string. -/
def Session.translate (session : Session) : ExecStatus → ExecStatus × Session
  | .ok => (.ok, { session with incomplete := false })
  | .empty => (if session.incomplete then .incomplete else .ok, session)
  | .incomplete => (.incomplete, { session with incomplete := true })
  | .error => (.error, session.reset)
  | _ => (.error, session)

/-- `exec_execute_command_string_partial_cstr`: what it returns, the session it keeps, and what
became of the string. -/
def execExecuteCommandStringPartial (session : Session) (command : List Char) :
    ExecM δ W (ExecStatus × Session × Outcome) := do
  let (outcome, session) ← execFrameStringCore fe callees session command
  let (result, session) := session.translate outcome.status
  let leaves := (result = .ok ∨ result = .error) ∧ (← get).wantsExit
  let result := if leaves then .exit else result
  return (result, if result ≠ .incomplete then session.reset else session, outcome)

/-- The caller of `exec_execute_command_string_partial_cstr`, which needs more text while that is what
it is told. -/
def partialLine (r : Reader) (command : List Char) : ExecM δ W (Reader × Option ExecStatus) := do
  let (result, session, outcome) ← execExecuteCommandStringPartial fe callees r.session command
  return ({ session, needContinuation := result = .incomplete, outcomes := r.outcomes ++ [outcome] },
    if result = .exit then some .exit else none)

/-- The ways in which lines are fed to the shell. -/
inductive Driver where
  | stream (interactive : Bool)
  | lineEditor
  | partialString
  deriving DecidableEq, Repr

/-- What a driver does with a piece of text: one that is read from a stream, a line that was edited,
or a string. -/
def Driver.feedLine (r : Reader) (line : List Char) : Driver → ExecM δ W (Reader × Option ExecStatus)
  | .stream interactive => replLine fe callees interactive r line
  | .lineEditor => editorLine fe callees r line
  | .partialString => partialLine fe callees r line

/-- A driver that is fed with one piece of text after the other, until it ends. -/
def Driver.feedLines (d : Driver) :
    Reader → List (List Char) → ExecM δ W (Reader × Option ExecStatus)
  | r, [] => return (r, none)
  | r, line :: lines => do
    match ← d.feedLine fe callees r line with
    | (r, some result) => return (r, some result)
    | (r, none) => d.feedLines r lines

/-! ## The dot builtin -/

/-- `exec_execute_stream_once`, with the outcome of the line it reads. -/
def execExecuteStreamOnce (content : List Char) : ExecM δ W (ExecStatus × List Outcome) := do
  let a ← execFrameStreamCore fe callees {} { content }
  return (if a.status = .error then .error else .ok, a.outcome.toList)

/-- `frame_replace_positional_params`. -/
def Shell.replacePositionalParams (s : Shell δ W) (params : List String) : Shell δ W :=
  match s.frame.positionalParams with
  | some p =>
    if params.length > 4096 then s
    else { s with frame := { s.frame with positionalParams := some { p with params } } }
  | none => s

/-- The positional parameters of the current frame. -/
def Shell.positionalArguments (s : Shell δ W) : List String :=
  (s.frame.positionalParams.map PositionalParams.params).getD []

/-- `frame_get_all_positional_params`. The first one it asks for has the number 0. -/
def frameGetAllPositionalParams : ExecM δ W (List String) := do
  if (← get).positionalArguments = [] then return [] else contract "n >= 1"

/-- `builtin_dot`, with the outcome of the line it executes: `script` is the file that its name leads
to. -/
def builtinDot (script : String → Shell δ W → Option (List Char)) (args : List String) :
    ExecM δ W (ℤ × List Outcome) := do
  match args.drop 1 with
  | [] => return (2, [])
  | filename :: params =>
    match script filename (← get) with
    | none => return (1, [])
    | some content =>
      let saved ← if params = [] then pure [] else frameGetAllPositionalParams
      if params ≠ [] then modify fun s => s.replacePositionalParams params
      let (status, outcomes) ← execExecuteStreamOnce fe callees content
      let exitStatus := (← get).frame.lastExitStatus
      if params ≠ [] then modify fun s => s.replacePositionalParams saved
      return (if status = .error ∧ exitStatus = 0 then 1 else exitStatus, outcomes)

end Drivers

end Migash.Exec
