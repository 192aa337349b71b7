import Migash.Exec.Policy
import Migash.FuncStore
import Migash.Library.Forward
import Migash.Library.Stateful
import Migash.VariableStore

/-! # The state of the executor

One shell process: its stack of frames, the stores that frames share, its
descriptors and the world outside. The frames that share a store with their
parent all see the one store that is in force.

`history` records what the statements about runs speak of. Only this record is
added to the source; no function of the model reads it.
-/

namespace Migash.Exec

open Library Redirect

/-- `positional_params_t`. -/
structure PositionalParams where
  arg0 : Option String
  params : List String
  deriving DecidableEq, Repr

/-- `miga_frame_t`, the fields that belong to the frame itself. -/
structure Frame where
  type : FrameType
  savedVariables : Option VariableStore := none
  localVariables : Option VariableStore := none
  positionalParams : Option PositionalParams := none
  savedPositionalParams : Option (Option PositionalParams) := none
  loopDepth : ℕ := 0
  lastExitStatus : ℤ := 0
  lastBgPid : ℤ := 0
  pendingControlFlow : FrameFlow := .normal
  pendingFlowDepth : ℕ := 0

/-- `exec_opt_flags_t`. -/
structure OptFlags where
  allexport : Bool := false
  errexit : Bool := false
  noclobber : Bool := false
  noglob : Bool := false
  noexec : Bool := false
  nounset : Bool := false
  verbose : Bool := false
  xtrace : Bool := false
  deriving DecidableEq, Repr

/-- A variable assignment: a plain one, or one of an arithmetic expression, which keeps the flags
of its variable. -/
structure Assignment where
  name : String
  value : Option String
  keepsFlags : Bool := false
  deriving DecidableEq, Repr

/-- A store after the assignment; a read-only variable stays. -/
def Assignment.apply (a : Assignment) (store : VariableStore) : VariableStore :=
  if a.keepsFlags then store.setKeepingFlags a.name (a.value.getD "")
  else store.tryAdd a.name a.value false false

/-- What is recorded of a run. -/
inductive Event where
  /-- a simple command is about to run -/
  | command (node : Ast)
  /-- it is over and hands this to its caller -/
  | commandEnd (status : ℤ) (flow : FrameFlow) (depth : ℕ)
  /-- a command went to the background -/
  | launched (node : Ast)
  /-- a loop begins: a for loop over so many words, or a condition loop -/
  | loop (words : Option ℕ)
  /-- its condition is tested next -/
  | test
  /-- its body is run next -/
  | body
  | loopEnd (flow : FrameFlow)
  | function
  | functionEnd (flow : FrameFlow)
  /-- an assignment, with the depth of the store that received it; none for a function's locals -/
  | assigned (depth : Option ℕ) (assignment : Assignment)

/-- The shell process. -/
structure Shell (δ W : Type) where
  /-- the current frame -/
  frame : Frame
  /-- its parent frames, the nearest first -/
  callers : List Frame := []
  /-- `frame->variables` -/
  variables_ : VariableStore := .empty
  functions : FuncStore := []
  optFlags : OptFlags := {}
  descriptors : Descriptors δ := .empty
  openFds : FdTable := {}
  jobs : List (ℤ × Ast) := []
  shellPid : Option ℤ := none
  lastArgument : Option String := none
  lastExitStatus : ℤ := 0
  lastExitStatusSet : Bool := false
  isInteractive : Bool := false
  error : Option String := none
  world : W
  history : List Event := []

/-- Why the executor stopped without an answer: a fault, or the end of the process. -/
inductive ExecStop (W : Type) where
  | fault (cause : Fault)
  | exit (status : ℤ) (world : W)

/-- A computation of the executor. -/
abbrev ExecM (δ W α : Type) := Stateful (Shell δ W) (ExecStop W) α

/-! ## What the executor uses of the rest of the program -/

/-- An assignment made by an expansion: `${name:=value}`, or one in an arithmetic expression. -/
structure VarWrite where
  name : String
  value : String
  arithmetic : Bool
  deriving DecidableEq, Repr

/-- What the expander gives back: a value unless it fails, the assignments it made, the exit status
of a command substitution, and the world. -/
structure Expansion (W α : Type) where
  value : Option α
  writes : List VarWrite := []
  lastExitStatus : Option ℤ := none
  world : W

/-- `miga_builtin_category_t`. -/
inductive BuiltinCategory where
  | special | regular
  deriving DecidableEq, Repr

/-- How a child process ended. -/
inductive WaitStatus where
  | exited (code : ℤ)
  | signaled (signal : ℤ)
  | other
  deriving DecidableEq, Repr

/-- Why `waitpid` failed. -/
inductive WaitError where
  | echild
  | other (text : String)
  deriving DecidableEq, Repr

/-- The expander, the builtins and the system calls. -/
structure Env (δ W : Type) where
  fdSetsize : ℕ
  expandWords : List Token → Shell δ W → Expansion W (List String)
  expandWordNosplit : Token → Shell δ W → Expansion W String
  expandAssignmentValue : Token → Shell δ W → Expansion W String
  expandRedirectionTarget : Token → Shell δ W → Expansion W String
  expandHeredoc : String → Shell δ W → Expansion W String
  fnmatch : String → String → Bool
  builtin : String → Option (BuiltinCategory × (List String → ExecM δ W ℤ))
  runExitTrap : ExecM δ W Unit
  openFile : String → OpenFlags → W → Except String δ × W
  mkstemp : W → Except String δ × W
  pipe : W → Except String (δ × δ) × W
  write : δ → String → W → Except String Unit × W
  /-- The child's effect on the world and its exit status are handed over as a function. -/
  fork : (W → Except Fault (ℤ × W)) → W → Except String ℤ × W
  waitpid : ℤ → W → Except WaitError WaitStatus × W
  kill : ℤ → W → W
  /-- What the program does that takes the place of the child, and its exit status. -/
  exec : List String → VariableStore → Descriptors δ → W → ℤ × W

/-- A shell that has run nothing yet. -/
def Shell.initial {δ W : Type} (world : W) : Shell δ W where
  frame := { type := .topLevel, positionalParams := some ⟨some "miga", []⟩ }
  world := world

/-- The environment in which every word stands for its own text, no command is installed and every
system call fails. -/
def Env.idle (δ W : Type) : Env δ W where
  fdSetsize := 1024
  expandWords toks s := { value := some (toks.map Token.getAllText), world := s.world }
  expandWordNosplit tok s := { value := some tok.getAllText, world := s.world }
  expandAssignmentValue tok s :=
    { value := some (String.join (tok.assignmentValue.filterMap Part.text)), world := s.world }
  expandRedirectionTarget tok s := { value := some tok.getAllText, world := s.world }
  expandHeredoc text s := { value := some text, world := s.world }
  fnmatch pattern text := pattern = text
  builtin _ := none
  runExitTrap := pure ()
  openFile _ _ world := (.error "No such file or directory", world)
  mkstemp world := (.error "No such file or directory", world)
  pipe world := (.error "Too many open files", world)
  write _ _ world := (.ok (), world)
  fork _ world := (.error "Resource temporarily unavailable", world)
  waitpid _ world := (.error .echild, world)
  kill _ world := world
  exec _ _ _ world := (127, world)

/-! ## Reading and changing the state -/

namespace Shell

variable {δ W α : Type} (s : Shell δ W)

def emit (e : Event) : Shell δ W := { s with history := s.history ++ [e] }

/-- `exec_set_error_printf`. -/
def setError (text : String) : Shell δ W := { s with error := some text }

def setLastExitStatus (status : ℤ) : Shell δ W :=
  { s with frame := { s.frame with lastExitStatus := status } }

/-- The number of stores set aside below the one in force. -/
def depth : ℕ := (s.frame :: s.callers).countP fun f => f.savedVariables.isSome

/-- A plain assignment to the store in force. -/
def assign (a : Assignment) : Shell δ W :=
  { s.emit (.assigned (some s.depth) a) with variables_ := a.apply s.variables_ }

/-- An assignment by an expansion. An arithmetic one goes to the locals of a function frame. -/
def writeVar (w : VarWrite) : Shell δ W :=
  let a : Assignment := { name := w.name, value := some w.value, keepsFlags := w.arithmetic }
  match w.arithmetic, s.frame.localVariables with
  | true, some locals =>
    { s.emit (.assigned none a) with
      frame := { s.frame with localVariables := some (a.apply locals) } }
  | _, _ => s.assign a

/-- The state behind an expansion. -/
def expanded (e : Expansion W α) : Shell δ W :=
  let s := e.writes.foldl writeVar s
  { s with
    frame := { s.frame with lastExitStatus := e.lastExitStatus.getD s.frame.lastExitStatus }
    world := e.world }

end Shell

variable {δ W α : Type}

def emit (e : Event) : ExecM δ W Unit := modify fun s => s.emit e

def setError (text : String) : ExecM δ W Unit := modify fun s => s.setError text

def setLastExitStatus (status : ℤ) : ExecM δ W Unit := modify fun s => s.setLastExitStatus status

/-- A broken contract of a callee. -/
def contract (text : String) : ExecM δ W α := throw (.fault (.contract text))

/-- `Expects_not_null`. -/
def expectsNotNull (what : String) : Option α → ExecM δ W α
  | some a => pure a
  | none => contract what

/-- Run an expansion. -/
def expand (f : Shell δ W → Expansion W α) : ExecM δ W (Option α) := do
  let s ← get
  set (s.expanded (f s))
  return (f s).value

/-- Run a system call. -/
def syscall (f : W → α × W) : ExecM δ W α := do
  let s ← get
  set { s with world := (f s.world).2 }
  return (f s.world).1

/-! ## Redirections of the current process -/

/-- The system as the redirection code sees it. -/
def Env.redirect (env : Env δ W) : Redirect.Env δ (Shell δ W) where
  fdSetsize := env.fdSetsize
  noclobber s := s.optFlags.noclobber
  expandRedirectionTarget tok s :=
    let e := env.expandRedirectionTarget tok s
    (e.value, s.expanded e)
  expandHeredoc text s :=
    let e := env.expandHeredoc text s
    (e.value, s.expanded e)
  openFile path flags s :=
    let (r, world) := env.openFile path flags s.world
    (r, { s with world })
  mkstemp s :=
    let (r, world) := env.mkstemp s.world
    (r, { s with world })
  pipe s :=
    let (r, world) := env.pipe s.world
    (r, { s with world })
  write file text s :=
    let (r, world) := env.write file text s.world
    (r, { s with world })
  setError text s := s.setError text

namespace Shell

def toFdState (s : Shell δ W) : FdState δ (Shell δ W) := ⟨s.descriptors, s.openFds, s⟩

def ofFdState (s : FdState δ (Shell δ W)) : Shell δ W :=
  { s.rest with descriptors := s.descriptors, openFds := s.openFds }

end Shell

/-- `exec_redirect_apply_redirectons`. -/
def execRedirectApplyRedirectons (env : Env δ W) (redirs : List ExecRedirection) :
    ExecM δ W Bool := do
  let s ← get
  let r := execApplyRedirectionsPosix env.redirect s.toFdState redirs
  set (Shell.ofFdState r.2)
  return r.1

/-- `exec_redirect_restore_redirections`. -/
def execRedirectRestoreRedirections : ExecM δ W Unit :=
  modify fun s => Shell.ofFdState (execRestoreRedirectionsPosix s.toFdState)

end Migash.Exec
