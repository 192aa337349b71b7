import Migash.Exec.PipelineStatus
import Migash.Numeric
import Mathlib.Data.List.TakeWhile

/-! # The exit builtin

In the frame of the shell itself `exit` ends the process. In every other frame it
hands on the same control flow as `return`. No list looks at that flow, so what
is left of the program runs all the same.
-/

namespace Migash.Exec

open Library

variable {δ W : Type}

/-! ## The builtin -/

/-- A part of `builtin_exit` that has nothing to do with the frames. -/
structure LeavesFrames (m : ExecM δ W Unit) : Prop where
  run : ∀ s, ∃ t, m.run s = .ok (⟨⟩, t) ∧ t.frame = s.frame ∧ t.callers = s.callers

/-- The argument of `builtin_exit`: the exit status, or an error and the status of the builtin. -/
def exitArgument (args : List String) (lastExitStatus : ℤ) : Except (String × ℤ) ℤ :=
  match args with
  | _ :: arg :: more =>
    match strtol arg.toList with
    | (val, []) => if more = [] then .ok (val % 256) else .error ("exit: too many arguments", 1)
    | _ => .error ("exit: numeric argument required", 2)
  | _ => .ok lastExitStatus

section

variable (runExitTraps reapBackgroundJobs : ExecM δ W Unit)

/-- `builtin_exit`. -/
def builtinExit (args : List String) : ExecM δ W ℤ := do
  let s ← get
  match exitArgument args s.frame.lastExitStatus with
  | .error (text, status) => do
    setError text
    return status
  | .ok exitStatus => do
    runExitTraps
    reapBackgroundJobs
    let s ← get
    match s.callers with
    | [] => throw (.exit exitStatus s.world)
    | _ :: _ =>
      -- the flow of `return`: only the target of a `return` makes a difference from here on
      set { s with
        frame :=
          { s.frame with
            pendingControlFlow := .return_, pendingFlowDepth := 0, lastExitStatus := exitStatus } }
      return exitStatus

end

/-! ## Its argument -/

/-- Is there a minus, and what follows the sign. -/
def splitSign (text : List Char) : Bool × List Char :=
  match text with
  | '-' :: ds => (true, ds)
  | '+' :: ds => (false, ds)
  | ds => (false, ds)

/-- The number that a text stands for: blanks, a sign and digits. -/
def numeral? (text : List Char) : Option ℤ :=
  let (negative, digits) := splitSign (text.dropWhile isspace)
  if digits ≠ [] ∧ digits.all Char.isDigit then
    some (if negative then -(decimalValue digits : ℤ) else decimalValue digits)
  else none

/-- The value of a number as a `long`. -/
def saturate (n : ℤ) : ℤ := max longMin (min n longMax)

theorem strtol_of_numeral {text : List Char} {n : ℤ} (h : numeral? text = some n) :
    strtol text = (saturate n, []) := by
  have hread : strtol text =
      let (negative, digits) := splitSign (text.dropWhile isspace)
      let number := digits.takeWhile Char.isDigit
      if number = [] then (0, text)
      else
        (if negative then max (-(decimalValue number : ℤ)) longMin
          else min (decimalValue number : ℤ) longMax, digits.drop number.length) := rfl
  rw [hread]
  unfold numeral? at h
  generalize splitSign (text.dropWhile isspace) = signed at h ⊢
  obtain ⟨negative, digits⟩ := signed
  dsimp only at h ⊢
  by_cases hdigits : digits ≠ [] ∧ digits.all Char.isDigit = true
  · rw [if_pos hdigits] at h
    obtain ⟨hne, hall⟩ := hdigits
    have htake : digits.takeWhile Char.isDigit = digits :=
      List.takeWhile_eq_self_iff.mpr (List.all_eq_true.mp hall)
    rw [htake, if_neg hne, List.drop_length]
    cases h
    have hvalue : 0 ≤ (decimalValue digits : ℤ) := Int.natCast_nonneg _
    cases negative <;> simp only [saturate, longMin, longMax, Prod.mk.injEq, and_true] <;>
      simp only [if_true, if_false, Bool.false_eq_true] <;> omega
  · rw [if_neg hdigits] at h
    cases h

/-! ## The end of the program -/

/-- The program comes to a run of `m` in the state `u`, with `rest` still to do. -/
def ComesTo {α : Type} (prog : ExecM δ W α) (s : Shell δ W) (m : ExecM δ W ℤ) (u : Shell δ W)
    (rest : ℤ → ExecM δ W α) : Prop :=
  prog.run s = (m >>= rest).run u

section

variable {runExitTraps reapBackgroundJobs : ExecM δ W Unit}

/-- The frame of the shell itself. -/
theorem builtinExit_top (htraps : LeavesFrames runExitTraps) (hreap : LeavesFrames reapBackgroundJobs)
    {args : List String} {u : Shell δ W} {exitStatus : ℤ} (hu : u.callers = [])
    (hargs : exitArgument args u.frame.lastExitStatus = .ok exitStatus) :
    ∃ world, (builtinExit runExitTraps reapBackgroundJobs args).run u =
      .error (.exit exitStatus world) := by
  obtain ⟨t, ht, -, hcallers⟩ := htraps.run u
  obtain ⟨t', ht', -, hcallers'⟩ := hreap.run t
  refine ⟨t'.world, ?_⟩
  rw [builtinExit, Stateful.run_bind_ok (Stateful.run_get_eq u), hargs]
  dsimp only
  rw [Stateful.run_bind_ok ht, Stateful.run_bind_ok ht',
    Stateful.run_bind_ok (Stateful.run_get_eq t')]
  rw [show t'.callers = [] from hcallers'.trans (hcallers.trans hu)]
  rfl

/-- Any other frame: the builtin answers, and hands on the flow of `return`. -/
theorem builtinExit_nested (htraps : LeavesFrames runExitTraps)
    (hreap : LeavesFrames reapBackgroundJobs) {args : List String} {u : Shell δ W} {exitStatus : ℤ}
    (hu : u.callers ≠ [])
    (hargs : exitArgument args u.frame.lastExitStatus = .ok exitStatus) :
    ∃ t, (builtinExit runExitTraps reapBackgroundJobs args).run u = .ok (exitStatus, t) ∧
      t.callers = u.callers ∧ t.frame.pendingControlFlow = .return_ ∧
      t.frame.lastExitStatus = exitStatus := by
  obtain ⟨t, ht, -, hcallers⟩ := htraps.run u
  obtain ⟨t', ht', -, hcallers'⟩ := hreap.run t
  obtain ⟨parent, callers, hcons⟩ := List.exists_cons_of_ne_nil hu
  have hafter : t'.callers = parent :: callers := hcallers'.trans (hcallers.trans hcons)
  refine ⟨{ t' with
    frame :=
      { t'.frame with
        pendingControlFlow := .return_, pendingFlowDepth := 0, lastExitStatus := exitStatus } },
    ?_, hcallers'.trans hcallers, rfl, rfl⟩
  rw [builtinExit, Stateful.run_bind_ok (Stateful.run_get_eq u), hargs]
  dsimp only
  rw [Stateful.run_bind_ok ht, Stateful.run_bind_ok ht',
    Stateful.run_bind_ok (Stateful.run_get_eq t'), hafter]
  rfl

end

/-! ## Programs -/

/-- A list goes on behind an item whatever control flow the item hands on. -/
theorem listTurns_next {env : Env δ W} {callees : Callees δ W} {cmd : Ast} {sep : CmdSeparator}
    {run : ExecM δ W ExecuteResult} (hrun : listItemCase env callees sep cmd = some run)
    (hsep : sep ≠ .end_) {s t : Shell δ W} {item : ExecuteResult} (hitem : run.run s = .ok (item, t))
    (hstatus : item.status = .ok) (items : List Ast) (seps : List CmdSeparator)
    (result : ExecuteResult) :
    (listTurns env callees (cmd :: items) (sep :: seps) result).run s =
      (recordItemStatus item >>= fun _ =>
        listTurns env callees items seps (result.takeStatus item)).run t := by
  simp only [listTurns, hrun]
  rw [Stateful.run_bind_ok hitem, if_neg (not_not_intro hstatus), if_neg hsep]

/-- Nor does it hand the flow on. -/
theorem listTurns_flow (env : Env δ W) (callees : Callees δ W) (items : List Ast)
    (seps : List CmdSeparator) (result : ExecuteResult) :
    Answers (fun r => r.flow = result.flow) (listTurns env callees items seps result) := by
  have htake : ∀ result item : ExecuteResult, (result.takeStatus item).flow = result.flow := by
    intro result item
    unfold ExecuteResult.takeStatus
    split_ifs <;> rfl
  induction items generalizing seps result with
  | nil => exact .of_pure rfl
  | cons cmd items ih =>
    cases seps with
    | nil => exact .of_throw
    | cons sep seps =>
      rw [listTurns]
      cases listItemCase env callees sep cmd with
      | none => exact .andThen fun _ => .of_pure rfl
      | some run =>
        refine .andThen fun item => ?_
        split_ifs
        · exact .of_pure (htake result item)
        · exact .andThen fun _ => .of_pure (htake result item)
        · refine .andThen fun _ => ?_
          rw [← htake result item]
          exact ih seps (result.takeStatus item)

/-- A system whose only builtins are `exit` and `true`. -/
def exitEnv : Env Unit Unit where
  __ := Env.idle Unit Unit
  builtin name :=
    if name = "exit" then some (.special, builtinExit (pure ()) (pure ()))
    else if name = "true" then some (.regular, fun _ => return 0)
    else none

theorem leavesFrames_pure : LeavesFrames (pure () : ExecM δ W Unit) := ⟨fun s => ⟨s, rfl, rfl, rfl⟩⟩

/-- `exit 3` at the top level. -/
def exitThree : ExecM Unit Unit ExecuteResult := do
  let status ← builtinExit (pure ()) (pure ()) ["exit", "3"]
  return { exitStatus := status }

/-- `{ exit 3; true; }`. -/
def exitInBraces : Ast :=
  .braceGroup (.commandList [.simpleCommand (some [.ofText "exit", .ofText "3"]) (some []) (some []),
    wordCommand "true"] [.sequential, .end_])

/-- The commands that a run began with. -/
def commandsRun (history : List Event) : List (List String) :=
  history.filterMap fun e =>
    match e with
    | .command (.simpleCommand words _ _) => some ((words.getD []).map Token.getAllText)
    | _ => none

end Migash.Exec
