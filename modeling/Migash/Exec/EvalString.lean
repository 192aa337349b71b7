import Migash.Exec.Session
import Migash.Library.Gives

/-! # Eval

The text of `eval` runs in a frame of its own, which is popped behind it. The pop passes
on the exit status and the positional parameters, and nothing else that belongs to the
frame: no pending control flow, no process id of a background command, and the text does
not see the local variables of a function. A text without a command counts as an error.
-/

namespace Migash.Exec

open Library Lexer

variable {δ W : Type}

section Eval

variable (fe : FrontEnd δ W) (env : Env δ W) (callees : Callees δ W)

/-- The newline that `execute_command_string` adds. -/
def withNewline (command : List Char) : List Char :=
  if command.getLast? = some newline then command else command ++ [newline]

/-- `execute_command_string`: the status and the exit code of its result. -/
def executeCommandString (command : List Char) : ExecM δ W (ExecStatus × ℤ) := do
  if command = [] then return (.ok, 0)
  else
    let (outcome, _) ← execFrameStringCore fe callees {} (withNewline command)
    let last := (← get).frame.lastExitStatus
    if outcome.status = .ok then return (.ok, last)
    else return (.error, if last = 0 then 1 else last)

/-- `frame_execute_eval_string_cstr`. -/
def frameExecuteEvalStringCstr (command : List Char) : ExecM δ W ExecStatus := do
  if command = [] then return .ok
  else
    execFramePush .eval {}
    let (status, exitCode) ← executeCommandString fe callees command
    execFramePop env .eval
    setLastExitStatus exitCode
    return if status = .error then .error else .ok

/-- `frame_execute_string_as_eval`. -/
def frameExecuteStringAsEval (command : List Char) : ExecM δ W ExecStatus :=
  if command = [] then return .ok
  else frameExecuteEvalStringCstr fe env callees (command.takeWhile (· ≠ nul))

/-- `builtin_eval`. -/
def builtinEval (args : List String) : ExecM δ W ℤ := do
  let command := String.intercalate " " (args.drop 1)
  if command = "" then return 0
  else
    let status ← frameExecuteStringAsEval fe env callees command.toList
    let exitStatus := (← get).frame.lastExitStatus
    return if status = .error ∧ exitStatus = 0 then 1 else exitStatus

end Eval

/-! ## A text that stands in the place of the eval -/

/-- Where a text stands that is in the place of an eval: it has all that the calling frame has, the
local variables of a function as well. -/
def Shell.enterPlace (s : Shell δ W) : Shell δ W :=
  { s with
    frame := { s.frame with
      type := .eval
      savedVariables := none
      savedPositionalParams := none
      pendingControlFlow := .normal
      pendingFlowDepth := 0 }
    callers := s.frame :: s.callers }

/-- The calling frame behind the text: all that the text has changed is changed there, and what it asks
for is pending. -/
def Shell.leavePlace (flow : FrameFlow) (depth : ℕ) (s : Shell δ W) : Shell δ W :=
  match s.callers with
  | [] => s
  | parent :: callers =>
    { s with
      frame := { parent.popped s.frame with
        localVariables := s.frame.localVariables
        lastBgPid := s.frame.lastBgPid
        pendingControlFlow := if flow = .normal then parent.pendingControlFlow else flow
        pendingFlowDepth := if flow = .normal then parent.pendingFlowDepth else depth }
      callers }

section InPlace

variable (fe : FrontEnd δ W) (env : Env δ W) (callees : Callees δ W)

/-- The loop over a command list, which ends at the first command that asks for a break, a continue or
a return. -/
def inPlaceTurns : List Ast → List CmdSeparator → ExecuteResult → ExecM δ W ExecuteResult
  | [], _, result => return result
  | _ :: _, [], _ => contract "index < list->len"
  | cmd :: items, sep :: separators, result =>
    match listItemCase env callees sep cmd with
    | none => do
      setError
        s!"Unsupported command type in compound list: {cmd.typeNumber} ({cmd.typeToString})"
      return { result with status := .notImpl }
    | some run => do
      let item ← run
      if item.status ≠ .ok then return { result.takeStatus item with status := item.status }
      else
        recordItemStatus item
        if item.flow ≠ .normal then
          return { result.takeStatus item with flow := item.flow, flowDepth := item.flowDepth }
        else if sep = .end_ then return result.takeStatus item
        else inPlaceTurns items separators (result.takeStatus item)

/-- A program that stands in the place of an eval. -/
def inPlaceProgram : Ast → ExecM δ W ExecuteResult
  | .commandList items separators => do
    let result ←
      if items = [] then pure { hasExitStatus := true }
      else inPlaceTurns env callees items separators {}
    modify fun s => s.recordStatus result
    return result
  | node => execFrameExecuteDispatch env callees node

/-- A text that stands in the place of an eval. One without a command succeeds. -/
def inPlaceText (command : List Char) : ExecM δ W ExecuteResult := do
  let s ← get
  match readInput fe (fe.tokenizerEnv s) {} (withNewline command) with
  | .error cause => throw (.fault cause)
  | .ok (.program ast, _) => do
    let result ← inPlaceProgram env callees ast
    modify fun s => s.recordStatus result
    return result
  | .ok (.empty, _) => do
    setLastExitStatus 0
    return {}
  | .ok _ => return { status := .error }

/-- The effect on the calling frame of a text in the place of the eval. An error in it ends with its
status, or with 1. -/
def standInPlace (command : List Char) : ExecM δ W ExecStatus := do
  if command = [] then return .ok
  else
    modify Shell.enterPlace
    let result ← inPlaceText fe env callees command
    let last := (← get).frame.lastExitStatus
    modify fun s => s.leavePlace result.flow result.flowDepth
    if result.status = .error then
      setLastExitStatus (if last = 0 then 1 else last)
      return .error
    else
      setLastExitStatus last
      return .ok

end InPlace

/-! ## The same effect -/

/-- A string that is executed through eval does what its text does in the place of the eval. -/
structure AsInPlace (fe : FrontEnd δ W) (env : Env δ W) (n : ℕ) (command : List Char)
    (s : Shell δ W) : Prop where
  effect : (frameExecuteStringAsEval fe env (executor env (n + 1)) command).run s =
    (standInPlace fe env (executor env n) (command.takeWhile (· ≠ nul))).run s

/-- What a pop does not pass on is not there: the calling frame has no local variables, and the text
holds a command, asks for no break, continue or return, and starts no background command. -/
structure PassedOn (fe : FrontEnd δ W) (env : Env δ W) (n : ℕ) (command : List Char)
    (s : Shell δ W) : Prop where
  noLocals : s.frame.localVariables = none
  holdsCommand : ∀ session, readInput fe (fe.tokenizerEnv s.enterPlace) {} (withNewline command) ≠
    .ok (.empty, session)
  ends : ∀ result t, (inPlaceText fe env (executor env n) command).run s.enterPlace =
    .ok (result, t) → result.flow = .normal ∧ ∀ parent ∈ t.callers.head?,
      t.frame.localVariables = parent.localVariables ∧ t.frame.lastBgPid = parent.lastBgPid

variable {fe : FrontEnd δ W} {env : Env δ W} {callees : Callees δ W} {s t : Shell δ W}

/-- A command list does the same in the place of the eval if nothing in it asks for a change of the
control flow. -/
theorem listTurns_eq_inPlaceTurns {items : List Ast} {separators : List CmdSeparator}
    {result : ExecuteResult}
    (h : ∀ r t, (inPlaceTurns env callees items separators result).run s = .ok (r, t) →
      r.flow = .normal) :
    (listTurns env callees items separators result).run s =
      (inPlaceTurns env callees items separators result).run s := by
  induction items generalizing separators result s with
  | nil => cases separators <;> rfl
  | cons cmd items ih =>
    cases separators with
    | nil => rfl
    | cons sep separators =>
      rw [inPlaceTurns] at h ⊢
      rw [listTurns]
      cases hcase : listItemCase env callees sep cmd with
      | none => rfl
      | some run =>
        rw [hcase] at h
        dsimp only at h ⊢
        cases hrun : run.run s with
        | error stop => rw [Stateful.run_bind_error hrun, Stateful.run_bind_error hrun]
        | ok answer =>
          obtain ⟨item, t⟩ := answer
          rw [Stateful.run_bind_ok hrun] at h ⊢
          rw [Stateful.run_bind_ok hrun]
          by_cases hstatus : item.status ≠ .ok
          · rw [if_pos hstatus, if_pos hstatus]
          · have hrecord : (recordItemStatus item : ExecM δ W Unit).run t = .ok ((), _) :=
              Stateful.run_modify_eq _ t
            rw [if_neg hstatus, Stateful.run_bind_ok hrecord] at h ⊢
            rw [if_neg hstatus, Stateful.run_bind_ok hrecord]
            by_cases hflow : item.flow ≠ .normal
            · rw [if_pos hflow] at h
              have hnormal := h _ _ (Stateful.run_pure_eq _ _)
              exact (hflow hnormal).elim
            · rw [if_neg hflow] at h ⊢
              by_cases hend : sep = .end_
              · rw [if_pos hend, if_pos hend]
              · rw [if_neg hend] at h ⊢
                rw [if_neg hend]
                exact ih h

/-- A program does the same in the place of the eval if nothing in it asks for a change of the control
flow. -/
theorem dispatch_eq_inPlaceProgram {ast : Ast}
    (h : ∀ r t, (inPlaceProgram env callees ast).run s = .ok (r, t) → r.flow = .normal) :
    (execFrameExecuteDispatch env callees ast).run s =
      (inPlaceProgram env callees ast).run s := by
  cases ast with
  | commandList items separators =>
    unfold execFrameExecuteDispatch dispatchCase execFrameExecuteCompoundList
    unfold inPlaceProgram at h ⊢
    dsimp only at h ⊢
    by_cases hnil : items = []
    · rw [if_pos hnil, if_pos hnil]
    · rw [if_neg hnil] at h ⊢
      rw [if_neg hnil]
      have hturns := @listTurns_eq_inPlaceTurns _ _ env callees s items separators {}
        fun r t hrun => h r (t.recordStatus r) (by rw [Stateful.run_bind_ok hrun]; rfl)
      rw [StateT.run_bind, hturns, StateT.run_bind]
  | _ => rfl

/-- The push for an eval, when the calling frame has no local variables. -/
theorem execFramePush_eval (h : s.frame.localVariables = none) :
    (execFramePush .eval {} : ExecM δ W Unit).run s = .ok ((), s.enterPlace) := by
  obtain ⟨frame, callers⟩ := s
  obtain ⟨type, savedVariables, localVariables⟩ := frame
  cases h
  rfl

/-- What a string gives is what its text gives in the place of the eval. -/
theorem executeCommandString_eq {n : ℕ} {command : List Char} (hcommand : command ≠ [])
    (hholds : ∀ session, readInput fe (fe.tokenizerEnv s) {} (withNewline command) ≠
      .ok (.empty, session))
    (hflow : ∀ result t, (inPlaceText fe env (executor env n) command).run s = .ok (result, t) →
      result.flow = .normal) :
    (executeCommandString fe (executor env (n + 1)) command).run s =
      (do
        let result ← inPlaceText fe env (executor env n) command
        let last := (← get).frame.lastExitStatus
        return if result.status = .error then (.error, if last = 0 then 1 else last)
          else (.ok, last) : ExecM δ W (ExecStatus × ℤ)).run s := by
  unfold executeCommandString execFrameStringCore inPlaceText at *
  rw [if_neg hcommand, bind_assoc, bind_assoc, Stateful.run_bind_ok (Stateful.run_get_eq s),
    Stateful.run_bind_ok (Stateful.run_get_eq s)]
  simp only [Stateful.run_bind_ok (Stateful.run_get_eq s)] at hflow
  cases hread : readInput fe (fe.tokenizerEnv s) {} (withNewline command) with
  | error cause => rfl
  | ok answer =>
    obtain ⟨reading, session⟩ := answer
    rw [hread] at hflow
    cases reading with
    | program ast =>
      have hdispatch := @dispatch_eq_inPlaceProgram _ _ env (executor env n) s ast
        fun r t hrun => hflow r (t.recordStatus r) (by rw [Stateful.run_bind_ok hrun]; rfl)
      have hexecute : ((executor env (n + 1)).dispatch ast).run s =
          (inPlaceProgram env (executor env n) ast).run s := hdispatch
      unfold executeReading
      dsimp only
      rw [bind_assoc, bind_assoc]
      cases hrun : (inPlaceProgram env (executor env n) ast).run s with
      | error stop =>
        rw [hrun] at hexecute
        rw [Stateful.run_bind_error hexecute, Stateful.run_bind_error hrun]
      | ok answer =>
        obtain ⟨result, t⟩ := answer
        rw [hrun] at hexecute
        rw [Stateful.run_bind_ok hexecute, Stateful.run_bind_ok hrun, bind_assoc, bind_assoc,
          Stateful.run_bind_ok (Stateful.run_modify_eq _ t),
          Stateful.run_bind_ok (Stateful.run_modify_eq _ t)]
        by_cases herror : result.status = .error
        · rw [if_pos herror, pure_bind, pure_bind]
          dsimp only
          rw [Stateful.run_bind_ok (Stateful.run_get_eq _),
            Stateful.run_bind_ok (Stateful.run_get_eq _), if_neg nofun, if_pos herror]
        · rw [if_neg herror, pure_bind, pure_bind]
          dsimp only
          rw [Stateful.run_bind_ok (Stateful.run_get_eq _),
            Stateful.run_bind_ok (Stateful.run_get_eq _), if_pos rfl, if_neg herror]
    | error => rfl
    | incomplete => rfl
    | empty => exact (hholds session hread).elim

/-- A pop passes on what is left in the place of an eval if nothing is pending and what it does not pass
on is the same. -/
theorem leavePlace_eq_pop {depth : ℕ}
    (h : ∀ parent ∈ t.callers.head?,
      t.frame.localVariables = parent.localVariables ∧ t.frame.lastBgPid = parent.lastBgPid) :
    t.leavePlace .normal depth = t.pop := by
  unfold Shell.leavePlace Shell.pop
  cases hcallers : t.callers with
  | nil => rfl
  | cons parent callers =>
    obtain ⟨hlocals, hbg⟩ := h parent (by rw [hcallers]; rfl)
    dsimp only
    rw [hlocals, hbg]
    rfl

/-- The builtin answers with the exit status that its text leaves in the place of the eval, and with 1 if
the text fails with status 0. -/
theorem builtinEval_of_asInPlace {n : ℕ} {args : List String}
    (hargs : String.intercalate " " (args.drop 1) ≠ "")
    (h : AsInPlace fe env n (String.intercalate " " (args.drop 1)).toList s) :
    (builtinEval fe env (executor env (n + 1)) args).run s =
      (do
        let status ← standInPlace fe env (executor env n)
          ((String.intercalate " " (args.drop 1)).toList.takeWhile (· ≠ nul))
        let exitStatus := (← get).frame.lastExitStatus
        return if status = .error ∧ exitStatus = 0 then 1 else exitStatus : ExecM δ W ℤ).run s := by
  unfold builtinEval
  rw [if_neg hargs, StateT.run_bind, h.effect, StateT.run_bind]

/-- A string without a text does nothing, in either way. -/
theorem asInPlace_of_nil {n : ℕ} {command : List Char}
    (h : command.takeWhile (· ≠ nul) = []) : AsInPlace fe env n command s := by
  constructor
  rw [h, frameExecuteStringAsEval, standInPlace, if_pos rfl]
  split_ifs
  · rfl
  · rw [h]
    rfl

/-- A text without a command fails, while it succeeds in the place of the eval. -/
theorem not_asInPlace_of_empty {n : ℕ} {command : List Char} {session : Session}
    (htext : command.takeWhile (· ≠ nul) ≠ []) (hlocals : s.frame.localVariables = none)
    (hempty : readInput fe (fe.tokenizerEnv s.enterPlace) {}
      (withNewline (command.takeWhile (· ≠ nul))) = .ok (.empty, session)) :
    ¬ AsInPlace fe env n command s := by
  intro hsame
  have heffect := hsame.effect
  have hcommand : command ≠ [] := by
    rintro rfl
    exact htext rfl
  rw [frameExecuteStringAsEval, if_neg hcommand] at heffect
  generalize command.takeWhile (· ≠ nul) = text at heffect htext hempty
  have hcore : (execFrameStringCore fe (executor env (n + 1)) {} (withNewline text)).run
      s.enterPlace = .ok (({ status := .empty, held := session.accumulatedTokens.isSome }, session),
        s.enterPlace) := by
    unfold execFrameStringCore
    rw [Stateful.run_bind_ok (Stateful.run_get_eq _), hempty]
    rfl
  have hplace : (inPlaceText fe env (executor env n) text).run s.enterPlace =
      .ok ({}, s.enterPlace.setLastExitStatus 0) := by
    unfold inPlaceText
    rw [Stateful.run_bind_ok (Stateful.run_get_eq _), hempty]
    rfl
  unfold frameExecuteEvalStringCstr executeCommandString standInPlace at heffect
  rw [if_neg htext, if_neg htext, if_neg htext, Stateful.run_bind_ok (execFramePush_eval hlocals),
    bind_assoc, Stateful.run_bind_ok hcore, Stateful.run_bind_ok (Stateful.run_modify_eq _ s),
    Stateful.run_bind_ok hplace] at heffect
  cases heffect

/-! ## A shell that does nothing -/

/-- What is read of a text in the shell that does nothing holds a command, and what a pop does not pass
on is not there. -/
def idlePassedOn (command : List Char) : Bool :=
  (match readInput idleFrontEnd (idleFrontEnd.tokenizerEnv (Shell.initial ()).enterPlace) {}
      (withNewline command) with
    | .ok (.empty, _) => false
    | _ => true) &&
  match (inPlaceText idleFrontEnd (Env.idle Unit Unit) (executor (Env.idle Unit Unit) 8)
    command).run (Shell.initial ()).enterPlace with
  | .ok (result, t) =>
    decide (result.flow = .normal) && t.callers.all fun parent =>
      t.frame.localVariables.isNone && parent.localVariables.isNone &&
        decide (t.frame.lastBgPid = parent.lastBgPid)
  | .error _ => true

theorem passedOn_of_idlePassedOn {command : List Char} (h : idlePassedOn command = true) :
    PassedOn idleFrontEnd (Env.idle Unit Unit) 8 command (.initial ()) := by
  obtain ⟨hread, hrun⟩ := Bool.and_eq_true_iff.mp h
  refine ⟨rfl, fun session hempty => ?_, fun result t hplace => ?_⟩
  · rw [hempty] at hread
    cases hread
  · rw [hplace] at hrun
    obtain ⟨hflow, hkept⟩ := Bool.and_eq_true_iff.mp hrun
    refine ⟨of_decide_eq_true hflow, fun parent hparent => ?_⟩
    have hall := List.all_eq_true.mp hkept parent (List.mem_of_mem_head? hparent)
    simp only [Bool.and_eq_true, Option.isNone_iff_eq_none, decide_eq_true_eq] at hall
    obtain ⟨⟨hchild, hnone⟩, hbg⟩ := hall
    exact ⟨hchild.trans hnone.symm, hbg⟩

/-- Whether a text in the shell that does nothing holds no command. -/
def idleEmpty (command : List Char) : Bool :=
  match readInput idleFrontEnd (idleFrontEnd.tokenizerEnv (Shell.initial ()).enterPlace) {}
      (withNewline command) with
  | .ok (.empty, _) => true
  | _ => false

theorem readInput_of_idleEmpty {command : List Char} (h : idleEmpty command = true) :
    ∃ session, readInput idleFrontEnd (idleFrontEnd.tokenizerEnv (Shell.initial ()).enterPlace) {}
      (withNewline command) = .ok (.empty, session) := by
  unfold idleEmpty at h
  generalize readInput idleFrontEnd (idleFrontEnd.tokenizerEnv (Shell.initial ()).enterPlace) {}
    (withNewline command) = answer at h
  cases answer with
  | error cause => cases h
  | ok answer =>
    obtain ⟨reading, session⟩ := answer
    cases reading with
    | empty => exact ⟨session, rfl⟩
    | _ => cases h

/-! ## Strings that are executed through eval -/

end Migash.Exec
