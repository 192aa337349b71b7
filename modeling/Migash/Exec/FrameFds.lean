import Migash.Exec.Dispatch

/-! # The descriptors around a frame

Four functions enter a frame that has no pipe. None of them sets the two pipe
descriptors of the parameters, which are therefore zero, and a descriptor that
is not negative is taken for the end of a pipe.
-/

namespace Migash.Exec

open Library

variable {δ W : Type}

/-! ## The callers -/

/-- A caller of `exec_in_frame` that pipes nothing, with what it fills in. -/
inductive FrameCaller where
  | braceGroup (body : Ast)
  | forLoop (var : String) (words : List String) (body : Ast)
  | pipelineGroup (commands : List Ast) (isNegated : Bool)
  | functionBody (func : Ast) (arguments : List String)

namespace FrameCaller

def type : FrameCaller → FrameType
  | braceGroup _ => .braceGroup
  | forLoop _ _ _ => .loop
  | pipelineGroup _ _ => .pipeline
  | functionBody _ _ => .function

def params : FrameCaller → ExecParams
  | braceGroup body => { body := some body }
  | forLoop var words body =>
    { iterationWords := some words, loopVarName := some var, body := some body }
  | pipelineGroup commands isNegated =>
    { pipelineCommands := some commands, pipelineNegated := isNegated }
  | functionBody func arguments => { body := some func, arguments := some arguments }

section

variable (env : Env δ W) (callees : Callees δ W)

theorem executeForLoop_eq (var : String) (words : List String) (body : Ast) :
    execFrameExecuteForLoop env callees var words body = (do
      emit (.loop (some words.length))
      let c := forLoop var words body
      let result ← execInFrame env callees c.type c.params
      emit (.loopEnd result.flow)
      return result) := rfl

end

/-- One argument more than positional parameters can hold. -/
def tooManyArguments : List String := List.replicate 4097 ""

theorem length_tooManyArguments : 4096 < tooManyArguments.length := by
  rw [tooManyArguments, List.length_replicate]
  decide

/-- The caller of the same kind whose body does nothing. Too many arguments are none, and then a
function needs no `$0`. -/
def idle : FrameCaller → FrameCaller
  | braceGroup _ => braceGroup (.commandList [] [])
  | forLoop var words _ => forLoop var words (.commandList [] [])
  | pipelineGroup _ isNegated => pipelineGroup [] isNegated
  | functionBody _ _ => functionBody (.commandList [] []) tooManyArguments

@[simp] theorem idle_type (c : FrameCaller) : c.idle.type = c.type := by cases c <;> rfl

end FrameCaller

/-! ## What a frame does to the descriptors -/

/-- The descriptor table and the shell's record of it, where a run answers. -/
def fdsAfter {α : Type} (m : ExecM δ W α) (s : Shell δ W) : Option (Descriptors δ × FdTable) :=
  match m.run s with
  | .ok (_, t) => some (t.descriptors, t.openFds)
  | .error _ => none

/-- The body of a frame, run in its frame and with nothing around it. -/
def bodyInFrame (env : Env δ W) (callees : Callees δ W) (c : FrameCaller) :
    ExecM δ W ExecuteResult := do
  execFramePush c.type c.params
  executeFrameWork env callees c.type c.params

/-- Whatever the body of a frame of this type, the frame leaves the descriptors as its body does. -/
def TransparentFrames (env : Env δ W) (type : FrameType) (s : Shell δ W) : Prop :=
  ∀ (n : ℕ) (c : FrameCaller), c.type = type →
    fdsAfter (execInFrame env (executor env n) c.type c.params) s =
      fdsAfter (bodyInFrame env (executor env n) c) s

/-- The pipe set-up of a frame whose parameters name no pipe: standard input is closed, and both
standard descriptors are noted as the ends of a pipe. -/
def Shell.pipesSetUp (s : Shell δ W) : Shell δ W :=
  { s with
    descriptors := s.descriptors.discard 0
    openFds := (s.openFds.add 0 { redirected := true } "(redirected fd 0)").add 1
      { redirected := true } "(redirected fd 0)" }

/-- Standard input is closed and both standard descriptors are noted as the ends of a pipe. -/
structure PipesAreSetUp (s : Shell δ W) : Prop where
  closed : s.descriptors.get 0 = none
  noted : ∀ fd ∈ [0, 1], ∃ e, s.openFds.find? fd = some e ∧ e.flags = { redirected := true } ∧
    e.path = "(redirected fd 0)" ∧ e.isOpen = true

/-- A function frame needs the positional parameters of its parent. -/
def Enterable (type : FrameType) (s : Shell δ W) : Prop :=
  type = .function → s.frame.positionalParams ≠ none

theorem setupPipeFds_run (c : FrameCaller) (s : Shell δ W) :
    (setupPipeFds c.params : ExecM δ W Unit).run s = .ok (⟨⟩, s.pipesSetUp) := by
  have hdup : ∀ t : Descriptors δ, dupOnto (some 0) 0 t = t := by
    intro t
    cases h : t.get 0 <;> simp [dupOnto, Descriptors.dup2, h]
  have hdup' : ∀ t : Descriptors δ, dupOnto (some 0) 1 (t.discard 0) = t.discard 0 := by
    intro t
    simp [dupOnto, Descriptors.dup2]
  have hdiscard : ∀ t : Descriptors δ, (t.discard 0).discard 0 = t.discard 0 := by
    intro t
    simp
  cases c <;>
    simp [setupPipeFds, setupPipeFd, FrameCaller.params, Shell.closeFds, Shell.pipesSetUp, hdup,
      hdup', hdiscard, fdTableGenerateNameEx] <;> rfl

theorem pipesSetUp_eq_self_iff {s : Shell δ W} : s.pipesSetUp = s ↔ PipesAreSetUp s := by
  constructor
  · intro h
    have hfds : s.descriptors.discard 0 = s.descriptors := congrArg Shell.descriptors h
    have hrecord := congrArg Shell.openFds h
    have hzero := s.openFds.find?_add_entry 0 { redirected := true } "(redirected fd 0)"
    rw [← FdTable.find?_add_of_ne _ { redirected := true } "(redirected fd 0)"
      (show (0 : ℕ) ≠ 1 by decide)] at hzero
    have hone := (s.openFds.add 0 { redirected := true } "(redirected fd 0)").find?_add_entry 1
      { redirected := true } "(redirected fd 0)"
    refine ⟨Descriptors.discard_eq_self_iff.mp hfds, ?_⟩
    have hrecord' : (s.openFds.add 0 { redirected := true } "(redirected fd 0)").add 1
      { redirected := true } "(redirected fd 0)" = s.openFds := hrecord
    rw [hrecord'] at hzero hone
    simpa using ⟨hzero, hone⟩
  · rintro ⟨hclosed, hnoted⟩
    unfold Shell.pipesSetUp
    rw [Descriptors.discard_eq_self_iff.mpr hclosed,
      FdTable.add_eq_self_iff.mpr (hnoted 0 (by simp)),
      FdTable.add_eq_self_iff.mpr (hnoted 1 (by simp))]

/-- A frame without redirections: the pipe set-up stands between the push and the body. -/
theorem execInFrame_eq (env : Env δ W) (callees : Callees δ W) (c : FrameCaller) :
    execInFrame env callees c.type c.params = (do
      execFramePush c.type c.params
      setupPipeFds c.params
      let result ← executeFrameWork env callees c.type c.params
      setLastExitStatus (handleControlFlow (execFramePolicies c.type) result).exitStatus
      modify Shell.pop
      return handleControlFlow (execFramePolicies c.type) result) := by
  cases c <;>
    simp [execInFrame, runFrame, executeFrameBody, applyFrameRedirections, restoreFrameRedirections,
      FrameCaller.type, FrameCaller.params, execFramePop, runExitTrap, execFramePolicies]

/-- Two states with the same descriptors. -/
structure SameFds (s t : Shell δ W) : Prop where
  descriptors : t.descriptors = s.descriptors
  openFds : t.openFds = s.openFds

theorem SameFds.pipesAreSetUp_iff {s t : Shell δ W} (h : SameFds s t) :
    PipesAreSetUp t ↔ PipesAreSetUp s := by
  constructor
  · rintro ⟨hclosed, hnoted⟩
    rw [h.descriptors] at hclosed
    rw [h.openFds] at hnoted
    exact ⟨hclosed, hnoted⟩
  · rintro ⟨hclosed, hnoted⟩
    rw [← h.descriptors] at hclosed
    rw [← h.openFds] at hnoted
    exact ⟨hclosed, hnoted⟩

theorem Shell.pop_sameFds (s : Shell δ W) : SameFds s s.pop := by
  unfold Shell.pop
  split <;> exact ⟨rfl, rfl⟩

/-- A frame without redirections leaves the descriptors as its body does behind the pipe set-up. -/
theorem fdsAfter_execInFrame (env : Env δ W) (callees : Callees δ W) (c : FrameCaller)
    {s t : Shell δ W} (h : (execFramePush c.type c.params).run s = .ok (⟨⟩, t)) :
    fdsAfter (execInFrame env callees c.type c.params) s =
      fdsAfter (executeFrameWork env callees c.type c.params) t.pipesSetUp := by
  unfold fdsAfter
  rw [execInFrame_eq, Stateful.run_bind_ok h, Stateful.run_bind_ok (setupPipeFds_run c t)]
  cases hwork : (executeFrameWork env callees c.type c.params).run t.pipesSetUp with
  | error e => rw [Stateful.run_bind_error hwork]
  | ok p =>
    obtain ⟨result, u⟩ := p
    rw [Stateful.run_bind_ok hwork]
    have hpop := Shell.pop_sameFds (u.setLastExitStatus
      (handleControlFlow (execFramePolicies c.type) result).exitStatus)
    simp only [setLastExitStatus, Stateful.run_bind_ok (Stateful.run_modify_eq _ _),
      Stateful.run_pure_eq, hpop.descriptors, hpop.openFds]
    rfl

theorem fdsAfter_bodyInFrame (env : Env δ W) (callees : Callees δ W) (c : FrameCaller)
    {s t : Shell δ W} (h : (execFramePush c.type c.params).run s = .ok (⟨⟩, t)) :
    fdsAfter (bodyInFrame env callees c) s =
      fdsAfter (executeFrameWork env callees c.type c.params) t := by
  unfold fdsAfter bodyInFrame
  rw [Stateful.run_bind_ok h]

theorem keeps_expectsNotNull (what : String) {α : Type} (a : Option α) :
    Keeps Eq (expectsNotNull what a : ExecM δ W α) := by
  cases a with
  | none => exact .of_throw _
  | some a => exact .of_pure a

theorem keeps_positionalParamsGetArg0 (p : Option PositionalParams) :
    Keeps Eq (positionalParamsGetArg0 p : ExecM δ W (Option String)) := by
  apply (keeps_expectsNotNull _ p).bind
  intro p
  exact .of_pure p.arg0

theorem keeps_positionalParamsCreateFromStrlist (arg0 : Option String) (params : List String) :
    Keeps Eq (positionalParamsCreateFromStrlist arg0 params :
      ExecM δ W (Option PositionalParams)) := by
  unfold positionalParamsCreateFromStrlist
  split
  · exact .of_pure none
  · apply (keeps_expectsNotNull _ arg0).bind
    intro arg0
    exact .of_pure _

/-- The positional parameters of a new frame are found without a change of the state. -/
theorem keeps_initPositionalParams (policy : FramePolicy) (params : ExecParams) (parent : Frame) :
    Keeps Eq (initPositionalParams policy params parent :
      ExecM δ W (Option PositionalParams × Option (Option PositionalParams))) := by
  have hscope : Keeps Eq (initPositionalScope policy params parent :
      ExecM δ W (Option PositionalParams × Option (Option PositionalParams))) := by
    unfold initPositionalScope
    split
    · split
      · apply (keeps_positionalParamsGetArg0 _).bind
        intro arg0
        apply (keeps_positionalParamsCreateFromStrlist arg0 _).bind
        intro p
        exact .of_pure (p, none)
      · exact .of_pure _
    · apply (keeps_expectsNotNull _ _).bind
      intro p
      exact .of_pure _
    · split
      · apply (keeps_positionalParamsGetArg0 _).bind
        intro arg0
        apply (keeps_positionalParamsCreateFromStrlist arg0 _).bind
        intro p
        exact .of_pure _
      · exact .of_pure _
  apply hscope.bind
  rintro ⟨own, saved⟩
  dsimp only
  split
  · apply (keeps_expectsNotNull _ own).bind
    intro p
    exact .of_pure _
  · exact .of_pure (own, saved)

/-- Entering a frame changes no descriptor. -/
theorem execFramePush_sameFds (type : FrameType) (params : ExecParams) (s : Shell δ W) :
    Ensures (execFramePush type params) s fun _ t => SameFds s t := by
  apply Ensures.get_bind
  apply ((keeps_initPositionalParams _ params s.frame).ensures s).bind
  rintro ⟨positionalParams, savedPositionalParams⟩ t rfl
  exact .of_ok (Stateful.run_modify_eq _ s) ⟨rfl, rfl⟩

/-- Every frame that can be entered can be entered with an idle body. -/
theorem execFramePush_idle (c : FrameCaller) {s : Shell δ W} (h : Enterable c.type s) :
    ∃ t, (execFramePush c.type c.idle.params).run s = .ok (⟨⟩, t) := by
  cases c with
  | braceGroup body => exact ⟨_, rfl⟩
  | forLoop var words body => exact ⟨_, rfl⟩
  | pipelineGroup commands isNegated => exact ⟨_, rfl⟩
  | functionBody func arguments =>
    obtain ⟨p, hp⟩ := Option.ne_none_iff_exists'.mp (h rfl)
    simp [execFramePush, initPositionalParams, initPositionalScope, positionalParamsGetArg0,
      positionalParamsCreateFromStrlist, expectsNotNull, execFramePolicies, FrameCaller.idle,
      FrameCaller.type, FrameCaller.params, FrameCaller.length_tooManyArguments, hp]
    exact ⟨_, rfl⟩

/-- A frame that cannot be entered is entered by no caller. -/
theorem execFramePush_of_not_enterable (c : FrameCaller) {s : Shell δ W}
    (h : ¬ Enterable c.type s) :
    ∃ e, (execFramePush c.type c.params).run s = .error e := by
  cases c with
  | functionBody func arguments =>
    have hnone : s.frame.positionalParams = none := by
      by_contra hp
      exact h fun _ => hp
    simp [execFramePush, initPositionalParams, initPositionalScope, positionalParamsGetArg0,
      contract, expectsNotNull, execFramePolicies, FrameCaller.type, FrameCaller.params, hnone,
      StateT.run_bind]
    exact ⟨_, rfl⟩
  | braceGroup body => exact absurd (fun h => nomatch h) h
  | forLoop var words body => exact absurd (fun h => nomatch h) h
  | pipelineGroup commands isNegated => exact absurd (fun h => nomatch h) h

/-- An idle body leaves the descriptors as it finds them. -/
theorem executeFrameWork_idle (env : Env δ W) (c : FrameCaller) (s : Shell δ W) :
    fdsAfter (executeFrameWork env (executor env 1) c.idle.type c.idle.params) s =
      some (s.descriptors, s.openFds) := by
  cases c <;> rfl

/-- The frames of a type leave the descriptors as their bodies do exactly if no frame of the type
can be entered, or standard input is closed and both standard descriptors are noted as the ends of a
pipe. -/
theorem transparentFrames_iff (env : Env δ W) (c : FrameCaller) (s : Shell δ W) :
    TransparentFrames env c.type s ↔ (Enterable c.type s → PipesAreSetUp s) := by
  constructor
  · intro htransparent henter
    obtain ⟨t, ht⟩ := execFramePush_idle c henter
    have hsame : SameFds s t := (execFramePush_sameFds _ _ s).answer _ _ ht
    have hidle := htransparent 1 c.idle c.idle_type
    rw [← c.idle_type] at ht
    rw [fdsAfter_execInFrame env _ c.idle ht, fdsAfter_bodyInFrame env _ c.idle ht,
      executeFrameWork_idle, executeFrameWork_idle] at hidle
    have hfds := Prod.mk.inj (Option.some.inj hidle)
    rw [← hsame.pipesAreSetUp_iff, ← pipesSetUp_eq_self_iff]
    calc t.pipesSetUp
        = { t with descriptors := t.pipesSetUp.descriptors, openFds := t.pipesSetUp.openFds } := rfl
      _ = t := by rw [hfds.1, hfds.2]
  · intro hset n c' htype
    by_cases henter : Enterable c.type s
    · cases hpush : (execFramePush c'.type c'.params).run s with
      | error e =>
        unfold fdsAfter bodyInFrame
        rw [execInFrame_eq, Stateful.run_bind_error hpush, Stateful.run_bind_error hpush]
      | ok p =>
        obtain ⟨⟨⟩, t⟩ := p
        have hsame : SameFds s t := (execFramePush_sameFds _ _ s).answer _ _ hpush
        have hidle : t.pipesSetUp = t :=
          pipesSetUp_eq_self_iff.mpr (hsame.pipesAreSetUp_iff.mpr (hset henter))
        rw [fdsAfter_execInFrame env _ c' hpush, fdsAfter_bodyInFrame env _ c' hpush, hidle]
    · rw [← htype] at henter
      obtain ⟨e, hpush⟩ := execFramePush_of_not_enterable c' henter
      unfold fdsAfter bodyInFrame
      rw [execInFrame_eq, Stateful.run_bind_error hpush, Stateful.run_bind_error hpush]

/-- A shell whose standard input is open. -/
def stdinShell : Shell Unit Unit :=
  { (Shell.initial () : Shell Unit Unit) with descriptors := Descriptors.empty.set 0 (some { file := () }) }

/-- A brace group closes standard input. -/
theorem braceGroup_closes_stdin : ¬ TransparentFrames (Env.idle Unit Unit) .braceGroup stdinShell := by
  intro h
  have hfds := congrArg (Option.map fun p => (p.1.get 0).isSome)
    (h 1 (.braceGroup (.commandList [] [])) rfl)
  exact absurd hfds (by decide)

end Migash.Exec
