import Mathlib.Data.Int.Notation
import Mathlib.Data.Nat.Notation

/-! # Frame types, policies and results

The table that tells each kind of frame what it shares with its parent, and
the result that every function of the executor hands to its caller.
-/

namespace Migash.Exec

/-- `exec_frame_type_t`. -/
inductive FrameType where
  | topLevel | subshell | braceGroup | function | loop | trap | backgroundJob | pipeline
  | pipelineCmd | dotScript | eval
  deriving DecidableEq, Repr

/-- `exec_scope_t` without `EXEC_SCOPE_NONE`. -/
inductive Scope where
  | own | copy | share
  deriving DecidableEq, Repr

/-- `exec_return_behavior_t`. -/
inductive ReturnBehavior where
  | disallowed | transparent | target
  deriving DecidableEq, Repr

/-- `exec_loop_control_t`. -/
inductive LoopControl where
  | disallowed | transparent | target
  deriving DecidableEq, Repr

/-- The fields of `exec_frame_policy_t` that the modelled functions read. -/
structure FramePolicy where
  forks : Bool := false
  isBackground : Bool := false
  hasLocals : Bool := false
  positionalScope : Scope := .share
  /-- `EXEC_POSITIONAL_INIT_CALL_ARGS` -/
  callArgs : Bool := false
  canOverride : Bool := false
  /-- `EXEC_ARG0_SET_TO_SOURCED_SCRIPT` -/
  setsArg0 : Bool := false
  exitTrapRuns : Bool := false
  returnBehavior : ReturnBehavior
  loopControl : LoopControl
  isLoop : Bool := false
  affectsParentStatus : Bool := true
  deriving DecidableEq, Repr

/-- `EXEC_FRAME_POLICIES`. A frame that forks copies what it needs and ends its process; every
other frame below the top level shares the variables, functions, descriptors and options. -/
def execFramePolicies : FrameType → FramePolicy
  | .topLevel =>
    { positionalScope := .own, exitTrapRuns := true, returnBehavior := .disallowed,
      loopControl := .disallowed, affectsParentStatus := false }
  | .subshell =>
    { forks := true, positionalScope := .copy, exitTrapRuns := true,
      returnBehavior := .disallowed, loopControl := .disallowed }
  | .braceGroup => { returnBehavior := .transparent, loopControl := .transparent }
  | .function =>
    { hasLocals := true, positionalScope := .own, callArgs := true, returnBehavior := .target,
      loopControl := .disallowed }
  | .loop => { returnBehavior := .transparent, loopControl := .target, isLoop := true }
  | .trap =>
    { returnBehavior := .disallowed, loopControl := .disallowed, affectsParentStatus := false }
  | .backgroundJob =>
    { forks := true, isBackground := true, positionalScope := .copy, exitTrapRuns := true,
      returnBehavior := .disallowed, loopControl := .disallowed, affectsParentStatus := false }
  | .pipeline => { returnBehavior := .transparent, loopControl := .transparent }
  | .pipelineCmd =>
    { forks := true, positionalScope := .copy, exitTrapRuns := true,
      returnBehavior := .disallowed, loopControl := .disallowed }
  | .dotScript =>
    { canOverride := true, setsArg0 := true, returnBehavior := .target,
      loopControl := .disallowed }
  | .eval => { returnBehavior := .transparent, loopControl := .transparent }

/-- `miga_exec_status_t`. -/
inductive ExecStatus where
  | ok | error | notImpl | incomplete | empty | exit
  deriving DecidableEq, Repr

/-- `miga_frame_flow_t`. -/
inductive FrameFlow where
  | normal | return_ | break_ | continue_ | top
  deriving DecidableEq, Repr

/-- `exec_frame_execute_result_t`; a field that a compound literal leaves out is zero. -/
structure ExecuteResult where
  status : ExecStatus := .ok
  hasExitStatus : Bool := false
  exitStatus : ℤ := 0
  flow : FrameFlow := .normal
  flowDepth : ℕ := 0
  deriving DecidableEq, Repr

/-- `handle_control_flow`. -/
def handleControlFlow (policy : FramePolicy) (result : ExecuteResult) : ExecuteResult :=
  match result.flow with
  | .normal | .top => result
  | .return_ =>
    match policy.returnBehavior with
    | .target => { exitStatus := result.exitStatus, hasExitStatus := true }
    | .transparent => result
    | .disallowed => { exitStatus := 1, hasExitStatus := true }
  | .break_ =>
    match policy.loopControl with
    | .target =>
      if result.flowDepth ≤ 1 then
        { exitStatus := result.exitStatus, hasExitStatus := result.hasExitStatus }
      else
        { exitStatus := result.exitStatus, hasExitStatus := result.hasExitStatus, flow := .break_,
          flowDepth := result.flowDepth - 1 }
    | .transparent => result
    | .disallowed => { exitStatus := 1, hasExitStatus := true }
  | .continue_ =>
    match policy.loopControl with
    | .target =>
      if result.flowDepth ≤ 1 then
        { exitStatus := 0, hasExitStatus := true, flow := .continue_, flowDepth := 0 }
      else
        { exitStatus := result.exitStatus, hasExitStatus := result.hasExitStatus,
          flow := .continue_, flowDepth := result.flowDepth - 1 }
    | .transparent => result
    | .disallowed => { exitStatus := 1, hasExitStatus := true }

theorem handleControlFlow_normal (policy : FramePolicy) {result : ExecuteResult}
    (h : result.flow = .normal) : handleControlFlow policy result = result := by
  simp [handleControlFlow, h]

end Migash.Exec
