import Migash.Exec.Tracking

/-! # Assignments of a command

A command with a word assigns in the expansion of its words, by its builtin and
in the body of its function. What it assigns while its temporary store is in
force goes to that store, and is gone with it.
-/

namespace Migash.Exec

open Library Redirect

variable {δ W : Type}

/-- The assignments to variables of the shell, whichever store received them. -/
def assignmentsOf (events : List Event) : List Assignment :=
  events.filterMap fun e =>
    match e with
    | .assigned (some _) a => some a
    | _ => none

/-- The store afterwards is the store before, updated by the assignments that were made. The prefix
assignments of a command are none, unless it is a special builtin. -/
def AssignmentsVisible (s t : Shell δ W) : Prop :=
  ∃ new, t.history = s.history ++ new ∧
    t.variables_ = applyAssignments (assignmentsOf new) s.variables_

/-- The assignments that were made to temporary stores change nothing. -/
def TemporaryIdle (s t : Shell δ W) : Prop :=
  ∃ new, t.history = s.history ++ new ∧
    applyAssignments (assignmentsOf new) s.variables_ =
      applyAssignments (assignedAt s.depth new) s.variables_

/-- The store after a simple command: only the assignments at the depth of that store are in it. -/
theorem simpleCommandImpl_store {env : Env δ W} (henv : env.RecordsStores) (n : ℕ)
    {words : Option (List Token)} {redirections : Option (List Migash.Redirection)}
    {assignments : Option (List Token)} {s t : Shell δ W} {r : ExecuteResult}
    (hframe : s.frame.savedVariables = none)
    (hrun : (execFrameExecuteSimpleCommandImpl env (executor env n) words redirections
      assignments).run s = .ok (r, t)) :
    ∃ new, t.history = s.history ++ new ∧
      t.variables_ = applyAssignments (assignedAt s.depth new) s.variables_ := by
  have hall : TracksAll s t := (simpleCommandImpl_tracksAll (executor_recordStores henv n) henv
    words redirections assignments hframe).answer r t hrun
  obtain ⟨new, hnew, hstores⟩ := hall.history
  rw [updateStores_concat, s.length_aside] at hstores
  exact ⟨new, hnew, List.singleton_inj.mp (List.append_inj' hstores rfl).2⟩

theorem idle_recordsStores : (Env.idle δ W).RecordsStores where
  builtin _ _ _ h := nomatch h
  exitTrap := .of_pure _

/-- `${x:=1}`. -/
def defaultToken : Token :=
  { type := .word
    parts := [{ type := .parameter, paramKind := .assignDefault, hasColon := true,
                paramName := some "x", word := some "1" }] }

/-- The environment in which the words are `echo ${x:=1}` and `x` is unset. -/
def defaultEnv : Env Unit Unit :=
  { Env.idle Unit Unit with
    expandWords := fun _ s =>
      { value := some ["echo", "1"], writes := [⟨"x", "1", false⟩], world := s.world } }

end Migash.Exec
