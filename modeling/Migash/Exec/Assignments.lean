import Migash.Exec.Coverage

/-! # Assignments without a command

`lower_simple_command` never leaves the redirection list out, so that a command
that only assigns takes the path of the temporary store, which is thrown away
with its assignments.
-/

namespace Migash.Exec

open Library Redirect

variable {δ W : Type}

/-! ## What the assignments assign -/

/-- The names that the assignments assign, with the values that their right-hand sides expand to. -/
def expandAssignments (env : Env δ W) : List Token → ExecM δ W (List (String × Option String))
  | [] => return []
  | tok :: toks => do
    let value ← expand (env.expandAssignmentValue tok)
    let name ← expectsNotNull "name" tok.assignmentName
    modify fun s => s.emit (.assigned (some (s.depth + 1)) { name, value })
    let rest ← expandAssignments env toks
    return (name, value) :: rest

/-- The value that is assigned last to a name. -/
def lastValue? (values : List (String × Option String)) (name : String) : Option String :=
  (values.reverse.find? (·.1 = name)).map fun entry => entry.2.getD ""

/-- Every assigned variable that was not read-only has its last value, and the others are as they
were. -/
structure TakesEffect (values : List (String × Option String)) (before after : VariableStore) :
    Prop where
  assigned : ∀ name value, lastValue? values name = some value →
    before.isReadOnly name = false → after.getValue name = some value
  others : ∀ name, lastValue? values name = none ∨ before.isReadOnly name = true →
    after.get name = before.get name

/-- The expansions alone leave every assigned variable that was not read-only with its last value,
as in `x=1` when `x` is `1`, and change no other. -/
structure NothingToAssign (values : List (String × Option String)) (before expanded : VariableStore) :
    Prop where
  equal : ∀ name value, lastValue? values name = some value → before.isReadOnly name = false →
    expanded.getValue name = some value
  unchanged : ∀ name, lastValue? values name = none ∨ before.isReadOnly name = true →
    expanded.get name = before.get name

/-! ## The path of the temporary store -/

section

variable (env : Env δ W) (callees : Callees δ W)

theorem overlayAssignments_eq (toks : List Token) (temp : VariableStore) :
    overlayAssignments env false toks temp = (do
      let values ← expandAssignments env toks
      return values.foldl (fun store entry => store.tryAdd entry.1 entry.2 true false) temp) := by
  induction toks generalizing temp with
  | nil => simp [overlayAssignments, expandAssignments]
  | cons tok toks ih => simp [overlayAssignments, expandAssignments, ih]

/-- A command of assignments leaves the store as the expansions of the right-hand sides do. -/
theorem execFrameExecuteSimpleCommandImpl_store {redirections : List Migash.Redirection}
    {assignments : List Token} {s t : Shell δ W} {r : ExecuteResult}
    (h : (execFrameExecuteSimpleCommandImpl env callees (some []) (some redirections)
      (some assignments)).run s = .ok (r, t)) :
    ∃ values e, (expandAssignments env assignments).run s = .ok (values, e) ∧
      t.variables_ = e.variables_ := by
  simp only [execFrameExecuteSimpleCommandImpl, Option.getD_some, reduceCtorEq, and_false, if_false,
    buildTempStoreForSipleCommand, ne_eq, not_true_eq_false, decide_false,
    overlayAssignments_eq] at h
  obtain ⟨temp, e, htemp, h⟩ := Stateful.run_bind_eq_ok.mp h
  rw [Stateful.run_bind_ok (Stateful.run_get_eq s)] at htemp
  obtain ⟨values, e', hvalues, hpure⟩ := Stateful.run_bind_eq_ok.mp htemp
  cases hpure
  refine ⟨values, e, hvalues, ?_⟩
  rw [swapIn, Stateful.run_bind_ok (Stateful.run_modify_eq _ _)] at h
  obtain ⟨status, u, hstatus, h⟩ := Stateful.run_bind_eq_ok.mp h
  have hsaved : u.frame.savedVariables = some e.variables_ := by
    unfold runInTempStore at hstatus
    split at hstatus
    · cases hstatus
      rfl
    · simp only [if_true] at hstatus
      cases hstatus
      rfl
  rw [restoreVariables, bind_assoc, Stateful.run_bind_ok (Stateful.run_get_eq u), hsaved] at h
  cases h
  rfl

end

/-- After a command of assignments that `ast_lower` built has succeeded, its assignments have taken
effect exactly if there was nothing to assign. -/
theorem assignments_takeEffect_iff (env : Env δ W) (callees : Callees δ W) {root : Gnode}
    {tree : Ast} (hlower : astLower root = .ok tree) {words assignments : Option (List Token)}
    {redirections : Option (List Migash.Redirection)}
    (hnode : tree.Contains (.simpleCommand words redirections assignments))
    (hwords : words.getD [] = []) {s t : Shell δ W} {r : ExecuteResult}
    (hrun : (execFrameExecuteSimpleCommandImpl env callees words redirections assignments).run s =
      .ok (r, t)) (_hok : r.status = .ok) :
    (∃ values e, (expandAssignments env (assignments.getD [])).run s = .ok (values, e) ∧
        TakesEffect values s.variables_ t.variables_) ↔
      ∃ values e, (expandAssignments env (assignments.getD [])).run s = .ok (values, e) ∧
        NothingToAssign values s.variables_ e.variables_ := by
  have hlowered := (astLower_gives root).answer tree hlower
  cases hlowered.2.contained hnode rfl with
  | simpleCommand words redirections assignments =>
    obtain rfl : words = [] := hwords
    obtain ⟨values, e, hvalues, hstore⟩ := execFrameExecuteSimpleCommandImpl_store env callees hrun
    rw [hstore]
    constructor
    · rintro ⟨values', e', hvalues', heffect⟩
      cases hvalues.symm.trans hvalues'
      exact ⟨values, e, hvalues, heffect.assigned, heffect.others⟩
    · rintro ⟨values', e', hvalues', hnothing⟩
      cases hvalues.symm.trans hvalues'
      exact ⟨values, e, hvalues, hnothing.equal, hnothing.unchanged⟩

/-! ## One assignment -/

/-- `x=1`. -/
def assignToken : Token :=
  { type := .assignmentWord, assignmentName := some "x",
    assignmentValue := [{ type := .literal, text := some "1" }] }

/-- The tree that the parser makes of it. -/
def assignRoot : Gnode :=
  match Parser.parserParseProgram [assignToken] with
  | .ok root _ => root
  | _ => .ofList .program []

/-- A shell in which `x` is `1`. -/
def shellWithX : Shell Unit Unit :=
  { (Shell.initial () : Shell Unit Unit) with
    variables_ := VariableStore.empty.tryAdd "x" (some "1") false false }

theorem lastValue?_assign (name : String) :
    lastValue? [("x", some "1")] name = if name = "x" then some "1" else none := by
  by_cases h : name = "x"
  · subst h
    rfl
  · simp [lastValue?, h, Ne.symm h]

/-- `x=1` takes effect where `x` is `1` already. -/
theorem assignments_takeEffect_iff_assign :
    ∃ t, (execFrameExecuteSimpleCommandImpl (Env.idle Unit Unit) (executor (Env.idle Unit Unit) 0)
        (some []) (some []) (some [assignToken])).run shellWithX = .ok ({}, t) ∧
      ∃ values e, (expandAssignments (Env.idle Unit Unit) [assignToken]).run shellWithX =
          .ok (values, e) ∧
        TakesEffect values shellWithX.variables_ t.variables_ := by
  have hlower : astLower assignRoot =
      .ok (.commandList [.simpleCommand (some []) (some []) (some [assignToken])] [.end_]) := rfl
  have hnode : (Ast.commandList [.simpleCommand (some []) (some []) (some [assignToken])]
      [.end_]).Contains (.simpleCommand (some []) (some []) (some [assignToken])) :=
    .single List.mem_cons_self
  refine ⟨_, rfl, (assignments_takeEffect_iff (Env.idle Unit Unit)
    (executor (Env.idle Unit Unit) 0) hlower hnode rfl rfl rfl).mpr
      ⟨_, _, rfl, ?_, fun _ _ => rfl⟩⟩
  intro name value hvalue _
  change lastValue? [("x", some "1")] name = some value at hvalue
  rw [lastValue?_assign] at hvalue
  split_ifs at hvalue with hname
  cases hvalue
  subst hname
  rfl

/-- After `x=1` a variable that was unset is still unset. -/
theorem assignment_is_lost :
    astLower assignRoot =
        .ok (.commandList [.simpleCommand (some []) (some []) (some [assignToken])] [.end_]) ∧
      ∃ t, (execFrameExecuteSimpleCommandImpl (Env.idle Unit Unit)
          (executor (Env.idle Unit Unit) 0) (some []) (some []) (some [assignToken])).run
            (Shell.initial ()) = .ok ({}, t) ∧
        ¬ ∃ values e, (expandAssignments (Env.idle Unit Unit) [assignToken]).run
            (Shell.initial ()) = .ok (values, e) ∧
          TakesEffect values (Shell.initial () : Shell Unit Unit).variables_ t.variables_ := by
  refine ⟨rfl, _, rfl, ?_⟩
  rintro ⟨values, e, hvalues, heffect⟩
  cases hvalues
  cases heffect.assigned "x" "1" rfl rfl

end Migash.Exec
