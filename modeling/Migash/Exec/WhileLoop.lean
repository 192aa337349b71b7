import Migash.Exec.Assignments
import Migash.Exec.Coverage

/-! # While and until clauses

A loop runs its body as often as its condition says. `ast_lower` makes every
body a command list, which the condition loop hands to the loop of the for
clause, whose variable it does not have.
-/

namespace Migash.Exec

open Library

variable {δ W : Type}

/-! ## The turns of a loop -/

/-- What a loop does, step by step. -/
inductive LoopEvent where
  | test | body
  deriving DecidableEq, Repr

/-- The exit status of a command: what its result reports, or else `$?`. -/
def statusOf (r : ExecuteResult) (s : Shell δ W) : ℤ :=
  if r.hasExitStatus then r.exitStatus else s.frame.lastExitStatus

section

variable (callees : Callees δ W)

/-- The loop of `exec_frame_execute_condition_loop`, with what it does. -/
def tracedTurns (params : ExecParams) (condition body : Ast) :
    ℕ → ExecuteResult → ExecM δ W (List LoopEvent × ExecuteResult)
  | 0, _ => throw (.fault .fuel)
  | fuel + 1, result => do
    emit .test
    let cond ← callees.dispatch condition
    if cond.status ≠ .ok then return ([.test], cond)
    else if loopEnds params.untilMode cond.exitStatus then return ([.test], result)
    else
      emit .body
      let bodyResult ← conditionBody callees params body
      match afterBody result bodyResult with
      | .leave result => return ([.test, .body], result)
      | .next result => do
        let (events, result) ← tracedTurns params condition body fuel result
        return (.test :: .body :: events, result)

theorem tracedTurns_snd (params : ExecParams) (condition body : Ast) (n : ℕ)
    (result : ExecuteResult) :
    Prod.snd <$> tracedTurns callees params condition body n result =
      conditionTurns callees params condition body n result := by
  induction n generalizing result with
  | zero => rfl
  | succ n ih =>
    simp only [tracedTurns, conditionTurns, map_bind]
    congr
    funext _
    congr
    funext cond
    split_ifs
    · rfl
    · rfl
    · simp only [map_bind]
      congr
      funext _
      congr
      funext bodyResult
      cases afterBody result bodyResult with
      | leave result => rfl
      | next result =>
        dsimp only
        rw [← ih]
        simp

/-- The parameters that `exec_frame_execute_while_clause` fills in. -/
def whileParams (condition body : Ast) (isUntil : Bool) : ExecParams :=
  { condition := some condition, body := some body, untilMode := isUntil }

/-- `exec_frame_execute_while_clause`, with what its loop does. -/
def tracedWhileClause (condition body : Ast) (isUntil : Bool) :
    ExecM δ W (List LoopEvent × ExecuteResult) := do
  emit (.loop none)
  let (events, result) ← tracedTurns callees (whileParams condition body isUntil) condition body
    (callees.fuel + 1) { hasExitStatus := true }
  emit (.loopEnd result.flow)
  return (events, result)

theorem tracedWhileClause_snd (condition body : Ast) (isUntil : Bool) :
    Prod.snd <$> tracedWhileClause callees condition body isUntil =
      execFrameExecuteWhileClause callees condition body isUntil := by
  have hloop : execFrameExecuteConditionLoop callees (whileParams condition body isUntil) =
      Prod.snd <$> tracedTurns callees (whileParams condition body isUntil) condition body
        (callees.fuel + 1) { hasExitStatus := true } := by
    rw [tracedTurns_snd]
    rfl
  change _ = (do
    emit (.loop none)
    let result ← execFrameExecuteConditionLoop callees (whileParams condition body isUntil)
    emit (.loopEnd result.flow)
    return result)
  rw [hloop]
  simp [tracedWhileClause]

/-! ## The loop as it is meant -/

/-- The result of a body, with the exit status that it leaves. -/
def takeBodyStatus (r : ExecuteResult) : ExecM δ W ExecuteResult := do
  let s ← get
  return { r with hasExitStatus := true, exitStatus := statusOf r s }

/-- The turns of a loop: the outcome of the condition is the exit status that it leaves, and a
command list is run as one. -/
def intendedTurns (condition body : Ast) (isUntil : Bool) :
    ℕ → ExecuteResult → ExecM δ W (List LoopEvent × ExecuteResult)
  | 0, _ => throw (.fault .fuel)
  | fuel + 1, result => do
    emit .test
    let cond ← callees.dispatch condition
    let s ← get
    if cond.status ≠ .ok then return ([.test], cond)
    else if loopEnds isUntil (statusOf cond s) then return ([.test], result)
    else
      emit .body
      let bodyResult ← iterationBody callees body
      let bodyResult ← takeBodyStatus bodyResult
      match afterBody result bodyResult with
      | .leave result => return ([.test, .body], result)
      | .next result => do
        let (events, result) ← intendedTurns condition body isUntil fuel result
        return (.test :: .body :: events, result)

/-- A while or until clause as it is meant. -/
def intendedWhileClause (condition body : Ast) (isUntil : Bool) :
    ExecM δ W (List LoopEvent × ExecuteResult) := do
  emit (.loop none)
  let (events, result) ← intendedTurns callees condition body isUntil (callees.fuel + 1)
    { hasExitStatus := true }
  emit (.loopEnd result.flow)
  return (events, result)

/-- The clause answers, or ends the process, with the tests, the runs of its body and the exit
status that are meant. -/
structure LoopsAsIntended (condition body : Ast) (isUntil : Bool) (s : Shell δ W) : Prop where
  same : (tracedWhileClause callees condition body isUntil).run s =
    (intendedWhileClause callees condition body isUntil).run s
  noFault : ∀ cause, (execFrameExecuteWhileClause callees condition body isUntil).run s ≠
    .error (.fault cause)

/-- The state in which the condition is tested first. -/
def Shell.atFirstTest (s : Shell δ W) : Shell δ W := (s.emit (.loop none)).emit .test

/-- The first test of the condition ends the loop: it fails itself or ends the process, or both its
result and the exit status that it leaves say so. -/
def FirstTestEnds (condition : Ast) (isUntil : Bool) (s : Shell δ W) : Prop :=
  match (callees.dispatch condition).run s.atFirstTest with
  | .error (.fault _) => False
  | .error (.exit _ _) => True
  | .ok (r, t) =>
    r.status = .ok →
      loopEnds isUntil r.exitStatus = true ∧ loopEnds isUntil (statusOf r t) = true

end

/-! ## The first test -/

section

variable {callees : Callees δ W} {condition : Ast} (body : Ast) (isUntil : Bool) {s t : Shell δ W}
  {r : ExecuteResult}

theorem tracedWhileClause_error {e : ExecStop W}
    (h : (callees.dispatch condition).run s.atFirstTest = .error e) :
    (tracedWhileClause callees condition body isUntil).run s = .error e := by
  simp only [tracedWhileClause, tracedTurns, emit, bind_assoc]
  rw [Stateful.run_bind_ok (Stateful.run_modify_eq _ _),
    Stateful.run_bind_ok (Stateful.run_modify_eq _ _)]
  exact Stateful.run_bind_error h

theorem intendedWhileClause_error {e : ExecStop W}
    (h : (callees.dispatch condition).run s.atFirstTest = .error e) :
    (intendedWhileClause callees condition body isUntil).run s = .error e := by
  simp only [intendedWhileClause, intendedTurns, emit, bind_assoc]
  rw [Stateful.run_bind_ok (Stateful.run_modify_eq _ _),
    Stateful.run_bind_ok (Stateful.run_modify_eq _ _)]
  exact Stateful.run_bind_error h

/-- The answer of a clause whose first test ends it. -/
theorem tracedWhileClause_ends (h : (callees.dispatch condition).run s.atFirstTest = .ok (r, t))
    (hend : r.status = .ok → loopEnds isUntil r.exitStatus = true) :
    (tracedWhileClause callees condition body isUntil).run s =
      .ok (([.test], if r.status = .ok then { hasExitStatus := true } else r),
        t.emit (.loopEnd (if r.status = .ok then FrameFlow.normal else r.flow))) := by
  unfold Shell.atFirstTest at h
  simp only [tracedWhileClause, tracedTurns, emit, bind_assoc]
  rw [Stateful.run_bind_ok (Stateful.run_modify_eq _ _),
    Stateful.run_bind_ok (Stateful.run_modify_eq _ _), Stateful.run_bind_ok h]
  by_cases hstatus : r.status = .ok
  · simp [hstatus, whileParams, hend hstatus]
    rfl
  · simp [hstatus]
    rfl

theorem intendedWhileClause_ends (h : (callees.dispatch condition).run s.atFirstTest = .ok (r, t))
    (hend : r.status = .ok → loopEnds isUntil (statusOf r t) = true) :
    (intendedWhileClause callees condition body isUntil).run s =
      .ok (([.test], if r.status = .ok then { hasExitStatus := true } else r),
        t.emit (.loopEnd (if r.status = .ok then FrameFlow.normal else r.flow))) := by
  unfold Shell.atFirstTest at h
  simp only [intendedWhileClause, intendedTurns, emit, bind_assoc]
  rw [Stateful.run_bind_ok (Stateful.run_modify_eq _ _),
    Stateful.run_bind_ok (Stateful.run_modify_eq _ _), Stateful.run_bind_ok h,
    Stateful.run_bind_ok (Stateful.run_get_eq t)]
  by_cases hstatus : r.status = .ok
  · simp [hstatus, hend hstatus]
    rfl
  · simp [hstatus]
    rfl

/-- A clause whose first test does not end it gets to the loop of the for clause. -/
theorem tracedWhileClause_goesOn (hbody : body.isCommandList = true)
    (h : (callees.dispatch condition).run s.atFirstTest = .ok (r, t)) (hstatus : r.status = .ok)
    (hgo : loopEnds isUntil r.exitStatus = false) :
    (tracedWhileClause callees condition body isUntil).run s =
      .error (.fault (.contract "params->loop_var_name")) := by
  unfold Shell.atFirstTest at h
  simp only [tracedWhileClause, tracedTurns, emit, bind_assoc]
  rw [Stateful.run_bind_ok (Stateful.run_modify_eq _ _),
    Stateful.run_bind_ok (Stateful.run_modify_eq _ _), Stateful.run_bind_ok h]
  cases body with
  | commandList items separators =>
    simp [hstatus, whileParams, hgo]
    rfl
  | _ => cases hbody

/-- The intended clause runs its body after a test that does not end it. -/
theorem intendedWhileClause_goesOn
    (h : (callees.dispatch condition).run s.atFirstTest = .ok (r, t)) (hstatus : r.status = .ok)
    (hgo : loopEnds isUntil (statusOf r t) = false) :
    Ensures (intendedWhileClause callees condition body isUntil) s
      fun answer _ => .body ∈ answer.1 := by
  unfold Shell.atFirstTest at h
  simp only [intendedWhileClause, intendedTurns, emit, bind_assoc]
  apply Ensures.modify_bind
  apply Ensures.modify_bind
  apply Ensures.bind_ok h
  apply Ensures.get_bind
  simp only [hstatus, ne_eq, not_true_eq_false, if_false, hgo, Bool.false_eq_true, bind_assoc]
  apply Ensures.modify_bind
  apply Ensures.any.bind
  intro bodyResult u _
  apply Ensures.any.bind
  intro bodyResult u _
  cases afterBody { hasExitStatus := true } bodyResult with
  | leave result =>
    rw [pure_bind]
    apply Ensures.modify_bind
    exact Ensures.of_pure (by simp)
  | next result =>
    simp only [bind_assoc, pure_bind]
    apply Ensures.any.bind
    intro events u _
    apply Ensures.modify_bind
    exact Ensures.of_pure (by simp)

end

/-- A while or until clause that `ast_lower` built loops as it is meant exactly if its first test
ends it. -/
theorem whileClause_loopsAsIntended_iff (callees : Callees δ W) {root : Gnode} {tree : Ast}
    (hlower : astLower root = .ok tree) {condition body : Ast} (isUntil : Bool)
    (hnode : tree.Contains
      (if isUntil then .untilClause condition body else .whileClause condition body))
    (s : Shell δ W) :
    LoopsAsIntended callees condition body isUntil s ↔
      FirstTestEnds callees condition isUntil s := by
  have hlowered := (astLower_gives root).answer tree hlower
  have hbody : body.isCommandList = true := by
    cases isUntil with
    | true =>
      cases hlowered.2.contained hnode rfl with
      | untilClause _ bodyKind => exact bodyKind
    | false =>
      cases hlowered.2.contained hnode rfl with
      | whileClause _ bodyKind => exact bodyKind
  have hclause := tracedWhileClause_snd callees condition body isUntil
  unfold FirstTestEnds
  cases htest : (callees.dispatch condition).run s.atFirstTest with
  | error e =>
    have htraced := tracedWhileClause_error body isUntil htest
    have hreal : (execFrameExecuteWhileClause callees condition body isUntil).run s = .error e := by
      rw [← hclause, map_eq_pure_bind]
      exact Stateful.run_bind_error htraced
    cases e with
    | fault cause =>
      constructor
      · intro h
        exact h.noFault cause hreal
      · rintro ⟨⟩
    | exit status world =>
      refine ⟨fun _ => trivial, fun _ => ⟨?_, ?_⟩⟩
      · rw [htraced, intendedWhileClause_error body isUntil htest]
      · intro cause
        rw [hreal]
        simp
  | ok p =>
    obtain ⟨r, t⟩ := p
    dsimp only
    constructor
    · intro h hstatus
      have hcode : loopEnds isUntil r.exitStatus = true := by
        by_contra hgo
        have htraced := tracedWhileClause_goesOn body isUntil hbody htest hstatus (by simpa using hgo)
        apply h.noFault (.contract "params->loop_var_name")
        rw [← hclause, map_eq_pure_bind]
        exact Stateful.run_bind_error htraced
      refine ⟨hcode, ?_⟩
      by_contra hgo
      have htraced := tracedWhileClause_ends body isUntil htest fun _ => hcode
      have hmem := (intendedWhileClause_goesOn body isUntil htest hstatus
        (by simpa using hgo)).answer _ _ (h.same.symm.trans htraced)
      simp at hmem
    · intro hends
      have htraced := tracedWhileClause_ends body isUntil htest fun hstatus => (hends hstatus).1
      refine ⟨?_, ?_⟩
      · rw [htraced, intendedWhileClause_ends body isUntil htest fun hstatus => (hends hstatus).2]
      · intro cause
        rw [← hclause, map_eq_pure_bind, Stateful.run_bind_ok htraced]
        exact nofun

/-! ## Two loops whose condition succeeds -/

/-- `while x=1; do a; done`, or the same with another keyword. -/
def loopTokens (keyword : TokenType) : List Token :=
  [.ofType keyword, assignToken, .ofType .semi, .ofType .do_, .ofText "a", .ofType .semi,
    .ofType .done]

/-- The tree that the parser makes of it. -/
def loopRoot (keyword : TokenType) : Gnode :=
  match Parser.parserParseProgram (loopTokens keyword) with
  | .ok root _ => root
  | _ => .ofList .program []

/-- `x=1;` -/
def assignCondition : Ast :=
  .commandList [.simpleCommand (some []) (some []) (some [assignToken])] [.sequential]

/-- `a;` -/
def wordBody : Ast := .commandList [.ofWords ["a"]] [.sequential]

/-- `until x=1; do a; done` ends at its first test. -/
theorem whileClause_loopsAsIntended_until :
    LoopsAsIntended (executor (Env.idle Unit Unit) 1) assignCondition wordBody true
      (Shell.initial ()) :=
  have hlower : astLower (loopRoot .until_) =
      .ok (.commandList [.untilClause assignCondition wordBody] [.end_]) := rfl
  (whileClause_loopsAsIntended_iff (executor (Env.idle Unit Unit) 1) hlower true
    (.single List.mem_cons_self) (Shell.initial ())).mpr fun _ => ⟨rfl, rfl⟩

/-- `while x=1; do a; done` violates a contract at its first turn. -/
theorem while_violates_contract :
    astLower (loopRoot .while_) =
        .ok (.commandList [.whileClause assignCondition wordBody] [.end_]) ∧
      ¬ LoopsAsIntended (executor (Env.idle Unit Unit) 1) assignCondition wordBody false
        (Shell.initial ()) := by
  refine ⟨rfl, ?_⟩
  intro h
  exact h.noFault (.contract "params->loop_var_name") rfl

end Migash.Exec
