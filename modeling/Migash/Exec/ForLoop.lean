import Migash.Exec.FrameFds
import Migash.Exec.WhileLoop

/-! # For clauses

A for clause enters a frame with three parameters, a word list, a variable and
a body. The frame looks at the body first and runs it, once; the word list and
the variable are never looked at.
-/

namespace Migash.Exec

open Library

variable {δ W : Type}

/-! ## The runs of a body -/

/-- One run of the body of a loop: the loop variable before it, its result and the exit status that
it leaves. -/
structure BodyRun where
  value : Option String
  result : ExecuteResult
  status : ℤ

/-- The value of a variable. -/
def Shell.value? (s : Shell δ W) (var : String) : Option String :=
  (s.variables_.get var).map Variable.value

/-- The exit status of the last run. -/
def lastStatus (runs : List BodyRun) : ℤ := (runs.getLast?.map BodyRun.status).getD 0

/-- The body runs once for each word, with that word in the variable, and the last run gives the
exit status. -/
structure RunsForEach (words : List String) (runs : List BodyRun) (exitStatus : ℤ) : Prop where
  values : runs.map BodyRun.value = words.map some
  last : exitStatus = lastStatus runs

section

variable (env : Env δ W) (callees : Callees δ W)

/-- The body of a loop, with its run. -/
def observedBody (var : String) (body : Ast) : ExecM δ W (BodyRun × ExecuteResult) := do
  let s ← get
  let result ← callees.dispatch body
  let t ← get
  return (⟨s.value? var, result, statusOf result t⟩, result)

theorem observedBody_snd (var : String) (body : Ast) :
    Prod.snd <$> observedBody callees var body = callees.dispatch body := by
  funext s
  simp only [observedBody, map_bind, map_pure]
  change (get >>= _ : ExecM δ W _).run s = (callees.dispatch body).run s
  rw [Stateful.run_bind_ok (Stateful.run_get_eq s)]
  cases h : (callees.dispatch body).run s with
  | error e => exact Stateful.run_bind_error h
  | ok p =>
    rw [Stateful.run_bind_ok h]
    rfl

/-- `exec_frame_execute_for_loop`, with the runs of its body. -/
def tracedForLoop (var : String) (words : List String) (body : Ast) :
    ExecM δ W (List BodyRun × ExecuteResult) := do
  emit (.loop (some words.length))
  execFramePush .loop (FrameCaller.forLoop var words body).params
  setupPipeFds (FrameCaller.forLoop var words body).params
  emit .body
  let (run, result) ← observedBody callees var body
  let result := handleControlFlow (execFramePolicies .loop) result
  setLastExitStatus result.exitStatus
  modify Shell.pop
  emit (.loopEnd result.flow)
  return ([run], result)

theorem tracedForLoop_snd (var : String) (words : List String) (body : Ast) :
    Prod.snd <$> tracedForLoop callees var words body =
      execFrameExecuteForLoop env callees var words body := by
  rw [FrameCaller.executeForLoop_eq]
  simp only [execInFrame_eq, bind_assoc, pure_bind]
  have hwork : executeFrameWork env callees (FrameCaller.forLoop var words body).type
      (FrameCaller.forLoop var words body).params = (do
        emit .body
        Prod.snd <$> observedBody callees var body) := by
    rw [observedBody_snd]
    rfl
  rw [hwork]
  simp only [tracedForLoop, map_bind, map_pure, bind_assoc, bind_map_left]
  rfl

/-- `exec_frame_execute_for_clause`, with the runs of its body. -/
def tracedForClause (var : String) (words : Option (List Token)) (body : Ast) :
    ExecM δ W (List BodyRun × ExecuteResult) := do
  let words ← forWords env words
  tracedForLoop callees var words body

theorem tracedForClause_snd (var : String) (words : Option (List Token)) (body : Ast) :
    Prod.snd <$> tracedForClause env callees var words body =
      execFrameExecuteForClause env callees var words body := by
  simp only [tracedForClause, execFrameExecuteForClause, map_bind, tracedForLoop_snd env]

end

/-! ## The one run -/

/-- The state in which a for clause over `n` words runs its body. -/
def Shell.inForLoop (s : Shell δ W) (n : ℕ) : Shell δ W :=
  let s := s.emit (.loop (some n))
  let frame : Frame :=
    { type := .loop, positionalParams := s.frame.positionalParams
      loopDepth := s.frame.loopDepth + 1, lastExitStatus := s.frame.lastExitStatus
      lastBgPid := s.frame.lastBgPid }
  { s with frame, callers := s.frame :: s.callers }.pipesSetUp.emit .body

@[simp] theorem Shell.inForLoop_value? (s : Shell δ W) (n : ℕ) (var : String) :
    (s.inForLoop n).value? var = s.value? var := rfl

/-- The result of the body, run in this state, has the exit status that the run leaves. -/
def ReportsStatus (callees : Callees δ W) (body : Ast) (s : Shell δ W) : Prop :=
  ∀ result t, (callees.dispatch body).run s = .ok (result, t) → result.exitStatus = statusOf result t

theorem tracedForLoop_enters (callees : Callees δ W) (var : String) (words : List String)
    (body : Ast) (s : Shell δ W) :
    (tracedForLoop callees var words body).run s = (do
      let (run, result) ← observedBody callees var body
      let result := handleControlFlow (execFramePolicies .loop) result
      setLastExitStatus result.exitStatus
      modify Shell.pop
      emit (.loopEnd result.flow)
      return ([run], result)).run (s.inForLoop words.length) := by
  unfold tracedForLoop
  have hpush : (execFramePush .loop (FrameCaller.forLoop var words body).params).run
      (s.emit (.loop (some words.length))) = .ok (⟨⟩, _) := rfl
  rw [emit, Stateful.run_bind_ok (Stateful.run_modify_eq _ s), Stateful.run_bind_ok hpush,
    Stateful.run_bind_ok (setupPipeFds_run _ _), emit,
    Stateful.run_bind_ok (Stateful.run_modify_eq _ _)]
  rfl

/-- A for clause has run its body once, whatever its words are. -/
theorem tracedForLoop_run {callees : Callees δ W} {var : String} {words : List String}
    {body : Ast} {s t : Shell δ W} {runs : List BodyRun} {r : ExecuteResult}
    (hrun : (tracedForLoop callees var words body).run s = .ok ((runs, r), t)) :
    ∃ result u, (callees.dispatch body).run (s.inForLoop words.length) = .ok (result, u) ∧
      runs = [⟨s.value? var, result, statusOf result u⟩] ∧
        r = handleControlFlow (execFramePolicies .loop) result := by
  rw [tracedForLoop_enters] at hrun
  obtain ⟨⟨run, result⟩, u, hbody, hrest⟩ := Stateful.run_bind_eq_ok.mp hrun
  cases hrest
  unfold observedBody at hbody
  rw [Stateful.run_bind_ok (Stateful.run_get_eq _)] at hbody
  obtain ⟨result', u', hdispatch, hobserved⟩ := Stateful.run_bind_eq_ok.mp hbody
  cases hobserved
  exact ⟨result, u, hdispatch, rfl, rfl⟩

/-- A for clause whose body ends normally has run it once. -/
theorem tracedForLoop_runs {callees : Callees δ W} {var : String} {words : List String}
    {body : Ast} {s t : Shell δ W} {runs : List BodyRun} {r : ExecuteResult}
    (hrun : (tracedForLoop callees var words body).run s = .ok ((runs, r), t))
    (hplain : ∀ run ∈ runs, run.result.flow = .normal) :
    ∃ u, (callees.dispatch body).run (s.inForLoop words.length) = .ok (r, u) ∧
      runs = [⟨s.value? var, r, statusOf r u⟩] := by
  obtain ⟨result, u, hdispatch, rfl, rfl⟩ := tracedForLoop_run hrun
  have hnormal : result.flow = .normal := hplain _ List.mem_cons_self
  rw [handleControlFlow_normal _ hnormal]
  exact ⟨u, hdispatch, rfl⟩

/-- A for clause runs its body for each of its words exactly if there is one word, which the
variable holds already, and the body reports its exit status. -/
theorem forClause_runsForEach_iff (env : Env δ W) (callees : Callees δ W) {var : String}
    {words : Option (List Token)} {body : Ast} {list : List String} {s s' t : Shell δ W}
    {runs : List BodyRun} {r : ExecuteResult} (hwords : (forWords env words).run s = .ok (list, s'))
    (hrun : (tracedForClause env callees var words body).run s = .ok ((runs, r), t))
    (hplain : ∀ run ∈ runs, run.result.flow = .normal) :
    RunsForEach list runs r.exitStatus ↔
      (∃ word, list = [word] ∧ s'.value? var = some word) ∧
        ReportsStatus callees body (s'.inForLoop list.length) := by
  unfold tracedForClause at hrun
  rw [Stateful.run_bind_ok hwords] at hrun
  obtain ⟨u, hbody, rfl⟩ := tracedForLoop_runs hrun hplain
  constructor
  · rintro ⟨hvalues, hlast⟩
    obtain ⟨word, rfl⟩ : ∃ word, list = [word] := by
      have hlength := congrArg List.length hvalues
      simp only [List.length_map, List.length_singleton] at hlength
      exact List.length_eq_one_iff.mp hlength.symm
    refine ⟨⟨word, rfl, by simpa using hvalues⟩, ?_⟩
    intro result u' hresult
    cases hbody.symm.trans hresult
    exact hlast
  · rintro ⟨⟨word, rfl, hvalue⟩, hreports⟩
    exact ⟨by simpa using hvalue, hreports r u hbody⟩

/-! ## Loops over one and over two words -/

/-- `for name in words; do x=1; done`. -/
def forTokens (name : String) (words : List String) : List Token :=
  [.ofType .for_, .ofText name, .ofType .in_] ++ words.map .ofText ++
    [.ofType .semi, .ofType .do_, assignToken, .ofType .semi, .ofType .done]

/-- The tree that the parser makes of it. -/
def forRoot (name : String) (words : List String) : Gnode :=
  match Parser.parserParseProgram (forTokens name words) with
  | .ok root _ => root
  | _ => .ofList .program []

/-- `for x in 1; do x=1; done` keeps to its words where `x` is `1` already. -/
theorem forClause_runsForEach_one :
    ∃ runs r t, (tracedForClause (Env.idle Unit Unit) (executor (Env.idle Unit Unit) 1) "x"
        (some [.ofText "1"]) assignCondition).run shellWithX = .ok ((runs, r), t) ∧
      RunsForEach ["1"] runs r.exitStatus := by
  obtain ⟨runs, r, t, hrun, hplain⟩ : ∃ runs r t,
      (tracedForClause (Env.idle Unit Unit) (executor (Env.idle Unit Unit) 1) "x"
        (some [.ofText "1"]) assignCondition).run shellWithX = .ok ((runs, r), t) ∧
      ∀ run ∈ runs, run.result.flow = .normal := by
    refine ⟨_, _, _, rfl, ?_⟩
    intro run hmem
    cases List.mem_singleton.mp hmem
    rfl
  refine ⟨runs, r, t, hrun, (forClause_runsForEach_iff (Env.idle Unit Unit)
    (executor (Env.idle Unit Unit) 1) rfl hrun hplain).mpr ⟨⟨"1", rfl, rfl⟩, ?_⟩⟩
  intro result u hbody
  cases hbody
  rfl

/-- `for y in a b; do x=1; done` runs its body once, with `y` unset. -/
theorem forClause_runs_once :
    astLower (forRoot "y" ["a", "b"]) = .ok (.commandList
        [.forClause "y" (some [.ofText "a", .ofText "b"]) assignCondition] [.end_]) ∧
      ∃ runs r t, (tracedForClause (Env.idle Unit Unit) (executor (Env.idle Unit Unit) 1) "y"
          (some [.ofText "a", .ofText "b"]) assignCondition).run (Shell.initial ()) =
            .ok ((runs, r), t) ∧
        (∀ run ∈ runs, run.result.flow = .normal) ∧
        ¬ RunsForEach ["a", "b"] runs r.exitStatus := by
  refine ⟨rfl, _, _, _, rfl, ?_, ?_⟩
  · intro run hmem
    cases List.mem_singleton.mp hmem
    rfl
  · rintro ⟨hvalues, -⟩
    exact absurd (congrArg List.length hvalues) (by decide)

end Migash.Exec
