import Migash.Exec.FrameFds
import Migash.Exec.WhileLoop
import Migash.Library.Heap
import Mathlib.Logic.Function.Basic

/-! # The exit status of a pipeline

The status of the last command goes through a process exit whenever there are
several commands. The child hands over only a status that its result reports,
and negates it before the parent does.
-/

namespace Migash.Exec

open Library

variable {δ W : Type}

/-! ## Processes -/

/-- What a child process does to the world, and the exit status it ends with. -/
abbrev Child (W : Type) := W → Except Fault (ℤ × W)

/-- `pipe`, `fork` and `waitpid` never fail. The world knows of every child that nobody has waited
for the status with which it ends, whenever that is: it exits after it ran, at some time, or a
signal ends it. -/
structure Posix (env : Env δ W) where
  status : W → ℤ → Option WaitStatus
  ending : Child W → W → WaitStatus
  ending_eq : ∀ child world,
    (∃ world₁ code world₂, child world₁ = .ok (code, world₂) ∧
      ending child world = .exited (code % 256)) ∨
    ∃ signal, 0 < signal ∧ signal < 128 ∧ ending child world = .signaled signal
  pipe : ∀ world, ∃ ends world', env.pipe world = (.ok ends, world') ∧ status world' = status world
  fork : ∀ child world, ∃ pid world', env.fork child world = (.ok pid, world') ∧
    status world pid = none ∧
    status world' = Function.update (status world) pid (some (ending child world))
  waitpid : ∀ pid world st, status world pid = some st →
    ∃ world', env.waitpid pid world = (.ok st, world') ∧
      status world' = Function.update (status world) pid none

/-- How the last command of a pipeline ends: a signal ends its process, the process exits while the
command runs, or the command comes to its end with a result and a `$?`. -/
inductive CommandEnd where
  | killed (signal : ℤ)
  | exited (status : ℤ)
  | finished (result : ExecuteResult) (lastExitStatus : ℤ)

namespace CommandEnd

/-- The exit status of the command. -/
def status : CommandEnd → ℤ
  | killed signal => 128 + signal
  | exited status => status % 256
  | finished result lastExitStatus =>
    if result.hasExitStatus then result.exitStatus else lastExitStatus

/-- What the child hands to `_exit`. -/
def code (isNegated : Bool) : CommandEnd → ℤ
  | killed signal => 128 + signal
  | exited status => status
  | finished result _ =>
    if result.hasExitStatus then negated isNegated result.exitStatus else 0

/-- The status of the command reaches the parent: it is not negated in the child, and a status that
the result does not report is zero. -/
def HandedOver (isNegated : Bool) : CommandEnd → Prop
  | killed _ | exited _ => True
  | finished result lastExitStatus =>
    if result.hasExitStatus then isNegated = false
    else if isNegated then lastExitStatus = 0
    else lastExitStatus % 256 = 0

/-- How a command ends in a child that starts with the shell `s`. -/
def run (callees : Callees δ W) (cmd : Ast) (s : Shell δ W) (world : W) : Option CommandEnd :=
  match (callees.dispatch cmd).run { s with world } with
  | .ok (result, t) => some (finished result t.frame.lastExitStatus)
  | .error (.exit status _) => some (exited status)
  | .error (.fault _) => none

/-- The double negation and the status that is lost are all that can go wrong. -/
theorem negated_code_iff (isNegated : Bool) {o : CommandEnd}
    (hkilled : ∀ signal, o ≠ killed signal) :
    negated isNegated (o.code isNegated % 256) = negated isNegated o.status % 256 ↔
      o.HandedOver isNegated := by
  cases o with
  | killed signal => exact absurd rfl (hkilled signal)
  | exited status =>
    refine iff_of_true ?_ trivial
    cases isNegated with
    | false => simp [negated, code, CommandEnd.status]
    | true => by_cases h : status % 256 = 0 <;> simp [negated, code, CommandEnd.status, h]
  | finished result lastExitStatus =>
    cases hhas : result.hasExitStatus <;> cases isNegated <;>
      simp only [code, status, HandedOver, negated, hhas, if_true, if_false, Bool.false_eq_true]
    · exact eq_comm
    · by_cases h : lastExitStatus = 0 <;> simp [h]
    · by_cases h : result.exitStatus = 0 <;> simp [h]

end CommandEnd

/-! ## The parts of an orchestration -/

section

variable {env : Env δ W} (P : Posix env) (callees : Callees δ W) (isNegated : Bool)

omit P in
theorem syscall_run {α : Type} {f : W → α × W} {a : α} {world' : W} {s : Shell δ W}
    (h : f s.world = (a, world')) :
    (syscall f : ExecM δ W α).run s = .ok (a, { s with world := world' }) := by
  simp only [syscall, Stateful.run_bind_ok (Stateful.run_get_eq s), h]
  rfl

theorem createPipes_run (n : ℕ) (pipes : Pipes) (s : Shell δ W) :
    ∃ pipes' t, (createPipes env n pipes).run s = .ok ((true, pipes'), t) ∧
      P.status t.world = P.status s.world := by
  induction n generalizing pipes s with
  | zero => exact ⟨pipes, s, rfl, rfl⟩
  | succ n ih =>
    obtain ⟨⟨readEnd, writeEnd⟩, world', hpipe, hstatus⟩ := P.pipe s.world
    rw [createPipes, Stateful.run_bind_ok (syscall_run hpipe)]
    dsimp only
    rw [Stateful.run_bind_ok (Stateful.run_get_eq _),
      Stateful.run_bind_ok (Stateful.run_set_eq _ _)]
    obtain ⟨pipes', t, hrun, ht⟩ := ih (pipes ++ [_]) _
    exact ⟨pipes', t, hrun, ht.trans hstatus⟩

omit P in
theorem closeUsedPipes_run (pipes : Pipes) (i : ℕ) (s : Shell δ W) :
    ∃ pipes' t, (closeUsedPipes pipes i).run s = .ok (pipes', t) ∧ t.world = s.world :=
  ⟨_, _, rfl, rfl⟩

/-- The children that the parent has to wait for. -/
structure Waits (world : W) (pids : List ℤ) : Prop where
  known : ∀ pid ∈ pids, ∃ st, P.status world pid = some st
  distinct : pids.Nodup

theorem Waits.nil (world : W) : Waits P world [] := ⟨by simp, List.nodup_nil⟩

/-- A new child. -/
theorem Waits.concat {world world' : W} {pids : List ℤ} {pid : ℤ} {st : WaitStatus}
    (h : Waits P world pids) (hfresh : P.status world pid = none)
    (hstatus : P.status world' = Function.update (P.status world) pid (some st)) :
    Waits P world' (pids ++ [pid]) := by
  have hne : ∀ p ∈ pids, p ≠ pid := by
    rintro p hp rfl
    obtain ⟨st, hst⟩ := h.known p hp
    cases hfresh.symm.trans hst
  constructor
  · intro p hp
    rw [hstatus]
    rcases List.mem_append.mp hp with hp | hp
    · rw [Function.update_of_ne (hne p hp)]
      exact h.known p hp
    · cases List.mem_singleton.mp hp
      exact ⟨st, Function.update_self ..⟩
  · rw [List.nodup_append]
    refine ⟨h.distinct, List.nodup_singleton pid, ?_⟩
    intro p hp q hq
    cases List.mem_singleton.mp hq
    exact hne p hp

/-- A child that was waited for. -/
theorem Waits.tail {world world' : W} {pid : ℤ} {pids : List ℤ} (h : Waits P world (pid :: pids))
    (hstatus : P.status world' = Function.update (P.status world) pid none) :
    Waits P world' pids ∧ ∀ p ∈ pids, P.status world' p = P.status world p := by
  obtain ⟨hnotin, hnodup⟩ := List.nodup_cons.mp h.distinct
  have hsame : ∀ p ∈ pids, P.status world' p = P.status world p := by
    intro p hp
    rw [hstatus, Function.update_of_ne]
    rintro rfl
    exact hnotin hp
  refine ⟨⟨fun p hp => ?_, hnodup⟩, hsame⟩
  rw [hsame p hp]
  exact h.known p (List.mem_cons_of_mem _ hp)

/-- The child for a command. -/
def pipelineChildAt (pipes : Pipes) (i : ℕ) (cmd : Ast) (s : Shell δ W) : Child W :=
  childProcess (pipelineChild callees isNegated cmd) (pipelineChildFds pipes i s)

/-- One turn of the fork loop. -/
theorem forkCommands_cons_run (cmd : Ast) (i : ℕ) (pipes : Pipes) {pids : List ℤ}
    {s : Shell δ W} (hpids : Waits P s.world pids) :
    ∃ pid pipes' t,
      (∀ cmds, (forkCommands env callees isNegated (cmd :: cmds) i pipes pids).run s =
        (forkCommands env callees isNegated cmds (i + 1) pipes' (pids ++ [pid])).run t) ∧
      Waits P t.world (pids ++ [pid]) ∧
      P.status t.world pid =
        some (P.ending (pipelineChildAt callees isNegated pipes i cmd s) s.world) := by
  obtain ⟨pid, world', hfork, hfresh, hstatus⟩ :=
    P.fork (pipelineChildAt callees isNegated pipes i cmd s) s.world
  have hrun : (fork env (pipelineChildFds pipes i) (pipelineChild callees isNegated cmd)).run s =
      .ok (.ok pid, { s with world := world' }) := syscall_run hfork
  obtain ⟨pipes', t, hclose, ht⟩ := closeUsedPipes_run pipes i { s with world := world' }
  refine ⟨pid, pipes', t, fun cmds => ?_, ?_, ?_⟩
  · rw [forkCommands, Stateful.run_bind_ok hrun]
    exact Stateful.run_bind_ok hclose
  · rw [ht]
    exact hpids.concat P hfresh hstatus
  · rw [ht]
    exact (congrFun hstatus pid).trans (Function.update_self ..)

/-- The fork loop, with the child of the last command apart. -/
theorem forkCommands_run (front : List Ast) (last : Ast) (i : ℕ) (pipes : Pipes) {pids : List ℤ}
    {s : Shell δ W} (hpids : Waits P s.world pids) :
    ∃ pipes' pids' u pid pipes'' t,
      (forkCommands env callees isNegated front i pipes pids).run s =
        .ok ((true, pipes', pids'), u) ∧
      (forkCommands env callees isNegated (front ++ [last]) i pipes pids).run s =
        .ok ((true, pipes'', pids' ++ [pid]), t) ∧
      Waits P t.world (pids' ++ [pid]) ∧
      P.status t.world pid = some (P.ending
        (pipelineChildAt callees isNegated pipes' (i + front.length) last u) u.world) := by
  induction front generalizing i pipes pids s with
  | nil =>
    obtain ⟨pid, pipes', t, hrun, hwaits, hstatus⟩ :=
      forkCommands_cons_run P callees isNegated last i pipes hpids
    exact ⟨pipes, pids, s, pid, pipes', t, rfl, hrun [], hwaits, hstatus⟩
  | cons cmd front ih =>
    obtain ⟨pid, pipes', t, hrun, hwaits, -⟩ :=
      forkCommands_cons_run P callees isNegated cmd i pipes hpids
    obtain ⟨pipes₁, pids₁, u, pid₁, pipes₂, t₁, hfront, hall, hwaits₁, hstatus⟩ :=
      ih (i + 1) pipes' hwaits
    refine ⟨pipes₁, pids₁, u, pid₁, pipes₂, t₁, (hrun front).trans hfront,
      (hrun _).trans hall, hwaits₁, ?_⟩
    rw [hstatus, List.length_cons, Nat.add_assoc, Nat.add_comm 1]

/-- The status that is kept is that of the last child. -/
theorem waitAll_run (front : List ℤ) (pid last : ℤ) {st : WaitStatus} {s : Shell δ W}
    (hpids : Waits P s.world (front ++ [pid])) (hst : P.status s.world pid = some st) :
    ∃ t, (waitAll env (front ++ [pid]) last).run s = .ok (st.exitStatus, t) := by
  induction front generalizing last s with
  | nil =>
    obtain ⟨world', hwait, -⟩ := P.waitpid pid s.world st hst
    refine ⟨{ s with world := world' }, ?_⟩
    rw [List.nil_append, waitAll, Stateful.run_bind_ok (syscall_run hwait)]
    rfl
  | cons p front ih =>
    obtain ⟨st', hst'⟩ := hpids.known p (by simp)
    obtain ⟨world', hwait, hstatus⟩ := P.waitpid p s.world st' hst'
    obtain ⟨hwaits, hsame⟩ := hpids.tail P hstatus
    obtain ⟨t, ht⟩ := ih (if front ++ [pid] = [] then st'.exitStatus else last)
      (s := { s with world := world' }) hwaits ((hsame pid (by simp)).trans hst)
    refine ⟨t, ?_⟩
    rw [List.cons_append, waitAll, Stateful.run_bind_ok (syscall_run hwait)]
    exact ht

/-- The last command of a pipeline of several commands runs in the child that is forked behind those
of the front, and ends like `o`. -/
structure LastEnds (front : List Ast) (last : Ast) (s : Shell δ W) (st : WaitStatus)
    (o : CommandEnd) : Prop where
  forked : ∃ pipes s₁ pipes' pids u,
    (createPipes env front.length []).run s = .ok ((true, pipes), s₁) ∧
    (forkCommands env callees isNegated front 0 pipes []).run s₁ = .ok ((true, pipes', pids), u) ∧
    st = P.ending (pipelineChildAt callees isNegated pipes' front.length last u) u.world ∧
    ((∃ signal, 0 < signal ∧ signal < 128 ∧ o = .killed signal ∧ st = .signaled signal) ∨
      ∃ world, CommandEnd.run callees last (pipelineChildFds pipes' front.length u) world = some o ∧
        st = .exited (o.code isNegated % 256))

omit P in
/-- The child hands over a status that the result reports, and negates it. -/
theorem pipelineChild_eq (cmd : Ast) :
    pipelineChild callees isNegated cmd = (do
      let result ← callees.dispatch cmd
      return (CommandEnd.finished result 0).code isNegated) := by
  unfold pipelineChild
  congr
  funext result
  cases hhas : result.hasExitStatus <;> cases isNegated <;>
    simp [CommandEnd.code, negated, hhas]

omit P in
/-- What a child process of a pipeline does to the world says how its command ended. -/
theorem childProcess_eq_ok {cmd : Ast} {s : Shell δ W} {world world' : W} {code : ℤ}
    (h : childProcess (pipelineChild callees isNegated cmd) s world = .ok (code, world')) :
    ∃ o, CommandEnd.run callees cmd s world = some o ∧ code = o.code isNegated ∧
      ∀ signal, o ≠ .killed signal := by
  rw [childProcess, pipelineChild_eq] at h
  unfold CommandEnd.run
  cases hrun : (callees.dispatch cmd).run { s with world } with
  | ok r =>
    obtain ⟨result, t⟩ := r
    rw [Stateful.run_bind_ok hrun] at h
    cases h
    exact ⟨.finished result t.frame.lastExitStatus, rfl, rfl, by simp⟩
  | error e =>
    rw [Stateful.run_bind_error hrun] at h
    cases e with
    | fault cause => cases h
    | exit status world' =>
      cases h
      exact ⟨.exited _, rfl, rfl, by simp⟩

/-- A pipeline of several commands has an answer, and its status is that of its last child. -/
theorem orchestrateMany_run (front : List Ast) (last : Ast) (s : Shell δ W) :
    ∃ t st o, (orchestrateMany env callees (front ++ [last]) isNegated).run s =
        .ok ({ hasExitStatus := true, exitStatus := negated isNegated st.exitStatus }, t) ∧
      LastEnds P callees isNegated front last s st o := by
  obtain ⟨pipes, s₁, hpipes, -⟩ := createPipes_run P front.length [] s
  obtain ⟨pipes', pids, u, pid, pipes'', t, hfront, hall, hwaits, hstatus⟩ :=
    forkCommands_run P callees isNegated front last 0 pipes (.nil P s₁.world)
  rw [Nat.zero_add] at hstatus
  obtain ⟨v, hv⟩ := waitAll_run P pids pid 0 (s := t.closeFds pipes''.fds) hwaits hstatus
  generalize hst : P.ending (pipelineChildAt callees isNegated pipes' front.length last u) u.world =
    st at hv
  obtain ⟨o, hend⟩ : ∃ o, LastEnds P callees isNegated front last s st o := by
    rcases P.ending_eq (pipelineChildAt callees isNegated pipes' front.length last u) u.world with
      ⟨world₁, code, world₂, hchild, hending⟩ | ⟨signal, hpos, hlt, hending⟩
    · obtain ⟨o, ho, rfl, -⟩ := childProcess_eq_ok callees isNegated hchild
      exact ⟨o, pipes, s₁, pipes', pids, u, hpipes, hfront, hst.symm,
        .inr ⟨world₁, ho, hst.symm.trans hending⟩⟩
    · exact ⟨.killed signal, pipes, s₁, pipes', pids, u, hpipes, hfront, hst.symm,
        .inl ⟨signal, hpos, hlt, rfl, hst.symm.trans hending⟩⟩
  refine ⟨v.setLastExitStatus (negated isNegated st.exitStatus), st, o, ?_, hend⟩
  have hlength : (front ++ [last]).length - 1 = front.length := by simp
  rw [orchestrateMany, hlength, Stateful.run_bind_ok hpipes]
  simp only [if_true]
  rw [Stateful.run_bind_ok hall]
  simp only [if_true]
  rw [Stateful.run_bind_ok (Stateful.run_modify_eq _ _), Stateful.run_bind_ok hv]
  rfl

/-- The status of the last child is that of its command exactly if the command's status reaches
it. -/
theorem LastEnds.negated_exitStatus_iff {front : List Ast} {last : Ast} {s : Shell δ W}
    {st : WaitStatus} {o : CommandEnd} (h : LastEnds P callees isNegated front last s st o) :
    negated isNegated st.exitStatus = negated isNegated o.status % 256 ↔
      o.HandedOver isNegated := by
  obtain ⟨pipes, s₁, pipes', pids, u, -, -, -, hend⟩ := h.forked
  rcases hend with ⟨signal, hpos, hlt, rfl, rfl⟩ | ⟨world, ho, rfl⟩
  · refine iff_of_true ?_ trivial
    have hmod : (128 + signal) % 256 = 128 + signal := Int.emod_eq_of_lt (by omega) (by omega)
    cases isNegated with
    | false => simp [negated, WaitStatus.exitStatus, CommandEnd.status, hmod]
    | true =>
      have hne : 128 + signal ≠ 0 := by omega
      simp [negated, WaitStatus.exitStatus, CommandEnd.status, hne]
  · refine CommandEnd.negated_code_iff isNegated ?_
    rintro signal rfl
    unfold CommandEnd.run at ho
    split at ho <;> cases ho

/-! ## The whole pipeline -/

omit P in
/-- The state in which the commands of a pipeline are orchestrated. -/
def Shell.inPipeline (s : Shell δ W) : Shell δ W :=
  Shell.pipesSetUp
    { s with
      frame :=
        { type := .pipeline
          positionalParams := s.frame.positionalParams
          loopDepth := s.frame.loopDepth
          lastExitStatus := s.frame.lastExitStatus
          lastBgPid := s.frame.lastBgPid }
      callers := s.frame :: s.callers }

omit P in
/-- A pipeline frame hands the result of the orchestration to its caller. -/
theorem execFrameExecutePipeline_run (commands : List Ast) (s : Shell δ W) :
    (execFrameExecutePipeline env callees commands isNegated).run s =
      (do
        let result ← execFrameExecutePipelineOrchestrate env callees
          { pipelineCommands := some commands, pipelineNegated := isNegated }
        setLastExitStatus result.exitStatus
        modify Shell.pop
        return result : ExecM δ W ExecuteResult).run s.inPipeline := by
  have hframe := execInFrame_eq env callees (.pipelineGroup commands isNegated)
  have hpush : (execFramePush .pipeline
      (FrameCaller.pipelineGroup commands isNegated).params : ExecM δ W Unit).run s =
        .ok (⟨⟩, _) := rfl
  have hpipes := setupPipeFds_run (δ := δ) (W := W) (.pipelineGroup commands isNegated)
  have hflow : ∀ result, handleControlFlow (execFramePolicies .pipeline) result = result := by
    intro result
    cases h : result.flow <;> simp [handleControlFlow, execFramePolicies, h]
  change (execInFrame env callees .pipeline
    (FrameCaller.pipelineGroup commands isNegated).params).run s = _
  rw [show FrameType.pipeline = (FrameCaller.pipelineGroup commands isNegated).type from rfl,
    hframe]
  simp only [FrameCaller.type, hflow]
  rw [Stateful.run_bind_ok hpush, Stateful.run_bind_ok (hpipes _)]
  rfl

omit P in
/-- A single command is executed by the shell itself, and only a status that its result reports is
negated. -/
theorem orchestrate_single_run {cmd : Ast} {s t : Shell δ W} {r : ExecuteResult}
    (h : (execFrameExecutePipelineOrchestrate env callees
      { pipelineCommands := some [cmd], pipelineNegated := isNegated }).run s = .ok (r, t)) :
    ∃ result, (callees.dispatch cmd).run s = .ok (result, t) ∧
      r.exitStatus =
        if result.hasExitStatus then negated isNegated result.exitStatus
        else result.exitStatus := by
  simp only [execFrameExecutePipelineOrchestrate, expectsNotNull, pure_bind] at h
  obtain ⟨result, u, hrun, hresult⟩ := Stateful.run_bind_eq_ok.mp h
  cases hhas : result.hasExitStatus <;> cases isNegated <;> simp only [hhas] at hresult <;>
    cases hresult <;> exact ⟨_, hrun, by simp [hhas, negated]⟩

/-- A pipeline of one command reports its status exactly if the result of the command does, or says
the right thing all the same. A pipeline of several commands always answers, and reports the status
of the last one exactly if that status reaches the parent. -/
theorem execFrameExecutePipeline_reports_iff (commands : List Ast) (s : Shell δ W) :
    (∀ cmd, commands = [cmd] → ∀ r t,
      (execFrameExecutePipeline env callees commands isNegated).run s = .ok (r, t) →
      ∃ result u, (callees.dispatch cmd).run s.inPipeline = .ok (result, u) ∧
        (r.exitStatus = negated isNegated (statusOf result u) ↔
          result.hasExitStatus = true ∨
            result.exitStatus = negated isNegated (statusOf result u))) ∧
    (∀ front last, front ≠ [] → commands = front ++ [last] →
      ∃ r t st o, (execFrameExecutePipeline env callees commands isNegated).run s = .ok (r, t) ∧
        LastEnds P callees isNegated front last s.inPipeline st o ∧
        (r.exitStatus = negated isNegated o.status % 256 ↔ o.HandedOver isNegated)) := by
  constructor
  · rintro cmd rfl r t hrun
    rw [execFrameExecutePipeline_run] at hrun
    obtain ⟨r', u, horchestrate, hrest⟩ := Stateful.run_bind_eq_ok.mp hrun
    cases hrest
    obtain ⟨result, hresult, hstatus⟩ := orchestrate_single_run callees isNegated horchestrate
    refine ⟨result, u, hresult, ?_⟩
    rw [hstatus]
    cases hhas : result.hasExitStatus <;> simp [statusOf, hhas]
  · rintro front last hfront rfl
    obtain ⟨t, st, o, hrun, hend⟩ :=
      orchestrateMany_run P callees isNegated front last s.inPipeline
    refine ⟨{ hasExitStatus := true, exitStatus := negated isNegated st.exitStatus },
      (t.setLastExitStatus (negated isNegated st.exitStatus)).pop, st, o, ?_, hend,
      hend.negated_exitStatus_iff P callees isNegated⟩
    rw [execFrameExecutePipeline_run]
    have horchestrate : (execFrameExecutePipelineOrchestrate env callees
        { pipelineCommands := some (front ++ [last]), pipelineNegated := isNegated }).run
          s.inPipeline =
        .ok ({ hasExitStatus := true, exitStatus := negated isNegated st.exitStatus }, t) := by
      obtain ⟨first, second, rest, hcons⟩ : ∃ first second rest,
          front ++ [last] = first :: second :: rest := by
        cases front with
        | nil => exact absurd rfl hfront
        | cons first front => cases front <;> exact ⟨_, _, _, rfl⟩
      simp only [execFrameExecutePipelineOrchestrate, expectsNotNull, pure_bind]
      rw [hcons] at hrun ⊢
      exact hrun
    rw [Stateful.run_bind_ok horchestrate]
    rfl

end

/-! ## One system -/

/-- The statuses of the children, by their process ids. -/
abbrev Processes := Heap WaitStatus

/-- Every child runs when it is forked, on its own. -/
def childEnding (child : Child Processes) (world : Processes) : WaitStatus :=
  match child world with
  | .ok (code, _) => .exited (code % 256)
  | .error _ => .signaled 6

/-- A system on which nothing fails, with the builtins `true` and `false`. -/
def processEnv : Env Unit Processes where
  __ := Env.idle Unit Processes
  builtin name :=
    if name = "true" then some (.regular, fun _ => return 0)
    else if name = "false" then some (.regular, fun _ => return 1)
    else none
  pipe world := (.ok ((), ()), world)
  fork child world :=
    let (p, world') := world.alloc (childEnding child world)
    (.ok p, world')
  waitpid pid world :=
    if 0 ≤ pid then
      match world.get pid.toNat with
      | some st => (.ok st, world.free pid.toNat)
      | none => (.error .echild, world)
    else (.error .echild, world)

/-- The status of a child that nobody has waited for. -/
def processStatus (world : Processes) (pid : ℤ) : Option WaitStatus :=
  if 0 ≤ pid then world.get pid.toNat else none

theorem processStatus_of_nat (world : Processes) (p : ℕ) :
    processStatus world p = world.get p := by
  simp [processStatus]

/-- A change of one child. -/
theorem processStatus_update {world world' : Processes} {p : ℕ} {st : Option WaitStatus}
    (hself : world'.get p = st) (hothers : ∀ q, q ≠ p → world'.get q = world.get q) :
    processStatus world' = Function.update (processStatus world) (p : ℤ) st := by
  funext pid
  by_cases hpid : pid = p
  · rw [hpid, Function.update_self, processStatus_of_nat, hself]
  · rw [Function.update_of_ne hpid]
    unfold processStatus
    split_ifs with hpos
    · exact hothers _ (by omega)
    · rfl

/-- It is a POSIX system. -/
def processPosix : Posix processEnv where
  status := processStatus
  ending := childEnding
  ending_eq child world := by
    unfold childEnding
    cases h : child world with
    | ok r => exact .inl ⟨world, r.1, r.2, h, rfl⟩
    | error e => exact .inr ⟨6, by decide, by decide, rfl⟩
  pipe world := ⟨((), ()), world, rfl, rfl⟩
  fork child world := by
    refine ⟨world.cells.length, (world.alloc (childEnding child world)).2, rfl, ?_, ?_⟩
    · rw [processStatus_of_nat, Heap.get_length]
    · exact processStatus_update (Heap.get_alloc_self world _)
        fun q hq => Heap.get_alloc_of_ne world hq _
  waitpid pid world st h := by
    obtain ⟨hpos, hget⟩ : 0 ≤ pid ∧ world.get pid.toNat = some st := by
      unfold processStatus at h
      split_ifs at h with hpos
      exact ⟨hpos, h⟩
    refine ⟨world.free pid.toNat, ?_, ?_⟩
    · simp only [processEnv, if_pos hpos, hget]
    · have hupdate := processStatus_update (Heap.get_free_self world pid.toNat)
        fun q hq => Heap.get_free_of_ne world hq
      rwa [Int.toNat_of_nonneg hpos] at hupdate

/-- A simple command of one word. -/
def wordCommand (name : String) : Ast :=
  .simpleCommand (some [.ofText name]) (some []) (some [])

/-- `true | true` reports the status of its last command. -/
theorem true_pipe_true_reports :
    ([wordCommand "true"] : List Ast) ≠ [] ∧
      ∃ r t st o, (execFrameExecutePipeline processEnv (executor processEnv 2)
          [wordCommand "true", wordCommand "true"] false).run (Shell.initial {}) = .ok (r, t) ∧
        LastEnds processPosix (executor processEnv 2) false [wordCommand "true"]
          (wordCommand "true") (Shell.initial {} : Shell Unit Processes).inPipeline st o ∧
        (r.exitStatus = negated false o.status % 256 ↔ o.HandedOver false) :=
  ⟨by simp, (execFrameExecutePipeline_reports_iff processPosix (executor processEnv 2) false
    [wordCommand "true", wordCommand "true"] (Shell.initial {})).2 [wordCommand "true"]
      (wordCommand "true") (by simp) rfl⟩

/-- How the last command of a pipeline ends if its child runs when it is forked. -/
def lastEnd (env : Env δ W) (callees : Callees δ W) (isNegated : Bool) (front : List Ast)
    (last : Ast) (s : Shell δ W) : Except (ExecStop W) (Option CommandEnd) := do
  let ((_, pipes), s) ← (createPipes env front.length []).run s
  let ((_, pipes, _), s) ← (forkCommands env callees isNegated front 0 pipes []).run s
  return CommandEnd.run callees last (pipelineChildFds pipes front.length s) s.world

/-- `true | false` reports success. -/
theorem true_pipe_false_succeeds :
    (((execFrameExecutePipeline processEnv (executor processEnv 2)
        [wordCommand "true", wordCommand "false"] false).run (Shell.initial {})).toOption.map
          fun r => r.1.exitStatus) = some 0 ∧
      ((lastEnd processEnv (executor processEnv 2) false [wordCommand "true"]
        (wordCommand "false")
          (Shell.initial {} : Shell Unit Processes).inPipeline).toOption.join.map
            CommandEnd.status) = some 1 := by
  decide +kernel

end Migash.Exec
