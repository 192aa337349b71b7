import Migash.JobStore
import Mathlib.Data.List.Induction

/-! # The state of a job as a summary

The state of a job is computed anew when one of its processes changes its state
and not when a process is added. It then agrees with what `job_is_completed`
finds unless the job had come to its end before.
-/

namespace Migash

theorem mem_updateFirst {α : Type} {p : α → Bool} {f : α → α} {xs : List α} {y : α}
    (h : y ∈ updateFirst p f xs) : y ∈ xs ∨ ∃ x ∈ xs, xs.find? p = some x ∧ y = f x := by
  induction xs with
  | nil => cases h
  | cons x xs ih =>
    unfold updateFirst at h
    split at h
    · next hp =>
      rcases List.mem_cons.mp h with rfl | hmem
      · exact .inr ⟨x, List.mem_cons_self, List.find?_cons_of_pos hp, rfl⟩
      · exact .inl (List.mem_cons_of_mem x hmem)
    · next hp =>
      rcases List.mem_cons.mp h with rfl | hmem
      · exact .inl List.mem_cons_self
      · rcases ih hmem with hmem | ⟨z, hz, hfind, rfl⟩
        · exact .inl (List.mem_cons_of_mem x hmem)
        · exact .inr ⟨z, List.mem_cons_of_mem x hz, (List.find?_cons_of_neg hp).trans hfind, rfl⟩

theorem updateFirst_mem {α : Type} {p : α → Bool} {f : α → α} {xs : List α} {x : α}
    (h : xs.find? p = some x) : f x ∈ updateFirst p f xs := by
  induction xs with
  | nil => cases h
  | cons y ys ih =>
    unfold updateFirst
    by_cases hp : p y = true
    · rw [List.find?_cons_of_pos hp] at h
      cases h
      rw [if_pos hp]
      exact List.mem_cons_self
    · rw [List.find?_cons_of_neg hp] at h
      rw [if_neg hp]
      exact List.mem_cons_of_mem y (ih h)

/-! ## One job -/

namespace Job

/-- The state of a job that has processes agrees with `job_is_completed`. -/
def Summarizes (job : Job) : Prop :=
  job.processes ≠ [] → (job.state.isFinal = true ↔ job.isCompleted = true)

/-- `job_is_completed` asks for the processes that are running or stopped. -/
theorem isCompleted_iff {job : Job} (h : job.processes ≠ []) : job.isCompleted = true ↔
    ¬ ∃ proc ∈ job.processes, proc.state = .running ∨ proc.state = .stopped := by
  simp [isCompleted, h, JobState.isActive, not_or]

theorem updateState_summarizes (job : Job) : job.updateState.Summarizes := by
  intro h
  rw [updateState_processes] at h
  rw [isCompleted_iff (by rwa [updateState_processes]), updateState_processes]
  unfold updateState
  dsimp only
  rw [if_neg h]
  split_ifs with hstopped hrunning hterminated
  · obtain ⟨proc, hmem, hstate⟩ := List.any_eq_true.mp hstopped
    refine iff_of_false (by simp [JobState.isFinal]) (not_not.mpr ⟨proc, hmem, .inr ?_⟩)
    simpa using hstate
  · obtain ⟨proc, hmem, hstate⟩ := List.any_eq_true.mp hrunning
    refine iff_of_false (by simp [JobState.isFinal]) (not_not.mpr ⟨proc, hmem, .inl ?_⟩)
    simpa using hstate
  all_goals
    refine iff_of_true (by simp [JobState.isFinal]) ?_
    rintro ⟨proc, hmem, hstate | hstate⟩
    · exact hrunning (List.any_eq_true.mpr ⟨proc, hmem, by simpa using hstate⟩)
    · exact hstopped (List.any_eq_true.mpr ⟨proc, hmem, by simpa using hstate⟩)

/-- A new process is running, so the job must not have come to its end. -/
theorem addProcess_summarizes_iff (job : Job) (pid : ℤ) (command : String) :
    (job.addProcess pid command).Summarizes ↔ job.state.isFinal = false := by
  have hprocesses : (job.addProcess pid command).processes ≠ [] := by simp [addProcess]
  have hrunning : (job.addProcess pid command).isCompleted = false := by
    rw [Bool.eq_false_iff, ne_eq, isCompleted_iff hprocesses, not_not]
    exact ⟨{ pid, command }, by simp [addProcess], .inl rfl⟩
  unfold Summarizes
  rw [hrunning]
  constructor
  · intro h
    simpa [addProcess] using h hprocesses
  · intro h _
    simpa [addProcess] using h

end Job

/-! ## Runs -/

namespace JobStore

/-- The calls that add jobs and processes and report what has become of them. -/
inductive Report where
  | add (commandLine : String) (isBackground : Bool)
  | addProcess (jobId : ℕ) (pid : ℤ) (command : String)
  | setProcessState (pid : ℤ) (newState : JobState) (exitStatus : ℤ)
  | iterSetState (iter : JobProcessIterator) (newState : JobState) (exitStatus : ℤ)
  deriving Repr

/-- The store after a report. -/
def report (store : JobStore) : Report → JobStore
  | .add commandLine isBackground => store.add commandLine isBackground
  | .addProcess jobId pid command => store.addProcess jobId pid command
  | .setProcessState pid newState exitStatus => store.setProcessState pid newState exitStatus
  | .iterSetState iter newState exitStatus => store.iterSetState iter newState exitStatus

/-- The store after reports on an empty one. -/
def runReports (reports : List Report) : JobStore := reports.foldl report create

/-- Every job's state is the summary of its processes. -/
def Summarized (store : JobStore) : Prop := ∀ job ∈ store.jobs, job.Summarizes

/-- The report does not add a process to a job that has come to its end. -/
def Report.Timely (store : JobStore) : Report → Prop
  | .addProcess jobId _ _ => ∀ job, store.find jobId = some job → job.state.isFinal = false
  | _ => True

theorem Summarized.update {store : JobStore} {p : Job → Bool} {f : Job → Job}
    (h : Summarized store) (hf : ∀ job, store.jobs.find? p = some job → (f job).Summarizes) :
    Summarized { store with jobs := updateFirst p f store.jobs } := by
  intro job hjob
  rcases mem_updateFirst hjob with hmem | ⟨job', hmem, hfind, rfl⟩
  · exact h job hmem
  · exact hf job' hfind

theorem Summarized.report_iff {store : JobStore} (h : Summarized store) (r : Report) :
    Summarized (store.report r) ↔ r.Timely store := by
  cases r with
  | add commandLine isBackground =>
    refine iff_of_true ?_ trivial
    intro job hjob
    have hjobs : ∃ new : Job, new.processes = [] ∧
        (store.add commandLine isBackground).jobs = new :: store.jobs := by
      cases isBackground <;> exact ⟨_, rfl, rfl⟩
    obtain ⟨new, hnone, hjobs⟩ := hjobs
    rw [report, hjobs] at hjob
    rcases List.mem_cons.mp hjob with rfl | hmem
    · exact fun hsome => absurd hnone hsome
    · exact h job hmem
  | addProcess jobId pid command =>
    constructor
    · intro hafter job hfind
      have := hafter _ (updateFirst_mem hfind)
      exact (job.addProcess_summarizes_iff pid command).mp this
    · intro htimely
      exact h.update fun job hfind =>
        (job.addProcess_summarizes_iff pid command).mpr (htimely job hfind)
  | setProcessState pid newState exitStatus =>
    exact iff_of_true (h.update fun job _ => Job.updateState_summarizes _) trivial
  | iterSetState iter newState exitStatus =>
    refine iff_of_true ?_ trivial
    change Summarized (store.iterSetState iter newState exitStatus)
    unfold iterSetState
    split
    · exact h.update fun job _ => Job.updateState_summarizes _
    · exact h

/-- The states of the jobs are summaries throughout a run exactly if no process is added to a job
that has come to its end. -/
theorem runReports_summarized_iff (reports : List Report) :
    (∀ before, before <+: reports → Summarized (runReports before)) ↔
      ∀ before r, before ++ [r] <+: reports → r.Timely (runReports before) := by
  have hconcat : ∀ before r, runReports (before ++ [r]) = (runReports before).report r := by
    intro before r
    simp [runReports]
  constructor
  · intro h before r hprefix
    have hafter := h _ hprefix
    rw [hconcat] at hafter
    exact ((h before ((List.prefix_append before [r]).trans hprefix)).report_iff r).mp hafter
  · intro h before
    induction before using List.reverseRecOn with
    | nil =>
      intro _ job hjob
      cases hjob
    | append_singleton before r ih =>
      intro hprefix
      rw [hconcat]
      exact ((ih ((List.prefix_append before [r]).trans hprefix)).report_iff r).mpr
        (h before r hprefix)

/-- The first process of a pipeline ends before the second one is added: the job stays done. -/
theorem late_process_not_summarized :
    ¬ Summarized (runReports [.add "a | b" true, .addProcess 1 10 "a",
      .setProcessState 10 .done 0, .addProcess 1 11 "b"]) := by
  intro h
  have := h _ List.mem_cons_self (by decide)
  revert this
  decide

end JobStore

end Migash
