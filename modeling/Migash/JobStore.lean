import Mathlib.Data.Int.Notation
import Mathlib.Data.Nat.Notation
import Mathlib.Tactic.SplitIfs

/-! # The job store

The list of background and foreground jobs with the processes of each. A
pointer to a job is the number of its allocation, so that a pointer to a freed
job names no job.
-/

namespace Migash

/-- `job_state_t`. -/
inductive JobState where
  | running | stopped | done | terminated
  deriving DecidableEq, Repr

/-- `process_t`. -/
structure Process where
  pid : ℤ
  command : String
  state : JobState := .running
  exitStatus : ℤ := 0
  deriving DecidableEq, Repr

/-- `job_t`, with the number of its allocation. -/
structure Job where
  node : ℕ
  jobId : ℕ
  pgid : ℤ := 0
  processes : List Process := []
  commandLine : String
  state : JobState := .running
  isBackground : Bool
  isNotified : Bool := false
  deriving DecidableEq, Repr

/-- `job_store_t`, with the number of jobs allocated so far. -/
structure JobStore where
  jobs : List Job := []
  currentJob : Option ℕ := none
  previousJob : Option ℕ := none
  jobCount : ℕ := 0
  nextJobId : ℕ := 1
  allocated : ℕ := 0
  deriving DecidableEq, Repr

/-- The first element that satisfies `p` is changed, if there is one. -/
def updateFirst {α : Type} (p : α → Bool) (f : α → α) : List α → List α
  | [] => []
  | x :: xs => if p x then f x :: xs else x :: updateFirst p f xs

/-! ## The state of a job -/

namespace JobState

/-- The process can still change its state. -/
def isActive (state : JobState) : Bool := state = .running || state = .stopped

/-- The overall states of a job that has come to its end. -/
def isFinal (state : JobState) : Bool := state = .done || state = .terminated

end JobState

namespace Job

/-- `job_update_state`. -/
def updateState (job : Job) : Job :=
  let has (state : JobState) := job.processes.any fun proc => proc.state = state
  if job.processes = [] then job
  else if has .stopped then { job with state := .stopped }
  else if has .running then { job with state := .running }
  else if has .terminated then { job with state := .terminated }
  else { job with state := .done }

/-- `job_is_completed`. -/
def isCompleted (job : Job) : Bool :=
  if job.processes = [] then job.state.isFinal
  else job.processes.all fun proc => !proc.state.isActive

/-- The part of `job_store_add_process` on the job it has found. -/
def addProcess (job : Job) (pid : ℤ) (command : String) : Job :=
  { job with
    processes := job.processes ++ [{ pid, command }]
    pgid := if job.processes = [] then pid else job.pgid }

/-- A process changes its state, and the job's state is computed anew. -/
def setProcess (job : Job) (processes : List Process) : Job := updateState { job with processes }

theorem updateState_node (job : Job) : job.updateState.node = job.node := by
  unfold updateState
  dsimp only
  split_ifs <;> rfl

theorem updateState_jobId (job : Job) : job.updateState.jobId = job.jobId := by
  unfold updateState
  dsimp only
  split_ifs <;> rfl

theorem updateState_processes (job : Job) : job.updateState.processes = job.processes := by
  unfold updateState
  dsimp only
  split_ifs <;> rfl

theorem setProcess_node (job : Job) (processes : List Process) :
    (job.setProcess processes).node = job.node := updateState_node _

theorem setProcess_jobId (job : Job) (processes : List Process) :
    (job.setProcess processes).jobId = job.jobId := updateState_jobId _

end Job

/-- The new state and exit status of a process. -/
def Process.set (proc : Process) (state : JobState) (exitStatus : ℤ) : Process :=
  { proc with state, exitStatus }

/-- `job_process_iterator_t`: the job and the place of the process in its list. -/
structure JobProcessIterator where
  currentJob : Option ℕ
  currentProcess : Option ℕ
  deriving DecidableEq, Repr

namespace JobStore

/-! ## The operations -/

/-- `job_store_create`. -/
def create : JobStore := {}

/-- `job_store_add`, without the id it returns. -/
def add (store : JobStore) (commandLine : String) (isBackground : Bool) : JobStore :=
  let job : Job :=
    { node := store.allocated, jobId := store.nextJobId, commandLine, isBackground }
  let store := { store with
    jobs := job :: store.jobs
    jobCount := store.jobCount + 1
    nextJobId := store.nextJobId + 1
    allocated := store.allocated + 1 }
  if isBackground then
    { store with previousJob := store.currentJob, currentJob := some job.node }
  else store

/-- `job_store_find`. -/
def find (store : JobStore) (jobId : ℕ) : Option Job := store.jobs.find? fun job => job.jobId = jobId

/-- A change of the job that `job_store_find` finds. -/
def updateJob (store : JobStore) (jobId : ℕ) (f : Job → Job) : JobStore :=
  { store with jobs := updateFirst (fun job => job.jobId = jobId) f store.jobs }

/-- `job_store_add_process`. -/
def addProcess (store : JobStore) (jobId : ℕ) (pid : ℤ) (command : String) : JobStore :=
  store.updateJob jobId fun job => job.addProcess pid command

/-- `job_store_set_state`. -/
def setState (store : JobStore) (jobId : ℕ) (newState : JobState) : JobStore :=
  store.updateJob jobId fun job => { job with state := newState }

/-- `job_store_set_process_state`: the first process with the given number, in any job. -/
def setProcessState (store : JobStore) (pid : ℤ) (newState : JobState) (exitStatus : ℤ) :
    JobStore :=
  let hasPid (proc : Process) : Bool := proc.pid = pid
  let update (job : Job) : Job :=
    job.setProcess (updateFirst hasPid (fun proc => proc.set newState exitStatus) job.processes)
  { store with jobs := updateFirst (fun job => job.processes.any hasPid) update store.jobs }

/-- `job_store_iter_set_state`. -/
def iterSetState (store : JobStore) (iter : JobProcessIterator) (newState : JobState)
    (exitStatus : ℤ) : JobStore :=
  match iter.currentJob, iter.currentProcess with
  | some node, some index =>
    let update (job : Job) : Job :=
      job.setProcess (job.processes.modify index fun proc => proc.set newState exitStatus)
    { store with jobs := updateFirst (fun job => job.node = node) update store.jobs }
  | _, _ => store

/-- `job_store_mark_notified`. -/
def markNotified (store : JobStore) (jobId : ℕ) : JobStore :=
  store.updateJob jobId fun job => { job with isNotified := true }

/-- The repair of the two pointers before a job is freed, and the count after it. -/
def forget (store : JobStore) (job : Job) : JobStore :=
  let gone (pointer : Option ℕ) := pointer = some job.node
  { store with
    currentJob :=
      if gone store.currentJob then if gone store.previousJob then none else store.previousJob
      else store.currentJob
    previousJob := if gone store.previousJob then none else store.previousJob
    jobCount := store.jobCount - 1 }

/-- `job_store_remove`. -/
def remove (store : JobStore) (jobId : ℕ) : JobStore :=
  match store.find jobId with
  | none => store
  | some job =>
    { store.forget job with jobs := store.jobs.eraseP fun job => job.jobId = jobId }

/-- The job is one that `job_store_remove_completed` frees. -/
def sweeps (job : Job) : Bool := job.isCompleted && job.isNotified

/-- The loop of `job_store_remove_completed` over the jobs from the current one on. -/
def sweep (store : JobStore) : List Job → JobStore
  | [] => { store with jobs := [] }
  | curr :: next =>
    if sweeps curr then (store.forget curr).sweep next
    else
      let store := store.sweep next
      { store with jobs := curr :: store.jobs }

/-- `job_store_remove_completed`, without the number it returns. -/
def removeCompleted (store : JobStore) : JobStore := store.sweep store.jobs

end JobStore

end Migash
