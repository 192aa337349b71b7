import Migash.JobStore.Pointers

/-! # The traversal of the active processes

What an iterator has not yet visited is a list of places. A call of
`job_store_active_processes_next` takes the head of it, and a change of the
process the iterator is at leaves it alone.
-/

namespace Migash

/-! ## The operations -/

/-- The scan of the processes from a place of the list on. -/
def scanProcesses : List Process → ℕ → Option ℕ
  | [], _ => none
  | proc :: next, place => if proc.state.isActive then some place else scanProcesses next (place + 1)

/-- The search of the jobs that are left, and the iterator that comes out of it. -/
def searchJobs : List Job → Bool × JobProcessIterator
  | [] => (false, { currentJob := none, currentProcess := none })
  | job :: next =>
    match scanProcesses job.processes 0 with
    | some place => (true, { currentJob := some job.node, currentProcess := some place })
    | none => searchJobs next

namespace JobStore

/-- The jobs from the one that is pointed to. -/
def jobsFrom (store : JobStore) (pointer : Option ℕ) : List Job :=
  match pointer with
  | none => []
  | some node => store.jobs.dropWhile fun job => job.node ≠ node

/-- `job_store_active_processes_begin`. -/
def activeProcessesBegin (store : JobStore) : JobProcessIterator :=
  { currentJob := store.jobs.head?.map Job.node, currentProcess := none }

/-- `job_store_active_processes_next`. -/
def activeProcessesNext (store : JobStore) (iter : JobProcessIterator) :
    Bool × JobProcessIterator :=
  match iter.currentProcess, store.jobsFrom iter.currentJob with
  | none, jobs => searchJobs jobs
  -- The job of the iterator has been freed: the source has no answer here.
  | some _, [] => (false, { currentJob := none, currentProcess := none })
  | some place, job :: next =>
    match scanProcesses (job.processes.drop (place + 1)) (place + 1) with
    | some place => (true, { iter with currentProcess := some place })
    | none => searchJobs next

end JobStore

/-! ## The active places -/

/-- The places of the active processes of a list whose first one is at `place`. -/
def activePlaces : List Process → ℕ → List ℕ
  | [], _ => []
  | proc :: next, place =>
    if proc.state.isActive then place :: activePlaces next (place + 1)
    else activePlaces next (place + 1)

/-- The active processes of a job from a place on, each with the job it belongs to. -/
def Job.activeFrom (job : Job) (start : ℕ) : List (ℕ × ℕ) :=
  (activePlaces (job.processes.drop start) start).map fun place => (job.node, place)

/-- The active processes of the jobs, in the order of the lists. -/
def activeOf (jobs : List Job) : List (ℕ × ℕ) := jobs.flatMap fun job => job.activeFrom 0

theorem mem_activePlaces {processes : List Process} {start place : ℕ} :
    place ∈ activePlaces processes start ↔
      start ≤ place ∧ ∃ proc, processes[place - start]? = some proc ∧ proc.state.isActive := by
  induction processes generalizing start with
  | nil => simp [activePlaces]
  | cons proc next ih =>
    have hnext : place ∈ activePlaces next (start + 1) ↔ start < place ∧
        ∃ other, (proc :: next)[place - start]? = some other ∧ other.state.isActive := by
      rw [ih]
      refine and_congr_right fun hlt => ?_
      have hplace : place - start = place - (start + 1) + 1 := by omega
      rw [hplace, List.getElem?_cons_succ]
    have hsplit : start ≤ place ↔ place = start ∨ start < place := by omega
    rw [activePlaces, hsplit, or_and_right, ← hnext]
    cases hactive : proc.state.isActive with
    | true =>
      rw [if_pos rfl, List.mem_cons]
      refine or_congr_left ⟨?_, fun h => h.1⟩
      rintro rfl
      exact ⟨rfl, proc, by simp, hactive⟩
    | false =>
      rw [if_neg (by simp)]
      refine (or_iff_right ?_).symm
      rintro ⟨rfl, other, hother, hother'⟩
      rw [Nat.sub_self, List.getElem?_cons_zero, Option.some.injEq] at hother
      rw [← hother, hactive] at hother'
      cases hother'

theorem nodup_activePlaces (processes : List Process) (start : ℕ) :
    (activePlaces processes start).Nodup := by
  induction processes generalizing start with
  | nil => exact List.nodup_nil
  | cons proc next ih =>
    have hstart : start ∉ activePlaces next (start + 1) := by
      intro hmem
      have := (mem_activePlaces.mp hmem).1
      omega
    unfold activePlaces
    split
    · exact List.nodup_cons.mpr ⟨hstart, ih (start + 1)⟩
    · exact ih (start + 1)

theorem mem_activeOf {jobs : List Job} {node place : ℕ} :
    (node, place) ∈ activeOf jobs ↔
      ∃ job ∈ jobs, job.node = node ∧
        ∃ proc, job.processes[place]? = some proc ∧ proc.state.isActive := by
  simp [activeOf, Job.activeFrom, mem_activePlaces, and_comm, and_left_comm]

theorem nodup_activeOf {jobs : List Job} (hnodes : (jobs.map Job.node).Nodup) :
    (activeOf jobs).Nodup := by
  refine List.nodup_flatMap.mpr ⟨fun job _ => ?_, ?_⟩
  · refine List.Nodup.map ?_ (nodup_activePlaces _ _)
    intro a b hab
    exact congrArg Prod.snd hab
  · refine (List.pairwise_map.mp hnodes).imp ?_
    intro a b hne pair ha hb
    obtain ⟨_, _, rfl⟩ := List.mem_map.mp ha
    obtain ⟨_, _, heq⟩ := List.mem_map.mp hb
    exact hne (congrArg Prod.fst heq).symm

theorem activePlaces_of_scan_none {processes : List Process} {start : ℕ}
    (h : scanProcesses processes start = none) : activePlaces processes start = [] := by
  induction processes generalizing start with
  | nil => rfl
  | cons proc next ih =>
    rw [scanProcesses] at h
    rw [activePlaces]
    split_ifs at h ⊢
    exact ih h

/-- A scan finds the first active place, and those behind it are left. -/
theorem activePlaces_of_scan_some {processes : List Process} {start place : ℕ}
    (h : scanProcesses processes start = some place) :
    start ≤ place ∧ activePlaces processes start =
      place :: activePlaces (processes.drop (place + 1 - start)) (place + 1) := by
  induction processes generalizing start with
  | nil => cases h
  | cons proc next ih =>
    rw [scanProcesses] at h
    rw [activePlaces]
    split_ifs at h ⊢
    · cases h
      simp
    · obtain ⟨hle, hplaces⟩ := ih h
      have hdrop : place + 1 - start = place + 1 - (start + 1) + 1 := by omega
      exact ⟨by omega, by rw [hplaces, hdrop, List.drop_succ_cons]⟩

/-! ## What is left -/

namespace Job

variable {job : Job} {start place : ℕ}

theorem activeFrom_of_scan_none
    (h : scanProcesses (job.processes.drop start) start = none) : job.activeFrom start = [] := by
  rw [activeFrom, activePlaces_of_scan_none h, List.map_nil]

theorem activeFrom_of_scan_some
    (h : scanProcesses (job.processes.drop start) start = some place) :
    job.activeFrom start = (job.node, place) :: job.activeFrom (place + 1) := by
  obtain ⟨hle, hplaces⟩ := activePlaces_of_scan_some h
  have hdrop : start + (place + 1 - start) = place + 1 := by omega
  rw [activeFrom, hplaces, List.drop_drop, hdrop, List.map_cons, activeFrom]

/-- A change at a place leaves the places behind it alone. -/
theorem activeFrom_setProcess_modify (job : Job) (place : ℕ) (f : Process → Process) :
    (job.setProcess (job.processes.modify place f)).activeFrom (place + 1) =
      job.activeFrom (place + 1) := by
  have hdrop : (job.processes.modify place f).drop (place + 1) = job.processes.drop (place + 1) := by
    refine List.ext_getElem? fun i => ?_
    have hne : place ≠ place + 1 + i := by omega
    rw [List.getElem?_drop, List.getElem?_drop, List.getElem?_modify_ne _ _ hne]
  rw [activeFrom, activeFrom, setProcess_node, setProcess, updateState_processes, hdrop]

end Job

namespace JobStore

variable {store : JobStore} {iter : JobProcessIterator}

/-- The active processes that the iterator has not visited. -/
def remaining (store : JobStore) (iter : JobProcessIterator) : List (ℕ × ℕ) :=
  match iter.currentProcess, store.jobsFrom iter.currentJob with
  | none, jobs => activeOf jobs
  | some _, [] => []
  | some place, job :: next => job.activeFrom (place + 1) ++ activeOf next

theorem jobsFrom_of_eq_append {passed next : List Job} {job : Job}
    (hnodes : (store.jobs.map Job.node).Nodup) (hjobs : store.jobs = passed ++ job :: next) :
    store.jobsFrom (some job.node) = job :: next := by
  have hpassed : ∀ other ∈ passed, decide (other.node ≠ job.node) = true := by
    intro other hother
    rw [hjobs, List.map_append, List.map_cons, List.nodup_append] at hnodes
    exact decide_eq_true (hnodes.2.2 _ (List.mem_map_of_mem hother) _ List.mem_cons_self)
  unfold jobsFrom
  dsimp only
  rw [hjobs, List.dropWhile_append_of_pos hpassed, List.dropWhile_cons_of_neg (by simp)]

/-- The pointer to a job is none behind the last one, and names the first of those left. -/
theorem exists_append_of_jobsFrom {pointer : Option ℕ} {job : Job} {next : List Job}
    (h : store.jobsFrom pointer = job :: next) :
    pointer = some job.node ∧ ∃ passed, store.jobs = passed ++ job :: next := by
  cases pointer with
  | none => cases h
  | some node =>
    dsimp only [jobsFrom] at h
    have hhead := List.head?_dropWhile_not (fun job : Job => decide (job.node ≠ node)) store.jobs
    rw [h] at hhead
    have hnode : job.node = node := by simpa using hhead
    refine ⟨congrArg some hnode.symm, store.jobs.takeWhile fun job => job.node ≠ node, ?_⟩
    rw [← h, List.takeWhile_append_dropWhile]

/-- The answer of `next` is the head of what is left. -/
structure Takes (store : JobStore) (left : List (ℕ × ℕ)) (answer : Bool × JobProcessIterator) :
    Prop where
  found : answer.1 = !left.isEmpty
  place : ∀ node place, left.head? = some (node, place) →
    answer.2 = { currentJob := some node, currentProcess := some place }
  rest : store.remaining answer.2 = left.tail

theorem searchJobs_takes {passed jobs : List Job} (hnodes : (store.jobs.map Job.node).Nodup)
    (hjobs : store.jobs = passed ++ jobs) : Takes store (activeOf jobs) (searchJobs jobs) := by
  induction jobs generalizing passed with
  | nil => exact ⟨rfl, nofun, rfl⟩
  | cons job next ih =>
    have hsplit : activeOf (job :: next) = job.activeFrom 0 ++ activeOf next := rfl
    have hjobs' : store.jobs = (passed ++ [job]) ++ next := by
      rw [hjobs, List.append_assoc, List.singleton_append]
    rw [hsplit, searchJobs, ← job.processes.drop_zero]
    cases hscan : scanProcesses (job.processes.drop 0) 0 with
    | none =>
      rw [Job.activeFrom_of_scan_none hscan]
      exact ih hjobs'
    | some place =>
      rw [Job.activeFrom_of_scan_some hscan]
      refine ⟨rfl, ?_, ?_⟩
      · rintro _ _ ⟨⟩
        rfl
      · simp only [remaining, jobsFrom_of_eq_append hnodes hjobs]
        rfl

theorem activeProcessesNext_takes (hnodes : (store.jobs.map Job.node).Nodup)
    (iter : JobProcessIterator) :
    Takes store (store.remaining iter) (store.activeProcessesNext iter) := by
  obtain ⟨currentJob, currentProcess⟩ := iter
  cases hfrom : store.jobsFrom currentJob with
  | nil =>
    cases currentProcess <;> simp only [activeProcessesNext, remaining, hfrom] <;>
      exact ⟨rfl, nofun, rfl⟩
  | cons job next =>
    obtain ⟨rfl, passed, hjobs⟩ := exists_append_of_jobsFrom hfrom
    have hjobs' : store.jobs = (passed ++ [job]) ++ next := by
      rw [hjobs, List.append_assoc, List.singleton_append]
    cases currentProcess with
    | none =>
      simp only [activeProcessesNext, remaining, hfrom]
      exact searchJobs_takes hnodes hjobs
    | some place =>
      simp only [activeProcessesNext, remaining, hfrom]
      cases hscan : scanProcesses (job.processes.drop (place + 1)) (place + 1) with
      | none =>
        rw [Job.activeFrom_of_scan_none hscan]
        exact searchJobs_takes hnodes hjobs'
      | some found =>
        rw [Job.activeFrom_of_scan_some hscan]
        refine ⟨rfl, ?_, ?_⟩
        · rintro _ _ ⟨⟩
          rfl
        · simp only [remaining, hfrom]
          rfl

/-! ## Changes on the way -/

theorem iterSetState_nodes (store : JobStore) (iter : JobProcessIterator) (newState : JobState)
    (exitStatus : ℤ) :
    (store.iterSetState iter newState exitStatus).jobs.map Job.node = store.jobs.map Job.node := by
  unfold iterSetState
  split
  · exact map_updateFirst (fun job => job.setProcess_node _) _
  · rfl

theorem dropWhile_updateFirst {node : ℕ} {f : Job → Job} (hf : ∀ job, (f job).node = job.node)
    (jobs : List Job) :
    (updateFirst (fun job => decide (job.node = node)) f jobs).dropWhile
        (fun job => decide (job.node ≠ node)) =
      match jobs.dropWhile fun job => decide (job.node ≠ node) with
      | [] => []
      | job :: next => f job :: next := by
  induction jobs with
  | nil => rfl
  | cons job next ih =>
    by_cases hnode : job.node = node
    · rw [updateFirst, if_pos (by simpa using hnode), List.dropWhile_cons_of_neg (by simp [hf, hnode]),
        List.dropWhile_cons_of_neg (by simp [hnode])]
    · rw [updateFirst, if_neg (by simpa using hnode), List.dropWhile_cons_of_pos (by simp [hnode]),
        List.dropWhile_cons_of_pos (by simp [hnode]), ih]

/-- A change of the process the iterator is at takes nothing from what is left. -/
theorem remaining_iterSetState (store : JobStore) (iter : JobProcessIterator)
    (newState : JobState) (exitStatus : ℤ) :
    (store.iterSetState iter newState exitStatus).remaining iter = store.remaining iter := by
  obtain ⟨currentJob, currentProcess⟩ := iter
  cases currentJob with
  | none => cases currentProcess <;> rfl
  | some node =>
    cases currentProcess with
    | none => rfl
    | some place =>
      dsimp only [remaining, iterSetState, jobsFrom]
      rw [dropWhile_updateFirst fun job => job.setProcess_node _]
      cases store.jobs.dropWhile fun job => decide (job.node ≠ node) with
      | nil => rfl
      | cons job next =>
        dsimp only
        rw [Job.activeFrom_setProcess_modify]

/-- Calls of `job_store_iter_set_state`, each with a state and an exit status. -/
def iterSetStates (store : JobStore) (iter : JobProcessIterator) (changes : List (JobState × ℤ)) :
    JobStore :=
  changes.foldl (fun store change => store.iterSetState iter change.1 change.2) store

theorem iterSetStates_keeps (store : JobStore) (iter : JobProcessIterator)
    (changes : List (JobState × ℤ)) :
    (store.iterSetStates iter changes).jobs.map Job.node = store.jobs.map Job.node ∧
      (store.iterSetStates iter changes).remaining iter = store.remaining iter := by
  induction changes generalizing store with
  | nil => exact ⟨rfl, rfl⟩
  | cons change changes ih =>
    obtain ⟨hnodes, hleft⟩ := ih (store.iterSetState iter change.1 change.2)
    exact ⟨hnodes.trans (iterSetState_nodes ..), hleft.trans (remaining_iterSetState ..)⟩

/-! ## The traversal -/

/-- The store at the `n`-th call of `next` and the answer of the call. Behind each call the caller
makes changes of the process the iterator is at. -/
def traversal (store : JobStore) (changes : ℕ → List (JobState × ℤ)) :
    ℕ → JobStore × Bool × JobProcessIterator
  | 0 => (store, store.activeProcessesNext store.activeProcessesBegin)
  | n + 1 =>
    let (store, _, iter) := store.traversal changes n
    let store := store.iterSetStates iter (changes n)
    (store, store.activeProcessesNext iter)

theorem remaining_begin (store : JobStore) :
    store.remaining store.activeProcessesBegin = activeOf store.jobs := by
  unfold remaining activeProcessesBegin jobsFrom
  cases hjobs : store.jobs with
  | nil => rfl
  | cons job next => simp

/-- At the `n`-th call the first `n` active processes have been visited. -/
theorem traversal_takes (hnodes : (store.jobs.map Job.node).Nodup)
    (changes : ℕ → List (JobState × ℤ)) (n : ℕ) :
    ((store.traversal changes n).1.jobs.map Job.node).Nodup ∧
      Takes (store.traversal changes n).1 ((activeOf store.jobs).drop n)
        (store.traversal changes n).2 := by
  induction n with
  | zero =>
    refine ⟨hnodes, ?_⟩
    rw [List.drop_zero, ← remaining_begin]
    exact activeProcessesNext_takes hnodes _
  | succ n ih =>
    obtain ⟨hnodes, htakes⟩ := ih
    rw [traversal]
    obtain ⟨hkept, hleft⟩ := iterSetStates_keeps (store.traversal changes n).1
      (store.traversal changes n).2.2 (changes n)
    rw [← hkept] at hnodes
    rw [htakes.rest, List.tail_drop] at hleft
    exact ⟨hnodes, hleft ▸ activeProcessesNext_takes hnodes _⟩

/-- What a traversal promises: every active process once and in order, and nothing behind them. -/
structure VisitsActive (store : JobStore) (changes : ℕ → List (JobState × ℤ)) : Prop where
  visit : ∀ n node place, (activeOf store.jobs)[n]? = some (node, place) →
    (store.traversal changes n).2 =
      (true, { currentJob := some node, currentProcess := some place })
  ended : ∀ n, (activeOf store.jobs).length ≤ n → (store.traversal changes n).2.1 = false
  once : (activeOf store.jobs).Nodup
  active : ∀ node place, (node, place) ∈ activeOf store.jobs ↔
    ∃ job ∈ store.jobs, job.node = node ∧
      ∃ proc, job.processes[place]? = some proc ∧ proc.state.isActive

/-- The iterator visits the active processes of any list of jobs, whatever the caller makes of the
process it is at. -/
theorem traversal_visits (store : JobStore) (hnodes : (store.jobs.map Job.node).Nodup)
    (changes : ℕ → List (JobState × ℤ)) : VisitsActive store changes where
  visit := by
    intro n node place hget
    obtain ⟨_, htakes⟩ := traversal_takes hnodes changes n
    rw [← List.head?_drop] at hget
    refine Prod.ext ?_ (htakes.place node place hget)
    rw [htakes.found]
    cases hdrop : (activeOf store.jobs).drop n with
    | nil =>
      rw [hdrop] at hget
      cases hget
    | cons _ _ => rfl
  ended := by
    intro n hlength
    obtain ⟨_, htakes⟩ := traversal_takes hnodes changes n
    rw [htakes.found, List.drop_eq_nil_of_le hlength]
    rfl
  once := nodup_activeOf hnodes
  active := fun _ _ => mem_activeOf

/-- A run of calls leaves the jobs at different places, here with a process that is done. -/
theorem traversal_visits_run :
    let store := run [.add "a" true, .addProcess 1 10 "a", .add "b" false, .addProcess 2 20 "b",
      .addProcess 2 21 "c", .setProcessState 20 .done 0]
    VisitsActive store fun _ => [(.done, 0)] :=
  traversal_visits _ (sound_run _).nodes _

end JobStore

end Migash
