import Migash.JobStore
import Mathlib.Data.List.Induction
import Mathlib.Data.List.Nodup

/-! # The current and the previous job

The two pointers always name jobs of the list. They name different ones except
after the current job is freed and the previous one is not: the previous job
then becomes the current one and stays the previous one.
-/

namespace Migash

/-! ## Lists -/

section Lists

variable {α β : Type} {p : α → Bool} {f : α → α}

theorem map_updateFirst {g : α → β} (h : ∀ x, g (f x) = g x) (xs : List α) :
    (updateFirst p f xs).map g = xs.map g := by
  induction xs with
  | nil => rfl
  | cons x xs ih =>
    unfold updateFirst
    split
    · simp only [List.map_cons, h]
    · simp only [List.map_cons, ih]

theorem eraseP_eq_filter {xs : List α} (h : xs.Pairwise fun a b => p a = true → p b = false) :
    xs.eraseP p = xs.filter fun x => !p x := by
  induction xs with
  | nil => rfl
  | cons x xs ih =>
    obtain ⟨hx, hxs⟩ := List.pairwise_cons.mp h
    cases hp : p x with
    | false => simp [hp, ih hxs]
    | true =>
      have hall : ∀ y ∈ xs, (!p y) = true := by
        intro y hy
        simp [hx y hy hp]
      simp [hp, List.filter_eq_self.mpr hall]

theorem filter_eq_of_find? {xs : List α} {a : α}
    (h : xs.Pairwise fun a b => p a = true → p b = false) (hfind : xs.find? p = some a) :
    xs.filter p = [a] := by
  induction xs with
  | nil => cases hfind
  | cons x xs ih =>
    obtain ⟨hx, hxs⟩ := List.pairwise_cons.mp h
    cases hp : p x with
    | false =>
      rw [List.find?_cons_of_neg (by simp [hp])] at hfind
      rw [List.filter_cons_of_neg (by simp [hp])]
      exact ih hxs hfind
    | true =>
      rw [List.find?_cons_of_pos hp] at hfind
      cases hfind
      have hnone : xs.filter p = [] := by
        rw [List.filter_eq_nil_iff]
        intro y hy
        simp [hx y hy hp]
      rw [List.filter_cons_of_pos hp, hnone]

end Lists

namespace JobStore

variable {store store' : JobStore} {p : Job → Bool}

/-! ## Runs -/

/-- The calls that change a job store. -/
inductive Call where
  | add (commandLine : String) (isBackground : Bool)
  | addProcess (jobId : ℕ) (pid : ℤ) (command : String)
  | setState (jobId : ℕ) (newState : JobState)
  | setProcessState (pid : ℤ) (newState : JobState) (exitStatus : ℤ)
  | markNotified (jobId : ℕ)
  | remove (jobId : ℕ)
  | removeCompleted
  deriving Repr

/-- The store after a call. -/
def call (store : JobStore) : Call → JobStore
  | .add commandLine isBackground => store.add commandLine isBackground
  | .addProcess jobId pid command => store.addProcess jobId pid command
  | .setState jobId newState => store.setState jobId newState
  | .setProcessState pid newState exitStatus => store.setProcessState pid newState exitStatus
  | .markNotified jobId => store.markNotified jobId
  | .remove jobId => store.remove jobId
  | .removeCompleted => store.removeCompleted

/-- The store after calls on an empty one. -/
def run (calls : List Call) : JobStore := calls.foldl call create

@[simp] theorem run_nil : run [] = create := rfl

@[simp] theorem run_concat (calls : List Call) (c : Call) : run (calls ++ [c]) = (run calls).call c := by
  simp [run]

/-! ## What a freed job leaves behind -/

/-- The pointer is one to a job of the list. -/
def pointsInto (pointer : Option ℕ) (jobs : List Job) : Bool :=
  jobs.any fun job => pointer = some job.node

/-- What a pointer is after the jobs are freed. -/
def afterFree (jobs : List Job) (pointer : Option ℕ) : Option ℕ :=
  if pointsInto pointer jobs then none else pointer

theorem pointsInto_eq_true {pointer : Option ℕ} {jobs : List Job} :
    pointsInto pointer jobs = true ↔ ∃ job ∈ jobs, pointer = some job.node := by
  simp [pointsInto]

@[simp] theorem pointsInto_none (jobs : List Job) : pointsInto none jobs = false := by
  simp [pointsInto]

theorem pointsInto_cons (job : Job) (jobs : List Job) (pointer : Option ℕ) :
    pointsInto pointer (job :: jobs) =
      (decide (pointer = some job.node) || pointsInto pointer jobs) := rfl

@[simp] theorem afterFree_nil (pointer : Option ℕ) : afterFree [] pointer = pointer := rfl

@[simp] theorem afterFree_none (jobs : List Job) : afterFree jobs none = none := by
  simp [afterFree]

theorem afterFree_cons (job : Job) (jobs : List Job) (pointer : Option ℕ) :
    afterFree (job :: jobs) pointer =
      afterFree jobs (if pointer = some job.node then none else pointer) := by
  by_cases h : pointer = some job.node
  · simp [h, afterFree, pointsInto]
  · simp [h, afterFree, pointsInto]

@[simp] theorem forget_jobCount (store : JobStore) (job : Job) :
    (store.forget job).jobCount = store.jobCount - 1 := rfl

@[simp] theorem forget_previousJob (store : JobStore) (job : Job) :
    (store.forget job).previousJob =
      if store.previousJob = some job.node then none else store.previousJob := rfl

@[simp] theorem forget_currentJob (store : JobStore) (job : Job) :
    (store.forget job).currentJob =
      if store.currentJob = some job.node then
        if store.previousJob = some job.node then none else store.previousJob
      else store.currentJob := rfl

/-- The jobs that satisfy `p` are freed. -/
structure Freed (p : Job → Bool) (store store' : JobStore) : Prop where
  jobs : store'.jobs = store.jobs.filter fun job => !p job
  jobCount : store'.jobCount = store.jobCount - (store.jobs.filter p).length
  nextJobId : store'.nextJobId = store.nextJobId
  allocated : store'.allocated = store.allocated
  previousJob : store'.previousJob = afterFree (store.jobs.filter p) store.previousJob
  currentJob : store'.currentJob =
    if pointsInto store.currentJob (store.jobs.filter p) then
      afterFree (store.jobs.filter p) store.previousJob
    else store.currentJob

/-- The loop frees the jobs it meets, in this order. -/
theorem sweep_spec (store : JobStore) (jobs : List Job) :
    Freed sweeps { store with jobs } (store.sweep jobs) := by
  induction jobs generalizing store with
  | nil => exact ⟨rfl, rfl, rfl, rfl, rfl, rfl⟩
  | cons curr next ih =>
    unfold sweep
    cases hsweeps : sweeps curr with
    | false =>
      have h := ih store
      exact {
        jobs := by simp [hsweeps, h.jobs]
        jobCount := by simpa [hsweeps] using h.jobCount
        nextJobId := h.nextJobId
        allocated := h.allocated
        previousJob := by simpa [hsweeps] using h.previousJob
        currentJob := by simpa [hsweeps] using h.currentJob }
    | true =>
      have h := ih (store.forget curr)
      rw [if_pos rfl]
      exact {
        jobs := by simpa [hsweeps] using h.jobs
        jobCount := by
          rw [h.jobCount]
          simp only [forget_jobCount, List.filter_cons_of_pos hsweeps, List.length_cons]
          omega
        nextJobId := h.nextJobId
        allocated := h.allocated
        previousJob := by
          rw [h.previousJob]
          simp only [forget_previousJob, List.filter_cons_of_pos hsweeps, afterFree_cons]
        currentJob := by
          rw [h.currentJob]
          simp only [forget_currentJob, forget_previousJob, List.filter_cons_of_pos hsweeps,
            afterFree_cons, pointsInto_cons]
          by_cases hcurrent : store.currentJob = some curr.node
          · -- The current job is freed here: the pointer goes on as the previous one.
            by_cases hprevious : store.previousJob = some curr.node
            · simp [hcurrent, hprevious]
            · simp only [hcurrent, hprevious, if_true, if_false, decide_true, Bool.true_or,
                afterFree]
              split <;> rfl
          · simp [hcurrent] }

theorem removeCompleted_freed (store : JobStore) : Freed sweeps store store.removeCompleted :=
  sweep_spec store store.jobs

/-! ## The invariant -/

/-- What holds of the list and the pointers whatever is freed. -/
structure Sound (store : JobStore) : Prop where
  jobCount : store.jobCount = store.jobs.length
  ids : (store.jobs.map Job.jobId).Nodup
  ids_lt : ∀ id ∈ store.jobs.map Job.jobId, id < store.nextJobId
  nodes : (store.jobs.map Job.node).Nodup
  nodes_lt : ∀ node ∈ store.jobs.map Job.node, node < store.allocated
  currentJob : ∀ node, store.currentJob = some node → node ∈ store.jobs.map Job.node
  previousJob : ∀ node, store.previousJob = some node → node ∈ store.jobs.map Job.node

/-- `%+` and `%-` name different jobs. -/
def Distinct (store : JobStore) : Prop :=
  ∀ node, store.currentJob = some node → store.previousJob ≠ some node

theorem sound_create : Sound create where
  jobCount := rfl
  ids := List.nodup_nil
  ids_lt := by simp [create]
  nodes := List.nodup_nil
  nodes_lt := by simp [create]
  currentJob := by simp [create]
  previousJob := by simp [create]

/-- The job that `job_store_add` puts at the front of the list. -/
def newJob (store : JobStore) (commandLine : String) (isBackground : Bool) : Job :=
  { node := store.allocated, jobId := store.nextJobId, commandLine, isBackground }

theorem add_jobs (store : JobStore) (commandLine : String) (isBackground : Bool) :
    (store.add commandLine isBackground).jobs =
      store.newJob commandLine isBackground :: store.jobs := by
  cases isBackground <;> rfl

theorem Sound.add (h : Sound store) (commandLine : String) (isBackground : Bool) :
    Sound (store.add commandLine isBackground) where
  jobCount := by
    rw [add_jobs, List.length_cons, ← h.jobCount]
    cases isBackground <;> rfl
  ids := by
    rw [add_jobs, List.map_cons, List.nodup_cons]
    exact ⟨fun hmem => Nat.lt_irrefl _ (h.ids_lt _ hmem), h.ids⟩
  ids_lt := by
    have hnext : (store.add commandLine isBackground).nextJobId = store.nextJobId + 1 := by
      cases isBackground <;> rfl
    intro id hid
    rw [hnext]
    rw [add_jobs] at hid
    rcases List.mem_cons.mp hid with rfl | hid
    · exact Nat.lt_succ_self _
    · exact Nat.lt_succ_of_lt (h.ids_lt id hid)
  nodes := by
    rw [add_jobs, List.map_cons, List.nodup_cons]
    exact ⟨fun hmem => Nat.lt_irrefl _ (h.nodes_lt _ hmem), h.nodes⟩
  nodes_lt := by
    have hnext : (store.add commandLine isBackground).allocated = store.allocated + 1 := by
      cases isBackground <;> rfl
    intro node hnode
    rw [hnext]
    rw [add_jobs] at hnode
    rcases List.mem_cons.mp hnode with rfl | hnode
    · exact Nat.lt_succ_self _
    · exact Nat.lt_succ_of_lt (h.nodes_lt node hnode)
  currentJob := by
    intro node hnode
    rw [add_jobs, List.map_cons]
    cases isBackground with
    | false => exact List.mem_cons_of_mem _ (h.currentJob node hnode)
    | true =>
      cases hnode
      exact List.mem_cons_self
  previousJob := by
    intro node hnode
    rw [add_jobs, List.map_cons]
    cases isBackground with
    | false => exact List.mem_cons_of_mem _ (h.previousJob node hnode)
    | true => exact List.mem_cons_of_mem _ (h.currentJob node hnode)

/-- A change of jobs that keeps where and which they are. -/
theorem Sound.withJobs (h : Sound store) {jobs : List Job}
    (hnodes : jobs.map Job.node = store.jobs.map Job.node)
    (hids : jobs.map Job.jobId = store.jobs.map Job.jobId) : Sound { store with jobs } where
  jobCount := by
    have := congrArg List.length hnodes
    rw [List.length_map, List.length_map] at this
    exact h.jobCount.trans this.symm
  ids := hids ▸ h.ids
  ids_lt := fun id hid => h.ids_lt id (hids ▸ hid)
  nodes := hnodes ▸ h.nodes
  nodes_lt := fun node hnode => h.nodes_lt node (hnodes ▸ hnode)
  currentJob := fun node hnode => by
    have := h.currentJob node hnode
    rw [← hnodes] at this
    exact this
  previousJob := fun node hnode => by
    have := h.previousJob node hnode
    rw [← hnodes] at this
    exact this

/-- A change of one job that keeps where and which it is. -/
theorem Sound.update (h : Sound store) {f : Job → Job} (hnode : ∀ job, (f job).node = job.node)
    (hid : ∀ job, (f job).jobId = job.jobId) :
    Sound { store with jobs := updateFirst p f store.jobs } :=
  h.withJobs (map_updateFirst hnode _) (map_updateFirst hid _)

theorem Sound.freed (h : Sound store) (hfreed : Freed p store store') : Sound store' := by
  have hsub : store'.jobs.Sublist store.jobs := by
    rw [hfreed.jobs]
    exact List.filter_sublist
  have hnodes := hsub.map Job.node
  have hids := hsub.map Job.jobId
  have hkept : ∀ {pointer : Option ℕ}, (∀ node, pointer = some node → node ∈ store.jobs.map Job.node) →
      pointsInto pointer (store.jobs.filter p) = false →
      ∀ node, pointer = some node → node ∈ store'.jobs.map Job.node := by
    intro pointer hin hout node heq
    obtain ⟨job, hjob, rfl⟩ := List.mem_map.mp (hin node heq)
    refine List.mem_map.mpr ⟨job, ?_, rfl⟩
    rw [hfreed.jobs, List.mem_filter]
    refine ⟨hjob, ?_⟩
    cases hp : p job with
    | false => rfl
    | true =>
      have := pointsInto_eq_true.mpr ⟨job, List.mem_filter.mpr ⟨hjob, hp⟩, heq⟩
      rw [hout] at this
      cases this
  have hprevious : ∀ node, afterFree (store.jobs.filter p) store.previousJob = some node →
      node ∈ store'.jobs.map Job.node := by
    intro node hnode
    unfold afterFree at hnode
    split at hnode
    · cases hnode
    · next hout => exact hkept h.previousJob (by simpa using hout) node hnode
  exact {
    jobCount := by
      have := List.length_eq_length_filter_add (l := store.jobs) p
      rw [hfreed.jobCount, hfreed.jobs, h.jobCount]
      omega
    ids := h.ids.sublist hids
    ids_lt := fun id hid => by
      rw [hfreed.nextJobId]
      exact h.ids_lt id (hids.subset hid)
    nodes := h.nodes.sublist hnodes
    nodes_lt := fun node hnode => by
      rw [hfreed.allocated]
      exact h.nodes_lt node (hnodes.subset hnode)
    currentJob := by
      intro node hnode
      rw [hfreed.currentJob] at hnode
      split at hnode
      · exact hprevious node hnode
      · next hout => exact hkept h.currentJob (by simpa using hout) node hnode
    previousJob := by
      intro node hnode
      rw [hfreed.previousJob] at hnode
      exact hprevious node hnode }

theorem Sound.remove_freed (h : Sound store) (jobId : ℕ) :
    Freed (fun job => job.jobId = jobId) store (store.remove jobId) := by
  have hpair : store.jobs.Pairwise fun a b => decide (a.jobId = jobId) = true →
      decide (b.jobId = jobId) = false := by
    refine (List.pairwise_map.mp h.ids).imp ?_
    intro a b hne ha
    simp only [decide_eq_true_eq] at ha
    simp only [decide_eq_false_iff_not]
    exact fun hb => hne (ha.trans hb.symm)
  unfold JobStore.remove
  cases hfind : store.find jobId with
  | none =>
    have hnone : store.jobs.filter (fun job => job.jobId = jobId) = [] := by
      rw [List.filter_eq_nil_iff]
      exact List.find?_eq_none.mp hfind
    have hall : store.jobs.filter (fun job => !decide (job.jobId = jobId)) = store.jobs := by
      rw [List.filter_eq_self]
      intro job hjob
      simpa using List.find?_eq_none.mp hfind job hjob
    exact ⟨hall.symm, by simp [hnone], rfl, rfl, by simp [hnone], by simp [hnone, pointsInto]⟩
  | some job =>
    have hfreed : store.jobs.filter (fun job => job.jobId = jobId) = [job] :=
      filter_eq_of_find? hpair hfind
    exact {
      jobs := eraseP_eq_filter hpair
      jobCount := by simp [hfreed]
      nextJobId := rfl
      allocated := rfl
      previousJob := by simp [hfreed, afterFree_cons]
      currentJob := by
        simp only [hfreed, pointsInto_cons, afterFree_cons, afterFree_nil, forget_currentJob]
        simp [pointsInto] }

/-! ## Which calls keep the jobs apart -/

/-- The jobs that a call frees. -/
def Call.frees : Call → Job → Bool
  | .remove jobId, job => job.jobId = jobId
  | .removeCompleted, job => sweeps job
  | _, _ => false

/-- The call does not free the current job and leave the previous one. -/
def KeepsPair (p : Job → Bool) (store : JobStore) : Prop :=
  ∀ current ∈ store.jobs, store.currentJob = some current.node → p current = true →
    ∀ previous ∈ store.jobs, store.previousJob = some previous.node → p previous = true

theorem Sound.call (h : Sound store) (c : Call) : Sound (store.call c) := by
  cases c with
  | add commandLine isBackground => exact h.add commandLine isBackground
  | addProcess jobId pid command => exact h.update (fun _ => rfl) fun _ => rfl
  | setState jobId newState => exact h.update (fun _ => rfl) fun _ => rfl
  | setProcessState pid newState exitStatus =>
    exact h.update (fun job => job.setProcess_node _) fun job => job.setProcess_jobId _
  | markNotified jobId => exact h.update (fun _ => rfl) fun _ => rfl
  | remove jobId => exact h.freed (h.remove_freed jobId)
  | removeCompleted => exact h.freed (removeCompleted_freed store)

/-- Freeing jobs keeps the two pointers apart exactly if the previous job does not outlive the
current one. -/
theorem Sound.freed_distinct_iff (h : Sound store) (hdistinct : Distinct store)
    (hfreed : Freed p store store') : Distinct store' ↔ KeepsPair p store := by
  unfold Distinct
  rw [hfreed.currentJob, hfreed.previousJob]
  by_cases hcurrent : pointsInto store.currentJob (store.jobs.filter p) = true
  · rw [if_pos hcurrent]
    obtain ⟨current, hmem, heq⟩ := pointsInto_eq_true.mp hcurrent
    obtain ⟨hjob, hp⟩ := List.mem_filter.mp hmem
    constructor
    · intro hnone current' hjob' heq' hp' previous hprevious hpointer
      by_contra hleft
      have hout : pointsInto store.previousJob (store.jobs.filter p) = false := by
        rw [Bool.eq_false_iff]
        intro hin
        obtain ⟨job, hjob, hsame⟩ := pointsInto_eq_true.mp hin
        obtain ⟨hjob, hp⟩ := List.mem_filter.mp hjob
        rw [hpointer, Option.some.injEq] at hsame
        cases List.inj_on_of_nodup_map h.nodes hprevious hjob hsame
        exact hleft hp
      have hafter : afterFree (store.jobs.filter p) store.previousJob = some previous.node := by
        rw [afterFree, hout, hpointer]
        rfl
      exact hnone previous.node hafter hafter
    · intro hkeeps node hafter
      exfalso
      unfold afterFree at hafter
      split at hafter
      · cases hafter
      · next hout =>
        obtain ⟨previous, hprevious, rfl⟩ := List.mem_map.mp (h.previousJob node hafter)
        have hp := hkeeps current hjob heq hp previous hprevious hafter
        exact hout (pointsInto_eq_true.mpr
          ⟨previous, List.mem_filter.mpr ⟨hprevious, hp⟩, hafter⟩)
  · rw [if_neg hcurrent]
    have hkeeps : KeepsPair p store := by
      intro current hjob heq hp
      exact absurd (pointsInto_eq_true.mpr ⟨current, List.mem_filter.mpr ⟨hjob, hp⟩, heq⟩) hcurrent
    refine ⟨fun _ => hkeeps, fun _ node hnode hafter => ?_⟩
    unfold afterFree at hafter
    split at hafter
    · cases hafter
    · exact hdistinct node hnode hafter

theorem keepsPair_of_frees_nothing (hp : ∀ job, p job = false) : KeepsPair p store := by
  intro current _ _ hcurrent
  rw [hp current] at hcurrent
  cases hcurrent

theorem Sound.call_distinct_iff (h : Sound store) (hdistinct : Distinct store) (c : Call) :
    Distinct (store.call c) ↔ KeepsPair c.frees store := by
  cases c with
  | remove jobId => exact h.freed_distinct_iff hdistinct (h.remove_freed jobId)
  | removeCompleted => exact h.freed_distinct_iff hdistinct (removeCompleted_freed store)
  | add commandLine isBackground =>
    refine iff_of_true ?_ (keepsPair_of_frees_nothing fun _ => rfl)
    cases isBackground with
    | false => exact hdistinct
    | true =>
      -- The new job is at a place that no pointer has had.
      rintro node ⟨⟩ hprevious
      exact Nat.lt_irrefl _ (h.nodes_lt _ (h.currentJob _ hprevious))
  | addProcess _ _ _ | setState _ _ | setProcessState _ _ _ | markNotified _ =>
    exact iff_of_true hdistinct (keepsPair_of_frees_nothing fun _ => rfl)

/-- What a job store promises of its list and its two pointers. -/
structure Consistent (store : JobStore) : Prop where
  jobCount : store.jobCount = store.jobs.length
  ids : (store.jobs.map Job.jobId).Nodup
  currentJob : ∀ node, store.currentJob = some node → ∃ job ∈ store.jobs, job.node = node
  previousJob : ∀ node, store.previousJob = some node → ∃ job ∈ store.jobs, job.node = node
  distinct : Distinct store

theorem Sound.consistent (h : Sound store) (hdistinct : Distinct store) : Consistent store where
  jobCount := h.jobCount
  ids := h.ids
  currentJob := fun node hnode => List.mem_map.mp (h.currentJob node hnode)
  previousJob := fun node hnode => List.mem_map.mp (h.previousJob node hnode)
  distinct := hdistinct

theorem sound_run (calls : List Call) : Sound (run calls) := by
  induction calls using List.reverseRecOn with
  | nil => exact sound_create
  | append_singleton calls c ih =>
    rw [run_concat]
    exact ih.call c

/-- A job store is consistent throughout a run exactly if no call of the run frees the current job
and leaves the previous one. -/
theorem run_consistent_iff (calls : List Call) :
    (∀ before, before <+: calls → Consistent (run before)) ↔
      ∀ before c, before ++ [c] <+: calls → KeepsPair c.frees (run before) := by
  constructor
  · intro h before c hprefix
    have hbefore := h before ((List.prefix_append before [c]).trans hprefix)
    have hafter := (h _ hprefix).distinct
    rw [run_concat] at hafter
    exact ((sound_run before).call_distinct_iff hbefore.distinct c).mp hafter
  · intro h before
    induction before using List.reverseRecOn with
    | nil =>
      intro _
      exact sound_create.consistent (by simp [Distinct, create])
    | append_singleton before c ih =>
      intro hprefix
      have hbefore := ih ((List.prefix_append before [c]).trans hprefix)
      refine (sound_run _).consistent ?_
      rw [run_concat]
      exact ((sound_run before).call_distinct_iff hbefore.distinct c).mpr (h before c hprefix)

/-- Of two background jobs the current one is removed: `%+` and `%-` then name the other. -/
theorem remove_current_names_one_job :
    ¬ Consistent (run [.add "a" true, .add "b" true, .remove 2]) := by
  intro h
  exact h.distinct 0 rfl rfl

end JobStore

end Migash
