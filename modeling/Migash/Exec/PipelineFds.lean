import Migash.Exec.Frame

/-! # The descriptors of a pipeline

All pipes are created before the first child is forked, and the parent closes
the ends behind each fork that only that child needed. The children close
every end that the parent still has.
-/

namespace Migash.Exec.PipelineFds

open Library

variable {δ W : Type}

/-! ## The descriptor tables of a run -/

/-- What the calls of `pipe` open, and which calls of `fork` succeed. -/
structure Calls (δ : Type) where
  pipe : ℕ → Option (δ × δ)
  fork : ℕ → Bool

/-- The descriptor tables with which the children run their commands and with which the parent starts
to wait, if it does, and the parent's table at the end. -/
structure PipelineRun (δ : Type) where
  children : List (Descriptors δ)
  waiting : Option (Descriptors δ)
  after : Descriptors δ

/-- Close the ends that are still in the array. -/
def closePipes (pipes : Pipes) (t : Descriptors δ) : Descriptors δ :=
  pipes.fds.foldl Descriptors.discard t

/-- Create `n` pipes, the first of them the `j`-th. -/
def createPipes (calls : Calls δ) : ℕ → ℕ → Pipes → Descriptors δ → Bool × Pipes × Descriptors δ
  | 0, _, pipes, t => (true, pipes, t)
  | n + 1, j, pipes, t =>
    match calls.pipe j with
    | none => (false, pipes, t)
    | some (readEnd, writeEnd) =>
      let (r, w, t) := t.pipe readEnd writeEnd
      createPipes calls n (j + 1) (pipes ++ [(some r, some w)]) t

/-- The descriptors of child `i`. -/
def childFds (pipes : Pipes) (i : ℕ) (t : Descriptors δ) : Descriptors δ :=
  let t := if 0 < i then dupOnto (pipes[i - 1]?.bind Prod.fst) 0 t else t
  closePipes pipes (dupOnto (pipes[i]?.bind Prod.snd) 1 t)

/-- The parent behind the fork of child `i`. -/
def closeUsed (pipes : Pipes) (i : ℕ) (t : Descriptors δ) : Pipes × Descriptors δ :=
  let writeEnd := (pipes[i]?.bind Prod.snd).toList
  let readEnd := if 0 < i then (pipes[i - 1]?.bind Prod.fst).toList else []
  ((pipes.modify i fun p => (p.1, none)).modify (i - 1) fun p =>
    if 0 < i then (none, p.2) else p, (writeEnd ++ readEnd).foldl Descriptors.discard t)

/-- Where the fork loop ends, and whether all forks succeeded. -/
structure Forked (δ : Type) where
  ok : Bool
  pipes : Pipes
  descriptors : Descriptors δ
  children : List (Descriptors δ)

/-- Fork `n` children, the first of them the `i`-th. -/
def forkLoop (calls : Calls δ) :
    ℕ → ℕ → Pipes → Descriptors δ → List (Descriptors δ) → Forked δ
  | 0, _, pipes, t, children => ⟨true, pipes, t, children⟩
  | n + 1, i, pipes, t, children =>
    if calls.fork i then
      let (pipes', t') := closeUsed pipes i t
      forkLoop calls n (i + 1) pipes' t' (children ++ [childFds pipes i t])
    else ⟨false, pipes, t, children⟩

/-- The part of `exec_frame_execute_pipeline_orchestrate` for `n` commands. If a fork fails, the
children that there are are waited for before anything is closed. -/
def orchestrate (calls : Calls δ) (n : ℕ) (t : Descriptors δ) : PipelineRun δ :=
  let (created, pipes, t) := createPipes calls (n - 1) 0 [] t
  if created then
    let forked := forkLoop calls n 0 pipes t []
    let after := closePipes forked.pipes forked.descriptors
    { children := forked.children
      waiting :=
        if forked.ok then some after
        else if forked.children = [] then none
        else some forked.descriptors
      after }
  else { children := [], waiting := none, after := closePipes pipes t }

/-! ## The pipes -/

section Pipes

variable (calls : Calls δ) (t : Descriptors δ)

/-- The table behind the first `j` calls of `pipe`. -/
def tableAt : ℕ → Descriptors δ
  | 0 => t
  | j + 1 =>
    match calls.pipe j with
    | some (readEnd, writeEnd) => ((tableAt j).pipe readEnd writeEnd).2.2
    | none => tableAt j

/-- The read end of pipe `j`. -/
def readFd (j : ℕ) : ℕ :=
  match calls.pipe j with
  | some (readEnd, writeEnd) => ((tableAt calls t j).pipe readEnd writeEnd).1
  | none => 0

/-- The write end of pipe `j`. -/
def writeFd (j : ℕ) : ℕ :=
  match calls.pipe j with
  | some (readEnd, writeEnd) => ((tableAt calls t j).pipe readEnd writeEnd).2.1
  | none => 0

variable {calls t}

theorem pipe_opened {j : ℕ} {files : δ × δ} (h : calls.pipe j = some files) :
    Descriptors.PipeOpened (tableAt calls t j) files.1 files.2 (readFd calls t j)
      (writeFd calls t j) (tableAt calls t (j + 1)) := by
  simp only [readFd, writeFd, tableAt, h]
  exact Descriptors.pipe_opened _ _ _

/-- Nothing that is open is closed or replaced. -/
theorem tableAt_of_some {fd : ℕ} {d : Descriptor δ} {j j' : ℕ} (hle : j ≤ j')
    (hd : (tableAt calls t j).get fd = some d) : (tableAt calls t j').get fd = some d := by
  induction j', hle using Nat.le_induction with
  | base => exact hd
  | succ j' hle ih =>
    cases h : calls.pipe j' with
    | none => simpa [tableAt, h] using ih
    | some files =>
      have hopened := pipe_opened (t := t) h
      rw [hopened.others fd, ih]
      · rintro rfl
        cases ih.symm.trans hopened.read_free
      · rintro rfl
        cases ih.symm.trans hopened.write_free

/-- What is free later was free before. -/
theorem tableAt_of_none {fd j j' : ℕ} (hle : j ≤ j')
    (hnone : (tableAt calls t j').get fd = none) : (tableAt calls t j).get fd = none := by
  cases hd : (tableAt calls t j).get fd with
  | none => rfl
  | some d => exact absurd ((tableAt_of_some hle hd).symm.trans hnone) (by simp)

/-- The ends of `k` pipes that were all created. -/
structure Ends (calls : Calls δ) (t : Descriptors δ) (k : ℕ) : Prop where
  read_free : ∀ j < k, t.get (readFd calls t j) = none
  write_free : ∀ j < k, t.get (writeFd calls t j) = none
  read_inj : ∀ j < k, ∀ j' < k, readFd calls t j = readFd calls t j' → j = j'
  write_inj : ∀ j < k, ∀ j' < k, writeFd calls t j = writeFd calls t j' → j = j'
  read_ne_write : ∀ j < k, ∀ j' < k, readFd calls t j ≠ writeFd calls t j'

theorem ends {k : ℕ} (h : ∀ j < k, (calls.pipe j).isSome) : Ends calls t k := by
  have hopened : ∀ j < k, ∃ files, calls.pipe j = some files ∧
      Descriptors.PipeOpened (tableAt calls t j) files.1 files.2 (readFd calls t j)
        (writeFd calls t j) (tableAt calls t (j + 1)) := by
    intro j hj
    obtain ⟨files, hfiles⟩ := Option.isSome_iff_exists.mp (h j hj)
    exact ⟨files, hfiles, pipe_opened hfiles⟩
  -- an end that is open when a pipe is created is none of its ends
  have hlater : ∀ j < k, ∀ j' < k, j < j' →
      readFd calls t j ≠ readFd calls t j' ∧ writeFd calls t j ≠ writeFd calls t j' ∧
        readFd calls t j ≠ writeFd calls t j' ∧ writeFd calls t j ≠ readFd calls t j' := by
    intro j hj j' hj' hlt
    obtain ⟨files, -, ho⟩ := hopened j hj
    obtain ⟨files', -, ho'⟩ := hopened j' hj'
    have hread := tableAt_of_some hlt ho.read
    have hwrite := tableAt_of_some hlt ho.write
    refine ⟨?_, ?_, ?_, ?_⟩ <;> intro heq
    · exact absurd (hread.symm.trans (heq ▸ ho'.read_free)) (by simp)
    · exact absurd (hwrite.symm.trans (heq ▸ ho'.write_free)) (by simp)
    · exact absurd (hread.symm.trans (heq ▸ ho'.write_free)) (by simp)
    · exact absurd (hwrite.symm.trans (heq ▸ ho'.read_free)) (by simp)
  refine ⟨fun j hj => ?_, fun j hj => ?_, fun j hj j' hj' heq => ?_, fun j hj j' hj' heq => ?_,
    fun j hj j' hj' => ?_⟩
  · obtain ⟨files, -, ho⟩ := hopened j hj
    exact tableAt_of_none (Nat.zero_le j) ho.read_free
  · obtain ⟨files, -, ho⟩ := hopened j hj
    exact tableAt_of_none (Nat.zero_le j) ho.write_free
  · rcases Nat.lt_trichotomy j j' with hlt | heq' | hgt
    · exact absurd heq (hlater j hj j' hj' hlt).1
    · exact heq'
    · exact absurd heq.symm (hlater j' hj' j hj hgt).1
  · rcases Nat.lt_trichotomy j j' with hlt | heq' | hgt
    · exact absurd heq (hlater j hj j' hj' hlt).2.1
    · exact heq'
    · exact absurd heq.symm (hlater j' hj' j hj hgt).2.1
  · rcases Nat.lt_trichotomy j j' with hlt | rfl | hgt
    · exact (hlater j hj j' hj' hlt).2.2.1
    · obtain ⟨files, -, ho⟩ := hopened j hj
      exact ho.ne
    · exact (hlater j' hj' j hj hgt).2.2.2.symm

theorem tableAt_others {fd k : ℕ} (hread : ∀ j < k, fd ≠ readFd calls t j)
    (hwrite : ∀ j < k, fd ≠ writeFd calls t j) : (tableAt calls t k).get fd = t.get fd := by
  induction k with
  | zero => rfl
  | succ k ih =>
    rw [← ih (fun j hj => hread j (by omega)) fun j hj => hwrite j (by omega)]
    cases h : calls.pipe k with
    | none => simp [tableAt, h]
    | some files =>
      exact (pipe_opened h).others fd (hread k (by omega)) (hwrite k (by omega))

/-- `pipes` when `i` children are forked. -/
def pipesAt (calls : Calls δ) (t : Descriptors δ) (k i : ℕ) : Pipes :=
  (List.range k).map fun j =>
    (if i ≤ j + 1 then some (readFd calls t j) else none,
      if i ≤ j then some (writeFd calls t j) else none)

/-- All pipes are created, or all up to the first that cannot be. -/
theorem createPipes_eq (calls : Calls δ) (t : Descriptors δ) (n j : ℕ) :
    ∃ m ≤ n, createPipes calls n j (pipesAt calls t j 0) (tableAt calls t j) =
        (decide (m = n), pipesAt calls t (j + m) 0, tableAt calls t (j + m)) ∧
      (∀ i < m, (calls.pipe (j + i)).isSome) ∧ (m < n → calls.pipe (j + m) = none) := by
  induction n generalizing j with
  | zero => exact ⟨0, Nat.le_refl _, rfl, by simp, by simp⟩
  | succ n ih =>
    cases h : calls.pipe j with
    | none => exact ⟨0, Nat.zero_le _, by simp [createPipes, h], by simp, fun _ => h⟩
    | some files =>
      obtain ⟨m, hm, hrun, hsome, hnone⟩ := ih (j + 1)
      have hpipes : pipesAt calls t j 0 ++ [(some (readFd calls t j), some (writeFd calls t j))] =
          pipesAt calls t (j + 1) 0 := by
        simp [pipesAt, List.range_succ]
      have htable : tableAt calls t (j + 1) = ((tableAt calls t j).pipe files.1 files.2).2.2 := by
        simp [tableAt, h]
      have hread : readFd calls t j = ((tableAt calls t j).pipe files.1 files.2).1 := by
        simp [readFd, h]
      have hwrite : writeFd calls t j = ((tableAt calls t j).pipe files.1 files.2).2.1 := by
        simp [writeFd, h]
      refine ⟨m + 1, by omega, ?_, fun i hi => ?_, fun hlt => ?_⟩
      · have hstep : createPipes calls (n + 1) j (pipesAt calls t j 0) (tableAt calls t j) =
            createPipes calls n (j + 1) (pipesAt calls t (j + 1) 0) (tableAt calls t (j + 1)) := by
          rw [createPipes, h, ← hpipes, htable, hread, hwrite]
        rw [hstep, hrun, Nat.add_assoc, Nat.add_comm 1]
        simp
      · cases i with
        | zero => simp [h]
        | succ i =>
          have hi' := hsome i (by omega)
          rwa [Nat.add_assoc, Nat.add_comm 1] at hi'
      · have hlast := hnone (by omega)
        rwa [Nat.add_assoc, Nat.add_comm 1] at hlast

/-! ## The parent and its children -/

/-- The parent's table when `i` children are forked: the ends in `pipesAt` are open, and everything
else is as it was at the start. -/
structure ParentAt (calls : Calls δ) (t : Descriptors δ) (k i : ℕ) (u : Descriptors δ) : Prop where
  read : ∀ j < k, i ≤ j + 1 → u.get (readFd calls t j) =
    (calls.pipe j).map fun files => { file := files.1 }
  write : ∀ j < k, i ≤ j → u.get (writeFd calls t j) =
    (calls.pipe j).map fun files => { file := files.2 }
  others : ∀ fd, (∀ j < k, i ≤ j + 1 → fd ≠ readFd calls t j) →
    (∀ j < k, i ≤ j → fd ≠ writeFd calls t j) → u.get fd = t.get fd

theorem parentAt_zero {k : ℕ} (h : ∀ j < k, (calls.pipe j).isSome) :
    ParentAt calls t k 0 (tableAt calls t k) := by
  refine ⟨fun j hj _ => ?_, fun j hj _ => ?_, fun fd hread hwrite => ?_⟩
  · obtain ⟨files, hfiles⟩ := Option.isSome_iff_exists.mp (h j hj)
    rw [hfiles]
    exact tableAt_of_some hj (pipe_opened hfiles).read
  · obtain ⟨files, hfiles⟩ := Option.isSome_iff_exists.mp (h j hj)
    rw [hfiles]
    exact tableAt_of_some hj (pipe_opened hfiles).write
  · exact tableAt_others (fun j hj => hread j hj (Nat.zero_le _))
      fun j hj => hwrite j hj (Nat.zero_le _)

theorem mem_fds_pipesAt {k i fd : ℕ} :
    fd ∈ (pipesAt calls t k i).fds ↔
      (∃ j < k, i ≤ j + 1 ∧ fd = readFd calls t j) ∨ ∃ j < k, i ≤ j ∧ fd = writeFd calls t j := by
  simp only [Pipes.fds, pipesAt, List.mem_flatMap, List.mem_map, List.mem_range, List.mem_append,
    Option.mem_toList]
  constructor
  · rintro ⟨-, ⟨j, hj, rfl⟩, hmem | hmem⟩
    · by_cases hle : i ≤ j + 1
      · rw [if_pos hle] at hmem
        exact .inl ⟨j, hj, hle, (Option.some.inj hmem).symm⟩
      · rw [if_neg hle] at hmem
        cases hmem
    · by_cases hle : i ≤ j
      · rw [if_pos hle] at hmem
        exact .inr ⟨j, hj, hle, (Option.some.inj hmem).symm⟩
      · rw [if_neg hle] at hmem
        cases hmem
  · rintro (⟨j, hj, hle, rfl⟩ | ⟨j, hj, hle, rfl⟩)
    · exact ⟨_, ⟨j, hj, rfl⟩, .inl (by simp [hle])⟩
    · exact ⟨_, ⟨j, hj, rfl⟩, .inr (by simp [hle])⟩

variable {k i : ℕ} {u : Descriptors δ}

/-- No descriptor that the shell had is an end of a pipe. -/
theorem Ends.not_mem_fds (hends : Ends calls t k) {fd : ℕ} (hfd : t.get fd ≠ none) :
    fd ∉ (pipesAt calls t k i).fds := by
  rw [mem_fds_pipesAt]
  rintro (⟨j, hj, -, rfl⟩ | ⟨j, hj, -, rfl⟩)
  · exact hfd (hends.read_free j hj)
  · exact hfd (hends.write_free j hj)

/-- Closing all pipes brings the table of the start back. -/
theorem ParentAt.get_closePipes (h : ParentAt calls t k i u) (hends : Ends calls t k) :
    (closePipes (pipesAt calls t k i) u).get = t.get := by
  funext fd
  rw [closePipes, Descriptors.get_foldl_discard]
  split_ifs with hmem
  · rcases mem_fds_pipesAt.mp hmem with ⟨j, hj, -, rfl⟩ | ⟨j, hj, -, rfl⟩
    · exact (hends.read_free j hj).symm
    · exact (hends.write_free j hj).symm
  · rw [mem_fds_pipesAt] at hmem
    refine h.others fd (fun j hj hle heq => hmem (.inl ⟨j, hj, hle, heq⟩))
      fun j hj hle heq => hmem (.inr ⟨j, hj, hle, heq⟩)

theorem pipesAt_getElem? (j : ℕ) :
    (pipesAt calls t k i)[j]? =
      if j < k then some (if i ≤ j + 1 then some (readFd calls t j) else none,
        if i ≤ j then some (writeFd calls t j) else none) else none := by
  unfold pipesAt
  rw [List.getElem?_map]
  by_cases hj : j < k
  · rw [List.getElem?_range hj, if_pos hj]
    rfl
  · rw [List.getElem?_eq_none (by simpa using hj), if_neg hj]
    rfl

/-- The ends that are closed behind the fork of child `i`. -/
theorem mem_used {fd : ℕ} (hi : i ≤ k) :
    fd ∈ ((pipesAt calls t k i)[i]?.bind Prod.snd).toList ++
        (if 0 < i then ((pipesAt calls t k i)[i - 1]?.bind Prod.fst).toList else []) ↔
      (i < k ∧ fd = writeFd calls t i) ∨ (0 < i ∧ fd = readFd calls t (i - 1)) := by
  rw [List.mem_append, pipesAt_getElem?, pipesAt_getElem?]
  refine or_congr ?_ ?_
  · by_cases hik : i < k <;> simp [hik, eq_comm (a := fd)]
  · by_cases hpos : 0 < i
    · have hlt : i - 1 < k := by omega
      have hle : i ≤ i - 1 + 1 := by omega
      simp [hpos, hlt, hle, eq_comm (a := fd)]
    · simp [hpos]

theorem closeUsed_fst :
    (closeUsed (pipesAt calls t k i) i u).1 = pipesAt calls t k (i + 1) := by
  apply List.ext_getElem?
  intro j
  simp only [closeUsed, List.getElem?_modify, pipesAt_getElem?]
  by_cases hj : j < k
  · simp only [hj, if_true, Option.map_eq_map, Option.map_some]
    grind
  · simp [hj]

theorem ParentAt.closeUsed (h : ParentAt calls t k i u) (hends : Ends calls t k) (hi : i ≤ k) :
    ParentAt calls t k (i + 1) (closeUsed (pipesAt calls t k i) i u).2 := by
  have hget : ∀ fd, (PipelineFds.closeUsed (pipesAt calls t k i) i u).2.get fd =
      if (i < k ∧ fd = writeFd calls t i) ∨ (0 < i ∧ fd = readFd calls t (i - 1)) then none
      else u.get fd := by
    intro fd
    simp only [PipelineFds.closeUsed, Descriptors.get_foldl_discard, mem_used hi]
  refine ⟨fun j hj hle => ?_, fun j hj hle => ?_, fun fd hread hwrite => ?_⟩
  · rw [hget, if_neg, h.read j hj (by omega)]
    rintro (⟨hik, heq⟩ | ⟨hpos, heq⟩)
    · exact hends.read_ne_write j hj i hik heq
    · have := hends.read_inj j hj (i - 1) (by omega) heq
      omega
  · rw [hget, if_neg, h.write j hj (by omega)]
    rintro (⟨hik, heq⟩ | ⟨hpos, heq⟩)
    · have := hends.write_inj j hj i hik heq
      omega
    · exact hends.read_ne_write (i - 1) (by omega) j hj heq.symm
  · rw [hget]
    split_ifs with hused
    · rcases hused with ⟨hik, rfl⟩ | ⟨hpos, rfl⟩
      · exact (hends.write_free i hik).symm
      · exact (hends.read_free (i - 1) (by omega)).symm
    · refine h.others fd (fun j hj hle => ?_) fun j hj hle => ?_
      · by_cases hj' : i ≤ j
        · exact hread j hj (by omega)
        · rintro rfl
          exact hused (.inr ⟨by omega, by rw [show i - 1 = j by omega]⟩)
      · by_cases hj' : i = j
        · subst hj'
          rintro rfl
          exact hused (.inl ⟨hj, rfl⟩)
        · exact hwrite j hj (by omega)

/-- A child has its pipes on its standard input and output, and apart from these the descriptors of
the shell. -/
structure ChildAt (calls : Calls δ) (t : Descriptors δ) (k i : ℕ) (c : Descriptors δ) : Prop where
  stdin : c.get 0 =
    if i = 0 then t.get 0 else (calls.pipe (i - 1)).map fun files => { file := files.1 }
  stdout : c.get 1 =
    if i = k then t.get 1 else (calls.pipe i).map fun files => { file := files.2 }
  others : ∀ fd, 2 ≤ fd → c.get fd = t.get fd

theorem dupOnto_eq {source target : ℕ} {file : δ} (h : u.get source = some { file })
    (hne : source ≠ target) : dupOnto (some source) target u = u.set target (some { file }) := by
  simp [dupOnto, Descriptors.dup2_eq_some h hne]

/-- What is not one of the ends is as it was at the start. -/
theorem ParentAt.get_of_not_mem (h : ParentAt calls t k i u) {fd : ℕ}
    (hmem : fd ∉ (pipesAt calls t k i).fds) : u.get fd = t.get fd := by
  rw [mem_fds_pipesAt] at hmem
  exact h.others fd (fun j hj hle heq => hmem (.inl ⟨j, hj, hle, heq⟩))
    fun j hj hle heq => hmem (.inr ⟨j, hj, hle, heq⟩)

/-- The table of a child with its standard input in place. -/
theorem ParentAt.stdin (h : ParentAt calls t k i u) (hends : Ends calls t k) (hi : i ≤ k)
    (hpipes : ∀ j < k, (calls.pipe j).isSome) (hzero : t.get 0 ≠ none) :
    let v := if 0 < i then dupOnto ((pipesAt calls t k i)[i - 1]?.bind Prod.fst) 0 u else u
    v.get 0 = (if i = 0 then t.get 0
        else (calls.pipe (i - 1)).map fun files => { file := files.1 }) ∧
      ∀ fd, fd ≠ 0 → v.get fd = u.get fd := by
  rcases Nat.eq_zero_or_pos i with rfl | hpos
  · exact ⟨h.get_of_not_mem (hends.not_mem_fds hzero), fun _ _ => rfl⟩
  · have hlt : i - 1 < k := by omega
    have hle : i ≤ i - 1 + 1 := by omega
    obtain ⟨files, hfiles⟩ := Option.isSome_iff_exists.mp (hpipes (i - 1) hlt)
    have hread := h.read (i - 1) hlt hle
    rw [hfiles] at hread
    have hne : readFd calls t (i - 1) ≠ 0 := by
      intro heq
      exact hzero (heq ▸ hends.read_free (i - 1) hlt)
    have hend : (pipesAt calls t k i)[i - 1]?.bind Prod.fst = some (readFd calls t (i - 1)) := by
      rw [pipesAt_getElem?, if_pos hlt, if_pos hle]
      rfl
    simp only [if_pos hpos, hend, dupOnto_eq hread hne, if_neg (Nat.pos_iff_ne_zero.mp hpos),
      hfiles]
    exact ⟨Descriptors.get_set_self .., fun fd hfd => Descriptors.get_set_of_ne _ _ hfd⟩

theorem ParentAt.childFds (h : ParentAt calls t k i u) (hends : Ends calls t k) (hi : i ≤ k)
    (hpipes : ∀ j < k, (calls.pipe j).isSome) (hzero : t.get 0 ≠ none) (hone : t.get 1 ≠ none) :
    ChildAt calls t k i (childFds (pipesAt calls t k i) i u) := by
  have hin := h.stdin hends hi hpipes hzero
  revert hin
  unfold PipelineFds.childFds
  generalize (if 0 < i then dupOnto ((pipesAt calls t k i)[i - 1]?.bind Prod.fst) 0 u else u) = v
  rintro ⟨hvzero, hvothers⟩
  have hout : ∃ w, dupOnto ((pipesAt calls t k i)[i]?.bind Prod.snd) 1 v = w ∧
      w.get 1 = (if i = k then t.get 1
        else (calls.pipe i).map fun files => { file := files.2 }) ∧
      ∀ fd, fd ≠ 1 → w.get fd = v.get fd := by
    rw [pipesAt_getElem?]
    rcases Nat.lt_or_eq_of_le hi with hlt | rfl
    · obtain ⟨files, hfiles⟩ := Option.isSome_iff_exists.mp (hpipes i hlt)
      have hfree := hends.write_free i hlt
      have hnezero : writeFd calls t i ≠ 0 := fun heq => hzero (heq ▸ hfree)
      have hneone : writeFd calls t i ≠ 1 := fun heq => hone (heq ▸ hfree)
      have hwrite := h.write i hlt (Nat.le_refl _)
      rw [hfiles, ← hvothers _ hnezero] at hwrite
      refine ⟨v.set 1 (some { file := files.2 }), ?_, ?_, fun fd hfd =>
        Descriptors.get_set_of_ne _ _ hfd⟩
      · rw [if_pos hlt, if_pos (Nat.le_refl i)]
        exact dupOnto_eq hwrite hneone
      · rw [if_neg (Nat.ne_of_lt hlt), hfiles]
        exact Descriptors.get_set_self ..
    · refine ⟨v, by simp [dupOnto], ?_, fun _ _ => rfl⟩
      rw [if_pos rfl, hvothers 1 (by decide)]
      exact h.get_of_not_mem (hends.not_mem_fds hone)
  obtain ⟨w, hw, hwone, hwothers⟩ := hout
  simp only [hw]
  have hget : ∀ fd, (closePipes (pipesAt calls t k i) w).get fd =
      if fd ∈ (pipesAt calls t k i).fds then none else w.get fd :=
    fun fd => Descriptors.get_foldl_discard _ w fd
  refine ⟨?_, ?_, fun fd hfd => ?_⟩
  · rw [hget, if_neg (hends.not_mem_fds hzero), hwothers 0 (by decide), hvzero]
  · rw [hget, if_neg (hends.not_mem_fds hone), hwone]
  · rw [hget]
    split_ifs with hmem
    · rcases mem_fds_pipesAt.mp hmem with ⟨j, hj, -, rfl⟩ | ⟨j, hj, -, rfl⟩
      · exact (hends.read_free j hj).symm
      · exact (hends.write_free j hj).symm
    · rw [hwothers fd (by omega), hvothers fd (by omega), h.get_of_not_mem hmem]

/-! ## The fork loop -/

/-- Where the fork loop is when `i` children are forked. -/
structure LoopAt (calls : Calls δ) (t : Descriptors δ) (k i : ℕ) (pipes : Pipes)
    (u : Descriptors δ) (children : List (Descriptors δ)) : Prop where
  pipes : pipes = pipesAt calls t k i
  parent : ParentAt calls t k i u
  length : children.length = i
  children : ∀ m c, children[m]? = some c → ChildAt calls t k m c

/-- The fork loop ends at the first fork that fails, or behind the last command. -/
theorem forkLoop_spec (hpipes : ∀ j < k, (calls.pipe j).isSome) (hzero : t.get 0 ≠ none)
    (hone : t.get 1 ≠ none) {n : ℕ} {pipes : Pipes} {children : List (Descriptors δ)}
    (hn : i + n = k + 1) (h : LoopAt calls t k i pipes u children) :
    let r := forkLoop calls n i pipes u children
    ∃ i', i ≤ i' ∧ LoopAt calls t k i' r.pipes r.descriptors r.children ∧
      (∀ m, i ≤ m → m < i' → calls.fork m = true) ∧
      (r.ok = true ∧ i' = k + 1 ∨ r.ok = false ∧ i' ≤ k ∧ calls.fork i' = false) := by
  induction n generalizing i pipes u children with
  | zero => exact ⟨i, Nat.le_refl _, h, by omega, .inl ⟨rfl, hn⟩⟩
  | succ n ih =>
    have hi : i ≤ k := by omega
    cases hfork : calls.fork i with
    | false =>
      simp only [forkLoop, hfork, Bool.false_eq_true, if_false]
      exact ⟨i, Nat.le_refl _, h, by omega, .inr ⟨trivial, hi, hfork⟩⟩
    | true =>
      simp only [forkLoop, hfork, if_true]
      have hends : Ends calls t k := ends hpipes
      obtain rfl := h.pipes
      have hnext : LoopAt calls t k (i + 1) (closeUsed (pipesAt calls t k i) i u).1
          (closeUsed (pipesAt calls t k i) i u).2
          (children ++ [childFds (pipesAt calls t k i) i u]) := by
        refine ⟨closeUsed_fst, h.parent.closeUsed hends hi, by simp [h.length], ?_⟩
        intro m c hm
        rw [List.getElem?_append, h.length] at hm
        split_ifs at hm with hlt
        · exact h.children m c hm
        · obtain rfl : m = i := by
            by_contra hne
            rw [List.getElem?_eq_none (by simp; omega)] at hm
            cases hm
          simp only [Nat.sub_self, List.getElem?_cons_zero, Option.some.injEq] at hm
          rw [← hm]
          exact h.parent.childFds hends hi hpipes hzero hone
      obtain ⟨i', hle, hloop, hforks, hend⟩ := ih (by omega) hnext
      refine ⟨i', by omega, hloop, fun m hm hlt => ?_, hend⟩
      rcases Nat.eq_or_lt_of_le hm with rfl | hlt'
      · exact hfork
      · exact hforks m hlt' hlt

end Pipes

/-! ## The whole run -/

/-- All pipes are created and the first child is forked, but a later one cannot be. -/
def ForkFailsLate (calls : Calls δ) (n : ℕ) : Prop :=
  (∀ j < n - 1, (calls.pipe j).isSome) ∧ calls.fork 0 = true ∧ ∃ i < n, calls.fork i = false

/-- Child `i` of `n` runs with its pipes on its standard descriptors and no other end open, and the
parent ends with the table that it had. It also waits with that table exactly if no fork fails
after the first one has succeeded. -/
theorem orchestrate_fds (calls : Calls δ) (n : ℕ) (hn : 2 ≤ n) (t : Descriptors δ)
    (hzero : t.get 0 ≠ none) (hone : t.get 1 ≠ none) :
    (∀ i c, (orchestrate calls n t).children[i]? = some c → ChildAt calls t (n - 1) i c) ∧
      (orchestrate calls n t).after.get = t.get ∧
      ((∀ u, (orchestrate calls n t).waiting = some u → u.get = t.get) ↔
        ¬ ForkFailsLate calls n) := by
  obtain ⟨m, hm, hcreate, hsome, hnone⟩ := createPipes_eq calls t (n - 1) 0
  simp only [Nat.zero_add] at hcreate hsome hnone
  have hstart : createPipes calls (n - 1) 0 [] t = _ := hcreate
  rcases Nat.lt_or_eq_of_le hm with hlt | rfl
  · -- a pipe cannot be created
    have hrun : orchestrate calls n t =
        { children := [], waiting := none
          after := closePipes (pipesAt calls t m 0) (tableAt calls t m) } := by
      simp [orchestrate, hstart, Nat.ne_of_lt hlt]
    rw [hrun]
    refine ⟨by simp, (parentAt_zero hsome).get_closePipes (ends hsome), iff_of_true (by simp) ?_⟩
    rintro ⟨hpipes, -, -⟩
    have hm' := hpipes m hlt
    rw [hnone hlt] at hm'
    cases hm'
  · have hends : Ends calls t (n - 1) := ends hsome
    have hbegin : LoopAt calls t (n - 1) 0 (pipesAt calls t (n - 1) 0)
        (tableAt calls t (n - 1)) [] := ⟨rfl, parentAt_zero hsome, rfl, by simp⟩
    obtain ⟨i', -, hloop, hforks, hend⟩ :=
      forkLoop_spec hsome hzero hone (show 0 + n = n - 1 + 1 by omega) hbegin
    generalize hforked : forkLoop calls n 0 (pipesAt calls t (n - 1) 0)
      (tableAt calls t (n - 1)) [] = forked at hloop hend
    have hafter : (closePipes forked.pipes forked.descriptors).get = t.get := by
      rw [hloop.pipes]
      exact hloop.parent.get_closePipes hends
    have hrun : orchestrate calls n t =
        { children := forked.children
          waiting :=
            if forked.ok then some (closePipes forked.pipes forked.descriptors)
            else if forked.children = [] then none
            else some forked.descriptors
          after := closePipes forked.pipes forked.descriptors } := by
      simp [orchestrate, hstart, hforked]
    rw [hrun]
    refine ⟨hloop.children, hafter, ?_⟩
    rcases hend with ⟨hok, rfl⟩ | ⟨hok, hle, hfork⟩
    · refine iff_of_true ?_ ?_
      · intro u hu
        rw [hok] at hu
        cases hu
        exact hafter
      · rintro ⟨-, -, i, hi, hfail⟩
        rw [hforks i (Nat.zero_le i) (by omega)] at hfail
        cases hfail
    · simp only [hok, Bool.false_eq_true, if_false]
      rcases Nat.eq_zero_or_pos i' with rfl | hpos
      · refine iff_of_true ?_ ?_
        · intro u hu
          rw [if_pos (List.eq_nil_of_length_eq_zero hloop.length)] at hu
          cases hu
        · rintro ⟨-, hfirst, -⟩
          rw [hfork] at hfirst
          cases hfirst
      · have hlate : ForkFailsLate calls n :=
          ⟨hsome, hforks 0 (Nat.le_refl 0) hpos, i', by omega, hfork⟩
        refine iff_of_false ?_ (not_not_intro hlate)
        intro hwaiting
        have hne : forked.children ≠ [] := by
          intro hnil
          rw [hnil] at hloop
          exact absurd hloop.length (Nat.ne_of_lt hpos)
        have hget := congrFun (hwaiting _ (if_neg hne)) (readFd calls t (i' - 1))
        -- the read end behind the last child that was forked is still open
        rw [hloop.parent.read (i' - 1) (by omega) (by omega),
          hends.read_free (i' - 1) (by omega)] at hget
        obtain ⟨files, hfiles⟩ := Option.isSome_iff_exists.mp (hsome (i' - 1) (by omega))
        rw [hfiles] at hget
        cases hget

/-- The descriptors of a shell, and pipes whose ends are known by their numbers. -/
def standardFds : Descriptors String :=
  (Descriptors.empty.set 0 (some { file := "terminal" })).set 1 (some { file := "terminal" })

/-- Every pipe is created; the given number of forks succeeds. -/
def stringCalls (forks : ℕ) : Calls String where
  pipe j := some (s!"read end {j}", s!"write end {j}")
  fork i := i < forks

/-- Two commands, and nothing fails. -/
theorem orchestrate_fds_two :
    (2 ≤ 2 ∧ standardFds.get 0 ≠ none ∧ standardFds.get 1 ≠ none) ∧
      (∀ i c, (orchestrate (stringCalls 2) 2 standardFds).children[i]? = some c →
        ChildAt (stringCalls 2) standardFds (2 - 1) i c) ∧
      (orchestrate (stringCalls 2) 2 standardFds).after.get = standardFds.get ∧
      ((∀ u, (orchestrate (stringCalls 2) 2 standardFds).waiting = some u →
          u.get = standardFds.get) ↔ ¬ ForkFailsLate (stringCalls 2) 2) :=
  ⟨by decide, orchestrate_fds (stringCalls 2) 2 (by decide) standardFds (by decide) (by decide)⟩

/-- The second fork fails: the parent waits for the first child with the read end of the pipe open. -/
theorem waits_with_open_pipe :
    ((orchestrate (stringCalls 1) 2 standardFds).waiting.map fun u => (u.get 2).isSome) =
        some true ∧ standardFds.get 2 = none := by
  decide +kernel

/-! ## The executor -/

section Executor

theorem createPipes_congr (calls calls' : Calls δ) (n : ℕ) {j : ℕ}
    (h : ∀ m, j ≤ m → calls.pipe m = calls'.pipe m) (pipes : Pipes) (t : Descriptors δ) :
    createPipes calls n j pipes t = createPipes calls' n j pipes t := by
  induction n generalizing j pipes t with
  | zero => rfl
  | succ n ih =>
    rw [createPipes, createPipes, h j (Nat.le_refl j)]
    cases calls'.pipe j with
    | none => rfl
    | some files => exact ih (fun m hm => h m (by omega)) _ _

theorem forkLoop_congr (calls calls' : Calls δ) (n : ℕ) {i : ℕ}
    (h : ∀ m, i ≤ m → calls.fork m = calls'.fork m) (pipes : Pipes) (t : Descriptors δ)
    (children : List (Descriptors δ)) :
    forkLoop calls n i pipes t children = forkLoop calls' n i pipes t children := by
  induction n generalizing i pipes t children with
  | zero => rfl
  | succ n ih =>
    rw [forkLoop, forkLoop, h i (Nat.le_refl i)]
    split_ifs
    · exact ih (fun m hm => h m (by omega)) _ _ _
    · rfl

variable {env : Env δ W}

/-- The executor creates the pipes. -/
theorem createPipes_refines {n : ℕ} {pipes pipes' : Pipes} {s s' : Shell δ W} {created : Bool}
    (h : (Exec.createPipes env n pipes).run s = .ok ((created, pipes'), s')) (j : ℕ)
    (fork : ℕ → Bool) :
    ∃ pipe, createPipes ⟨pipe, fork⟩ n j pipes s.descriptors =
      (created, pipes', s'.descriptors) := by
  induction n generalizing pipes s j with
  | zero =>
    cases h
    exact ⟨fun _ => none, rfl⟩
  | succ n ih =>
    rw [Exec.createPipes] at h
    obtain ⟨answer, u, hpipe, hrest⟩ := Stateful.run_bind_eq_ok.mp h
    cases hpipe
    cases hanswer : (env.pipe s.world).1 with
    | error e =>
      simp only [hanswer] at hrest
      cases hrest
      exact ⟨fun _ => none, rfl⟩
    | ok files =>
      simp only [hanswer] at hrest
      obtain ⟨pipe, hpipe⟩ := ih hrest (j + 1)
      refine ⟨fun m => if m = j then some files else pipe m, ?_⟩
      rw [createPipes]
      simp only [if_true]
      rw [createPipes_congr _ ⟨pipe, fork⟩ n fun m hm => if_neg (by omega)]
      exact hpipe

theorem pipelineChildFds_descriptors (pipes : Pipes) (i : ℕ) (s : Shell δ W) :
    (pipelineChildFds pipes i s).descriptors = childFds pipes i s.descriptors := rfl

/-- The shells have the same descriptors. -/
def SameTable (s t : Shell δ W) : Prop := t.descriptors = s.descriptors

instance : Std.Refl (@SameTable δ W) := ⟨fun _ => rfl⟩
instance : IsTrans (Shell δ W) SameTable := ⟨fun _ _ _ h h' => h'.trans h⟩

theorem sameTable_syscall {α : Type} (f : W → α × W) :
    Keeps SameTable (syscall f : ExecM δ W α) := by
  constructor
  intro s
  exact .get_bind (.set_bind (.of_pure rfl))

theorem sameTable_setError (text : String) :
    Keeps SameTable (setError text : ExecM δ W Unit) := .of_modify fun _ => rfl

theorem sameTable_waitAll (pids : List ℤ) (last : ℤ) : Keeps SameTable (waitAll env pids last) := by
  induction pids generalizing last with
  | nil => exact .of_pure _
  | cons pid pids ih =>
    refine (sameTable_syscall _).bind fun r => ?_
    split
    · exact ih _
    · exact (sameTable_setError _).bind fun _ => ih _
    · exact ih _

variable {callees : Callees δ W} {isNegated : Bool}

/-- The executor forks the children. -/
theorem forkCommands_refines {cmds : List Ast} {i : ℕ} {pipes pipes' : Pipes} {pids pids' : List ℤ}
    {s s' : Shell δ W} {ok : Bool}
    (h : (forkCommands env callees isNegated cmds i pipes pids).run s =
      .ok ((ok, pipes', pids'), s')) (pipe : ℕ → Option (δ × δ))
    (children : List (Descriptors δ)) :
    ∃ fork, let r := forkLoop ⟨pipe, fork⟩ cmds.length i pipes s.descriptors children
      r.ok = ok ∧ r.pipes = pipes' ∧ r.descriptors = s'.descriptors := by
  induction cmds generalizing i pipes pids s children with
  | nil =>
    cases h
    exact ⟨fun _ => true, rfl, rfl, rfl⟩
  | cons cmd cmds ih =>
    rw [forkCommands] at h
    obtain ⟨answer, u, hfork, hrest⟩ := Stateful.run_bind_eq_ok.mp h
    have hu : u.descriptors = s.descriptors :=
      ((Keeps.of_get.bind fun s => sameTable_syscall _).ensures s).answer _ _ hfork
    cases answer with
    | error e =>
      have hkeeps : Keeps SameTable (do
          setError s!"fork() failed in pipeline: {e}"
          for pid in pids do syscall fun world => ((), env.kill pid world)
          for pid in pids do discard <| syscall (env.waitpid pid)
          return (false, pipes, pids) : ExecM δ W (Bool × Pipes × List ℤ)) := by
        refine (sameTable_setError _).bind fun _ => ?_
        refine Keeps.bind (.forIn fun pid _ => (sameTable_syscall _).bind fun _ => .of_pure _)
          fun _ => ?_
        refine Keeps.bind (.forIn fun pid _ => ?_) fun _ => .of_pure _
        exact ((sameTable_syscall _).map).bind fun _ => .of_pure _
      have hanswer : Answers (fun r => r = (false, pipes, pids)) (do
          setError s!"fork() failed in pipeline: {e}"
          for pid in pids do syscall fun world => ((), env.kill pid world)
          for pid in pids do discard <| syscall (env.waitpid pid)
          return (false, pipes, pids) : ExecM δ W (Bool × Pipes × List ℤ)) :=
        .andThen fun _ => .andThen fun _ => .andThen fun _ => .of_pure rfl
      have hsame : s'.descriptors = u.descriptors := (hkeeps.ensures u).answer _ _ hrest
      cases (hanswer.ensures u).answer _ _ hrest
      refine ⟨fun _ => false, ?_⟩
      simp only [List.length_cons, forkLoop, Bool.false_eq_true, if_false]
      exact ⟨trivial, trivial, (hsame.trans hu).symm⟩
    | ok pid =>
      dsimp only at hrest
      have hclose : (closeUsedPipes pipes i : ExecM δ W Pipes).run u =
          .ok ((closeUsed pipes i u.descriptors).1,
            { u with descriptors := (closeUsed pipes i u.descriptors).2 }) := rfl
      rw [Stateful.run_bind_ok hclose] at hrest
      obtain ⟨fork, hok, hpipes, hdescriptors⟩ :=
        ih hrest (children ++ [childFds pipes i s.descriptors])
      refine ⟨fun m => if m = i then true else fork m, ?_⟩
      simp only [List.length_cons, forkLoop, if_true]
      rw [forkLoop_congr _ ⟨pipe, fork⟩ cmds.length fun m hm => if_neg (by omega), ← hu]
      rw [← hu] at hok hpipes hdescriptors
      exact ⟨hok, hpipes, hdescriptors⟩

/-- The executor leaves the descriptors of the shell as the run on tables does. -/
theorem orchestrateMany_refines {commands : List Ast} {s s' : Shell δ W} {r : ExecuteResult}
    (h : (orchestrateMany env callees commands isNegated).run s = .ok (r, s')) :
    ∃ calls, s'.descriptors = (orchestrate calls commands.length s.descriptors).after := by
  unfold orchestrateMany at h
  obtain ⟨⟨created, pipes⟩, u, hcreate, hrest⟩ := Stateful.run_bind_eq_ok.mp h
  cases created with
  | false =>
    obtain ⟨pipe, hpipe⟩ := createPipes_refines hcreate 0 fun _ => true
    cases hrest
    refine ⟨⟨pipe, fun _ => true⟩, ?_⟩
    simp only [orchestrate, hpipe, Bool.false_eq_true, if_false]
    rfl
  | true =>
    simp only [if_true] at hrest
    obtain ⟨⟨forked, pipes', pids⟩, v, hfork, hrest⟩ := Stateful.run_bind_eq_ok.mp hrest
    obtain ⟨pipe, hpipe⟩ := createPipes_refines hcreate 0 fun _ => true
    obtain ⟨fork, hok, hpipes, hdescriptors⟩ := forkCommands_refines hfork pipe []
    refine ⟨⟨pipe, fork⟩, ?_⟩
    have hafter : (orchestrate ⟨pipe, fork⟩ commands.length s.descriptors).after =
        closePipes pipes' v.descriptors := by
      have hcreate' : createPipes ⟨pipe, fork⟩ (commands.length - 1) 0 [] s.descriptors =
          (true, pipes, u.descriptors) := by
        rw [← hpipe]
        exact createPipes_congr ⟨pipe, fork⟩ ⟨pipe, fun _ => true⟩ _ (fun _ _ => rfl) _ _
      simp only [orchestrate, hcreate', if_true, hpipes, hdescriptors]
    rw [hafter]
    rw [Stateful.run_bind_ok (Stateful.run_modify_eq _ _)] at hrest
    split at hrest
    · obtain ⟨last, w, hwait, hend⟩ := Stateful.run_bind_eq_ok.mp hrest
      cases hend
      exact ((sameTable_waitAll pids 0).ensures _).answer _ _ hwait
    · cases hrest
      rfl

end Executor

end Migash.Exec.PipelineFds
