import Migash.Exec.FrameScopes
import Migash.Library.Runs

/-! # The stack of frames

The executor has a pointer to the innermost frame. A push sets it, and a pop
sets it to the parent; but then the pop clears the pointer that it was called
with, and the drivers and `exec_destroy` call it with the executor's own.
-/

namespace Migash.Exec.FrameStack

open Library FrameScopes

/-- `miga_frame_t`, as far as the stack is concerned. -/
structure FrameRecord where
  type : FrameType
  parent : Option ℕ
  deriving DecidableEq, Repr

/-- The fields of `miga_exec_t` that the stack is kept in. -/
structure Executor where
  frames : Heap FrameRecord := {}
  currentFrame : Option ℕ := none
  topFrame : Option ℕ := none
  topFrameInitialized : Bool := false

/-- The variable that `exec_frame_pop` is given the address of: a local one with a frame in it, or
`executor->current_frame`. -/
inductive FramePtr where
  | local_ (frame : ℕ)
  | currentFrame
  deriving DecidableEq, Repr

/-- `exec_frame_push`. A scope that is not its own needs a parent. -/
def execFramePush (parent : Option ℕ) (type : FrameType) (e : Executor) :
    Except Fault (ℕ × Executor) :=
  if storeScope type ≠ .own ∧ parent = none then .error (.contract "(frame)->parent")
  else
    let (frame, frames) := e.frames.alloc ⟨type, parent⟩
    .ok (frame,
      { frames
        currentFrame := some frame
        topFrame := if parent = none then some frame else e.topFrame
        topFrameInitialized := parent = none || e.topFrameInitialized })

/-- `exec_frame_create_top_level`. -/
def execFrameCreateTopLevel (e : Executor) : Except Fault (ℕ × Executor) := do
  let (frame, e) ← execFramePush none .topLevel e
  return (frame, { e with topFrame := some frame, currentFrame := some frame })

/-- `*frame_ptr` -/
def FramePtr.frame (e : Executor) : FramePtr → Option ℕ
  | .local_ frame => some frame
  | .currentFrame => e.currentFrame

/-- `exec_frame_pop`; the answer is the parent. -/
def execFramePop (framePtr : FramePtr) (e : Executor) : Except Fault (Option ℕ × Executor) :=
  match framePtr.frame e with
  | none => .error (.contract "frame")
  | some frame => do
    let ⟨_, parent⟩ ← deref e.frames frame
    let e : Executor :=
      match parent with
      | some parent => { e with currentFrame := some parent }
      | none => { e with currentFrame := none, topFrame := none, topFrameInitialized := false }
    let e := { e with frames := e.frames.free frame }
    match framePtr with
    | .local_ _ => return (parent, e)
    | .currentFrame => return (parent, { e with currentFrame := none })

/-- A pop leaves the current frame at the parent, unless it clears the pointer to it. -/
theorem execFramePop_current_iff {framePtr : FramePtr} {e e' : Executor} {parent : Option ℕ}
    (h : execFramePop framePtr e = .ok (parent, e')) :
    e'.currentFrame = parent ↔ framePtr = .currentFrame → parent = none := by
  unfold execFramePop at h
  cases hframe : framePtr.frame e with
  | none => simp [hframe] at h
  | some frame =>
    cases hget : e.frames.get frame with
    | none =>
      rw [hframe] at h
      simp [deref_of_none hget, bind, Except.bind] at h
    | some record =>
      obtain ⟨type, own⟩ := record
      rw [hframe] at h
      simp only [deref_of_get hget, bind, Except.bind, pure, Except.pure] at h
      cases framePtr with
      | local_ p =>
        cases h
        cases parent <;> simp
      | currentFrame =>
        cases h
        cases parent <;> simp

/-! ## The callers -/

/-- A call that is still under way. -/
inductive Call where
  /-- `exec_in_frame` or `frame_execute_eval_string_cstr`, with its local variable -/
  | frame (frame : ℕ)
  /-- the trap loop of a driver, with its `trap_frame` -/
  | trap (frame : ℕ)
  /-- the execution of a line by a driver in the current frame -/
  | line (frame : ℕ)
  deriving DecidableEq, Repr

/-- The frame that the code of a call works in. -/
def Call.inner : Call → ℕ
  | .frame p | .trap p | .line p => p

/-- The executor in the middle of a program. `pushed` are the frames that were pushed and not popped
yet, the innermost first; no function reads it. -/
structure State where
  exec : Executor := {}
  calls : List Call := []
  pushed : List ℕ := []

/-- What the executor does next. -/
inductive Step where
  /-- `exec_setup_core` at the entrance of a driver, unless there is a top frame -/
  | setUp
  /-- the entrance of `exec_execute_stream_once` -/
  | setUpOnce
  /-- a driver begins with a line -/
  | line
  /-- a call of `exec_in_frame`, or of `frame_execute_eval_string_cstr` -/
  | enter (type : FrameType)
  /-- a driver begins with the action of a pending trap -/
  | trap
  /-- the innermost call comes to its end -/
  | leave
  /-- `exec_destroy` -/
  | destroy
  deriving DecidableEq, Repr

namespace State

/-- A pop, and its record. -/
def pop (s : State) (framePtr : FramePtr) : Except Fault State := do
  let (_, exec) ← execFramePop framePtr s.exec
  return { s with exec, pushed := s.pushed.erase ((framePtr.frame s.exec).getD 0) }

/-- A push for a new call. -/
def push (s : State) (parent : Option ℕ) (type : FrameType) (call : ℕ → Call) :
    Except Fault State := do
  let (frame, exec) ← execFramePush parent type s.exec
  return { exec, calls := call frame :: s.calls, pushed := frame :: s.pushed }

def createTopLevel (s : State) : Except Fault State := do
  let (frame, exec) ← execFrameCreateTopLevel s.exec
  return { s with exec, pushed := frame :: s.pushed }

/-- A driver makes sure that there is a top frame. -/
def setUp (s : State) : Except Fault State :=
  if s.exec.topFrameInitialized then .ok s else s.createTopLevel

/-- The loop of `exec_destroy`. -/
def popAll : ℕ → State → Except Fault State
  | 0, _ => .error .fuel
  | n + 1, s =>
    if s.exec.currentFrame = none then .ok s
    else do popAll n (← s.pop .currentFrame)

end State

/-- One step of the executor. -/
def step (s : State) : Step → Except Fault State
  | .setUp => s.setUp
  | .setUpOnce => do
    let s ← s.setUp
    if s.exec.currentFrame = none then
      return { s with exec := { s.exec with currentFrame := s.exec.topFrame } }
    else return s
  | .line =>
    match s.exec.currentFrame with
    | none => .error (.contract "frame")
    | some frame => .ok { s with calls := .line frame :: s.calls }
  | .enter type =>
    match s.calls with
    | [] => .error (.contract "parent")
    | call :: _ => s.push (some call.inner) type .frame
  | .trap => s.push s.exec.currentFrame .trap .trap
  | .leave =>
    match s.calls with
    | [] => .error (.contract "no call")
    | .line _ :: calls => .ok { s with calls }
    | .frame frame :: calls => State.pop { s with calls } (.local_ frame)
    | .trap _ :: calls => State.pop { s with calls } .currentFrame
  | .destroy => State.popAll (s.exec.frames.cells.length + 1) { s with calls := [] }

/-- A run up to its first fault. -/
def run (steps : List Step) : Except Fault State :=
  steps.foldl (fun s a => s >>= fun s => step s a) (.ok {})

/-! ## The invariant -/

/-- The current frame is the innermost one that was pushed and not popped, if there is any. -/
def Innermost (s : State) : Prop := s.exec.currentFrame = s.pushed.head?

/-- Each frame is the parent of the next inner one. -/
def Nested (frames : Heap FrameRecord) : List ℕ → Prop
  | [] => True
  | p :: ps => (∃ type, frames.get p = some ⟨type, ps.head?⟩) ∧ Nested frames ps

/-- The calls under way have pushed all frames but the outermost. -/
inductive CallsOn : List Call → List ℕ → Prop
  | nil {pushed : List ℕ} (h : pushed.length ≤ 1) : CallsOn [] pushed
  | line {calls : List Call} {p : ℕ} {ps : List ℕ} (h : CallsOn calls (p :: ps)) :
    CallsOn (.line p :: calls) (p :: ps)
  | frame {calls : List Call} {p : ℕ} {ps : List ℕ} (h : CallsOn calls ps) :
    CallsOn (.frame p :: calls) (p :: ps)
  | trap {calls : List Call} {p : ℕ} {ps : List ℕ} (h : CallsOn calls ps) :
    CallsOn (.trap p :: calls) (p :: ps)

structure Stacked (s : State) : Prop where
  innermost : Innermost s
  top : s.exec.topFrame = s.pushed.getLast?
  initialized : s.exec.topFrameInitialized = !s.pushed.isEmpty
  nested : Nested s.exec.frames s.pushed
  nodup : s.pushed.Nodup
  calls : CallsOn s.calls s.pushed

section Nested

variable {frames : Heap FrameRecord} {ps : List ℕ}

theorem Nested.lt (h : Nested frames ps) {p : ℕ} (hp : p ∈ ps) : p < frames.cells.length := by
  induction ps with
  | nil => cases hp
  | cons q ps ih =>
    obtain ⟨⟨type, hq⟩, hps⟩ := h
    rcases List.mem_cons.mp hp with rfl | hp
    · exact Heap.lt_of_get hq
    · exact ih hps hp

/-- Frames elsewhere do not matter. -/
theorem Nested.congr {frames' : Heap FrameRecord} (h : Nested frames ps)
    (hsame : ∀ p ∈ ps, frames'.get p = frames.get p) : Nested frames' ps := by
  induction ps with
  | nil => trivial
  | cons q ps ih =>
    obtain ⟨⟨type, hq⟩, hps⟩ := h
    refine ⟨⟨type, ?_⟩, ih hps fun p hp => hsame p (List.mem_cons_of_mem q hp)⟩
    rw [hsame q List.mem_cons_self, hq]

theorem Nested.alloc (h : Nested frames ps) (type : FrameType) :
    Nested (frames.alloc ⟨type, ps.head?⟩).2 (frames.cells.length :: ps) := by
  refine ⟨⟨type, Heap.get_alloc_self _ _⟩, h.congr fun p hp => ?_⟩
  exact Heap.get_alloc_of_ne _ (Nat.ne_of_lt (h.lt hp)) _

end Nested

section Steps

variable {s s' : State}

/-- A push on top of the innermost frame. -/
theorem Stacked.push (h : Stacked s) {type : FrameType} {call : ℕ → Call}
    (hcall : ∀ p, CallsOn (call p :: s.calls) (p :: s.pushed))
    (hpush : s.push s.pushed.head? type call = .ok s') : Stacked s' := by
  by_cases hscope : storeScope type ≠ .own ∧ s.pushed.head? = none
  · rw [State.push, execFramePush, if_pos hscope] at hpush
    cases hpush
  · rw [State.push, execFramePush, if_neg hscope] at hpush
    cases hpush
    have hnew : s.exec.frames.cells.length ∉ s.pushed :=
      fun hmem => absurd (h.nested.lt hmem) (Nat.lt_irrefl _)
    exact
      { innermost := rfl
        top := by
          have htop := h.top
          cases hpushed : s.pushed with
          | nil => rfl
          | cons p ps => simpa [hpushed] using htop
        initialized := by
          have hinit := h.initialized
          cases hpushed : s.pushed with
          | nil => rfl
          | cons p ps => simpa [hpushed] using hinit
        nested := h.nested.alloc type
        nodup := List.nodup_cons.mpr ⟨hnew, h.nodup⟩
        calls := hcall _ }

theorem Stacked.createTopLevel (h : Stacked s) (hinit : s.exec.topFrameInitialized = false)
    (hcreate : s.createTopLevel = .ok s') : Stacked s' := by
  have hpushed : s.pushed = [] := by
    have := h.initialized
    rw [hinit] at this
    simpa using this
  have hcalls := h.calls
  have hnested := h.nested
  rw [hpushed] at hcalls hnested
  have hnil : s.calls = [] := by
    generalize s.calls = calls at hcalls
    cases hcalls with
    | nil => rfl
  cases hcreate
  exact
    { innermost := rfl
      top := by rw [hpushed]; rfl
      initialized := rfl
      nested := by
        rw [hpushed]
        exact hnested.alloc .topLevel
      nodup := by rw [hpushed]; exact List.nodup_singleton _
      calls := by
        rw [hpushed]
        change CallsOn s.calls _
        rw [hnil]
        exact .nil (Nat.le_refl 1) }

/-- What a pop of the innermost frame does. -/
theorem Stacked.pop_eq (h : Stacked s) {p : ℕ} {ps : List ℕ} (hpushed : s.pushed = p :: ps)
    (framePtr : FramePtr) (hframe : framePtr.frame s.exec = some p) (calls : List Call) :
    State.pop { s with calls } framePtr = .ok
      { calls
        exec :=
          { frames := s.exec.frames.free p
            currentFrame := match framePtr with
              | .local_ _ => ps.head?
              | .currentFrame => none
            topFrame := ps.getLast?
            topFrameInitialized := !ps.isEmpty }
        pushed := ps } := by
  have hnested := h.nested
  have htop := h.top
  have hinit := h.initialized
  rw [hpushed] at hnested htop hinit
  obtain ⟨⟨type, hget⟩, -⟩ := hnested
  have herase : s.pushed.erase p = ps := by rw [hpushed, List.erase_cons_head]
  unfold State.pop execFramePop
  dsimp only
  rw [hframe]
  simp only [deref_of_get hget, bind, Except.bind, pure, Except.pure, Option.getD_some, herase]
  cases ps with
  | nil => cases framePtr <;> rfl
  | cons q ps =>
    rw [List.getLast?_cons_cons] at htop
    cases framePtr <;> simp [htop, hinit]

/-- The stack without its innermost frame. -/
theorem Stacked.popped (h : Stacked s) {p : ℕ} {ps : List ℕ} {calls : List Call}
    (hpushed : s.pushed = p :: ps) (hcalls : CallsOn calls ps) :
    Stacked
      { exec :=
          { frames := s.exec.frames.free p
            currentFrame := ps.head?
            topFrame := ps.getLast?
            topFrameInitialized := !ps.isEmpty }
        calls
        pushed := ps } := by
  have hnested := h.nested
  have hnodup := h.nodup
  rw [hpushed] at hnested hnodup
  have hp : p ∉ ps := (List.nodup_cons.mp hnodup).1
  exact
    { innermost := rfl
      top := rfl
      initialized := rfl
      nested := hnested.2.congr fun q hq =>
        Heap.get_free_of_ne _ (fun heq => hp (heq ▸ hq))
      nodup := (List.nodup_cons.mp hnodup).2
      calls := hcalls }

/-- What `exec_destroy` does: it pops the innermost frame, and then there is no current frame any
more. -/
theorem Stacked.popAll_eq (h : Stacked s) {p : ℕ} {ps : List ℕ} (hpushed : s.pushed = p :: ps) :
    State.popAll (s.exec.frames.cells.length + 1) { s with calls := [] } = .ok
      { calls := []
        exec :=
          { frames := s.exec.frames.free p
            currentFrame := none
            topFrame := ps.getLast?
            topFrameInitialized := !ps.isEmpty }
        pushed := ps } := by
  have hcurrent : s.exec.currentFrame = some p := by
    rw [h.innermost, hpushed]
    rfl
  have hlt : p < s.exec.frames.cells.length := h.nested.lt (hpushed ▸ List.mem_cons_self)
  obtain ⟨n, hn⟩ : ∃ n, s.exec.frames.cells.length = n + 1 := ⟨_, (Nat.succ_pred (by omega)).symm⟩
  rw [State.popAll, if_neg (by simp [hcurrent]), h.pop_eq hpushed .currentFrame hcurrent]
  change State.popAll s.exec.frames.cells.length _ = _
  rw [hn, State.popAll, if_pos rfl]

/-- A trap action that ends is in the only frame there is, and so is `exec_destroy`. -/
def Fits : Step → State → Prop
  | .leave, s => ∀ p calls, s.calls = .trap p :: calls → s.pushed.length ≤ 1
  | .destroy, s => s.pushed.length ≤ 1
  | _, _ => True

theorem Stacked.setUp (h : Stacked s) (hset : s.setUp = .ok s') : Stacked s' := by
  unfold State.setUp at hset
  split_ifs at hset with hinit
  · cases hset
    exact h
  · exact h.createTopLevel (by simpa using hinit) hset

theorem Stacked.after (h : Stacked s) {a : Step} (hfits : Fits a s) (hstep : step s a = .ok s') :
    Stacked s' := by
  have hinner := h.innermost
  have hcalls := h.calls
  unfold Innermost at hinner
  cases a with
  | setUp => exact h.setUp hstep
  | setUpOnce =>
    simp only [step] at hstep
    obtain ⟨t, hset, hrest⟩ := except_bind_eq_ok.mp hstep
    have ht := h.setUp hset
    split_ifs at hrest with hnone
    · -- without a current frame there is no top frame either
      have htop : t.exec.topFrame = none := by
        have hpushed : t.pushed = [] := by
          have := ht.innermost
          unfold Innermost at this
          rw [hnone] at this
          exact List.head?_eq_none_iff.mp this.symm
        rw [ht.top, hpushed]
        rfl
      cases hrest
      exact { ht with innermost := (htop.trans hnone.symm).trans ht.innermost }
    · cases hrest
      exact ht
  | line =>
    simp only [step] at hstep
    cases hcurrent : s.exec.currentFrame with
    | none => simp [hcurrent] at hstep
    | some p =>
      rw [hcurrent] at hstep hinner
      obtain ⟨ps, hpushed⟩ : ∃ ps, s.pushed = p :: ps := by
        cases hlist : s.pushed with
        | nil => simp [hlist] at hinner
        | cons q ps =>
          rw [hlist, List.head?_cons, Option.some.injEq] at hinner
          exact ⟨ps, by rw [hinner]⟩
      cases hstep
      refine { h with calls := ?_ }
      rw [hpushed] at hcalls ⊢
      exact .line hcalls
  | enter type =>
    simp only [step] at hstep
    cases hlist : s.calls with
    | nil => simp [hlist] at hstep
    | cons call calls =>
      rw [hlist] at hstep
      -- the code of the innermost call works in the innermost frame
      have hparent : some call.inner = s.pushed.head? := by
        rw [hlist] at hcalls
        generalize s.pushed = pushed at hcalls
        cases hcalls <;> rfl
      simp only [hparent] at hstep
      exact h.push (fun _ => .frame hcalls) hstep
  | trap =>
    simp only [step] at hstep
    rw [hinner] at hstep
    exact h.push (fun _ => .trap hcalls) hstep
  | leave =>
    simp only [step] at hstep
    generalize hlist : s.calls = calls at hcalls hstep
    generalize hpushed : s.pushed = pushed at hcalls
    cases hcalls with
    | nil => cases hstep
    | line hrest =>
      rw [← hpushed] at hrest
      cases hstep
      exact { h with calls := hrest }
    | @frame calls p ps hrest =>
      dsimp only at hstep
      rw [h.pop_eq hpushed (.local_ p) rfl] at hstep
      cases hstep
      exact h.popped hpushed hrest
    | @trap calls p ps hrest =>
      have hlen := hfits p calls hlist
      rw [hpushed, List.length_cons] at hlen
      obtain rfl : ps = [] := List.length_eq_zero_iff.mp (by omega)
      dsimp only at hstep
      rw [h.pop_eq hpushed .currentFrame (by rw [FramePtr.frame, hinner, hpushed]; rfl)] at hstep
      cases hstep
      exact h.popped hpushed hrest
  | destroy =>
    simp only [step] at hstep
    simp only [Fits] at hfits
    cases hpushed : s.pushed with
    | nil =>
      have hnone : s.exec.currentFrame = none := by rw [hinner, hpushed]; rfl
      rw [State.popAll, if_pos hnone] at hstep
      cases hstep
      exact { h with calls := .nil (hpushed ▸ Nat.zero_le 1) }
    | cons p ps =>
      rw [hpushed, List.length_cons] at hfits
      obtain rfl : ps = [] := List.length_eq_zero_iff.mp (by omega)
      rw [h.popAll_eq hpushed] at hstep
      cases hstep
      exact h.popped hpushed (.nil (Nat.zero_le 1))

/-- Where a step does not fit, the executor loses its current frame. -/
theorem Stacked.fits (h : Stacked s) {a : Step} (hinner : ∀ s', step s a = .ok s' → Innermost s') :
    Fits a s := by
  have hcalls := h.calls
  have hcurrent := h.innermost
  unfold Innermost at hcurrent
  cases a with
  | leave =>
    intro p calls hlist
    rw [hlist] at hcalls
    generalize hpushed : s.pushed = pushed at hcalls
    cases hcalls with
    | @trap _ _ ps hrest =>
      have hstep : step s .leave = State.pop { s with calls } .currentFrame := by
        simp only [step, hlist]
      have hpop := h.pop_eq hpushed .currentFrame (by rw [FramePtr.frame, hcurrent, hpushed]; rfl)
        calls
      have hafter := hinner _ (hstep.trans hpop)
      have hnil : ps = [] := List.head?_eq_none_iff.mp hafter.symm
      rw [hnil]
      exact Nat.le_refl 1
  | destroy =>
    simp only [Fits]
    cases hpushed : s.pushed with
    | nil => exact Nat.zero_le 1
    | cons p ps =>
      have hafter := hinner _ (h.popAll_eq hpushed)
      have hnil : ps = [] := List.head?_eq_none_iff.mp hafter.symm
      rw [hnil]
      exact Nat.le_refl 1
  | setUp | setUpOnce | line | enter | trap => trivial

end Steps

theorem stacked_initial : Stacked {} where
  innermost := rfl
  top := rfl
  initialized := rfl
  nested := trivial
  nodup := List.nodup_nil
  calls := .nil (Nat.zero_le 1)

/-- In every state of a run the current frame is the innermost one that was pushed and not popped,
exactly if no trap action ends and nothing is destroyed that has more than one frame. -/
theorem currentFrame_innermost_iff (steps : List Step) :
    ((∀ before, before <+: steps → ∀ s, run before = .ok s → Innermost s) ↔
      ∀ before a, before ++ [a] <+: steps → ∀ s, run before = .ok s → Fits a s) ∧
    ∀ framePtr e e' parent, execFramePop framePtr e = .ok (parent, e') →
      (e'.currentFrame = parent ↔ framePtr = .currentFrame → parent = none) := by
  refine ⟨?_, fun framePtr e e' parent => execFramePop_current_iff⟩
  have hmid {r : Except Fault State} {a : Step} {s : State} (h : (r >>= fun s => step s a) = .ok s) :
      ∃ t, r = .ok t ∧ step t a = .ok s := except_bind_eq_ok.mp h
  refine forall_prefix_iff_of_invariant
    (I := fun r : Except Fault State => ∀ s, r = .ok s → Stacked s)
    (P := fun r => ∀ s, r = .ok s → Innermost s) (Q := fun a r => ∀ s, r = .ok s → Fits a s)
    ?_ ?_ ?_ ?_
  · intro a _ r hI hQ s' hs'
    obtain ⟨s, hs, hstep⟩ := hmid hs'
    exact (hI s hs).after (hQ s hs) hstep
  · rintro a _ r hI hP s rfl
    exact (hI s rfl).fits hP
  · exact fun r hI s hs => (hI s hs).innermost
  · rintro s ⟨⟩
    exact stacked_initial

/-- Behind the action of a trap the executor has no current frame, although the top frame is still
there; and `exec_destroy` in a function leaves the top frame on the stack. -/
theorem trap_loses_top :
    (∃ s, run [.setUp, .trap, .leave] = .ok s ∧ s.pushed = [0] ∧ s.exec.currentFrame = none) ∧
      ∃ s, run [.setUp, .line, .enter .function, .destroy] = .ok s ∧ s.pushed = [0] :=
  ⟨⟨_, rfl, rfl, rfl⟩, _, rfl, rfl⟩

end Migash.Exec.FrameStack
