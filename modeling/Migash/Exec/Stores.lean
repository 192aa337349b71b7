import Migash.Exec.Dispatch
import Migash.Redirect.Rest

/-! # The stores of a shell

Below the store in force lies one store for each simple command that is running.
`Tracks` says that a computation changes these by the recorded assignments only,
and `TracksAll` says the same of the store in force as well.
-/

namespace Migash.Exec

open Library Redirect

variable {δ W : Type}

/-! ## Recorded assignments -/

/-- The assignments to the store at a depth. -/
def assignedAt (d : ℕ) (events : List Event) : List Assignment :=
  events.filterMap fun e =>
    match e with
    | .assigned (some d') a => if d' = d then some a else none
    | _ => none

/-- A store after some assignments. -/
def applyAssignments (assignments : List Assignment) (store : VariableStore) : VariableStore :=
  assignments.foldl (fun store a => a.apply store) store

/-- Stores, the lowest first, each after the assignments at its depth. -/
def updateStores (events : List Event) (stores : List VariableStore) : List VariableStore :=
  stores.mapIdx fun d store => applyAssignments (assignedAt d events) store

/-- No assignment goes below the depth. -/
def NoneBelow (d : ℕ) (events : List Event) : Prop :=
  ∀ d' a, .assigned (some d') a ∈ events → d ≤ d'

theorem assignedAt_append (d : ℕ) (xs ys : List Event) :
    assignedAt d (xs ++ ys) = assignedAt d xs ++ assignedAt d ys := List.filterMap_append

theorem assignedAt_eq_nil {d n : ℕ} {events : List Event} (h : NoneBelow n events) (hd : d < n) :
    assignedAt d events = [] := by
  unfold assignedAt
  rw [List.filterMap_eq_nil_iff]
  intro e he
  split
  · next d' a =>
    have hle := h d' a he
    rw [if_neg (by omega)]
  · rfl

theorem updateStores_append (xs ys : List Event) (stores : List VariableStore) :
    updateStores (xs ++ ys) stores = updateStores ys (updateStores xs stores) := by
  unfold updateStores
  rw [List.mapIdx_mapIdx]
  congr 1
  funext d store
  simp [assignedAt_append, applyAssignments, List.foldl_append]

theorem updateStores_concat (events : List Event) (stores : List VariableStore)
    (store : VariableStore) :
    updateStores events (stores ++ [store]) =
      updateStores events stores ++ [applyAssignments (assignedAt stores.length events) store] :=
  List.mapIdx_concat

theorem updateStores_of_noneBelow {events : List Event} {stores : List VariableStore}
    (h : NoneBelow stores.length events) : updateStores events stores = stores := by
  unfold updateStores
  apply List.ext_getElem
  · simp
  · intro d hd hd'
    simp [assignedAt_eq_nil h hd', applyAssignments]

theorem NoneBelow.nil (d : ℕ) : NoneBelow d [] := by
  intro d' a h
  cases h

theorem NoneBelow.mono {d d' : ℕ} {events : List Event} (h : NoneBelow d' events) (hle : d ≤ d') :
    NoneBelow d events := fun e a ha => hle.trans (h e a ha)

/-! ## The stores that are set aside -/

namespace Shell

/-- The stores that are set aside, the lowest first. -/
def aside (s : Shell δ W) : List VariableStore :=
  ((s.frame :: s.callers).filterMap Frame.savedVariables).reverse

/-- Which frames have set a store aside. -/
def shape (s : Shell δ W) : List Bool :=
  (s.frame :: s.callers).map fun f => f.savedVariables.isSome

theorem length_aside (s : Shell δ W) : s.aside.length = s.depth := by
  have hlength : ∀ frames : List Frame, (frames.filterMap Frame.savedVariables).length =
      frames.countP fun f => f.savedVariables.isSome := by
    intro frames
    induction frames with
    | nil => rfl
    | cons f frames ih => cases h : f.savedVariables <;> simp [h, ih]
  rw [aside, List.length_reverse, hlength, depth]

end Shell

/-- The shell changed the stores that are set aside by the assignments it recorded. -/
structure Tracks (s t : Shell δ W) : Prop where
  shape : t.shape = s.shape
  history : ∃ new, t.history = s.history ++ new ∧ t.aside = updateStores new s.aside

/-- The shell changed every store by the assignments it recorded. -/
structure TracksAll (s t : Shell δ W) : Prop where
  shape : t.shape = s.shape
  history : ∃ new, t.history = s.history ++ new ∧
    t.aside ++ [t.variables_] = updateStores new (s.aside ++ [s.variables_])

theorem TracksAll.tracks {s t : Shell δ W} (h : TracksAll s t) : Tracks s t := by
  obtain ⟨new, hnew, hstores⟩ := h.history
  rw [updateStores_concat] at hstores
  exact ⟨h.shape, new, hnew, (List.append_inj' hstores rfl).1⟩

theorem Tracks.refl (s : Shell δ W) : Tracks s s :=
  ⟨rfl, [], by simp, (updateStores_of_noneBelow (.nil _)).symm⟩

theorem TracksAll.refl (s : Shell δ W) : TracksAll s s :=
  ⟨rfl, [], by simp, (updateStores_of_noneBelow (.nil _)).symm⟩

theorem Tracks.trans {s t u : Shell δ W} (h : Tracks s t) (h' : Tracks t u) : Tracks s u := by
  obtain ⟨new, hnew, hstores⟩ := h.history
  obtain ⟨new', hnew', hstores'⟩ := h'.history
  refine ⟨h'.shape.trans h.shape, new ++ new', ?_, ?_⟩
  · rw [hnew', hnew, List.append_assoc]
  · rw [hstores', hstores, updateStores_append]

theorem TracksAll.trans {s t u : Shell δ W} (h : TracksAll s t) (h' : TracksAll t u) :
    TracksAll s u := by
  obtain ⟨new, hnew, hstores⟩ := h.history
  obtain ⟨new', hnew', hstores'⟩ := h'.history
  refine ⟨h'.shape.trans h.shape, new ++ new', ?_, ?_⟩
  · rw [hnew', hnew, List.append_assoc]
  · rw [hstores', hstores, updateStores_append]

instance : Std.Refl (@Tracks δ W) := ⟨Tracks.refl⟩
instance : IsTrans (Shell δ W) Tracks := ⟨fun _ _ _ => Tracks.trans⟩
instance : Std.Refl (@TracksAll δ W) := ⟨TracksAll.refl⟩
instance : IsTrans (Shell δ W) TracksAll := ⟨fun _ _ _ => TracksAll.trans⟩

/-- The frames hold the stores that they held. -/
structure SameFrames (s t : Shell δ W) : Prop where
  frame : t.frame.savedVariables = s.frame.savedVariables
  callers : t.callers.map Frame.savedVariables = s.callers.map Frame.savedVariables

theorem SameFrames.map {s t : Shell δ W} (h : SameFrames s t) :
    (t.frame :: t.callers).map Frame.savedVariables =
      (s.frame :: s.callers).map Frame.savedVariables := by
  rw [List.map_cons, List.map_cons, h.frame, h.callers]

theorem SameFrames.shape {s t : Shell δ W} (h : SameFrames s t) : t.shape = s.shape := by
  have hmap := congrArg (List.map Option.isSome) h.map
  rw [List.map_map, List.map_map] at hmap
  exact hmap

theorem SameFrames.aside {s t : Shell δ W} (h : SameFrames s t) : t.aside = s.aside := by
  have hmap := congrArg (List.filterMap id) h.map
  rw [List.filterMap_map, List.filterMap_map] at hmap
  exact congrArg List.reverse hmap

/-- A change that leaves the frames' stores alone and records no assignment to them. -/
theorem SameFrames.tracks {s t : Shell δ W} (h : SameFrames s t) (new : List Event)
    (hnew : t.history = s.history ++ new) (hnone : NoneBelow s.depth new) : Tracks s t := by
  refine ⟨h.shape, new, hnew, ?_⟩
  rw [h.aside, updateStores_of_noneBelow]
  rwa [s.length_aside]

/-- The same for a change that leaves the store in force alone too. -/
theorem SameFrames.tracksAll {s t : Shell δ W} (h : SameFrames s t)
    (hvariables : t.variables_ = s.variables_) (new : List Event)
    (hnew : t.history = s.history ++ new) (hnone : NoneBelow (s.depth + 1) new) :
    TracksAll s t := by
  refine ⟨h.shape, new, hnew, ?_⟩
  rw [h.aside, hvariables, updateStores_of_noneBelow]
  simpa [s.length_aside] using hnone

/-- A change of nothing that the stores depend on. -/
theorem SameFrames.tracksAll_of_history {s t : Shell δ W} (h : SameFrames s t)
    (hvariables : t.variables_ = s.variables_) (hhistory : t.history = s.history) :
    TracksAll s t :=
  h.tracksAll hvariables [] (by simpa using hhistory) (.nil _)

/-- An event that is no assignment to a store of this depth or below. -/
theorem tracksAll_emit {s : Shell δ W} {e : Event} (h : NoneBelow (s.depth + 1) [e]) :
    TracksAll s (s.emit e) := SameFrames.tracksAll ⟨rfl, rfl⟩ rfl [e] rfl h

theorem tracksAll_assign (s : Shell δ W) (a : Assignment) : TracksAll s (s.assign a) := by
  refine ⟨rfl, [.assigned (some s.depth) a], rfl, ?_⟩
  have hnone : NoneBelow s.aside.length [.assigned (some s.depth) a] := by
    intro d a' hmem
    cases List.mem_singleton.mp hmem
    exact s.length_aside.le
  rw [updateStores_concat, updateStores_of_noneBelow hnone, s.length_aside]
  simp [assignedAt, applyAssignments, Shell.assign, Shell.aside, Shell.emit]

theorem tracksAll_writeVar (s : Shell δ W) (w : VarWrite) : TracksAll s (s.writeVar w) := by
  unfold Shell.writeVar
  dsimp only
  split
  · refine SameFrames.tracksAll ⟨rfl, rfl⟩ rfl [.assigned none _] rfl ?_
    intro d a hmem
    cases List.mem_singleton.mp hmem
  · exact tracksAll_assign s _

theorem tracksAll_expanded {α : Type} (s : Shell δ W) (e : Expansion W α) :
    TracksAll s (s.expanded e) := by
  have hwrites : ∀ (writes : List VarWrite) (s : Shell δ W),
      TracksAll s (writes.foldl Shell.writeVar s) := by
    intro writes
    induction writes with
    | nil => exact TracksAll.refl
    | cons w writes ih => exact fun s => (tracksAll_writeVar s w).trans (ih _)
  refine (hwrites e.writes s).trans ?_
  exact SameFrames.tracksAll_of_history ⟨rfl, rfl⟩ rfl rfl

/-- A prefix assignment of a special builtin changes the store that is set aside as recorded. -/
theorem tracks_assignPrefix {s : Shell δ W} {v : VariableStore}
    (h : s.frame.savedVariables = some v) (a : Assignment) (temp : VariableStore) :
    Tracks s (s.assignPrefix a temp) := by
  have hsplit : s.aside = (s.callers.filterMap Frame.savedVariables).reverse ++ [v] := by
    simp [Shell.aside, h]
  have hdepth : (s.callers.filterMap Frame.savedVariables).reverse.length = s.depth - 1 := by
    rw [← s.length_aside, hsplit]
    simp
  refine ⟨?_, [.assigned (some (s.depth - 1)) a], rfl, ?_⟩
  · simp [Shell.shape, Shell.assignPrefix, Shell.emit]
  · have hnone : NoneBelow (s.callers.filterMap Frame.savedVariables).reverse.length
        [.assigned (some (s.depth - 1)) a] := by
      intro d a' hmem
      cases List.mem_singleton.mp hmem
      exact hdepth.le
    rw [hsplit, updateStores_concat, updateStores_of_noneBelow hnone, hdepth]
    simp [Shell.aside, Shell.assignPrefix, Shell.emit, h, assignedAt, applyAssignments]

end Migash.Exec
