import Migash.Exec.Command
import Migash.Library.Runs

/-! # Exported variables

Many places of the shell assign to a variable. Each writes to one store of the
frame or another, and each decides itself which flags the variable has afterwards.
What later commands and their processes see is the store that stays when the
current simple command is over.
-/

namespace Migash

namespace VariableStore

variable {store : VariableStore} {name value x v : String} {exported readOnly : Bool}

/-! ## One store -/

/-- The checks of `variable_store_add` let an assignment through. -/
def admits (store : VariableStore) (name value : String) : Prop :=
  validateVariableName name = none ∧ validateVariableValue value = none ∧
    store.isReadOnly name = false

/-- The checks of `frame_set_variable` do: a read-only variable may be given the value it has. -/
def admitsSame (store : VariableStore) (name value : String) : Prop :=
  store.admits name value ∨ store.isReadOnly name = true ∧ store.getValue name = some value

/-- The variable is exported with the value. -/
def Exports (store : VariableStore) (name value : String) : Prop :=
  ∃ readOnly, store.get name = some ⟨value, true, readOnly⟩

theorem add_of_admits (h : store.admits name value) :
    ∃ store', store.add name (some value) exported readOnly = .ok store' := by
  obtain ⟨hname, hvalue, hreadOnly⟩ := h
  unfold add
  split
  · next e he => rw [hname] at he; cases he
  · split
    · next e he => rw [Option.getD_some, hvalue] at he; cases he
    · exact ⟨_, if_neg (by simp [hreadOnly])⟩

theorem admits_of_add {store' : VariableStore}
    (h : store.add name (some value) exported readOnly = .ok store') : store.admits name value := by
  unfold add at h
  split at h
  · cases h
  · next hname =>
    split at h
    · cases h
    · next hvalue =>
      split at h
      · cases h
      · next hreadOnly => exact ⟨hname, hvalue, by simpa using hreadOnly⟩

theorem tryAdd_get_of_admits (h : store.admits name value) :
    (store.tryAdd name (some value) exported readOnly).get name =
      some ⟨value, exported, readOnly⟩ := by
  obtain ⟨store', hadd⟩ : ∃ store', store.add name (some value) exported readOnly = .ok store' :=
    add_of_admits h
  have hget := add_ok hadd name
  rw [if_pos rfl] at hget
  rw [tryAdd, hadd]
  exact hget

theorem tryAdd_of_not_admits (h : ¬ store.admits name value) :
    store.tryAdd name (some value) exported readOnly = store := by
  unfold tryAdd
  cases hadd : store.add name (some value) exported readOnly with
  | error e => rfl
  | ok store' => exact absurd (admits_of_add hadd) h

theorem setKeepingFlags_get_of_ne {n : String} (hn : n ≠ name) :
    (store.setKeepingFlags name value).get n = store.get n := by
  unfold setKeepingFlags
  cases store.get name <;> exact tryAdd_get_of_ne hn

theorem setKeepingFlags_of_not_admits (h : ¬ store.admits name value) :
    store.setKeepingFlags name value = store := by
  unfold setKeepingFlags
  cases store.get name <;> exact tryAdd_of_not_admits h

theorem Exports.unique {w : String} (h : store.Exports x v) (h' : store.Exports x w) : v = w := by
  obtain ⟨r, hr⟩ := h
  obtain ⟨r', hr'⟩ := h'
  rw [hr, Option.some.injEq] at hr'
  exact congrArg Variable.value hr'

theorem Exports.getValue (h : store.Exports x v) : store.getValue x = some v := by
  obtain ⟨r, hr⟩ := h
  rw [VariableStore.getValue, hr]
  rfl

/-- A change of another variable, or one that is turned down. -/
theorem Exports.of_get {store' : VariableStore} (h : store.Exports x v)
    (hget : store'.get x = store.get x) : store'.Exports x v := by
  obtain ⟨r, hr⟩ := h
  exact ⟨r, hget.trans hr⟩

theorem Exports.tryAdd (h : store.Exports x v) (hnot : ¬ (name = x ∧ store.admits name value)) :
    (store.tryAdd name (some value) exported readOnly).Exports x v := by
  by_cases hx : name = x
  · rw [tryAdd_of_not_admits fun ha => hnot ⟨hx, ha⟩]
    exact h
  · exact h.of_get (tryAdd_get_of_ne (Ne.symm hx))

/-- A plain addition drops the flag. -/
theorem not_exports_tryAdd (h : store.admits x value) (w : String) :
    ¬ (store.tryAdd x (some value) false readOnly).Exports x w := by
  rintro ⟨r, hr⟩
  rw [tryAdd_get_of_admits h, Option.some.injEq] at hr
  cases hr

theorem Exports.setKeepingFlags (h : store.Exports x v)
    (hnot : ¬ (name = x ∧ store.admitsSame name value)) :
    (store.setKeepingFlags name value).Exports x v := by
  by_cases hx : name = x
  · rw [setKeepingFlags_of_not_admits fun ha => hnot ⟨hx, .inl ha⟩]
    exact h
  · exact h.of_get (setKeepingFlags_get_of_ne (Ne.symm hx))

/-- An assignment that keeps the flags leaves an exported variable exported with the new value. -/
theorem Exports.setKeepingFlags_self (h : store.Exports x v) (hadmits : store.admitsSame x value) :
    (store.setKeepingFlags x value).Exports x value := by
  obtain ha | ⟨hreadOnly, hvalue⟩ := hadmits
  · obtain ⟨r, hr⟩ := h
    refine ⟨r, ?_⟩
    rw [VariableStore.setKeepingFlags, hr]
    exact tryAdd_get_of_admits ha
  · have hv : v = value := Option.some.inj (h.getValue.symm.trans hvalue)
    have hnot : ¬ store.admits x value := by
      intro ha
      rw [ha.2.2] at hreadOnly
      cases hreadOnly
    rw [setKeepingFlags_of_not_admits hnot]
    exact hv ▸ h

theorem Exports.setReadOnly {store' : VariableStore} (h : store.Exports x v)
    (hset : store.setReadOnly name readOnly = .ok store') : store'.Exports x v := by
  obtain ⟨r, hr⟩ := h
  have hget := setReadOnly_ok hset x
  by_cases hx : x = name
  · rw [if_pos hx, hr] at hget
    exact ⟨readOnly, hget⟩
  · rw [if_neg hx, hr] at hget
    exact ⟨r, hget⟩

theorem Exports.setExported {store' : VariableStore} (h : store.Exports x v)
    (hset : store.setExported name true = .ok store') : store'.Exports x v := by
  obtain ⟨r, hr⟩ := h
  have hget := setExported_ok hset x
  by_cases hx : x = name
  · rw [if_pos hx, hr] at hget
    exact ⟨r, hget⟩
  · rw [if_neg hx, hr] at hget
    exact ⟨r, hget⟩

end VariableStore

namespace Exec

open Library

/-! ## Setting a variable of a frame -/

/-- `frame->variables`, `frame->saved_variables` and `frame->local_variables`. -/
structure FrameStores where
  variables_ : VariableStore
  saved : Option VariableStore := none
  locals : Option VariableStore := none

/-- `miga_var_status_t`, as far as the functions below return it. -/
inductive VarStatus where
  | ok | notFound | readOnly
  deriving DecidableEq, Repr

/-- `miga_export_status_t`, as far as a POSIX system returns it. -/
inductive ExportStatus where
  | success | invalidName | readOnly | systemError
  deriving DecidableEq, Repr

/-- The end of `frame_set_variable` and `frame_set_persistent_variable`. An error that has no public
code counts as success. -/
def publicStatus (store : VariableStore) :
    Except VarStoreError VariableStore → VarStatus × VariableStore
  | .ok store' => (.ok, store')
  | .error .readOnly => (.readOnly, store)
  | .error .notFound => (.notFound, store)
  | .error _ => (.ok, store)

/-- What both functions do to their store. -/
def setVariableIn (store : VariableStore) (name value : String) : VarStatus × VariableStore :=
  match store.get name with
  | some v =>
    if v.readOnly then (if v.value = value then .ok else .readOnly, store)
    else publicStatus store (store.add name (some value) v.exported v.readOnly)
  | none => publicStatus store (store.add name (some value) false false)

namespace FrameStores

variable (s : FrameStores)

/-- The store that the frame goes back to when its simple command is over. -/
def persistent : VariableStore := s.saved.getD s.variables_

/-- The store of `frame_set_variable`. -/
def target : VariableStore := s.locals.getD s.variables_

def putTarget (store : VariableStore) : FrameStores :=
  match s.locals with
  | some _ => { s with locals := some store }
  | none => { s with variables_ := store }

def putPersistent (store : VariableStore) : FrameStores :=
  match s.saved with
  | some _ => { s with saved := some store }
  | none => { s with variables_ := store }

/-- `frame_set_variable`. -/
def frameSetVariable (name value : String) : VarStatus × FrameStores :=
  let r := setVariableIn s.target name value
  (r.1, s.putTarget r.2)

/-- `frame_set_persistent_variable`. -/
def frameSetPersistentVariable (name value : String) : VarStatus × FrameStores :=
  let r := setVariableIn s.persistent name value
  (r.1, s.putPersistent r.2)

/-- `frame_set_variable_readonly`. -/
def frameSetVariableReadonly (name : String) (readOnly : Bool) : VarStatus × FrameStores :=
  match s.variables_.setReadOnly name readOnly with
  | .ok store => (.ok, { s with variables_ := store })
  | .error .notFound => (.notFound, s)
  | .error _ => (.ok, s)

/-- `frame_has_variable`. -/
def frameHasVariable (name : String) : Bool :=
  s.locals.any (fun locals => (locals.get name).isSome) || (s.variables_.get name).isSome

/-- The check of a name in `frame_export_variable` and in `builtin_readonly`. -/
def isIdentifier (name : String) : Bool :=
  match name.toList with
  | [] => false
  | c :: rest => (c.isAlpha || c = '_') && rest.all fun d => d.isAlphanum || d = '_'

/-- The end of `frame_export_variable`; `setenv` may fail. -/
def markExported (setenv : String → String → Bool) (name : String) : ExportStatus × FrameStores :=
  match s.variables_.setExported name true with
  | .error _ => (.systemError, s)
  | .ok store =>
    let s' := { s with variables_ := store }
    match store.getValue name with
    | none => (.systemError, s')
    | some value => (if setenv name value then .success else .systemError, s')

/-- `frame_export_variable`. -/
def frameExportVariable (setenv : String → String → Bool) (name : String) (value : Option String) :
    ExportStatus × FrameStores :=
  if isIdentifier name then
    if (s.variables_.get name).any fun v => v.readOnly && value.any (· ≠ v.value) then (.readOnly, s)
    else
      match value with
      | some value =>
        match s.frameSetVariable name value with
        | (.ok, s') => s'.markExported setenv name
        | (.readOnly, s') => (.readOnly, s')
        | (.notFound, s') => (.systemError, s')
      | none =>
        if (s.variables_.get name).isSome then s.markExported setenv name
        else
          match s.frameSetVariable name "" with
          | (.ok, s') => s'.markExported setenv name
          | (_, s') => (.systemError, s')
  else (.invalidName, s)

/-- The end of a turn of `builtin_readonly`: does the argument leave the exit status alone? -/
def markReadonly (name : String) : Bool × FrameStores :=
  if name = "LINENO" then (false, s)
  else
    let r := s.frameSetVariableReadonly name true
    (r.1 = .ok, r.2)

/-- A turn of `builtin_readonly` for the argument `name=value` or `name`. -/
def readonlyArgument (name : String) (value : Option String) : Bool × FrameStores :=
  if isIdentifier name then
    match value with
    | some value =>
      if s.variables_.isReadOnly name then (false, s)
      else
        match s.frameSetVariable name value with
        | (.ok, s') => s'.markReadonly name
        | (_, s') => (false, s')
    | none =>
      if s.frameHasVariable name then s.markReadonly name
      else (s.frameSetVariable name "").2.markReadonly name
  else (false, s)

/-- The plain call of `variable_store_add` on `frame->variables`, whose error stops the command or is
ignored. -/
def addPlain (name value : String) : FrameStores :=
  { s with variables_ := s.variables_.tryAdd name (some value) false false }

/-- One turn of `apply_prefix_assignments`, whose second store is `frame->saved_variables`. -/
def applyPrefixAssignment (name value : String) : FrameStores :=
  match s.saved, s.variables_.add name (some value) false false with
  | some main, .ok temp =>
    { s with variables_ := temp, saved := some (main.tryAdd name (some value) false false) }
  | _, _ => s

/-- `frame_unset_variable`. -/
def frameUnsetVariable (name : String) : VarStatus × FrameStores :=
  match s.target.get name with
  | none => (.notFound, s)
  | some v => if v.readOnly then (.readOnly, s) else (.ok, s.putTarget (s.target.remove name))

end FrameStores

/-! ## The places that assign -/

/-- What assigns to a variable. -/
inductive AssignSite where
  /-- a command that consists of assignments -/
  | assignmentCommand
  /-- a prefix assignment of a special builtin -/
  | prefixAssignment
  /-- `set_parameter_value`, for `${name:=word}` -/
  | parameterDefault
  /-- `$((name = expression))` and the other assignment operators -/
  | arithmetic
  /-- a turn of a for loop -/
  | forVariable
  /-- `exec_frame_update_lineno`, before each command -/
  | lineno
  | getopts
  | readonly
  | exportValue
  /-- `cd`, `read` and the other callers of `frame_set_persistent_variable` -/
  | persistentBuiltin
  deriving DecidableEq, Repr

namespace AssignSite

/-- The stores after an assignment. -/
def run (setenv : String → String → Bool) (site : AssignSite) (name value : String)
    (s : FrameStores) : FrameStores :=
  match site with
  | .assignmentCommand | .parameterDefault | .forVariable | .lineno => s.addPlain name value
  | .prefixAssignment => s.applyPrefixAssignment name value
  | .arithmetic | .getopts => (s.frameSetVariable name value).2
  | .readonly => (s.readonlyArgument name (some value)).2
  | .exportValue => (s.frameExportVariable setenv name (some value)).2
  | .persistentBuiltin => (s.frameSetPersistentVariable name value).2

end AssignSite

namespace AssignSite

/-- An assignment that no check turns down. -/
def admits (site : AssignSite) (s : FrameStores) (name value : String) : Prop :=
  match site with
  | .assignmentCommand | .parameterDefault | .forVariable | .lineno => s.variables_.admits name value
  | .prefixAssignment =>
    s.variables_.admits name value ∧ ∃ main ∈ s.saved, main.admits name value
  | .arithmetic | .getopts => s.target.admitsSame name value
  | .readonly =>
    FrameStores.isIdentifier name = true ∧ s.variables_.isReadOnly name = false ∧
      s.target.admitsSame name value
  | .exportValue =>
    FrameStores.isIdentifier name = true ∧
      (s.variables_.isReadOnly name = true → s.variables_.getValue name = some value) ∧
      s.target.admitsSame name value
  | .persistentBuiltin => s.persistent.admitsSame name value

instance (site : AssignSite) (s : FrameStores) (name value : String) :
    Decidable (site.admits s name value) :=
  have hstore : ∀ store : VariableStore, Decidable (store.admits name value) :=
    fun _ => inferInstanceAs (Decidable (_ ∧ _))
  have hsame : ∀ store : VariableStore, Decidable (store.admitsSame name value) :=
    fun _ => inferInstanceAs (Decidable (_ ∨ _))
  match site with
  | .assignmentCommand | .parameterDefault | .forVariable | .lineno => hstore s.variables_
  | .prefixAssignment => inferInstanceAs (Decidable (_ ∧ ∃ main ∈ s.saved, main.admits name value))
  | .arithmetic | .getopts => hsame s.target
  | .readonly => inferInstanceAs (Decidable (_ ∧ _ ∧ s.target.admitsSame name value))
  | .exportValue => inferInstanceAs (Decidable (_ ∧ _ ∧ s.target.admitsSame name value))
  | .persistentBuiltin => hsame s.persistent

/-- Does the assignment write to the store that stays? -/
def reaches (site : AssignSite) (s : FrameStores) : Prop :=
  match site with
  | .prefixAssignment | .persistentBuiltin => True
  | .assignmentCommand | .parameterDefault | .forVariable | .lineno => s.saved = none
  | .arithmetic | .getopts | .readonly | .exportValue => s.saved = none ∧ s.locals = none

/-- Does it pass on the flags that the variable has? -/
def keepsFlags : AssignSite → Bool
  | .arithmetic | .getopts | .readonly | .exportValue | .persistentBuiltin => true
  | .assignmentCommand | .prefixAssignment | .parameterDefault | .forVariable | .lineno => false

end AssignSite

/-! ## Runs -/

/-- What happens to the stores of a frame. -/
inductive VarStep where
  | assign (site : AssignSite) (name value : String)
  | unset (name : String)
  /-- A simple command begins, with a temporary store. -/
  | swapIn (temp : VariableStore)
  /-- A function, a script or an `eval` of the simple command leaves this in the store it shares. -/
  | called (temp : VariableStore)
  /-- The simple command is over. -/
  | restore
  /-- Another frame with the same store becomes the current one. -/
  | frame (locals : Option VariableStore)

/-- A frame runs one simple command at a time. -/
def VarStep.run (setenv : String → String → Bool) (s : FrameStores) : VarStep → FrameStores
  | .assign site name value => site.run setenv name value s
  | .unset name => (s.frameUnsetVariable name).2
  | .swapIn temp =>
    match s.saved with
    | none => { s with variables_ := temp, saved := some s.variables_ }
    | some _ => s
  | .called temp =>
    match s.saved with
    | none => s
    | some _ => { s with variables_ := temp }
  | .restore =>
    match s.saved with
    | none => s
    | some main => { s with variables_ := main, saved := none }
  | .frame locals => { s with locals }

/-- The stores hold the same for a name. -/
structure SameAt (n : String) (s t : FrameStores) : Prop where
  variables_ : t.variables_.get n = s.variables_.get n
  saved : t.saved.map (VariableStore.get · n) = s.saved.map (VariableStore.get · n)
  locals : t.locals.map (VariableStore.get · n) = s.locals.map (VariableStore.get · n)

theorem SameAt.refl (n : String) (s : FrameStores) : SameAt n s s := ⟨rfl, rfl, rfl⟩

theorem SameAt.trans {n : String} {s t u : FrameStores} (h : SameAt n s t) (h' : SameAt n t u) :
    SameAt n s u :=
  ⟨h'.variables_.trans h.variables_, h'.saved.trans h.saved, h'.locals.trans h.locals⟩

theorem SameAt.persistent {n : String} {s t : FrameStores} (h : SameAt n s t) :
    t.persistent.get n = s.persistent.get n := by
  have hsaved := h.saved
  unfold FrameStores.persistent
  cases hs : s.saved with
  | none =>
    rw [hs, Option.map_none, Option.map_eq_none_iff] at hsaved
    rw [hsaved]
    exact h.variables_
  | some main =>
    rw [hs, Option.map_some, Option.map_eq_some_iff] at hsaved
    obtain ⟨main', ht, hmain⟩ := hsaved
    rw [ht]
    exact hmain

namespace FrameStores

variable {s : FrameStores} {name value x v n : String}

theorem setVariableIn_snd (store : VariableStore) (name value : String) :
    (setVariableIn store name value).2 = store.setKeepingFlags name value := by
  have hpublic : ∀ exported readOnly,
      (publicStatus store (store.add name (some value) exported readOnly)).2 =
        store.tryAdd name (some value) exported readOnly := by
    intro exported readOnly
    unfold VariableStore.tryAdd
    cases store.add name (some value) exported readOnly with
    | ok store' => rfl
    | error e => cases e <;> rfl
  unfold setVariableIn VariableStore.setKeepingFlags
  cases hget : store.get name with
  | none => exact hpublic false false
  | some w =>
    dsimp only
    by_cases hreadOnly : w.readOnly = true
    · rw [if_pos hreadOnly]
      refine (VariableStore.tryAdd_of_isReadOnly ?_).symm
      simp [VariableStore.isReadOnly, hget, hreadOnly]
    · rw [if_neg hreadOnly]
      exact hpublic w.exported w.readOnly

/-! ### Other names -/

theorem sameAt_variables {store : VariableStore} (h : store.get n = s.variables_.get n) :
    SameAt n s { s with variables_ := store } := ⟨h, rfl, rfl⟩

theorem sameAt_putTarget {store : VariableStore} (h : store.get n = s.target.get n) :
    SameAt n s (s.putTarget store) := by
  obtain ⟨variables_, saved, _ | locals⟩ := s
  · exact ⟨h, rfl, rfl⟩
  · exact ⟨rfl, rfl, congrArg some h⟩

theorem sameAt_frameSetVariable (hn : n ≠ name) :
    SameAt n s (s.frameSetVariable name value).2 := by
  refine sameAt_putTarget ?_
  rw [setVariableIn_snd]
  exact VariableStore.setKeepingFlags_get_of_ne hn

theorem sameAt_frameSetPersistentVariable (hn : n ≠ name) :
    SameAt n s (s.frameSetPersistentVariable name value).2 := by
  have hstore : (setVariableIn s.persistent name value).2.get n = s.persistent.get n := by
    rw [setVariableIn_snd]
    exact VariableStore.setKeepingFlags_get_of_ne hn
  obtain ⟨variables_, _ | main, locals⟩ := s
  · exact ⟨hstore, rfl, rfl⟩
  · exact ⟨rfl, congrArg some hstore, rfl⟩

theorem sameAt_markReadonly (hn : n ≠ name) : SameAt n s (s.markReadonly name).2 := by
  unfold markReadonly frameSetVariableReadonly
  split_ifs
  · exact .refl n s
  · cases h : s.variables_.setReadOnly name true with
    | error e => cases e <;> exact .refl n s
    | ok store => exact sameAt_variables ((VariableStore.setReadOnly_ok h n).trans (if_neg hn))

theorem sameAt_markExported (setenv : String → String → Bool) (hn : n ≠ name) :
    SameAt n s (s.markExported setenv name).2 := by
  unfold markExported
  cases h : s.variables_.setExported name true with
  | error e => exact .refl n s
  | ok store =>
    have hsame := sameAt_variables (s := s) ((VariableStore.setExported_ok h n).trans (if_neg hn))
    dsimp only
    cases store.getValue name <;> exact hsame

/-! ### The store that stays -/

theorem exports_variables {store : VariableStore} (h : s.persistent.Exports x v)
    (hstore : s.variables_.Exports x v → store.Exports x v) :
    ({ s with variables_ := store } : FrameStores).persistent.Exports x v := by
  obtain ⟨variables_, _ | main, locals⟩ := s
  · exact hstore h
  · exact h

theorem exports_markReadonly (h : s.persistent.Exports x v) (name : String) :
    (s.markReadonly name).2.persistent.Exports x v := by
  unfold markReadonly frameSetVariableReadonly
  split_ifs
  · exact h
  · cases hset : s.variables_.setReadOnly name true with
    | error e => cases e <;> exact h
    | ok store => exact exports_variables h fun hvariables => hvariables.setReadOnly hset

theorem exports_markExported (h : s.persistent.Exports x v) (setenv : String → String → Bool)
    (name : String) : (s.markExported setenv name).2.persistent.Exports x v := by
  unfold markExported
  cases hset : s.variables_.setExported name true with
  | error e => exact h
  | ok store =>
    have hafter := exports_variables h fun hvariables => hvariables.setExported hset
    dsimp only
    cases store.getValue name <;> exact hafter

/-- `frame_set_variable` does not reach the store that stays, or is turned down. -/
theorem exports_frameSetVariable (h : s.persistent.Exports x v)
    (hnot : ¬ (s.target.admitsSame x value ∧ s.saved = none ∧ s.locals = none)) :
    (s.frameSetVariable x value).2.persistent.Exports x v := by
  obtain ⟨variables_, _ | main, _ | locals⟩ := s
  · have hadmits : ¬ variables_.admitsSame x value := fun hadmits => hnot ⟨hadmits, rfl, rfl⟩
    change (setVariableIn variables_ x value).2.Exports x v
    rw [setVariableIn_snd]
    exact VariableStore.Exports.setKeepingFlags h fun hx => hadmits hx.2
  · exact h
  · exact h
  · exact h

/-- It reaches that store and is let through. -/
theorem exports_frameSetVariable_self (h : s.persistent.Exports x v)
    (hadmits : s.target.admitsSame x value) (hsaved : s.saved = none) (hlocals : s.locals = none) :
    (s.frameSetVariable x value).2.persistent.Exports x value := by
  obtain ⟨variables_, saved, locals⟩ := s
  subst hsaved hlocals
  change (setVariableIn variables_ x value).2.Exports x value
  rw [setVariableIn_snd]
  exact VariableStore.Exports.setKeepingFlags_self h hadmits

theorem persistent_frameSetPersistentVariable (s : FrameStores) (name value : String) :
    (s.frameSetPersistentVariable name value).2.persistent =
      s.persistent.setKeepingFlags name value := by
  rw [← setVariableIn_snd]
  obtain ⟨variables_, _ | main, locals⟩ := s <;> rfl

/-- What `readonly NAME=value` does besides `frame_set_variable`. -/
theorem exports_readonlyArgument (h : s.persistent.Exports x v) {w : String}
    (hset : FrameStores.isIdentifier x = true → s.variables_.isReadOnly x = false →
      (s.frameSetVariable x value).2.persistent.Exports x w)
    (hnot : ¬ (FrameStores.isIdentifier x = true ∧ s.variables_.isReadOnly x = false) → w = v) :
    (s.readonlyArgument x (some value)).2.persistent.Exports x w := by
  unfold readonlyArgument
  by_cases hname : FrameStores.isIdentifier x = true
  · rw [if_pos hname]
    dsimp only
    cases hreadOnly : s.variables_.isReadOnly x with
    | true =>
      have hw : w = v := hnot (by simp [hreadOnly])
      rw [if_pos rfl, hw]
      exact h
    | false =>
      rw [if_neg Bool.false_ne_true]
      have hafter := hset hname hreadOnly
      obtain ⟨status, s', hr⟩ : ∃ status s', s.frameSetVariable x value = (status, s') := ⟨_, _, rfl⟩
      rw [hr] at hafter ⊢
      cases status with
      | ok => exact exports_markReadonly hafter x
      | notFound => exact hafter
      | readOnly => exact hafter
  · have hw : w = v := hnot fun hboth => hname hboth.1
    rw [if_neg hname, hw]
    exact h

/-- What `export NAME=value` does besides `frame_set_variable`. -/
theorem exports_frameExportVariable (h : s.persistent.Exports x v) {w : String}
    (setenv : String → String → Bool)
    (hset : FrameStores.isIdentifier x = true →
      (s.variables_.isReadOnly x = true → s.variables_.getValue x = some value) →
      (s.frameSetVariable x value).2.persistent.Exports x w)
    (hnot : ¬ (FrameStores.isIdentifier x = true ∧
      (s.variables_.isReadOnly x = true → s.variables_.getValue x = some value)) → w = v) :
    (s.frameExportVariable setenv x (some value)).2.persistent.Exports x w := by
  have hguard : ((s.variables_.get x).any fun u =>
      u.readOnly && (some value).any (· ≠ u.value)) = true ↔
        ¬ (s.variables_.isReadOnly x = true → s.variables_.getValue x = some value) := by
    unfold VariableStore.isReadOnly VariableStore.getValue
    cases s.variables_.get x with
    | none => simp
    | some u =>
      by_cases hvalue : u.value = value
      · simp [hvalue]
      · simp [hvalue, Ne.symm hvalue]
  unfold frameExportVariable
  by_cases hname : FrameStores.isIdentifier x = true
  · rw [if_pos hname]
    by_cases hsame : s.variables_.isReadOnly x = true → s.variables_.getValue x = some value
    · rw [if_neg (by rw [hguard]; exact not_not_intro hsame)]
      have hafter := hset hname hsame
      dsimp only
      obtain ⟨status, s', hr⟩ : ∃ status s', s.frameSetVariable x value = (status, s') := ⟨_, _, rfl⟩
      rw [hr] at hafter ⊢
      cases status with
      | ok => exact exports_markExported hafter setenv x
      | notFound => exact hafter
      | readOnly => exact hafter
    · have hw : w = v := hnot fun hboth => hsame hboth.2
      rw [if_pos (hguard.mpr hsame), hw]
      exact h
  · have hw : w = v := hnot fun hboth => hname hboth.1
    rw [if_neg hname, hw]
    exact h

/-- A prefix assignment that the temporary store lets through goes to both stores. -/
theorem applyPrefixAssignment_eq {main : VariableStore} (hsaved : s.saved = some main)
    (hadmits : s.variables_.admits name value) :
    (s.applyPrefixAssignment name value).persistent = main.tryAdd name (some value) false false := by
  obtain ⟨temp, hadd⟩ : ∃ temp, s.variables_.add name (some value) false false = .ok temp :=
    VariableStore.add_of_admits hadmits
  rw [applyPrefixAssignment, hsaved, hadd]
  rfl

theorem sameAt_applyPrefixAssignment (hn : n ≠ name) :
    SameAt n s (s.applyPrefixAssignment name value) := by
  unfold applyPrefixAssignment
  split
  · next main temp hsaved hadd =>
    refine ⟨(VariableStore.add_ok hadd n).trans (if_neg hn), ?_, rfl⟩
    rw [hsaved]
    exact congrArg some (VariableStore.tryAdd_get_of_ne hn)
  · exact .refl n s

end FrameStores

namespace AssignSite

variable {s : FrameStores} {name value x v n : String} (site : AssignSite)
  (setenv : String → String → Bool)

/-- No assignment touches another variable. -/
theorem sameAt_run (hn : n ≠ name) : SameAt n s (site.run setenv name value s) := by
  have hplain : SameAt n s (s.addPlain name value) :=
    FrameStores.sameAt_variables (VariableStore.tryAdd_get_of_ne hn)
  have hset : SameAt n s (s.frameSetVariable name value).2 := FrameStores.sameAt_frameSetVariable hn
  cases site with
  | assignmentCommand => exact hplain
  | parameterDefault => exact hplain
  | forVariable => exact hplain
  | lineno => exact hplain
  | prefixAssignment => exact FrameStores.sameAt_applyPrefixAssignment hn
  | arithmetic => exact hset
  | getopts => exact hset
  | readonly =>
    change SameAt n s (s.readonlyArgument name (some value)).2
    unfold FrameStores.readonlyArgument
    dsimp only
    split_ifs
    · exact .refl n s
    · split
      · next s' hr =>
        rw [hr] at hset
        exact hset.trans (FrameStores.sameAt_markReadonly hn)
      · next s' _ hr =>
        rw [hr] at hset
        exact hset
    · exact .refl n s
  | exportValue =>
    change SameAt n s (s.frameExportVariable setenv name (some value)).2
    unfold FrameStores.frameExportVariable
    dsimp only
    split_ifs
    · exact .refl n s
    · split
      · next s' hr =>
        rw [hr] at hset
        exact hset.trans (FrameStores.sameAt_markExported setenv hn)
      · next s' hr =>
        rw [hr] at hset
        exact hset
      · next s' hr =>
        rw [hr] at hset
        exact hset
    · exact .refl n s
  | persistentBuiltin => exact FrameStores.sameAt_frameSetPersistentVariable hn

/-- An assignment that is turned down, or does not reach the store that stays. -/
theorem exports_run (h : s.persistent.Exports x v)
    (hnot : ¬ (site.admits s x value ∧ site.reaches s)) :
    (site.run setenv x value s).persistent.Exports x v := by
  have hplain : ¬ (s.variables_.admits x value ∧ s.saved = none) →
      (s.addPlain x value).persistent.Exports x v := by
    intro hnot
    obtain ⟨variables_, _ | main, locals⟩ := s
    · exact VariableStore.Exports.tryAdd h fun hx => hnot ⟨hx.2, rfl⟩
    · exact h
  have hset : ¬ (s.target.admitsSame x value ∧ s.saved = none ∧ s.locals = none) →
      (s.frameSetVariable x value).2.persistent.Exports x v := FrameStores.exports_frameSetVariable h
  cases site with
  | assignmentCommand => exact hplain hnot
  | parameterDefault => exact hplain hnot
  | forVariable => exact hplain hnot
  | lineno => exact hplain hnot
  | arithmetic => exact hset hnot
  | getopts => exact hset hnot
  | prefixAssignment =>
    change (s.applyPrefixAssignment x value).persistent.Exports x v
    unfold FrameStores.applyPrefixAssignment
    split
    · next main temp hsaved hadd =>
      have hmain : main.Exports x v := by simpa [FrameStores.persistent, hsaved] using h
      refine hmain.tryAdd fun hx => hnot ⟨⟨VariableStore.admits_of_add hadd, main, hsaved, hx.2⟩, trivial⟩
    · exact h
  | readonly =>
    refine FrameStores.exports_readonlyArgument h (fun hname hreadOnly => ?_) fun _ => rfl
    exact hset fun ⟨hadmits, hreaches⟩ => hnot ⟨⟨hname, hreadOnly, hadmits⟩, hreaches⟩
  | exportValue =>
    refine FrameStores.exports_frameExportVariable h setenv (fun hname hsame => ?_) fun _ => rfl
    exact hset fun ⟨hadmits, hreaches⟩ => hnot ⟨⟨hname, hsame, hadmits⟩, hreaches⟩
  | persistentBuiltin =>
    change (s.frameSetPersistentVariable x value).2.persistent.Exports x v
    rw [FrameStores.persistent_frameSetPersistentVariable]
    exact h.setKeepingFlags fun hx => hnot ⟨hx.2, trivial⟩

/-- An assignment that passes on the flags. -/
theorem exports_run_self (h : s.persistent.Exports x v) (hadmits : site.admits s x value)
    (hreaches : site.reaches s) (hkeeps : site.keepsFlags = true) :
    (site.run setenv x value s).persistent.Exports x value := by
  cases site with
  | assignmentCommand => cases hkeeps
  | parameterDefault => cases hkeeps
  | forVariable => cases hkeeps
  | lineno => cases hkeeps
  | prefixAssignment => cases hkeeps
  | arithmetic => exact FrameStores.exports_frameSetVariable_self h hadmits hreaches.1 hreaches.2
  | getopts => exact FrameStores.exports_frameSetVariable_self h hadmits hreaches.1 hreaches.2
  | readonly =>
    obtain ⟨hname, hreadOnly, hadmits⟩ := hadmits
    refine FrameStores.exports_readonlyArgument h (fun _ _ => ?_)
      fun hnot => absurd ⟨hname, hreadOnly⟩ hnot
    exact FrameStores.exports_frameSetVariable_self h hadmits hreaches.1 hreaches.2
  | exportValue =>
    obtain ⟨hname, hsame, hadmits⟩ := hadmits
    refine FrameStores.exports_frameExportVariable h setenv (fun _ _ => ?_)
      fun hnot => absurd ⟨hname, hsame⟩ hnot
    exact FrameStores.exports_frameSetVariable_self h hadmits hreaches.1 hreaches.2
  | persistentBuiltin =>
    change (s.frameSetPersistentVariable x value).2.persistent.Exports x value
    rw [FrameStores.persistent_frameSetPersistentVariable]
    exact h.setKeepingFlags_self hadmits

/-- One that does not leaves the variable behind without the flag. -/
theorem not_exports_run (hadmits : site.admits s x value) (hreaches : site.reaches s)
    (hkeeps : site.keepsFlags = false) (w : String) :
    ¬ (site.run setenv x value s).persistent.Exports x w := by
  have hplain : s.variables_.admits x value → s.saved = none →
      ¬ (s.addPlain x value).persistent.Exports x w := by
    intro hadmits hsaved
    obtain ⟨variables_, saved, locals⟩ := s
    subst hsaved
    exact VariableStore.not_exports_tryAdd hadmits w
  cases site with
  | assignmentCommand => exact hplain hadmits hreaches
  | parameterDefault => exact hplain hadmits hreaches
  | forVariable => exact hplain hadmits hreaches
  | lineno => exact hplain hadmits hreaches
  | prefixAssignment =>
    obtain ⟨htemp, main, hmem, hmain⟩ := hadmits
    change ¬ (s.applyPrefixAssignment x value).persistent.Exports x w
    rw [FrameStores.applyPrefixAssignment_eq hmem htemp]
    exact VariableStore.not_exports_tryAdd hmain w
  | arithmetic => cases hkeeps
  | getopts => cases hkeeps
  | readonly => cases hkeeps
  | exportValue => cases hkeeps
  | persistentBuiltin => cases hkeeps

end AssignSite

/-! ## The executor -/

section Executor

variable {δ W : Type}

/-- The stores of the current frame. -/
def Shell.frameStores (s : Shell δ W) : FrameStores :=
  ⟨s.variables_, s.frame.savedVariables, s.frame.localVariables⟩

/-- A plain assignment of the executor. -/
theorem frameStores_assign (s : Shell δ W) (name value : String) :
    (s.assign { name, value := some value }).frameStores = s.frameStores.addPlain name value := rfl

/-- One of an expansion. -/
theorem frameStores_writeVar (s : Shell δ W) (w : VarWrite) (setenv : String → String → Bool) :
    (s.writeVar w).frameStores =
      (if w.arithmetic then AssignSite.arithmetic else .parameterDefault).run setenv w.name w.value
        s.frameStores := by
  obtain ⟨name, value, arithmetic⟩ := w
  obtain ⟨frame, callers, variables_⟩ := s
  cases arithmetic with
  | false => rfl
  | true =>
    change _ = (FrameStores.frameSetVariable _ name value).2
    rw [FrameStores.frameSetVariable, FrameStores.setVariableIn_snd]
    cases hlocals : frame.localVariables <;>
      simp [Shell.writeVar, Shell.frameStores, FrameStores.putTarget, FrameStores.target, hlocals,
        Shell.assign, Shell.emit, Assignment.apply]

/-- One in front of a special builtin. -/
theorem frameStores_assignPrefix {s : Shell δ W} {main temp : VariableStore} {name value : String}
    (hsaved : s.frame.savedVariables = some main)
    (hadd : s.variables_.add name (some value) false false = .ok temp) :
    (s.assignPrefix { name, value := some value } temp).frameStores =
      s.frameStores.applyPrefixAssignment name value := by
  simp [FrameStores.applyPrefixAssignment, Shell.frameStores, Shell.assignPrefix, Shell.emit, hsaved,
    hadd, Assignment.apply]

end Executor

namespace VarStep

/-- The stores after a step, and the value that the variable was last given. -/
def track (setenv : String → String → Bool) (x : String) (p : FrameStores × String) (step : VarStep) :
    FrameStores × String :=
  (step.run setenv p.1,
    match step with
    | .assign site name value => if name = x ∧ site.admits p.1 name value then value else p.2
    | _ => p.2)

/-- An assignment to the variable passes on the flags, or leaves alone a variable that has the value
already. -/
def KeepsExported (x : String) (s : FrameStores) : VarStep → Prop
  | .assign site name value =>
    name = x → site.admits s name value →
      site.reaches s ∧ site.keepsFlags = true ∨
        ¬ site.reaches s ∧ s.persistent.getValue x = some value
  | _ => True

variable {s : FrameStores} {x v : String} (setenv : String → String → Bool)

theorem exports_unset {name : String} (h : s.persistent.Exports x v) (hname : name ≠ x) :
    (s.frameUnsetVariable name).2.persistent.Exports x v := by
  have hremove : ∀ store : VariableStore, store.Exports x v → (store.remove name).Exports x v :=
    fun store h => h.of_get (if_neg (Ne.symm hname))
  unfold FrameStores.frameUnsetVariable
  split
  · exact h
  · split_ifs
    · exact h
    · obtain ⟨variables_, _ | main, _ | locals⟩ := s
      · exact hremove variables_ h
      · exact h
      · exact h
      · exact h

/-- One step keeps the variable exported with the value it was last given exactly if it fits. -/
theorem exports_track_iff {step : VarStep} (hstep : step ≠ .unset x)
    (h : s.persistent.Exports x v) :
    (step.track setenv x (s, v)).1.persistent.Exports x (step.track setenv x (s, v)).2 ↔
      step.KeepsExported x s := by
  cases step with
  | assign site name value =>
    simp only [track, KeepsExported, run]
    by_cases hname : name = x
    · subst hname
      by_cases hadmits : site.admits s name value
      · rw [if_pos ⟨rfl, hadmits⟩]
        by_cases hreaches : site.reaches s
        · cases hkeeps : site.keepsFlags with
          | true =>
            have hafter := site.exports_run_self setenv h hadmits hreaches hkeeps
            simp [hafter, hreaches]
          | false =>
            have hafter := site.not_exports_run setenv hadmits hreaches hkeeps value
            simp [hafter, hadmits, hreaches]
        · have hafter : (site.run setenv name value s).persistent.Exports name v :=
            site.exports_run setenv h fun hboth => hreaches hboth.2
          have hiff : (site.run setenv name value s).persistent.Exports name value ↔ v = value :=
            ⟨fun hvalue => hafter.unique hvalue, fun heq => heq ▸ hafter⟩
          rw [hiff]
          simp [hadmits, hreaches, h.getValue]
      · have hafter : (site.run setenv name value s).persistent.Exports name v :=
          site.exports_run setenv h fun hboth => hadmits hboth.1
        simp [hadmits, hafter]
    · have hsame : SameAt x s (site.run setenv name value s) :=
        site.sameAt_run setenv (Ne.symm hname)
      simp [hname, h.of_get hsame.persistent]
  | unset name =>
    have hname : name ≠ x := fun heq => hstep (heq ▸ rfl)
    exact iff_of_true (exports_unset h hname) trivial
  | swapIn temp =>
    refine iff_of_true ?_ trivial
    obtain ⟨variables_, _ | main, locals⟩ := s <;> exact h
  | called temp =>
    refine iff_of_true ?_ trivial
    obtain ⟨variables_, _ | main, locals⟩ := s <;> exact h
  | restore =>
    refine iff_of_true ?_ trivial
    obtain ⟨variables_, _ | main, locals⟩ := s <;> exact h
  | frame locals => exact iff_of_true h trivial

end VarStep

/-- A frame in which `x` is exported with the value 1. -/
def exportedX : FrameStores where
  variables_ := VariableStore.empty.tryAdd "x" (some "1") true false

theorem exportedX_exports : exportedX.persistent.Exports "x" "1" := ⟨false, by decide +kernel⟩

end Exec

end Migash
