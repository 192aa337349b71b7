import Mathlib.Data.List.Basic

/-! # The variable store

A variable has a value and two flags. The store only ever holds names and
values that pass the checks of `variable_store_add`, which is what makes a copy
of a store complete.
-/

namespace Migash

/-- `var_store_error_t` without `VAR_STORE_ERROR_NONE`. -/
inductive VarStoreError where
  | emptyName | nameTooLong | nameStartsWithDigit | nameInvalidCharacter | valueTooLong | readOnly
  | notFound
  deriving DecidableEq, Repr

/-- `var_store_error_t` as a number. -/
def VarStoreError.number : VarStoreError → ℕ
  | .notFound => 1
  | .readOnly => 2
  | .emptyName => 3
  | .nameTooLong => 4
  | .nameStartsWithDigit => 5
  | .nameInvalidCharacter => 6
  | .valueTooLong => 7

/-- `variable_map_mapped_t`. -/
structure Variable where
  value : String
  exported : Bool
  readOnly : Bool
  deriving DecidableEq, Repr

/-- `validate_variable_name`. -/
def validateVariableName (name : String) : Option VarStoreError :=
  match name.toList with
  | [] => some .emptyName
  | c :: rest =>
    if name.utf8ByteSize > 1024 then some .nameTooLong
    else if rest = [] ∧ (c = '?' ∨ c = '-' ∨ c = '$' ∨ c = '!') then none
    else if c.isAlpha ∨ c = '_' then
      if rest.all fun d => d.isAlphanum || d = '_' then none else some .nameInvalidCharacter
    else if c.isDigit then some .nameStartsWithDigit
    else some .nameInvalidCharacter

/-- `validate_variable_value`. -/
def validateVariableValue (value : String) : Option VarStoreError :=
  if value.utf8ByteSize > 131072 then some .valueTooLong else none

/-- `variable_store_t`: what each name is bound to. -/
@[ext] structure VariableStore where
  get : String → Option Variable
  valid : ∀ name v, get name = some v →
    validateVariableName name = none ∧ validateVariableValue v.value = none

namespace VariableStore

/-- `variable_store_create`. -/
def empty : VariableStore := ⟨fun _ => none, by simp⟩

/-- `variable_store_get_value`. -/
def getValue (store : VariableStore) (name : String) : Option String :=
  (store.get name).map Variable.value

/-- Is the name bound to a variable that must not change? -/
def isReadOnly (store : VariableStore) (name : String) : Bool :=
  (store.get name).any Variable.readOnly

/-- `variable_map_insert_or_assign` behind the checks of `variable_store_add`. -/
def bind (store : VariableStore) (name : String) (v : Variable)
    (hname : validateVariableName name = none) (hvalue : validateVariableValue v.value = none) :
    VariableStore where
  get n := if n = name then some v else store.get n
  valid n w h := by
    by_cases hn : n = name
    · rw [if_pos hn, Option.some.injEq] at h
      exact ⟨hn ▸ hname, h ▸ hvalue⟩
    · rw [if_neg hn] at h
      exact store.valid n w h

/-- `variable_store_add`; a NULL value is the empty one. -/
def add (store : VariableStore) (name : String) (value : Option String) (exported readOnly : Bool) :
    Except VarStoreError VariableStore :=
  match hname : validateVariableName name with
  | some e => .error e
  | none =>
    match hvalue : validateVariableValue (value.getD "") with
    | some e => .error e
    | none =>
      if store.isReadOnly name then .error .readOnly
      else .ok (store.bind name ⟨value.getD "", exported, readOnly⟩ hname hvalue)

/-- A store after an addition whose error is ignored. -/
def tryAdd (store : VariableStore) (name : String) (value : Option String)
    (exported readOnly : Bool) : VariableStore :=
  match store.add name value exported readOnly with
  | .ok store' => store'
  | .error _ => store

/-- `variable_store_copy_all`: a variable of `src` is added unless `store` has a read-only one. -/
def copyAll (store src : VariableStore) : VariableStore where
  get n :=
    match src.get n with
    | none => store.get n
    | some v => if store.isReadOnly n then store.get n else some v
  valid n w h := by
    cases hsrc : src.get n with
    | none =>
      rw [hsrc] at h
      exact store.valid n w h
    | some v =>
      simp only [hsrc] at h
      split at h
      · exact store.valid n w h
      · rw [Option.some.injEq] at h
        exact h ▸ src.valid n v hsrc

/-- `frame_set_variable` on its store: the flags of the variable are kept, and a read-only one
stays as it is. -/
def setKeepingFlags (store : VariableStore) (name value : String) : VariableStore :=
  match store.get name with
  | some v => store.tryAdd name (some value) v.exported v.readOnly
  | none => store.tryAdd name (some value) false false

/-- `variable_store_set_read_only`; a read-only variable stays read-only. -/
def setReadOnly (store : VariableStore) (name : String) (readOnly : Bool) :
    Except VarStoreError VariableStore :=
  match hv : store.get name with
  | none => .error .notFound
  | some v =>
    if v.readOnly && !readOnly then .error .readOnly
    else .ok (store.bind name { v with readOnly } (store.valid name v hv).1 (store.valid name v hv).2)

/-- `variable_store_set_exported`. -/
def setExported (store : VariableStore) (name : String) (exported : Bool) :
    Except VarStoreError VariableStore :=
  match hv : store.get name with
  | none => .error .notFound
  | some v =>
    if v.readOnly then .error .readOnly
    else .ok (store.bind name { v with exported } (store.valid name v hv).1 (store.valid name v hv).2)

/-- `variable_store_remove`. -/
def remove (store : VariableStore) (name : String) : VariableStore where
  get n := if n = name then none else store.get n
  valid n v h := by
    by_cases hn : n = name
    · rw [if_pos hn] at h
      cases h
    · rw [if_neg hn] at h
      exact store.valid n v h

@[simp] theorem empty_get (name : String) : empty.get name = none := rfl

@[simp] theorem bind_get (store : VariableStore) (name : String) (v : Variable) (hname hvalue)
    (n : String) :
    (store.bind name v hname hvalue).get n = if n = name then some v else store.get n := rfl

/-- An addition that succeeds binds its name and nothing else. -/
theorem add_ok {store store' : VariableStore} {name : String} {value : Option String}
    {exported readOnly : Bool} (h : store.add name value exported readOnly = .ok store') (n : String) :
    store'.get n = if n = name then some ⟨value.getD "", exported, readOnly⟩ else store.get n := by
  unfold add at h
  split at h
  · cases h
  · split at h
    · cases h
    · split at h
      · cases h
      · cases h
        rw [bind_get]

theorem add_of_isReadOnly {store : VariableStore} {name : String} {value : Option String}
    {exported readOnly : Bool} (h : store.isReadOnly name = true) :
    ∃ e, store.add name value exported readOnly = .error e := by
  unfold add
  split
  · exact ⟨_, rfl⟩
  · split
    · exact ⟨_, rfl⟩
    · exact ⟨_, if_pos h⟩

/-- An addition leaves every other name alone. -/
theorem tryAdd_get_of_ne {store : VariableStore} {name n : String} {value : Option String}
    {exported readOnly : Bool} (hn : n ≠ name) :
    (store.tryAdd name value exported readOnly).get n = store.get n := by
  unfold tryAdd
  cases h : store.add name value exported readOnly with
  | error e => rfl
  | ok store' => rw [add_ok h, if_neg hn]

/-- A read-only variable does not change. -/
theorem tryAdd_of_isReadOnly {store : VariableStore} {name : String} {value : Option String}
    {exported readOnly : Bool} (h : store.isReadOnly name = true) :
    store.tryAdd name value exported readOnly = store := by
  obtain ⟨e, he⟩ : ∃ e, store.add name value exported readOnly = .error e := add_of_isReadOnly h
  simp [tryAdd, he]

/-- Setting a flag changes at most that flag of its variable. -/
theorem setReadOnly_ok {store store' : VariableStore} {name : String} {readOnly : Bool}
    (h : store.setReadOnly name readOnly = .ok store') (n : String) :
    store'.get n =
      if n = name then (store.get n).map fun v => { v with readOnly } else store.get n := by
  unfold setReadOnly at h
  split at h
  · cases h
  · next v hv =>
    split at h
    · cases h
    · cases h
      rw [bind_get]
      split_ifs with hn
      · rw [hn, hv]
        rfl
      · rfl

theorem setExported_ok {store store' : VariableStore} {name : String} {exported : Bool}
    (h : store.setExported name exported = .ok store') (n : String) :
    store'.get n =
      if n = name then (store.get n).map fun v => { v with exported } else store.get n := by
  unfold setExported at h
  split at h
  · cases h
  · next v hv =>
    split at h
    · cases h
    · cases h
      rw [bind_get]
      split_ifs with hn
      · rw [hn, hv]
        rfl
      · rfl

/-- The copy of a store into a fresh one is the store. -/
@[simp] theorem copyAll_empty (src : VariableStore) : empty.copyAll src = src := by
  ext n : 2
  change (match src.get n with | none => none | some v => _) = _
  cases src.get n <;> rfl

end VariableStore

end Migash
