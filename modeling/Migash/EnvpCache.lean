import Migash.AstClone
import Migash.Library.Gives
import Migash.VariableMap
import Migash.VariableStore

/-! # The cached environment of a variable store

`variable_store_get_envp` keeps the array it has built and hands it out again as
long as the generation counter says that nothing has changed. Every operation
that changes the table counts up, except `variable_store_map` where it stops at
an error after it has changed entries in place.
-/

namespace Migash

open Library

/-- `variable_store_t` with the table it is made of. No store has a cached parent. -/
structure CachedStore where
  map : VariableMap
  generation : UInt32
  cachedGeneration : UInt32
  cachedEnvp : Option (List String)

/-- `variable_store_map`'s callback answers with an action and what it wrote to its arguments. -/
inductive MapAction where
  | skip | update | remove
  deriving DecidableEq, Repr

structure MapAnswer where
  action : MapAction
  name : String
  value : String
  exported : Bool
  readOnly : Bool

namespace CachedStore

open VariableMap HashTable

/-- `variable_store_create`. -/
def create : CachedStore := ⟨HashTable.create, 0, 0, none⟩

/-- `store->generation++`. -/
def touch (s : CachedStore) : CachedStore := { s with generation := s.generation + 1 }

/-- `variable_store_clear`. -/
def clear (s : CachedStore) : CachedStore :=
  { s with map := s.map.clear, generation := s.generation + 1, cachedGeneration := 0 }

/-- `variable_store_add`. -/
def add (s : CachedStore) (name : String) (value : Option String) (exported readOnly : Bool) :
    Except Fault (Option VarStoreError × CachedStore) :=
  match validateVariableName name with
  | some e => .ok (some e, s)
  | none =>
    match validateVariableValue (value.getD "") with
    | some e => .ok (some e, s)
    | none =>
      if (s.map.at? name).any VariableMapped.readOnly then .ok (some .readOnly, s)
      else do
        let (map, _) ← s.map.insertOrAssign name ⟨some (value.getD ""), exported, readOnly⟩
        return (none, { s with map }.touch)

/-- `variable_store_remove`. -/
def remove (s : CachedStore) (name : String) : Except Fault CachedStore := do
  return { s with map := ← erase s.map name }.touch

/-- A write through the pointer that `variable_map_data_at` returns. -/
def assignAt (t : VariableMap) (pos : ℕ) (key : String) (mapped : VariableMapped) : VariableMap :=
  { t with slots := t.slots.set pos (some (key, mapped)) }

/-- `variable_store_set_read_only`. -/
def setReadOnly (s : CachedStore) (name : String) (readOnly : Bool) :
    Option VarStoreError × CachedStore :=
  match s.map.lookup name with
  | none => (some .notFound, s)
  | some (pos, key, mapped) =>
    if mapped.readOnly && !readOnly then (some .readOnly, s)
    else (none, { s with map := assignAt s.map pos key { mapped with readOnly } }.touch)

/-- `variable_store_set_exported`. -/
def setExported (s : CachedStore) (name : String) (exported : Bool) :
    Option VarStoreError × CachedStore :=
  match s.map.lookup name with
  | none => (some .notFound, s)
  | some (pos, key, mapped) =>
    if mapped.readOnly then (some .readOnly, s)
    else (none, { s with map := assignAt s.map pos key { mapped with exported } }.touch)

/-! ## Mapping over a store -/

section Map

variable {U : Type} (fn : String → VariableMapped → U → MapAnswer × U)

/-- What is left to do when the loop of `variable_store_map` is through: the keys to remove and the
variables to insert under another name. -/
structure Pending where
  removals : List String := []
  renames : List (String × VariableMapped) := []

/-- What an update writes to an entry: a value that is NULL stays NULL. -/
def MapAnswer.written (a : MapAnswer) (old : VariableMapped) : VariableMapped :=
  ⟨old.value.map fun _ => a.value, a.exported, a.readOnly⟩

/-- The validation of an update. -/
def MapAnswer.error? (a : MapAnswer) (old : VariableMapped) : Option VarStoreError :=
  match validateVariableName a.name with
  | some e => some e
  | none => validateVariableValue ((MapAnswer.written a old).value.getD "")

/-- The loop of `variable_store_map` over the slots: the slots it leaves behind, and what is
pending or the error that it stops at. -/
def mapSlots : Slots (String × VariableMapped) → U → Pending →
    Slots (String × VariableMapped) × Except VarStoreError Pending
  | [], _, p => ([], .ok p)
  | none :: rest, u, p =>
    let (rest, result) := mapSlots rest u p
    (none :: rest, result)
  | some (key, old) :: rest, u, p =>
    let (a, u) := fn key old u
    match a.action with
    | .skip =>
      let (rest, result) := mapSlots rest u p
      (some (key, old) :: rest, result)
    | .remove =>
      let (rest, result) := mapSlots rest u { p with removals := p.removals ++ [key] }
      (some (key, old) :: rest, result)
    | .update =>
      match MapAnswer.error? a old with
      | some e => (some (key, old) :: rest, .error e)
      | none =>
        if a.name = key then
          let (rest, result) := mapSlots rest u p
          (some (key, MapAnswer.written a old) :: rest, result)
        else
          let (rest, result) := mapSlots rest u
            { removals := p.removals ++ [key]
              renames := p.renames ++ [(a.name, MapAnswer.written a old)] }
          (some (key, old) :: rest, result)

/-- The deferred insertion of a renamed variable. -/
def insertRenamed (t : VariableMap) (renamed : String × VariableMapped) :
    Except Fault VariableMap := do
  let value ← stringCreateFrom renamed.2.value
  let (t, _) ← t.insertOrAssign renamed.1 { renamed.2 with value := some value }
  return t

/-- The deferred removals. -/
def removePending (t : VariableMap) (p : Pending) : Except Fault VariableMap :=
  if p.removals = [] then .ok t else eraseMultiple t p.removals

/-- `variable_store_map`. -/
def mapStore (s : CachedStore) (u : U) : Except Fault (Option VarStoreError × CachedStore) :=
  let (slots, result) := mapSlots fn s.map.slots u {}
  let map : VariableMap := { s.map with slots }
  match result with
  | .error e => .ok (some e, { s with map })
  | .ok p => do
    let map ← removePending map p
    let map ← p.renames.foldlM insertRenamed map
    return (none, { s with map }.touch)

/-- The callback's answers for the entries of a table lead to an error, and an entry before it was
updated under its own name. -/
def failsAfterUpdate : Slots (String × VariableMapped) → U → Bool → Bool
  | [], _, _ => false
  | none :: rest, u, updated => failsAfterUpdate rest u updated
  | some (key, old) :: rest, u, updated =>
    let (a, u) := fn key old u
    if a.action = .update then
      if (MapAnswer.error? a old).isSome then updated
      else failsAfterUpdate rest u (updated || a.name = key)
    else failsAfterUpdate rest u updated

end Map

/-! ## The environment -/

/-- `make_env_cstr`. -/
def makeEnvCstr (name : String) (value : Option String) : String := name ++ "=" ++ value.getD ""

/-- The loop of `variable_store_get_envp`. -/
def buildEnvp (t : VariableMap) : List String :=
  (t.slots.entries.filter (·.2.exported)).map fun entry => makeEnvCstr entry.1 entry.2.value

/-- The array is built anew and cached. -/
def rebuild (s : CachedStore) : List String × CachedStore :=
  (buildEnvp s.map,
    { s with cachedEnvp := some (buildEnvp s.map), cachedGeneration := s.generation })

/-- `variable_store_get_envp`, with the test of `envp_cache_valid`. -/
def getEnvp (s : CachedStore) : List String × CachedStore :=
  match s.cachedEnvp with
  | some envp => if s.cachedGeneration = s.generation then (envp, s) else s.rebuild
  | none => s.rebuild

/-- One string for each exported variable, with its value, and nothing else. -/
def IsEnvp (t : VariableMap) (envp : List String) : Prop :=
  ∃ names : List String, names.Nodup ∧
    (∀ name, name ∈ names ↔ (t.at? name).any VariableMapped.exported = true) ∧
    envp = names.map fun name => makeEnvCstr name ((t.at? name).bind VariableMapped.value)

/-! ## Runs -/

/-- The operations on a store. -/
inductive Op (U : Type) where
  | add (name : String) (value : Option String) (exported readOnly : Bool)
  | remove (name : String)
  | setReadOnly (name : String) (readOnly : Bool)
  | setExported (name : String) (exported : Bool)
  | clear
  | map (fn : String → VariableMapped → U → MapAnswer × U) (u : U)
  | getEnvp

/-- What an operation does to the store. -/
def apply {U : Type} (s : CachedStore) : Op U → Except Fault CachedStore
  | .add name value exported readOnly => (·.2) <$> s.add name value exported readOnly
  | .remove name => s.remove name
  | .setReadOnly name readOnly => .ok (s.setReadOnly name readOnly).2
  | .setExported name exported => .ok (s.setExported name exported).2
  | .clear => .ok s.clear
  | .map fn u => (·.2) <$> mapStore fn s u
  | .getEnvp => .ok s.getEnvp.2

/-- The step would bring the counter back to the generation of an array that is cached. -/
def Op.Wraps {U : Type} (s : CachedStore) : Op U → Prop
  | .getEnvp => False
  | .clear => s.cachedEnvp ≠ none ∧ s.generation + 1 = 0
  | _ => s.cachedEnvp ≠ none ∧ s.generation + 1 = s.cachedGeneration

/-- The step would stop a mapping after an update in place. -/
def Op.StopsAfterUpdate {U : Type} (s : CachedStore) : Op U → Prop
  | .map fn u => failsAfterUpdate fn s.map.slots u false = true
  | _ => False

/-- A step that does neither. -/
def Op.Harmless {U : Type} (s : CachedStore) (op : Op U) : Prop :=
  ¬ op.Wraps s ∧ ¬ op.StopsAfterUpdate s

/-- The stores that harmless steps lead to. -/
inductive Reaches (U : Type) : CachedStore → Prop where
  | create : Reaches U create
  | step {s s' : CachedStore} (h : Reaches U s) (op : Op U) (hop : op.Harmless s)
      (hstep : apply s op = .ok s') : Reaches U s'

/-! ## What an environment is -/

theorem nodup_exported {t : VariableMap} (h : t.Wellformed) :
    ((t.slots.entries.filter (·.2.exported)).map Prod.fst).Nodup :=
  h.distinct.sublist (List.Sublist.map _ List.filter_sublist)

/-- What the table holds is what a lookup finds. -/
theorem at?_eq_some {t : VariableMap} (h : t.Wellformed) (name : String) (v : VariableMapped) :
    t.at? name = some v ↔ (name, v) ∈ t.slots.entries := by
  obtain ⟨m, hm⟩ := h.exists_represents
  rw [HashTable.at?_eq h hm, hm name v]

/-- A newly built array is the environment. -/
theorem buildEnvp_isEnvp {t : VariableMap} (h : t.Wellformed) : IsEnvp t (buildEnvp t) := by
  refine ⟨_, nodup_exported h, fun name => ?_, ?_⟩
  · constructor
    · intro hmem
      obtain ⟨⟨name', v⟩, hentry, rfl⟩ := List.mem_map.mp hmem
      obtain ⟨hentry, hexported⟩ := List.mem_filter.mp hentry
      rw [(at?_eq_some h name' v).mpr hentry]
      exact hexported
    · intro hany
      obtain ⟨v, hv, hexported⟩ := (Option.any_eq_true _ _).mp hany
      have hentry := (at?_eq_some h name v).mp hv
      exact List.mem_map.mpr ⟨(name, v), List.mem_filter.mpr ⟨hentry, hexported⟩, rfl⟩
  · rw [buildEnvp, List.map_map]
    refine List.map_congr_left fun entry hentry => ?_
    have hv := (at?_eq_some h entry.1 entry.2).mpr (List.mem_of_mem_filter hentry)
    simp [hv]

/-! ## The cache -/

/-- The table is whole, and a cached array that would be handed out is the one that would be
built. -/
structure Coherent (s : CachedStore) : Prop where
  wellformed : s.map.Wellformed
  fresh : ∀ envp, s.cachedEnvp = some envp → s.cachedGeneration = s.generation →
    envp = buildEnvp s.map

theorem create_coherent : create.Coherent where
  wellformed := create_wellformed
  fresh := by rintro envp ⟨⟩

/-- What a coherent store hands out is the environment. -/
theorem Coherent.getEnvp_isEnvp {s : CachedStore} (h : s.Coherent) : IsEnvp s.map s.getEnvp.1 := by
  unfold getEnvp
  cases hcache : s.cachedEnvp with
  | none => exact buildEnvp_isEnvp h.wellformed
  | some envp =>
    dsimp only
    split_ifs with hvalid
    · rw [h.fresh envp hcache hvalid]
      exact buildEnvp_isEnvp h.wellformed
    · exact buildEnvp_isEnvp h.wellformed

theorem Coherent.getEnvp {s : CachedStore} (h : s.Coherent) : s.getEnvp.2.Coherent := by
  have hrebuild : s.rebuild.2.Coherent :=
    { wellformed := h.wellformed
      fresh := by
        rintro envp ⟨⟩ -
        rfl }
  unfold CachedStore.getEnvp
  cases hcache : s.cachedEnvp with
  | none => exact hrebuild
  | some envp =>
    dsimp only
    split_ifs
    · exact h
    · exact hrebuild

/-- Counting up makes the cached array invalid unless the counter comes around to it. -/
theorem touch_coherent {s : CachedStore} {map : VariableMap} (hmap : map.Wellformed)
    (hcounter : s.cachedEnvp = none ∨ s.generation + 1 ≠ s.cachedGeneration) :
    ({ s with map }.touch).Coherent where
  wellformed := hmap
  fresh := by
    intro envp hcache hvalid
    rcases hcounter with hnone | hne
    · exact absurd (hnone.symm.trans hcache) (by simp)
    · exact absurd hvalid.symm hne

theorem assignAt_wellformed {t : VariableMap} (h : t.Wellformed) {pos : ℕ} {key : String}
    {old : VariableMapped} (hlook : t.slots.look pos = some (key, old)) (mapped : VariableMapped) :
    (assignAt t pos key mapped).Wellformed := by
  obtain ⟨m, hm⟩ := h.exists_represents
  exact (assign_spec h hm hlook mapped).1

section Map

variable {U : Type} {fn : String → VariableMapped → U → MapAnswer × U}

/-- The loop leaves every key in its slot. -/
theorem keySlots_mapSlots (slots : Slots (String × VariableMapped)) (u : U) (p : Pending) :
    keySlots (mapSlots fn slots u p).1 = keySlots slots := by
  unfold keySlots
  fun_induction mapSlots fn slots u p <;> simp_all

/-- Once an entry was updated a failure is one after an update. -/
theorem failsAfterUpdate_true {slots : Slots (String × VariableMapped)} {u : U} {p : Pending}
    {e : VarStoreError} (h : (mapSlots fn slots u p).2 = .error e) :
    failsAfterUpdate fn slots u true = true := by
  fun_induction mapSlots fn slots u p <;> simp_all [failsAfterUpdate]

/-- A loop that stops without an update has left the slots as they were. -/
theorem mapSlots_error {slots : Slots (String × VariableMapped)} {u : U} {p : Pending}
    {e : VarStoreError} (h : (mapSlots fn slots u p).2 = .error e)
    (hupdate : failsAfterUpdate fn slots u false = false) : (mapSlots fn slots u p).1 = slots := by
  fun_induction mapSlots fn slots u p <;> simp_all [failsAfterUpdate]
  -- an update in place: the failure behind it is one after an update
  rename_i hrest _ _
  have hfails := failsAfterUpdate_true (congrArg Prod.snd hrest)
  rw [hfails] at hupdate
  cases hupdate

theorem insertRenamed_wellformed {t t' : VariableMap} (h : t.Wellformed)
    {renamed : String × VariableMapped} (hstep : insertRenamed t renamed = .ok t') :
    t'.Wellformed := by
  obtain ⟨value, -, hstep⟩ := except_bind_eq_ok.mp hstep
  obtain ⟨⟨t₁, pos⟩, hinsert, hstep⟩ := except_bind_eq_ok.mp hstep
  cases hstep
  obtain ⟨m, hm⟩ := h.exists_represents
  obtain ⟨t₂, pos₂, hinsert₂, hwell, -⟩ := insertOrAssign_spec h hm renamed.1
    { renamed.2 with value := some value }
  cases hinsert.symm.trans hinsert₂
  exact hwell

theorem insertRenames_wellformed {renames : List (String × VariableMapped)} {t t' : VariableMap}
    (h : t.Wellformed) (hstep : renames.foldlM insertRenamed t = .ok t') : t'.Wellformed := by
  induction renames generalizing t with
  | nil =>
    cases hstep
    exact h
  | cons renamed renames ih =>
    rw [List.foldlM_cons] at hstep
    obtain ⟨t₁, hone, hrest⟩ := except_bind_eq_ok.mp hstep
    exact ih (insertRenamed_wellformed h hone) hrest

/-- A mapping that succeeds counts up, and one that fails without an update has changed nothing. -/
theorem mapStore_coherent {s s' : CachedStore} {u : U} {e : Option VarStoreError} (h : s.Coherent)
    (hcounter : s.cachedEnvp = none ∨ s.generation + 1 ≠ s.cachedGeneration)
    (hfailure : failsAfterUpdate fn s.map.slots u false = false)
    (hstep : mapStore fn s u = .ok (e, s')) : s'.Coherent := by
  have hkeys : keySlots (mapSlots fn s.map.slots u {}).1 = keySlots s.map.slots :=
    keySlots_mapSlots s.map.slots u {}
  unfold mapStore at hstep
  cases hresult : mapSlots fn s.map.slots u {} with | mk slots result =>
  rw [hresult] at hstep hkeys
  have hwell : ({ s.map with slots } : VariableMap).Wellformed := h.wellformed.of_keySlots hkeys
  cases result with
  | error err =>
    have hsame := mapSlots_error (congrArg Prod.snd hresult) hfailure
    rw [hresult] at hsame
    obtain rfl : slots = s.map.slots := hsame
    cases hstep
    exact h
  | ok p =>
    obtain ⟨map₁, hremove, hstep⟩ := except_bind_eq_ok.mp hstep
    obtain ⟨map₂, hrename, hstep⟩ := except_bind_eq_ok.mp hstep
    cases hstep
    have hwell₁ : map₁.Wellformed := by
      unfold removePending at hremove
      split_ifs at hremove
      · cases hremove
        exact hwell
      · obtain ⟨t, ht, hwell'⟩ := eraseMultiple_wellformed hwell p.removals
        cases hremove.symm.trans ht
        exact hwell'
    exact touch_coherent (insertRenames_wellformed hwell₁ hrename) hcounter

end Map

/-! ## Steps -/

section Step

variable {U : Type} {s s' : CachedStore}

theorem add_coherent {name : String} {value : Option String} {exported readOnly : Bool}
    {e : Option VarStoreError} (h : s.Coherent)
    (hcounter : s.cachedEnvp = none ∨ s.generation + 1 ≠ s.cachedGeneration)
    (hstep : s.add name value exported readOnly = .ok (e, s')) : s'.Coherent := by
  unfold add at hstep
  split at hstep
  · cases hstep
    exact h
  · split at hstep
    · cases hstep
      exact h
    · split_ifs at hstep
      · cases hstep
        exact h
      · obtain ⟨⟨map, pos⟩, hinsert, hstep⟩ := except_bind_eq_ok.mp hstep
        cases hstep
        obtain ⟨m, hm⟩ := h.wellformed.exists_represents
        obtain ⟨t, pos', hinsert', hwell, -⟩ := insertOrAssign_spec h.wellformed hm name
          ⟨some (value.getD ""), exported, readOnly⟩
        cases hinsert.symm.trans hinsert'
        exact touch_coherent hwell hcounter

theorem remove_coherent {name : String} (h : s.Coherent)
    (hcounter : s.cachedEnvp = none ∨ s.generation + 1 ≠ s.cachedGeneration)
    (hstep : s.remove name = .ok s') : s'.Coherent := by
  obtain ⟨map, herase, hstep⟩ := except_bind_eq_ok.mp hstep
  cases hstep
  obtain ⟨m, hm⟩ := h.wellformed.exists_represents
  obtain ⟨t, ht, hwell, -⟩ := erase_spec h.wellformed hm name
  cases herase.symm.trans ht
  exact touch_coherent hwell hcounter

theorem setReadOnly_coherent (name : String) (readOnly : Bool) (h : s.Coherent)
    (hcounter : s.cachedEnvp = none ∨ s.generation + 1 ≠ s.cachedGeneration) :
    (s.setReadOnly name readOnly).2.Coherent := by
  unfold setReadOnly
  split
  · exact h
  · rename_i pos key mapped hl
    split_ifs
    · exact h
    · exact touch_coherent (assignAt_wellformed h.wellformed (Slots.search_some hl).1 _) hcounter

theorem setExported_coherent (name : String) (exported : Bool) (h : s.Coherent)
    (hcounter : s.cachedEnvp = none ∨ s.generation + 1 ≠ s.cachedGeneration) :
    (s.setExported name exported).2.Coherent := by
  unfold setExported
  split
  · exact h
  · rename_i pos key mapped hl
    split_ifs
    · exact h
    · exact touch_coherent (assignAt_wellformed h.wellformed (Slots.search_some hl).1 _) hcounter

theorem clear_coherent (h : s.Coherent) (hcounter : s.cachedEnvp = none ∨ s.generation + 1 ≠ 0) :
    s.clear.Coherent where
  wellformed := clear_wellformed h.wellformed
  fresh := by
    intro envp hcache hvalid
    rcases hcounter with hnone | hne
    · exact absurd (hnone.symm.trans hcache) (by simp)
    · exact absurd hvalid.symm hne

/-- A harmless step keeps the cache coherent. -/
theorem apply_coherent (h : s.Coherent) {op : Op U} (hop : op.Harmless s)
    (hstep : apply s op = .ok s') : s'.Coherent := by
  obtain ⟨hwraps, hstops⟩ := hop
  have hcounter (hchange : op.Wraps s ↔ s.cachedEnvp ≠ none ∧
      s.generation + 1 = s.cachedGeneration) :
      s.cachedEnvp = none ∨ s.generation + 1 ≠ s.cachedGeneration := by
    by_contra hboth
    rw [not_or, not_not] at hboth
    exact hwraps (hchange.mpr hboth)
  cases op with
  | add name value exported readOnly =>
    obtain ⟨⟨e, s₁⟩, hadd, rfl⟩ := except_map_eq_ok.mp hstep
    exact add_coherent h (hcounter Iff.rfl) hadd
  | remove name => exact remove_coherent h (hcounter Iff.rfl) hstep
  | setReadOnly name readOnly =>
    cases hstep
    exact setReadOnly_coherent name readOnly h (hcounter Iff.rfl)
  | setExported name exported =>
    cases hstep
    exact setExported_coherent name exported h (hcounter Iff.rfl)
  | clear =>
    cases hstep
    refine clear_coherent h ?_
    by_contra hboth
    rw [not_or, not_not] at hboth
    exact hwraps hboth
  | map fn u =>
    obtain ⟨⟨e, s₁⟩, hmap, rfl⟩ := except_map_eq_ok.mp hstep
    exact mapStore_coherent h (hcounter Iff.rfl) (by simpa [Op.StopsAfterUpdate] using hstops) hmap
  | getEnvp =>
    cases hstep
    exact h.getEnvp

end Step

/-- In every run of harmless steps the store hands out its environment in every state reached: one
string for each exported variable with its current value, and nothing else. -/
theorem reaches_isEnvp {U : Type} {s : CachedStore} (h : Reaches U s) :
    IsEnvp s.map s.getEnvp.1 := by
  have hcoherent : s.Coherent := by
    induction h with
    | create => exact create_coherent
    | step _ op hop hstep ih => exact apply_coherent ih hop hstep
  exact hcoherent.getEnvp_isEnvp

/-! ## A mapping that fails -/

/-- The first variable is given the value `2`, the next one the empty name. -/
def updateOnce (name : String) (old : VariableMapped) (calls : ℕ) : MapAnswer × ℕ :=
  (⟨.update, if calls = 0 then name else "", "2", old.exported, old.readOnly⟩, calls + 1)

/-- Two exported variables, whose environment is asked for before the store is mapped over. -/
def staleOps : List (Op ℕ) :=
  [.add "A" (some "1") true false, .add "B" (some "1") true false, .getEnvp, .map updateOnce 0]

/-- Operations one after the other on a new store. -/
def run {U : Type} (ops : List (Op U)) : Except Fault CachedStore := ops.foldlM apply create

/-- The store after them. -/
def staleStore : CachedStore :=
  match run staleOps with
  | .ok s => s
  | .error _ => create

/-- What a lookup finds is an entry of the table. -/
theorem mem_entries_of_at? {t : VariableMap} {name : String} {v : VariableMapped}
    (h : t.at? name = some v) : (name, v) ∈ t.slots.entries := by
  obtain ⟨⟨pos, key, mapped⟩, hl, rfl⟩ := Option.map_eq_some_iff.mp h
  obtain ⟨hlook, hkey⟩ := Slots.search_some hl
  obtain rfl : key = name := by simpa using hkey
  exact Slots.mem_entries.mpr ⟨pos, hlook⟩

/-- The mapping fails after it has changed `B`, and the store still hands out the old value. -/
theorem staleStore_not_isEnvp :
    run staleOps = .ok staleStore ∧ staleStore.getEnvp.1 = ["B=1", "A=1"] ∧
      buildEnvp staleStore.map = ["B=2", "A=1"] ∧ ¬ IsEnvp staleStore.map staleStore.getEnvp.1 := by
  have henvp : staleStore.getEnvp.1 = ["B=1", "A=1"] := by decide
  have hentries : staleStore.map.slots.entries =
      [("B", ⟨some "2", true, false⟩), ("A", ⟨some "1", true, false⟩)] := by decide
  refine ⟨rfl, henvp, by decide, ?_⟩
  rintro ⟨names, -, hnames, hlist⟩
  obtain ⟨name, hname, hold⟩ : ∃ name ∈ names,
      makeEnvCstr name ((staleStore.map.at? name).bind VariableMapped.value) = "B=1" :=
    List.mem_map.mp (by rw [← hlist, henvp]; simp)
  obtain ⟨v, hv, -⟩ := (Option.any_eq_true _ _).mp ((hnames name).mp hname)
  have hmem := mem_entries_of_at? hv
  rw [hentries] at hmem
  rw [hv] at hold
  simp only [List.mem_cons, Prod.mk.injEq, List.not_mem_nil, or_false] at hmem
  rcases hmem with ⟨rfl, rfl⟩ | ⟨rfl, rfl⟩
  · exact absurd hold (by decide)
  · exact absurd hold (by decide)

/-- The same variables in a store that is not mapped over. -/
theorem fresh_isEnvp :
    ∃ s, apply create (.add "A" (some "1") true false : Op ℕ) = .ok s ∧
      IsEnvp s.map s.getEnvp.1 := by
  refine ⟨_, rfl, reaches_isEnvp (U := ℕ) (.step .create (.add "A" (some "1") true false) ?_ rfl)⟩
  exact ⟨fun h => h.1 rfl, fun h => h⟩

end CachedStore

end Migash
