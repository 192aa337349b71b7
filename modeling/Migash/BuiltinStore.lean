import Migash.Exec.State
import Migash.Library.Tombstones
import Mathlib.Algebra.Group.Nat.Defs
import Mathlib.Data.List.Nodup

/-! # The builtin store

The hash table that maps the names of builtins to their functions. A builtin
that is removed leaves a tombstone, which the next growth throws away and an
insertion may use again.
-/

namespace Migash

open Library

/-- `fnv1a_hash` of a C string, which is here the bytes before its NUL. -/
def fnv1aHash (str : List UInt8) : UInt32 :=
  str.foldl (fun hash p => (hash ^^^ p.toUInt32) * 16777619) 2166136261

/-- What `builtin_store_lookup` finds: `fn` and `category` of an entry. -/
structure Builtin (β : Type) where
  fn : β
  category : Exec.BuiltinCategory
  deriving DecidableEq

/-- `builtin_entry_t` that is not `BUILTIN_SLOT_EMPTY`. A tombstone keeps its hash and has no name
and no function. -/
structure BuiltinEntry (β : Type) where
  hash : UInt32
  occupied : Option (List UInt8 × Builtin β)

/-- `builtin_store_t`: the capacity is the number of slots. -/
structure BuiltinStore (β : Type) where
  entries : Slots (BuiltinEntry β)
  count : ℕ
  tombstones : ℕ

namespace BuiltinEntry

variable {β : Type}

/-- `BUILTIN_SLOT_TOMBSTONE` -/
def tombstone (e : BuiltinEntry β) : Bool := e.occupied.isNone

/-- The test of `find_slot` at an occupied slot. -/
def named (name : List UInt8) (hash : UInt32) (e : BuiltinEntry β) : Bool :=
  e.hash = hash && e.occupied.any (·.1 = name)

/-- The slot where the search for a hash starts. -/
def slot (capacity : ℕ) (hash : UInt32) : ℕ := hash.toNat &&& (capacity - 1)

def home (capacity : ℕ) (e : BuiltinEntry β) : ℕ := slot capacity e.hash

end BuiltinEntry

namespace BuiltinStore

variable {β : Type}

open BuiltinEntry (tombstone named slot home)

def capacity (s : BuiltinStore β) : ℕ := s.entries.length

/-- `find_slot`. -/
def findSlot (entries : Slots (BuiltinEntry β)) (name : List UInt8) (hash : UInt32) : ℕ :=
  entries.seek tombstone (named name hash) entries.length (slot entries.length hash) none

/-- The turn of `grow` for one old slot. -/
def reinsert (entries : Slots (BuiltinEntry β)) (old : Option (BuiltinEntry β)) :
    Slots (BuiltinEntry β) :=
  match old with
  | some ⟨hash, some (name, b)⟩ =>
    entries.set (findSlot entries name hash) (some ⟨hash, some (name, b)⟩)
  | _ => entries

/-- `grow`. -/
def grow (s : BuiltinStore β) (newCapacity : ℕ) : BuiltinStore β where
  entries := s.entries.foldl reinsert (List.replicate newCapacity none)
  count := s.count
  tombstones := 0

/-- `ensure_capacity`. -/
def ensureCapacity (s : BuiltinStore β) : BuiltinStore β :=
  if 70 < (s.count + s.tombstones) * 100 / s.capacity then s.grow (s.capacity * 2) else s

/-- `builtin_store_create`. -/
def create : BuiltinStore β := ⟨List.replicate 32 none, 0, 0⟩

/-- `builtin_store_set` behind the growth. -/
def put (s : BuiltinStore β) (name : List UInt8) (b : Builtin β) : BuiltinStore β :=
  let hash := fnv1aHash name
  let slot := findSlot s.entries name hash
  let new : BuiltinEntry β := ⟨hash, some (name, b)⟩
  match s.entries.look slot with
  | some ⟨hash, some (own, _)⟩ =>
    { s with entries := s.entries.set slot (some ⟨hash, some (own, b)⟩) }
  | some ⟨_, none⟩ =>
    { entries := s.entries.set slot (some new)
      count := s.count + 1
      tombstones := s.tombstones - 1 }
  | none => { s with entries := s.entries.set slot (some new), count := s.count + 1 }

/-- `builtin_store_set`. -/
def set (s : BuiltinStore β) (name : Option (List UInt8)) (fn : Option β)
    (category : Exec.BuiltinCategory) : Bool × BuiltinStore β :=
  match name, fn with
  | some name, some fn => (true, s.ensureCapacity.put name ⟨fn, category⟩)
  | _, _ => (false, s)

/-- `builtin_store_remove`. -/
def remove (s : BuiltinStore β) (name : Option (List UInt8)) : Bool × BuiltinStore β :=
  match name with
  | none => (false, s)
  | some name =>
    let slot := findSlot s.entries name (fnv1aHash name)
    match s.entries.look slot with
    | some ⟨hash, some _⟩ =>
      (true,
        { entries := s.entries.set slot (some ⟨hash, none⟩)
          count := s.count - 1
          tombstones := s.tombstones + 1 })
    | _ => (false, s)

/-- `builtin_store_clear`. -/
def clear (s : BuiltinStore β) : BuiltinStore β := ⟨List.replicate s.capacity none, 0, 0⟩

/-- `builtin_store_lookup`. -/
def lookup (s : BuiltinStore β) (name : List UInt8) : Option (Builtin β) :=
  (s.entries.look (findSlot s.entries name (fnv1aHash name))).bind fun e => e.occupied.map (·.2)

/-- `builtin_store_get`. -/
def get (s : BuiltinStore β) (name : List UInt8) : Option β := (s.lookup name).map (·.fn)

/-- `builtin_store_has`. -/
def has (s : BuiltinStore β) (name : List UInt8) : Bool := (s.lookup name).isSome

/-! ## The invariant -/

/-- The builtins in the table with their names, in the order of their slots. -/
def live (s : BuiltinStore β) : List (List UInt8 × Builtin β) :=
  s.entries.entries.filterMap (·.occupied)

/-- The number of tombstones in the table. -/
def dead (s : BuiltinStore β) : ℕ := s.entries.entries.countP tombstone

/-- The counters are right, no name is there twice and no chain is broken. The load leaves an empty
slot. -/
structure Wellformed (s : BuiltinStore β) : Prop where
  power : ∃ k, s.capacity = 2 ^ k
  capacity_ge : 32 ≤ s.capacity
  count_eq : s.count = s.live.length
  tombstones_eq : s.tombstones = s.dead
  distinct : (s.live.map (·.1)).Nodup
  hashed : ∀ e ∈ s.entries.entries, ∀ name b, e.occupied = some (name, b) → e.hash = fnv1aHash name
  unbroken : s.entries.Unbroken (home s.capacity)
  load : (s.count + s.tombstones) * 100 < 71 * s.capacity + 100

section Lists

variable {entries entries' : List (BuiltinEntry β)}

/-- Every entry is live or dead. -/
theorem length_eq (entries : List (BuiltinEntry β)) :
    entries.length = (entries.filterMap (·.occupied)).length + entries.countP tombstone := by
  induction entries with
  | nil => rfl
  | cons e entries ih =>
    obtain ⟨hash, occupied⟩ := e
    cases occupied with
    | none =>
      rw [List.filterMap_cons_none rfl, List.countP_cons_of_pos rfl, List.length_cons, ih]
      omega
    | some b =>
      have hsome : List.filterMap (·.occupied) (⟨hash, some b⟩ :: entries) =
          b :: entries.filterMap (·.occupied) := List.filterMap_cons_some rfl
      rw [hsome, List.countP_cons_of_neg (by simp [tombstone]), List.length_cons, List.length_cons,
        ih]
      omega

end Lists

theorem slot_lt {capacity : ℕ} (h : 0 < capacity) (hash : UInt32) :
    slot capacity hash < capacity := by
  have : hash.toNat &&& (capacity - 1) ≤ capacity - 1 := Nat.and_le_right
  unfold slot
  omega

theorem create_wellformed : (create : BuiltinStore β).Wellformed where
  power := ⟨5, rfl⟩
  capacity_ge := Nat.le_refl 32
  count_eq := by rw [live, create, Slots.entries_replicate]; rfl
  tombstones_eq := by rw [dead, create, Slots.entries_replicate]; rfl
  distinct := by rw [live, create, Slots.entries_replicate]; exact List.nodup_nil
  hashed := by
    rw [create, Slots.entries_replicate]
    intro e he
    cases he
  unbroken := Slots.Unbroken.replicate _ 32
  load := by simp [create, capacity]

section Search

variable {s : BuiltinStore β}

/-- There is an empty slot. -/
theorem Wellformed.exists_empty (h : s.Wellformed) :
    ∃ i < s.entries.length, s.entries.look i = none := by
  refine Slots.exists_free ?_
  have hlen := length_eq s.entries.entries
  have hcount := h.count_eq
  have htombs := h.tombstones_eq
  have hload := h.load
  have hcap := h.capacity_ge
  unfold live at hcount
  unfold dead at htombs
  unfold capacity at hload hcap
  omega

theorem Wellformed.sought (h : s.Wellformed) (name : List UInt8) (hash : UInt32) :
    s.entries.Sought tombstone (named name hash) (slot s.capacity hash)
      (findSlot s.entries name hash) := by
  have hcap := h.capacity_ge
  have hslot : slot s.capacity hash < s.capacity := slot_lt (by omega) hash
  exact Slots.sought_seek hslot h.exists_empty

theorem mem_live {p : List UInt8 × Builtin β} :
    p ∈ s.live ↔ ∃ j hash, s.entries.look j = some ⟨hash, some p⟩ := by
  unfold live
  rw [List.mem_filterMap]
  constructor
  · rintro ⟨⟨hash, occupied⟩, he, rfl : occupied = some p⟩
    obtain ⟨j, hj⟩ := Slots.mem_entries.mp he
    exact ⟨j, hash, hj⟩
  · rintro ⟨j, hash, hj⟩
    exact ⟨_, Slots.mem_entries.mpr ⟨j, hj⟩, rfl⟩

/-- A name stands for one builtin only. -/
theorem Wellformed.eq_of_mem (h : s.Wellformed) {name : List UInt8} {b b' : Builtin β}
    (hb : (name, b) ∈ s.live) (hb' : (name, b') ∈ s.live) : b = b' := by
  have := List.inj_on_of_nodup_map h.distinct hb hb' rfl
  exact congrArg Prod.snd this

/-- The slot that `find_slot` finds for a name: the one of its builtin, or a place for a new entry
at the end of its chain, and then there is no such builtin. -/
theorem Wellformed.findSlot_cases (h : s.Wellformed) (name : List UInt8) :
    (∃ b, s.entries.look (findSlot s.entries name (fnv1aHash name)) =
        some ⟨fnv1aHash name, some (name, b)⟩) ∨
    ((s.entries.look (findSlot s.entries name (fnv1aHash name))).bind (·.occupied) = none ∧
      findSlot s.entries name (fnv1aHash name) < s.entries.length ∧
      (∀ k < s.entries.length, Slots.Between (slot s.capacity (fnv1aHash name))
        (findSlot s.entries name (fnv1aHash name)) k → s.entries.look k ≠ none) ∧
      ∀ b, (name, b) ∉ s.live) := by
  have hsought := h.sought name (fnv1aHash name)
  have hlt := hsought.lt
  cases hsought with
  | entry x look live accepted =>
    obtain ⟨hash, occupied⟩ := x
    obtain ⟨own, b, rfl⟩ : ∃ own b, occupied = some (own, b) := by
      cases occupied with
      | none => cases live
      | some p => exact ⟨p.1, p.2, rfl⟩
    obtain ⟨rfl, rfl⟩ : hash = fnv1aHash name ∧ own = name := by simpa [named] using accepted
    exact .inl ⟨b, look⟩
  | place e he empty passed free =>
    refine .inr ⟨?_, hlt, Slots.chain_of_free passed free, fun b hb => ?_⟩
    · rcases free with hq | ⟨-, y, hy, hdead⟩
      · rw [hq, empty]
        rfl
      · rw [hy]
        simpa [tombstone] using hdead
    · obtain ⟨j, hash, hj⟩ := mem_live.mp hb
      have hhash : hash = fnv1aHash name :=
        h.hashed _ (Slots.mem_entries.mpr ⟨j, hj⟩) name b rfl
      have := Slots.not_found_of_place h.unbroken he empty passed hj (by rw [home, hhash])
      simp [tombstone, named, hhash] at this

end Search

/-! ## Maps as lists of pairs -/

/-- The pairs of a list are those of a map. -/
def Maps (pairs : List (List UInt8 × Builtin β)) (m : List UInt8 → Option (Builtin β)) : Prop :=
  ∀ name b, m name = some b ↔ (name, b) ∈ pairs

theorem create_maps : Maps (create : BuiltinStore β).live fun _ => none := by
  intro name b
  rw [live, create, Slots.entries_replicate]
  simp

section Maps

variable {pairs pairs' : List (List UInt8 × Builtin β)} {m : List UInt8 → Option (Builtin β)}
  {name : List UInt8} {b : Builtin β}

theorem Maps.perm (h : Maps pairs m) (hperm : pairs'.Perm pairs) : Maps pairs' m := by
  intro name b
  rw [h name b, hperm.mem_iff]

theorem Maps.cons (h : Maps pairs m) (hnew : ∀ b, (name, b) ∉ pairs) :
    Maps ((name, b) :: pairs) (Function.update m name (some b)) := by
  intro name' b'
  by_cases hname : name' = name
  · subst hname
    rw [Function.update_self, Option.some.injEq, List.mem_cons]
    constructor
    · rintro rfl
      exact .inl rfl
    · rintro (heq | hmem)
      · cases heq
        rfl
      · exact absurd hmem (hnew b')
  · rw [Function.update_of_ne hname, h name' b', List.mem_cons]
    constructor
    · exact .inr
    · rintro (heq | hmem)
      · cases heq
        exact absurd rfl hname
      · exact hmem

theorem Maps.tail (h : Maps ((name, b) :: pairs) m) (hnew : ∀ b, (name, b) ∉ pairs) :
    Maps pairs (Function.update m name none) := by
  intro name' b'
  by_cases hname : name' = name
  · subst hname
    rw [Function.update_self]
    constructor
    · rintro ⟨⟩
    · exact fun hmem => absurd hmem (hnew b')
  · rw [Function.update_of_ne hname, h name' b', List.mem_cons]
    constructor
    · rintro (heq | hmem)
      · cases heq
        exact absurd rfl hname
      · exact hmem
    · exact .inr

theorem not_mem_of_nodup (h : (((name, b) :: pairs).map (·.1)).Nodup) (b' : Builtin β) :
    (name, b') ∉ pairs := by
  rw [List.map_cons, List.nodup_cons] at h
  exact fun hmem => h.1 (List.mem_map.mpr ⟨_, hmem, rfl⟩)

end Maps

/-! ## Growth -/

/-- The entries that `grow` puts in again. -/
def kept (entries : List (BuiltinEntry β)) : List (BuiltinEntry β) :=
  entries.filter fun e => !e.tombstone

theorem kept_tombstone (entries : List (BuiltinEntry β)) (hash : UInt32) :
    kept (⟨hash, none⟩ :: entries) = kept entries := rfl

theorem kept_occupied (entries : List (BuiltinEntry β)) (hash : UInt32)
    (p : List UInt8 × Builtin β) :
    kept (⟨hash, some p⟩ :: entries) = ⟨hash, some p⟩ :: kept entries := rfl

theorem filterMap_kept (entries : List (BuiltinEntry β)) :
    (kept entries).filterMap (·.occupied) = entries.filterMap (·.occupied) := by
  induction entries with
  | nil => rfl
  | cons e entries ih =>
    obtain ⟨hash, occupied⟩ := e
    cases occupied with
    | none => rw [kept_tombstone, ih, List.filterMap_cons_none rfl]
    | some p =>
      rw [kept_occupied, List.filterMap_cons, List.filterMap_cons, ih]

theorem countP_kept (entries : List (BuiltinEntry β)) : (kept entries).countP tombstone = 0 := by
  rw [List.countP_eq_zero]
  intro e he
  simpa [kept] using (List.mem_filter.mp he).2

/-- A table without tombstones whose chains are whole takes up the entries of the old slots. -/
theorem foldl_reinsert {n : ℕ} (hn : 0 < n) (olds : Slots (BuiltinEntry β)) :
    ∀ t : Slots (BuiltinEntry β), t.length = n → t.Unbroken (home n) →
      (∀ e ∈ t.entries, e.tombstone = false) → t.entries.length + (kept olds.entries).length < n →
      (((t.entries ++ kept olds.entries).filterMap (·.occupied)).map (·.1)).Nodup →
      (olds.foldl reinsert t).length = n ∧ (olds.foldl reinsert t).Unbroken (home n) ∧
        (olds.foldl reinsert t).entries.Perm (t.entries ++ kept olds.entries) := by
  induction olds with
  | nil =>
    intro t hlen hunbroken _ _ _
    exact ⟨hlen, hunbroken, by simp [Slots.entries, kept]⟩
  | cons old olds ih =>
    intro t hlen hunbroken hlive hroom hnodup
    rw [List.foldl_cons]
    rcases old with _ | ⟨hash, _ | ⟨name, b⟩⟩
    · exact ih t hlen hunbroken hlive hroom hnodup
    · exact ih t hlen hunbroken hlive hroom hnodup
    · have hcons : kept (Slots.entries (some ⟨hash, some (name, b)⟩ :: olds)) =
          ⟨hash, some (name, b)⟩ :: kept (Slots.entries olds) := rfl
      rw [hcons] at hroom hnodup ⊢
      rw [List.length_cons] at hroom
      set q := findSlot t name hash with hq
      set e : BuiltinEntry β := ⟨hash, some (name, b)⟩ with he
      have hslot : slot t.length hash < t.length := slot_lt (by omega) hash
      have hsought : t.Sought tombstone (named name hash) (slot t.length hash) q :=
        Slots.sought_seek hslot (Slots.exists_free (by omega))
      obtain ⟨hlook, hchain⟩ : t.look q = none ∧ ∀ k < t.length,
          Slots.Between (slot t.length hash) q k → t.look k ≠ none := by
        cases hsought with
        | entry x look live accepted =>
          -- the name would be there twice
          obtain ⟨hash', occupied⟩ := x
          cases occupied with
          | none => cases live
          | some p =>
            obtain ⟨-, hname⟩ : hash' = hash ∧ p.1 = name := by simpa [named] using accepted
            have hmem : p ∈ t.entries.filterMap (·.occupied) :=
              List.mem_filterMap.mpr ⟨_, Slots.mem_entries.mpr ⟨q, look⟩, rfl⟩
            rw [List.filterMap_append, List.map_append, List.nodup_append] at hnodup
            refine absurd rfl (hnodup.2.2 name ?_ name ?_)
            · exact hname ▸ List.mem_map_of_mem hmem
            · exact List.mem_map.mpr
                ⟨(name, b), List.mem_filterMap.mpr ⟨e, List.mem_cons_self, rfl⟩, rfl⟩
        | place z hz empty passed free =>
          refine ⟨?_, Slots.chain_of_free passed free⟩
          rcases free with rfl | ⟨-, y, hy, hdead⟩
          · exact empty
          · have := hlive y (Slots.mem_entries.mpr ⟨q, hy⟩)
            rw [hdead] at this
            cases this
      have hqlt : q < t.length := hsought.lt
      have hperm : (Slots.entries (t.set q (some e))).Perm (e :: t.entries) :=
        Slots.entries_set_some hqlt hlook e
      have hmiddle : (Slots.entries (t.set q (some e)) ++ kept (Slots.entries olds)).Perm
          (t.entries ++ e :: kept (Slots.entries olds)) :=
        (hperm.append_right _).trans List.perm_middle.symm
      obtain ⟨hlen', hunbroken', hperm'⟩ := ih (t.set q (some e)) (by simpa using hlen)
        (hunbroken.put hqlt (by rw [home, ← hlen]; exact hchain))
        (fun x hx => by
          rcases List.mem_cons.mp (hperm.mem_iff.mp hx) with rfl | hx
          · rfl
          · exact hlive x hx)
        (by rw [hperm.length_eq, List.length_cons]; omega)
        (((hmiddle.filterMap _).map _).nodup_iff.mpr hnodup)
      exact ⟨hlen', hunbroken', hperm'.trans hmiddle⟩

section Growth

variable {s : BuiltinStore β} {m : List UInt8 → Option (Builtin β)}

theorem grow_spec (h : s.Wellformed) (hm : Maps s.live m) :
    (s.grow (s.capacity * 2)).Wellformed ∧ Maps (s.grow (s.capacity * 2)).live m ∧
      (s.grow (s.capacity * 2)).capacity = s.capacity * 2 := by
  have hcap := h.capacity_ge
  have hload := h.load
  have hlive := h.count_eq
  have hkept : (kept s.entries.entries).length = s.live.length := by
    rw [length_eq, filterMap_kept, countP_kept]
    rfl
  have hempty : Slots.entries (List.replicate (s.capacity * 2) (none : Option (BuiltinEntry β))) =
      [] := Slots.entries_replicate _
  obtain ⟨hlen, hunbroken, hperm⟩ := foldl_reinsert (n := s.capacity * 2) (by omega) s.entries
    (List.replicate (s.capacity * 2) none) List.length_replicate (Slots.Unbroken.replicate _ _)
    (by rw [hempty]; intro e he; cases he)
    (by rw [hempty, List.length_nil]; omega)
    (by rw [hempty, List.nil_append, filterMap_kept]; exact h.distinct)
  rw [hempty, List.nil_append] at hperm
  have hperm_live : (s.grow (s.capacity * 2)).live.Perm s.live := by
    unfold live
    rw [← filterMap_kept s.entries.entries]
    exact hperm.filterMap _
  have hcap' : (s.grow (s.capacity * 2)).capacity = s.capacity * 2 := hlen
  refine ⟨?_, hm.perm hperm_live, hcap'⟩
  exact
    { power := by
        obtain ⟨k, hk⟩ := h.power
        exact ⟨k + 1, by rw [hcap', hk, Nat.pow_succ]⟩
      capacity_ge := by omega
      count_eq := hlive.trans hperm_live.length_eq.symm
      tombstones_eq := (hperm.countP_eq _).trans (countP_kept _) |>.symm
      distinct := (hperm_live.map _).nodup_iff.mpr h.distinct
      hashed := fun e he => h.hashed e (List.mem_filter.mp (hperm.mem_iff.mp he)).1
      unbroken := hcap'.symm ▸ hunbroken
      load := by
        rw [hcap']
        change (s.count + 0) * 100 < _
        omega }

theorem ensureCapacity_spec (h : s.Wellformed) (hm : Maps s.live m) :
    s.ensureCapacity.Wellformed ∧ Maps s.ensureCapacity.live m ∧
      (s.ensureCapacity.count + s.ensureCapacity.tombstones) * 100 <
        71 * s.ensureCapacity.capacity := by
  have hcap := h.capacity_ge
  unfold ensureCapacity
  split_ifs with hfull
  · obtain ⟨hwell, hmaps, hcap'⟩ := grow_spec h hm
    refine ⟨hwell, hmaps, ?_⟩
    have hload := h.load
    rw [hcap']
    change (s.count + 0) * 100 < _
    omega
  · refine ⟨h, hm, ?_⟩
    have := Nat.lt_of_not_le hfull
    have hdiv : (s.count + s.tombstones) * 100 / s.capacity < 71 := by omega
    exact (Nat.div_lt_iff_lt_mul (by omega)).mp hdiv

end Growth

/-! ## Insertion, removal and lookup -/

section Update

variable {s : BuiltinStore β} {m : List UInt8 → Option (Builtin β)}

/-- The invariant after a slot has got another entry. -/
theorem Wellformed.set_slot (h : s.Wellformed) {q : ℕ} {e : BuiltinEntry β}
    {rest : List (BuiltinEntry β)} {count tombstones : ℕ}
    (hunbroken : Slots.Unbroken (home s.capacity) (s.entries.set q (some e)))
    (hperm : (Slots.entries (s.entries.set q (some e))).Perm (e :: rest))
    (hrest : ∀ x ∈ rest, x ∈ s.entries.entries)
    (hhash : ∀ name b, e.occupied = some (name, b) → e.hash = fnv1aHash name)
    (hcount : count = ((e :: rest).filterMap (·.occupied)).length)
    (htombstones : tombstones = (e :: rest).countP tombstone)
    (hdistinct : (((e :: rest).filterMap (·.occupied)).map (·.1)).Nodup)
    (hload : (count + tombstones) * 100 < 71 * s.capacity + 100) :
    (⟨s.entries.set q (some e), count, tombstones⟩ : BuiltinStore β).Wellformed := by
  have hcap : (⟨s.entries.set q (some e), count, tombstones⟩ : BuiltinStore β).capacity =
      s.capacity := List.length_set
  exact
    { power := hcap ▸ h.power
      capacity_ge := hcap ▸ h.capacity_ge
      count_eq := hcount.trans (hperm.filterMap _).length_eq.symm
      tombstones_eq := htombstones.trans (hperm.countP_eq _).symm
      distinct := ((hperm.filterMap _).map _).nodup_iff.mpr hdistinct
      hashed := fun x hx => by
        rcases List.mem_cons.mp (hperm.mem_iff.mp hx) with rfl | hx
        · exact hhash
        · exact h.hashed x (hrest x hx)
      unbroken := hcap.symm ▸ hunbroken
      load := hcap.symm ▸ hload }

theorem filterMap_occupied (hash : UInt32) (p : List UInt8 × Builtin β)
    (rest : List (BuiltinEntry β)) :
    (⟨hash, some p⟩ :: rest).filterMap (·.occupied) = p :: rest.filterMap (·.occupied) :=
  List.filterMap_cons_some rfl

theorem filterMap_tombstone (hash : UInt32) (rest : List (BuiltinEntry β)) :
    (⟨hash, none⟩ :: rest).filterMap (·.occupied) = rest.filterMap (·.occupied) :=
  List.filterMap_cons_none rfl

theorem countP_occupied (hash : UInt32) (p : List UInt8 × Builtin β)
    (rest : List (BuiltinEntry β)) :
    (⟨hash, some p⟩ :: rest).countP tombstone = rest.countP tombstone :=
  List.countP_cons_of_neg (by simp [tombstone])

theorem countP_tombstone (hash : UInt32) (rest : List (BuiltinEntry β)) :
    (⟨hash, none⟩ :: rest).countP tombstone = rest.countP tombstone + 1 :=
  List.countP_cons_of_pos rfl

theorem put_spec (h : s.Wellformed) (hm : Maps s.live m)
    (hroom : (s.count + s.tombstones) * 100 < 71 * s.capacity) (name : List UInt8)
    (b : Builtin β) :
    (s.put name b).Wellformed ∧ Maps (s.put name b).live (Function.update m name (some b)) := by
  have hcount := h.count_eq
  have htombs := h.tombstones_eq
  have hdistinct := h.distinct
  unfold put
  dsimp only
  set q := findSlot s.entries name (fnv1aHash name) with hq
  rcases h.findSlot_cases name with ⟨old, hlook⟩ | ⟨hfree, hlt, hchain, hnew⟩
  · -- the builtin is replaced
    rw [hlook]
    obtain ⟨rest, hperm, hperm'⟩ :=
      Slots.entries_replace hlook ⟨fnv1aHash name, some (name, b)⟩
    have hlive : s.live.Perm ((name, old) :: rest.filterMap (·.occupied)) :=
      (hperm.filterMap _).trans (.of_eq (filterMap_occupied _ _ _))
    have hnodup := (hlive.map (·.1)).nodup_iff.mp hdistinct
    have hfresh := not_mem_of_nodup hnodup
    refine ⟨h.set_slot (h.unbroken.replace hlook rfl) hperm' (fun x hx => ?_) ?_ ?_ ?_ ?_ h.load, ?_⟩
    · exact hperm.mem_iff.mpr (List.mem_cons_of_mem _ hx)
    · rintro _ _ ⟨⟩
      rfl
    · rw [hcount, filterMap_occupied, hlive.length_eq, List.length_cons, List.length_cons]
    · rw [htombs, countP_occupied]
      exact (hperm.countP_eq _).trans (countP_occupied _ _ _)
    · rw [filterMap_occupied]
      exact hnodup
    · have hmaps := ((hm.perm hlive.symm).tail hfresh).cons (b := b) hfresh
      rw [Function.update_idem] at hmaps
      exact hmaps.perm ((hperm'.filterMap _).trans (.of_eq (filterMap_occupied _ _ _)))
  · have hunbroken : Slots.Unbroken (home s.capacity)
        (s.entries.set q (some ⟨fnv1aHash name, some (name, b)⟩)) := h.unbroken.put hlt hchain
    have hnodup : ((((name, b) :: s.live).map (·.1))).Nodup := by
      rw [List.map_cons, List.nodup_cons]
      refine ⟨fun hmem => ?_, hdistinct⟩
      obtain ⟨⟨_, b'⟩, hp, rfl⟩ := List.mem_map.mp hmem
      exact hnew b' hp
    cases hlook : s.entries.look q with
    | none =>
      have hperm := Slots.entries_set_some hlt hlook ⟨fnv1aHash name, some (name, b)⟩
      refine ⟨h.set_slot hunbroken hperm (fun x hx => hx) ?_ ?_ ?_ ?_ ?_, ?_⟩
      · rintro _ _ ⟨⟩
        rfl
      · rw [filterMap_occupied, List.length_cons, hcount]
        rfl
      · rw [countP_occupied, htombs]
        rfl
      · rw [filterMap_occupied]
        exact hnodup
      · omega
      · exact (hm.cons hnew).perm ((hperm.filterMap _).trans (.of_eq (filterMap_occupied _ _ _)))
    | some e =>
      obtain ⟨hash, occupied⟩ := e
      obtain rfl : occupied = none := by simpa [← hq, hlook] using hfree
      obtain ⟨rest, hperm, hperm'⟩ :=
        Slots.entries_replace hlook ⟨fnv1aHash name, some (name, b)⟩
      have hlive : s.live.Perm (rest.filterMap (·.occupied)) :=
        (hperm.filterMap _).trans (.of_eq (filterMap_tombstone _ _))
      have hdead : s.dead = rest.countP tombstone + 1 :=
        (hperm.countP_eq _).trans (countP_tombstone _ _)
      refine ⟨h.set_slot hunbroken hperm' (fun x hx => ?_) ?_ ?_ ?_ ?_ ?_, ?_⟩
      · exact hperm.mem_iff.mpr (List.mem_cons_of_mem _ hx)
      · rintro _ _ ⟨⟩
        rfl
      · rw [filterMap_occupied, List.length_cons, hcount, hlive.length_eq]
      · rw [countP_occupied]
        omega
      · rw [filterMap_occupied]
        exact ((hlive.cons (name, b)).map _).nodup_iff.mp hnodup
      · omega
      · refine (hm.cons hnew).perm ?_
        exact (hperm'.filterMap _).trans
          ((List.Perm.of_eq (filterMap_occupied _ _ _)).trans (hlive.symm.cons _))

theorem set_spec (h : s.Wellformed) (hm : Maps s.live m) (name : List UInt8) (fn : β)
    (category : Exec.BuiltinCategory) :
    (s.set (some name) (some fn) category).2.Wellformed ∧
      Maps (s.set (some name) (some fn) category).2.live
        (Function.update m name (some ⟨fn, category⟩)) := by
  obtain ⟨hwell, hmaps, hroom⟩ := ensureCapacity_spec h hm
  exact put_spec hwell hmaps hroom name ⟨fn, category⟩

theorem remove_spec (h : s.Wellformed) (hm : Maps s.live m) (name : List UInt8) :
    (s.remove (some name)).2.Wellformed ∧
      Maps (s.remove (some name)).2.live (Function.update m name none) := by
  have hcount := h.count_eq
  have htombs := h.tombstones_eq
  have hload := h.load
  unfold remove
  dsimp only
  set q := findSlot s.entries name (fnv1aHash name) with hq
  rcases h.findSlot_cases name with ⟨old, hlook⟩ | ⟨hfree, -, -, hnew⟩
  · rw [hlook]
    obtain ⟨rest, hperm, hperm'⟩ := Slots.entries_replace hlook ⟨fnv1aHash name, none⟩
    have hlive : s.live.Perm ((name, old) :: rest.filterMap (·.occupied)) :=
      (hperm.filterMap _).trans (.of_eq (filterMap_occupied _ _ _))
    have hdead : s.dead = rest.countP tombstone :=
      (hperm.countP_eq _).trans (countP_occupied _ _ _)
    have hlen : s.live.length = (rest.filterMap (·.occupied)).length + 1 := hlive.length_eq
    have hnodup := (hlive.map (·.1)).nodup_iff.mp h.distinct
    refine ⟨h.set_slot (h.unbroken.replace hlook rfl) hperm' (fun x hx => ?_) ?_ ?_ ?_ ?_ ?_, ?_⟩
    · exact hperm.mem_iff.mpr (List.mem_cons_of_mem _ hx)
    · rintro _ _ ⟨⟩
    · rw [filterMap_tombstone]
      omega
    · rw [countP_tombstone]
      omega
    · rw [filterMap_tombstone]
      exact hnodup.of_cons
    · omega
    · refine ((hm.perm hlive.symm).tail (not_mem_of_nodup hnodup)).perm ?_
      exact (hperm'.filterMap _).trans (.of_eq (filterMap_tombstone _ _))
  · have hnone : m name = none := by
      cases hname : m name with
      | none => rfl
      | some b => exact absurd ((hm name b).mp hname) (hnew b)
    rw [← hnone, Function.update_eq_self]
    cases hlook : s.entries.look q with
    | none => exact ⟨h, hm⟩
    | some e =>
      obtain ⟨hash, occupied⟩ := e
      obtain rfl : occupied = none := by simpa [← hq, hlook] using hfree
      exact ⟨h, hm⟩

theorem clear_spec (h : s.Wellformed) :
    s.clear.Wellformed ∧ Maps s.clear.live fun _ => none := by
  have hempty : Slots.entries (List.replicate s.capacity (none : Option (BuiltinEntry β))) = [] :=
    Slots.entries_replicate _
  have hlive : s.clear.live = [] := by
    unfold live clear
    rw [hempty]
    rfl
  have hcap : s.clear.capacity = s.capacity := List.length_replicate
  refine ⟨?_, ?_⟩
  · exact
      { power := hcap ▸ h.power
        capacity_ge := hcap ▸ h.capacity_ge
        count_eq := by rw [hlive]; rfl
        tombstones_eq := by unfold dead clear; rw [hempty]; rfl
        distinct := by rw [hlive]; exact List.nodup_nil
        hashed := fun e he => by
          unfold clear at he
          rw [hempty] at he
          cases he
        unbroken := Slots.Unbroken.replicate _ _
        load := by
          have := h.capacity_ge
          rw [hcap]
          change (0 + 0) * 100 < _
          omega }
  · rw [hlive]
    intro name b
    simp

theorem lookup_eq (h : s.Wellformed) (hm : Maps s.live m) (name : List UInt8) :
    s.lookup name = m name := by
  unfold lookup
  rcases h.findSlot_cases name with ⟨b, hlook⟩ | ⟨hfree, -, -, hnew⟩
  · rw [hlook]
    exact ((hm name b).mpr (mem_live.mpr ⟨_, _, hlook⟩)).symm
  · cases hname : m name with
    | some b => exact absurd ((hm name b).mp hname) (hnew b)
    | none =>
      cases hlook : s.entries.look (findSlot s.entries name (fnv1aHash name)) with
      | none => rfl
      | some e =>
        rw [hlook] at hfree
        rw [Option.bind_some] at hfree ⊢
        rw [hfree]
        rfl

end Update

/-! ## Runs -/

/-- The calls that change a store. A pointer that is NULL is none. -/
inductive Call (β : Type) where
  | set (name : Option (List UInt8)) (fn : Option β) (category : Exec.BuiltinCategory)
  | remove (name : Option (List UInt8))
  | clear

/-- The store after a call. -/
def call (s : BuiltinStore β) : Call β → BuiltinStore β
  | .set name fn category => (s.set name fn category).2
  | .remove name => (s.remove name).2
  | .clear => s.clear

/-- What a call makes of the finite map that the calls define. -/
def Call.meaning (m : List UInt8 → Option (Builtin β)) :
    Call β → List UInt8 → Option (Builtin β)
  | .set (some name) (some fn) category => Function.update m name (some ⟨fn, category⟩)
  | .remove (some name) => Function.update m name none
  | .clear => fun _ => none
  | _ => m

section Runs

variable {s : BuiltinStore β} {m : List UInt8 → Option (Builtin β)}

theorem call_spec (h : s.Wellformed) (hm : Maps s.live m) (c : Call β) :
    (s.call c).Wellformed ∧ Maps (s.call c).live (c.meaning m) := by
  match c with
  | .set (some name) (some fn) category => exact set_spec h hm name fn category
  | .set none _ _ => exact ⟨h, hm⟩
  | .set (some _) none _ => exact ⟨h, hm⟩
  | .remove (some name) => exact remove_spec h hm name
  | .remove none => exact ⟨h, hm⟩
  | .clear => exact clear_spec h

theorem calls_spec (h : s.Wellformed) (hm : Maps s.live m) (calls : List (Call β)) :
    (calls.foldl call s).Wellformed ∧ Maps (calls.foldl call s).live (calls.foldl Call.meaning m) := by
  induction calls generalizing s m with
  | nil => exact ⟨h, hm⟩
  | cons c calls ih =>
    obtain ⟨hwell, hmaps⟩ := call_spec h hm c
    exact ih hwell hmaps

end Runs

/-- After every sequence of calls there is an empty slot, the names are distinct, both counters are
right, no builtin is cut off from the slot of its hash, and the store answers like the finite map
that the calls define. -/
theorem builtinStore_afterCalls (calls : List (Call β)) :
    let s := calls.foldl call (create : BuiltinStore β)
    let m := calls.foldl Call.meaning fun _ => none
    (∃ i < s.capacity, s.entries.look i = none) ∧ (s.live.map (·.1)).Nodup ∧
      s.count = s.live.length ∧ s.tombstones = s.dead ∧
      (∀ i hash name b, s.entries.look i = some ⟨hash, some (name, b)⟩ →
        ∀ k < s.capacity, Slots.Between (slot s.capacity (fnv1aHash name)) i k →
          s.entries.look k ≠ none) ∧
      ∀ name, s.has name = (m name).isSome ∧ s.get name = (m name).map (·.fn) ∧
        s.lookup name = m name := by
  obtain ⟨h, hm⟩ := calls_spec create_wellformed create_maps calls
  refine ⟨h.exists_empty, h.distinct, h.count_eq, h.tombstones_eq, ?_, fun name => ?_⟩
  · intro i hash name b hlook k hk hbetween
    have hhash : hash = fnv1aHash name :=
      h.hashed _ (Slots.mem_entries.mpr ⟨i, hlook⟩) name b rfl
    exact h.unbroken i _ hlook k hk (by rw [home, hhash]; exact hbetween)
  · have hlookup := lookup_eq h hm name
    exact ⟨by rw [has, hlookup], by rw [get, hlookup], hlookup⟩

end BuiltinStore

end Migash
