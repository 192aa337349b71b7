import Migash.Library.Forward
import Migash.Library.Probing
import Mathlib.Data.List.Nodup

/-! # Hash tables of strings

What `variable_map.c` and `func_map.c` have in common: an array of slots that is
searched by linear probing and doubled when it is three quarters full. They
differ in what they do behind an entry that is taken out.
-/

namespace Migash

open Library

/-- `string_hash`: FNV-1a over the bytes. -/
def stringHash (str : String) : UInt32 :=
  let h := str.toUTF8.data.toList.foldl (fun h c => (h ^^^ c.toUInt32) * 0x01000193) 0x811c9dc5
  if h = 0 then 1 else h

/-- `find_slot`. -/
def findSlot (key : String) (capacity : ℕ) : ℕ := (stringHash key).toNat % capacity

/-- `variable_map_t` and `func_map_t`: the capacity is the number of slots. -/
structure HashTable (β : Type) where
  slots : Slots (String × β)
  size : ℕ

/-- A loop that has not ended after it has seen every slot never ends. -/
def ends {α : Type} : Option α → Except Fault α
  | some a => .ok a
  | none => .error .fuel

namespace HashTable

variable {β : Type}

/-- `map->capacity`. -/
def capacity (t : HashTable β) : ℕ := t.slots.length

/-- The home slot of an entry. -/
def home (capacity : ℕ) (entry : String × β) : ℕ := findSlot entry.1 capacity

/-- `variable_map_create` and `func_map_create`. -/
def create : HashTable β := ⟨List.replicate 16 none, 0⟩

/-- `variable_map_resize` and `func_map_resize`. -/
def resize (t : HashTable β) (newCapacity : ℕ) : Except Fault (HashTable β) := do
  return { t with slots := ← ends (t.slots.rehash (home newCapacity) newCapacity) }

/-- The test for a resize before an insertion. -/
def grow (t : HashTable β) : Except Fault (HashTable β) :=
  if t.capacity * 3 / 4 ≤ t.size then t.resize (t.capacity * 2) else .ok t

/-- The loop of an insertion: the slot of `key`, or the first empty one. -/
def slotFor (t : HashTable β) (key : String) : Except Fault ℕ :=
  ends (t.slots.probe (fun slot => slot.all (·.1 = key)) t.capacity (findSlot key t.capacity))

/-- `set_entry` in an empty slot. -/
def setEntry (t : HashTable β) (pos : ℕ) (key : String) (mapped : β) : HashTable β where
  slots := t.slots.set pos (some (key, mapped))
  size := t.size + 1

/-- `variable_map_insert`: the position and whether the key is new. -/
def insert (t : HashTable β) (key : String) (mapped : β) :
    Except Fault (HashTable β × ℕ × Bool) := do
  let t ← t.grow
  let pos ← t.slotFor key
  match t.slots.look pos with
  | some _ => return (t, pos, false)
  | none => return (t.setEntry pos key mapped, pos, true)

/-- `variable_map_insert_or_assign` and `func_map_insert_or_assign_move`: the position. -/
def insertOrAssign (t : HashTable β) (key : String) (mapped : β) :
    Except Fault (HashTable β × ℕ) := do
  let t ← t.grow
  let pos ← t.slotFor key
  match t.slots.look pos with
  | some (own, _) => return ({ t with slots := t.slots.set pos (some (own, mapped)) }, pos)
  | none => return (t.setEntry pos key mapped, pos)

/-- The loop of a lookup: the position of a key and its entry. -/
def lookup (t : HashTable β) (key : String) : Option (ℕ × String × β) :=
  t.slots.search (·.1 = key) t.capacity (findSlot key t.capacity)

/-- `variable_map_find` and `func_map_find`; no position is -1. -/
def find (t : HashTable β) (key : String) : Option ℕ := (t.lookup key).map (·.1)

/-- `variable_map_at` and `func_map_at`. -/
def at? (t : HashTable β) (key : String) : Option β := (t.lookup key).map (·.2.2)

/-- `variable_map_contains` and `func_map_contains`. -/
def contains (t : HashTable β) (key : String) : Bool := (t.find key).isSome

/-- `variable_map_clear`. -/
def clear (t : HashTable β) : HashTable β := ⟨List.replicate t.capacity none, 0⟩

/-- An entry is destroyed or handed out, and its slot is empty. -/
def vacate (t : HashTable β) (pos : ℕ) : HashTable β where
  slots := t.slots.set pos none
  size := t.size - 1

/-! ## The invariant -/

/-- The size is the number of filled slots, no key is there twice, no chain is broken and the
table is at most three quarters full. -/
structure Wellformed (t : HashTable β) : Prop where
  capacity_pos : 0 < t.capacity
  size_eq : t.size = t.slots.entries.length
  distinct : (t.slots.entries.map (·.1)).Nodup
  unbroken : t.slots.Unbroken (home t.capacity)
  load : t.size ≤ t.capacity * 3 / 4

/-- The table holds what `m` maps its keys to. -/
def Represents (t : HashTable β) (m : String → Option β) : Prop :=
  ∀ key mapped, m key = some mapped ↔ (key, mapped) ∈ t.slots.entries

theorem findSlot_lt (key : String) {capacity : ℕ} (h : 0 < capacity) :
    findSlot key capacity < capacity := Nat.mod_lt _ h

theorem home_lt {capacity : ℕ} (h : 0 < capacity) (entry : String × β) :
    home capacity entry < capacity := findSlot_lt entry.1 h

theorem create_wellformed : (create : HashTable β).Wellformed where
  capacity_pos := by simp [create, capacity]
  size_eq := by rw [create, Slots.entries_replicate]; rfl
  distinct := by rw [create, Slots.entries_replicate]; exact List.nodup_nil
  unbroken := Slots.Unbroken.replicate _ 16
  load := Nat.zero_le _

theorem create_represents : (create : HashTable β).Represents fun _ => none := by
  intro key mapped
  rw [create, Slots.entries_replicate]
  simp

/-- A key is bound to one value only. -/
theorem Wellformed.mapped_eq {t : HashTable β} (h : t.Wellformed) {key : String} {v w : β}
    (hv : (key, v) ∈ t.slots.entries) (hw : (key, w) ∈ t.slots.entries) : v = w := by
  have := List.inj_on_of_nodup_map h.distinct hv hw rfl
  exact congrArg Prod.snd this

/-- Every table stands for a map. -/
theorem Wellformed.exists_represents {t : HashTable β} (h : t.Wellformed) :
    ∃ m, t.Represents m := by
  classical
  refine ⟨fun key => if hkey : ∃ v, (key, v) ∈ t.slots.entries then some hkey.choose else none,
    fun key mapped => ?_⟩
  by_cases hkey : ∃ v, (key, v) ∈ t.slots.entries
  · simp only [hkey, dif_pos, Option.some.injEq]
    constructor
    · rintro rfl
      exact hkey.choose_spec
    · exact fun hmem => h.mapped_eq hkey.choose_spec hmem
  · simp only [hkey, dif_neg, not_false_eq_true]
    constructor
    · rintro ⟨⟩
    · exact fun hmem => absurd ⟨mapped, hmem⟩ hkey

/-- The keys in their slots. -/
def keySlots (slots : Slots (String × β)) : List (Option String) :=
  slots.map (Option.map Prod.fst)

theorem keys_eq (slots : Slots (String × β)) :
    slots.entries.map Prod.fst = (keySlots slots).reduceOption := by
  rw [keySlots, Slots.entries, List.reduceOption_map]

theorem look_keySlots (slots : Slots (String × β)) (i : ℕ) :
    Slots.look (keySlots slots) i = (slots.look i).map Prod.fst := by
  unfold Slots.look keySlots
  rw [List.getD_eq_getElem?_getD, List.getD_eq_getElem?_getD, List.getElem?_map]
  cases slots[i]? <;> rfl

/-- The invariant is about the keys in their slots only. -/
theorem Wellformed.of_keySlots {t : HashTable β} (h : t.Wellformed) {slots : Slots (String × β)}
    (hkeys : keySlots slots = keySlots t.slots) :
    ({ t with slots } : HashTable β).Wellformed := by
  have hlen : slots.length = t.slots.length := by
    have := congrArg List.length hkeys
    simpa [keySlots] using this
  have hcap : ({ t with slots } : HashTable β).capacity = t.capacity := hlen
  have hmap : slots.entries.map Prod.fst = t.slots.entries.map Prod.fst := by
    rw [keys_eq, keys_eq, hkeys]
  have hlook (i : ℕ) : (slots.look i).map Prod.fst = (t.slots.look i).map Prod.fst := by
    rw [← look_keySlots, ← look_keySlots, hkeys]
  refine
    { capacity_pos := hcap ▸ h.capacity_pos
      size_eq := ?_
      distinct := hmap ▸ h.distinct
      unbroken := ?_
      load := hcap ▸ h.load }
  · have := congrArg List.length hmap
    rw [List.length_map, List.length_map] at this
    exact h.size_eq.trans this.symm
  · rw [hcap]
    intro j x hx k hk hbetween hfree
    have hj := hlook j
    rw [hx, Option.map_some] at hj
    obtain ⟨y, hy, hxy⟩ := Option.map_eq_some_iff.mp hj.symm
    have hk' := hlook k
    rw [hfree, Option.map_none, eq_comm, Option.map_eq_none_iff] at hk'
    refine h.unbroken j y hy k (hlen ▸ hk) ?_ hk'
    rw [home, hxy]
    exact hbetween

/-- There is a free slot. -/
theorem Wellformed.entries_lt {t : HashTable β} (h : t.Wellformed) :
    t.slots.entries.length < t.slots.length := by
  have hload := h.load
  have hsize := h.size_eq
  have hpos : 0 < t.slots.length := h.capacity_pos
  have hcap : t.capacity = t.slots.length := rfl
  omega

/-! ## Lookups -/

section Lookup

variable {t : HashTable β} {m : String → Option β} (h : t.Wellformed) (hm : t.Represents m)
include h hm

/-- A lookup finds exactly the keys of the map, at their slots and with their values. -/
theorem lookup_eq (key : String) :
    (∃ pos mapped, t.lookup key = some (pos, key, mapped) ∧
      t.slots.look pos = some (key, mapped) ∧ m key = some mapped) ∨
    t.lookup key = none ∧ m key = none := by
  cases hl : t.lookup key with
  | none =>
    refine .inr ⟨rfl, ?_⟩
    cases hkey : m key with
    | none => rfl
    | some mapped =>
      obtain ⟨pos, hpos⟩ := Slots.mem_entries.mp ((hm key mapped).mp hkey)
      have hstart : findSlot key t.capacity < t.slots.length := findSlot_lt key h.capacity_pos
      refine absurd hl (Slots.search_ne_none hstart hpos (by simp)
        (fun k hk hb => h.unbroken pos _ hpos k hk hb) ?_)
      exact Slots.steps_lt hstart (Slots.lt_of_look hpos)
  | some found =>
    obtain ⟨pos, key', mapped⟩ := found
    obtain ⟨hlook, hkey⟩ := Slots.search_some hl
    obtain rfl : key' = key := by simpa using hkey
    exact .inl ⟨pos, mapped, rfl, hlook,
      (hm key' mapped).mpr (Slots.mem_entries.mpr ⟨pos, hlook⟩)⟩

theorem at?_eq (key : String) : t.at? key = m key := by
  rcases lookup_eq h hm key with ⟨pos, mapped, hl, -, hkey⟩ | ⟨hl, hkey⟩
  · rw [at?, hl, hkey]
    rfl
  · rw [at?, hl, hkey]
    rfl

theorem contains_eq (key : String) : t.contains key = (m key).isSome := by
  rcases lookup_eq h hm key with ⟨pos, mapped, hl, -, hkey⟩ | ⟨hl, hkey⟩
  · rw [contains, find, hl, hkey]
    rfl
  · rw [contains, find, hl, hkey]
    rfl

/-- What `find` returns is the slot of the key, or nothing if the map has no such key. -/
theorem find_spec (key : String) :
    (∃ pos mapped, t.find key = some pos ∧ t.slots.look pos = some (key, mapped) ∧
      m key = some mapped) ∨ t.find key = none ∧ m key = none := by
  rcases lookup_eq h hm key with ⟨pos, mapped, hl, hlook, hkey⟩ | ⟨hl, hkey⟩
  · exact .inl ⟨pos, mapped, by rw [find, hl]; rfl, hlook, hkey⟩
  · exact .inr ⟨by rw [find, hl]; rfl, hkey⟩

/-- A key stands in one slot only. -/
theorem find_iff (key : String) (pos : ℕ) :
    t.find key = some pos ↔
      ∃ mapped, m key = some mapped ∧ t.slots.look pos = some (key, mapped) := by
  rcases find_spec h hm key with ⟨own, mapped, hfind, hlook, hkey⟩ | ⟨hfind, hkey⟩
  · rw [hfind, Option.some.injEq]
    constructor
    · rintro rfl
      exact ⟨mapped, hkey, hlook⟩
    · rintro ⟨mapped', hkey', hlook'⟩
      rw [hkey, Option.some.injEq] at hkey'
      subst hkey'
      exact Slots.look_inj (h.distinct.of_map _) hlook hlook'
  · rw [hfind]
    constructor
    · rintro ⟨⟩
    · rintro ⟨mapped', hkey', -⟩
      rw [hkey] at hkey'
      cases hkey'

end Lookup

/-! ## Insertions -/

section Insert

variable {t : HashTable β} {m : String → Option β}

theorem Represents.perm {t' : HashTable β} (h : t.Represents m)
    (hperm : t'.slots.entries.Perm t.slots.entries) : t'.Represents m := by
  intro key mapped
  rw [h key mapped, hperm.mem_iff]

/-- Before an insertion the table has room for one more entry. -/
theorem grow_spec (h : t.Wellformed) (hm : t.Represents m) :
    ∃ t', t.grow = .ok t' ∧ t'.Wellformed ∧ t'.Represents m ∧
      t'.size < t'.capacity * 3 / 4 := by
  unfold grow
  split_ifs with hfull
  · have hpos := h.capacity_pos
    have hload := h.load
    have hlt := h.entries_lt
    have hcap : t.capacity = t.slots.length := rfl
    obtain ⟨slots, hrehash, hlen, hperm, hunbroken⟩ :=
      Slots.rehash_spec (s := t.slots) (n := t.capacity * 2)
        (home_lt (by omega)) (by omega)
    refine ⟨{ t with slots }, by simp [resize, hrehash, ends, bind, Except.bind, pure, Except.pure],
      ?_, hm.perm hperm, ?_⟩
    · have hcap' : ({ t with slots } : HashTable β).capacity = t.capacity * 2 := hlen
      exact
        { capacity_pos := by omega
          size_eq := h.size_eq.trans hperm.length_eq.symm
          distinct := (hperm.map _).nodup_iff.mpr h.distinct
          unbroken := by rw [hcap']; exact hunbroken
          load := by
            change t.size ≤ _
            omega }
    · have hcap' : ({ t with slots } : HashTable β).capacity = t.capacity * 2 := hlen
      change t.size < _
      omega
  · exact ⟨t, rfl, h, hm, by omega⟩

/-- The slot that an insertion comes to: that of the key, or an empty one at the end of its
chain. -/
theorem slotFor_spec (h : t.Wellformed) (key : String) :
    ∃ pos < t.slots.length, t.slotFor key = .ok pos ∧
      ((∃ mapped, t.slots.look pos = some (key, mapped)) ∨
        t.slots.look pos = none ∧
          ∀ k < t.slots.length, Slots.Between (findSlot key t.capacity) pos k →
            ∃ entry, t.slots.look k = some entry ∧ entry.1 ≠ key) := by
  obtain ⟨z, hz, hfree⟩ := Slots.exists_free h.entries_lt
  have hstart : findSlot key t.capacity < t.slots.length := findSlot_lt key h.capacity_pos
  obtain ⟨pos, hpos, hprobe, hstop, hbefore⟩ := Slots.exists_probe
    (fun slot => slot.all fun e => decide (e.1 = key)) hstart hz (by rw [hfree]; rfl)
    (Slots.steps_lt hstart hz)
  refine ⟨pos, hpos, congrArg ends hprobe, ?_⟩
  cases hlook : t.slots.look pos with
  | some entry =>
    obtain ⟨key', mapped⟩ := entry
    rw [hlook] at hstop
    obtain rfl : key' = key := by simpa using hstop
    exact .inl ⟨mapped, rfl⟩
  | none =>
    refine .inr ⟨rfl, fun k hk hb => ?_⟩
    have hk' := hbefore k hk hb
    cases hentry : t.slots.look k with
    | none => simp [hentry] at hk'
    | some entry => exact ⟨entry, rfl, by simpa [hentry] using hk'⟩

/-- No entry has the key of an insertion that came to an empty slot. -/
theorem not_mem_of_slotFor (h : t.Wellformed) {key : String} {pos : ℕ} (hpos : pos < t.slots.length)
    (hlook : t.slots.look pos = none)
    (hbefore : ∀ k < t.slots.length, Slots.Between (findSlot key t.capacity) pos k →
      ∃ entry, t.slots.look k = some entry ∧ entry.1 ≠ key) (mapped : β) :
    (key, mapped) ∉ t.slots.entries := by
  intro hmem
  obtain ⟨j, hj⟩ := Slots.mem_entries.mp hmem
  by_cases hb : Slots.Between (findSlot key t.capacity) pos j
  · obtain ⟨entry, hentry, hne⟩ := hbefore j (Slots.lt_of_look hj) hb
    rw [hj, Option.some.injEq] at hentry
    exact hne (by rw [← hentry])
  · have hne : j ≠ pos := by
      rintro rfl
      rw [hlook] at hj
      cases hj
    refine h.unbroken j _ hj pos hpos ?_ hlook
    by_contra hb'
    exact hne (Slots.eq_of_not_between hb' hb)

/-- A new entry at the end of its chain. -/
theorem setEntry_spec (h : t.Wellformed) (hm : t.Represents m)
    (hroom : t.size < t.capacity * 3 / 4) {key : String} {pos : ℕ} (hpos : pos < t.slots.length)
    (hlook : t.slots.look pos = none)
    (hbefore : ∀ k < t.slots.length, Slots.Between (findSlot key t.capacity) pos k →
      ∃ entry, t.slots.look k = some entry ∧ entry.1 ≠ key) (mapped : β) :
    (t.setEntry pos key mapped).Wellformed ∧
      (t.setEntry pos key mapped).Represents (Function.update m key (some mapped)) ∧
      m key = none := by
  have hnew := not_mem_of_slotFor h hpos hlook hbefore
  have hperm := Slots.entries_set_some hpos hlook (key, mapped)
  have hcap : (t.setEntry pos key mapped).capacity = t.capacity := List.length_set
  refine ⟨?_, ?_, ?_⟩
  · refine
      { capacity_pos := hcap ▸ h.capacity_pos
        size_eq := ?_
        distinct := ?_
        unbroken := ?_
        load := ?_ }
    · rw [show (t.setEntry pos key mapped).size = t.size + 1 from rfl, h.size_eq]
      exact hperm.length_eq.symm
    · refine (hperm.map _).nodup_iff.mpr (List.nodup_cons.mpr ⟨fun hmem => ?_, h.distinct⟩)
      obtain ⟨⟨key', mapped'⟩, hentry, rfl⟩ := List.mem_map.mp hmem
      exact hnew mapped' hentry
    · rw [hcap]
      refine h.unbroken.put hpos fun k hk hb => ?_
      obtain ⟨entry, hentry, -⟩ := hbefore k hk hb
      rw [hentry]
      exact Option.some_ne_none entry
    · rw [hcap]
      exact hroom
  · intro key' mapped'
    rw [show (t.setEntry pos key mapped).slots = t.slots.set pos (some (key, mapped)) from rfl,
      hperm.mem_iff, List.mem_cons, Prod.mk.injEq]
    by_cases hkey : key' = key
    · subst hkey
      rw [Function.update_self, Option.some.injEq]
      constructor
      · rintro rfl
        exact .inl ⟨rfl, rfl⟩
      · rintro (⟨-, rfl⟩ | hmem)
        · rfl
        · exact absurd hmem (hnew mapped')
    · rw [Function.update_of_ne hkey, hm key' mapped']
      exact ⟨.inr, fun hor => hor.resolve_left fun heq => hkey heq.1⟩
  · cases hkey : m key with
    | none => rfl
    | some mapped' => exact absurd ((hm key mapped').mp hkey) (hnew mapped')

/-- The value of a key is replaced in its slot. -/
theorem assign_spec (h : t.Wellformed) (hm : t.Represents m) {key : String} {pos : ℕ} {old : β}
    (hlook : t.slots.look pos = some (key, old)) (mapped : β) :
    ({ t with slots := t.slots.set pos (some (key, mapped)) } : HashTable β).Wellformed ∧
      ({ t with slots := t.slots.set pos (some (key, mapped)) } : HashTable β).Represents
        (Function.update m key (some mapped)) := by
  have hpos : pos < t.slots.length := Slots.lt_of_look hlook
  have hold := Slots.entries_set_none hlook
  have hnew := Slots.entries_set_some (s := t.slots.set pos none) (i := pos) (by simpa using hpos)
    (by rw [Slots.look_set _ hpos, if_pos rfl]) (key, mapped)
  rw [List.set_set] at hnew
  have hkeys : ((Slots.entries (t.slots.set pos (some (key, mapped)))).map (·.1)).Perm
      (t.slots.entries.map (·.1)) := (hnew.map Prod.fst).trans (hold.map Prod.fst)
  have hcap : ({ t with slots := t.slots.set pos (some (key, mapped)) } : HashTable β).capacity =
      t.capacity := List.length_set
  have hdistinct : (key :: (Slots.entries (t.slots.set pos none)).map (·.1)).Nodup :=
    (hold.map Prod.fst).nodup_iff.mpr h.distinct
  have hother (mapped' : β) : (key, mapped') ∉ Slots.entries (t.slots.set pos none) := fun hmem =>
    (List.nodup_cons.mp hdistinct).1 (List.mem_map.mpr ⟨_, hmem, rfl⟩)
  refine ⟨?_, fun key' mapped' => ?_⟩
  · refine
      { capacity_pos := hcap ▸ h.capacity_pos
        size_eq := ?_
        distinct := hkeys.nodup_iff.mpr h.distinct
        unbroken := ?_
        load := hcap ▸ h.load }
    · have := hkeys.length_eq
      rw [List.length_map, List.length_map] at this
      exact h.size_eq.trans this.symm
    · rw [hcap]
      exact h.unbroken.put hpos fun k hk hb => h.unbroken pos _ hlook k hk hb
  · rw [hnew.mem_iff, List.mem_cons, Prod.mk.injEq]
    by_cases hkey : key' = key
    · subst hkey
      rw [Function.update_self, Option.some.injEq]
      constructor
      · rintro rfl
        exact .inl ⟨rfl, rfl⟩
      · rintro (⟨-, rfl⟩ | hmem)
        · rfl
        · exact absurd hmem (hother mapped')
    · rw [Function.update_of_ne hkey, hm key' mapped', ← hold.mem_iff, List.mem_cons,
        Prod.mk.injEq]
      constructor
      · rintro (heq | hmem)
        · exact absurd heq.1 hkey
        · exact .inr hmem
      · rintro (heq | hmem)
        · exact absurd heq.1 hkey
        · exact .inr hmem

/-- An insertion ends; it changes the map only where the key is new. -/
theorem insert_spec (h : t.Wellformed) (hm : t.Represents m) (key : String) (mapped : β) :
    ∃ t' pos, t.insert key mapped = .ok (t', pos, (m key).isNone) ∧ t'.Wellformed ∧
      t'.Represents (if (m key).isNone then Function.update m key (some mapped) else m) := by
  obtain ⟨t', hgrow, h', hm', hroom⟩ := grow_spec h hm
  obtain ⟨pos, hpos, hslot, hcases⟩ := slotFor_spec h' key
  rcases hcases with ⟨old, hlook⟩ | ⟨hlook, hbefore⟩
  · have hkey : m key = some old := (hm' key old).mpr (Slots.mem_entries.mpr ⟨pos, hlook⟩)
    refine ⟨t', pos, ?_, h', by simpa [hkey] using hm'⟩
    simp [insert, hgrow, hslot, hlook, hkey, bind, Except.bind, pure, Except.pure]
  · obtain ⟨hwell, hrep, hkey⟩ := setEntry_spec h' hm' hroom hpos hlook hbefore mapped
    refine ⟨t'.setEntry pos key mapped, pos, ?_, hwell, by simpa [hkey] using hrep⟩
    simp [insert, hgrow, hslot, hlook, hkey, bind, Except.bind, pure, Except.pure]

/-- An assignment ends and binds its key. -/
theorem insertOrAssign_spec (h : t.Wellformed) (hm : t.Represents m) (key : String) (mapped : β) :
    ∃ t' pos, t.insertOrAssign key mapped = .ok (t', pos) ∧ t'.Wellformed ∧
      t'.Represents (Function.update m key (some mapped)) := by
  obtain ⟨t', hgrow, h', hm', hroom⟩ := grow_spec h hm
  obtain ⟨pos, hpos, hslot, hcases⟩ := slotFor_spec h' key
  rcases hcases with ⟨old, hlook⟩ | ⟨hlook, hbefore⟩
  · obtain ⟨hwell, hrep⟩ := assign_spec h' hm' hlook mapped
    refine ⟨_, pos, ?_, hwell, hrep⟩
    simp [insertOrAssign, hgrow, hslot, hlook, bind, Except.bind, pure, Except.pure]
  · obtain ⟨hwell, hrep, -⟩ := setEntry_spec h' hm' hroom hpos hlook hbefore mapped
    refine ⟨t'.setEntry pos key mapped, pos, ?_, hwell, hrep⟩
    simp [insertOrAssign, hgrow, hslot, hlook, bind, Except.bind, pure, Except.pure]

end Insert

/-! ## Removals -/

section Remove

variable {t : HashTable β} {m : String → Option β}

/-- A removal that takes one entry out and leaves whole chains behind. -/
theorem removed_spec (h : t.Wellformed) (hm : t.Represents m) {key : String} {mapped : β}
    {slots : Slots (String × β)} (hlen : slots.length = t.slots.length)
    (hperm : ((key, mapped) :: slots.entries).Perm t.slots.entries)
    (hunbroken : slots.Unbroken (home t.capacity)) :
    (⟨slots, t.size - 1⟩ : HashTable β).Wellformed ∧
      (⟨slots, t.size - 1⟩ : HashTable β).Represents (Function.update m key none) := by
  have hcap : (⟨slots, t.size - 1⟩ : HashTable β).capacity = t.capacity := hlen
  have hcount := hperm.length_eq
  rw [List.length_cons] at hcount
  have hdistinct : (key :: slots.entries.map Prod.fst).Nodup :=
    (hperm.map Prod.fst).nodup_iff.mpr h.distinct
  obtain ⟨hnew, hrest⟩ := List.nodup_cons.mp hdistinct
  refine ⟨?_, fun key' mapped' => ?_⟩
  · have hsize := h.size_eq
    have hload := h.load
    exact
      { capacity_pos := hcap ▸ h.capacity_pos
        size_eq := by
          change t.size - 1 = slots.entries.length
          omega
        distinct := hrest
        unbroken := hcap ▸ hunbroken
        load := by
          rw [hcap]
          change t.size - 1 ≤ _
          omega }
  · by_cases hkey : key' = key
    · subst hkey
      rw [Function.update_self]
      constructor
      · rintro ⟨⟩
      · intro hmem
        exact absurd (List.mem_map.mpr ⟨_, hmem, rfl⟩) hnew
    · rw [Function.update_of_ne hkey, hm key' mapped', ← hperm.mem_iff, List.mem_cons,
        Prod.mk.injEq]
      constructor
      · rintro (heq | hmem)
        · exact absurd heq.1 hkey
        · exact hmem
      · exact .inr

/-- A walk that starts behind an entry that was taken out, and ends with whole chains and all other
entries, leaves a table without that entry. -/
theorem vacate_spec (h : t.Wellformed) (hm : t.Represents m) {key : String} {mapped : β} {pos : ℕ}
    (hlook : t.slots.look pos = some (key, mapped)) {mended : Option (Slots (String × β))}
    (hwalk : ∀ z, Slots.Walk (home t.capacity) (t.vacate pos).slots z pos (t.slots.next pos) →
      (∀ x : String × β, home t.capacity x < (t.vacate pos).slots.length) →
      ∃ s', mended = some s' ∧ s'.length = (t.vacate pos).slots.length ∧
        s'.entries.Perm (t.vacate pos).slots.entries ∧ s'.Unbroken (home t.capacity)) :
    ∃ s', ends mended = .ok s' ∧ (⟨s', t.size - 1⟩ : HashTable β).Wellformed ∧
      (⟨s', t.size - 1⟩ : HashTable β).Represents (Function.update m key none) := by
  obtain ⟨z, hz, hfree⟩ := Slots.exists_free h.entries_lt
  have hhome : ∀ x : String × β, home t.capacity x < t.slots.length := home_lt h.capacity_pos
  have hlen : (t.vacate pos).slots.length = t.slots.length := List.length_set
  obtain ⟨s', hs', hlen', hperm, hunbroken⟩ :=
    hwalk z (Slots.Walk.start h.unbroken hhome hz hfree hlook) (hlen.symm ▸ hhome)
  obtain ⟨hwell, hrep⟩ := removed_spec h hm (hlen'.trans hlen)
    ((hperm.cons (key, mapped)).trans (Slots.entries_set_none hlook)) hunbroken
  exact ⟨s', congrArg ends hs', hwell, hrep⟩

@[simp] theorem vacate_capacity (t : HashTable β) (pos : ℕ) :
    (t.vacate pos).capacity = t.capacity := List.length_set

@[simp] theorem vacate_next (t : HashTable β) (pos i : ℕ) :
    (t.vacate pos).slots.next i = t.slots.next i := by
  unfold Slots.next
  rw [show (t.vacate pos).slots.length = t.slots.length from List.length_set]

/-- A filled slot is taken from a table that has an empty one elsewhere. -/
theorem Wellformed.exists_cut (h : t.Wellformed) :
    ∃ z < t.slots.length, t.slots.look z = none := Slots.exists_free h.entries_lt

end Remove

end HashTable

end Migash
