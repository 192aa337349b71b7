import Migash.FuncStore
import Migash.HashTable

/-! # The function map

The hash table behind the function store. Behind an entry that is taken out the
following ones are taken out one by one and put in again.
-/

namespace Migash

open Library

/-- `func_map_t`. -/
abbrev FuncMap := HashTable StoredFunction

namespace FuncMap

open HashTable

/-- The loop behind a removed entry, at most `n` turns: the size goes down and up again. -/
def reinsert (home : String × StoredFunction → ℕ) (s : Slots (String × StoredFunction)) :
    ℕ → ℕ → Option (Slots (String × StoredFunction))
  | 0, _ => none
  | n + 1, next =>
    match s.look next with
    | none => some s
    | some temp => do
      let s' ← Slots.place home (s.set next none) temp
      reinsert home s' n (s'.next next)

/-- The end of `func_map_erase_at_pos` and `func_map_extract_at_pos`. -/
def rehashCluster (t : FuncMap) (pos : ℕ) : Except Fault FuncMap := do
  return { t with slots := ← ends (reinsert (home t.capacity) t.slots t.capacity (t.slots.next pos)) }

/-- `func_map_erase_at_pos` for a position that is not negative. -/
def eraseAtPos (t : FuncMap) (pos : ℕ) : Except Fault FuncMap :=
  if pos < t.capacity then
    match t.slots.look pos with
    | none => .ok t
    | some _ => rehashCluster (t.vacate pos) pos
  else .ok t

/-- `func_map_erase`. -/
def erase (t : FuncMap) (key : String) : Except Fault FuncMap :=
  match t.find key with
  | some pos => eraseAtPos t pos
  | none => .ok t

/-- `func_map_extract_at_pos` for a position that is not negative: what the caller owns from now
on. -/
def extractAtPos (t : FuncMap) (pos : ℕ) : Except Fault (FuncMap × Option StoredFunction) :=
  if pos < t.capacity then
    match t.slots.look pos with
    | none => .ok (t, none)
    | some (_, mapped) => do return (← rehashCluster (t.vacate pos) pos, some mapped)
  else .ok (t, none)

/-- `func_map_extract`. -/
def extract (t : FuncMap) (key : String) : Except Fault (FuncMap × Option StoredFunction) :=
  match t.find key with
  | some pos => extractAtPos t pos
  | none => .ok (t, none)

/-! ## Putting a cluster in again -/

/-- One turn: the entry goes into the hole or back where it was. -/
theorem place_eq {home : String × StoredFunction → ℕ} {s : Slots (String × StoredFunction)}
    {z hole next : ℕ} {temp : String × StoredFunction} (h : s.Walk home z hole next)
    (hhome : ∀ x, home x < s.length) (hlook : s.look next = some temp) :
    Slots.place home (s.set next none) temp =
      some (if Slots.rank s.length z (home temp) ≤ Slots.rank s.length z hole then
        (s.set hole (some temp)).set next none else s) := by
  have hlen : (s.set next none).length = s.length := List.length_set
  rw [Slots.place, hlen, h.probe_eq hhome hlook, Option.map_some]
  congr 1
  split_ifs
  · exact List.set_comm _ _ h.hole_ne_cur.symm
  · rw [List.set_set]
    refine List.ext_getElem List.length_set fun i hi hi' => ?_
    rw [List.getElem_set]
    split_ifs with hi
    · subst hi
      rw [← hlook, Slots.look_eq s h.cur_lt]
    · rfl

/-- The loop comes to its end before it has seen every slot, with the same entries in whole
chains. -/
theorem reinsert_spec {home : String × StoredFunction → ℕ} {s : Slots (String × StoredFunction)}
    {z hole next n : ℕ} (h : s.Walk home z hole next) (hhome : ∀ x, home x < s.length)
    (hn : s.length ≤ Slots.rank s.length z next + n) :
    ∃ s', reinsert home s n next = some s' ∧ s'.length = s.length ∧
      s'.entries.Perm s.entries ∧ s'.Unbroken home := by
  induction n generalizing s hole next with
  | zero => exact absurd (Slots.rank_lt h.cur_lt h.cut_lt) (by omega)
  | succ n ih =>
    rw [reinsert]
    cases hlook : s.look next with
    | none => exact ⟨s, rfl, rfl, .refl _, h.finish hhome hlook⟩
    | some temp =>
      have hnext := Slots.rank_next h.cur_lt h.cut_lt (h.cur_ne_cut hlook)
      dsimp only
      rw [place_eq h hhome hlook, Option.bind_eq_bind, Option.bind_some]
      split_ifs with hearly
      · have hlen : ((s.set hole (some temp)).set next none).length = s.length := by simp
        have hsame : Slots.next ((s.set hole (some temp)).set next none) next = s.next next := by
          unfold Slots.next
          rw [hlen]
        have hwalk := h.move hlook hearly
        obtain ⟨s', hs', hlen', hperm, hunbroken⟩ :=
          ih hwalk (hlen.symm ▸ hhome) (by rw [hlen]; omega)
        exact ⟨s', by rw [hsame]; exact hs', hlen'.trans hlen, hperm.trans (h.entries_move hlook),
          hunbroken⟩
      · exact ih (h.keep hlook (by omega)) hhome (by omega)

section Remove

variable {t : FuncMap} {m : String → Option StoredFunction}

/-- A function that is taken out of its slot is gone from the map, and only it is. -/
theorem rehashCluster_spec (h : t.Wellformed) (hm : t.Represents m) {key : String}
    {mapped : StoredFunction} {pos : ℕ} (hlook : t.slots.look pos = some (key, mapped)) :
    ∃ t', rehashCluster (t.vacate pos) pos = .ok t' ∧ t'.Wellformed ∧
      t'.Represents (Function.update m key none) := by
  have hlen : (t.vacate pos).slots.length = t.capacity := vacate_capacity t pos
  have hwalk (z : ℕ)
      (h : Slots.Walk (home t.capacity) (t.vacate pos).slots z pos (t.slots.next pos))
      (hhome : ∀ x : String × StoredFunction,
        home t.capacity x < (t.vacate pos).slots.length) :=
    reinsert_spec (n := t.capacity) h hhome (by rw [hlen]; omega)
  obtain ⟨s', hs', hwell, hrep⟩ := vacate_spec h hm hlook hwalk
  refine ⟨⟨s', t.size - 1⟩, ?_, hwell, hrep⟩
  rw [rehashCluster, vacate_capacity, vacate_next, hs']
  rfl

theorem erase_spec (h : t.Wellformed) (hm : t.Represents m) (key : String) :
    ∃ t', erase t key = .ok t' ∧ t'.Wellformed ∧ t'.Represents (Function.update m key none) := by
  unfold erase
  rcases find_spec h hm key with ⟨pos, mapped, hfind, hlook, -⟩ | ⟨hfind, hkey⟩
  · have hpos : pos < t.capacity := Slots.lt_of_look hlook
    obtain ⟨t', ht', hwell, hrep⟩ := rehashCluster_spec h hm hlook
    refine ⟨t', ?_, hwell, hrep⟩
    rw [hfind]
    dsimp only
    rw [eraseAtPos, if_pos hpos, hlook]
    exact ht'
  · rw [hfind]
    exact ⟨t, rfl, h, by rwa [← hkey, Function.update_eq_self]⟩

/-- What is handed out is what the map had. -/
theorem extract_spec (h : t.Wellformed) (hm : t.Represents m) (key : String) :
    ∃ t', extract t key = .ok (t', m key) ∧ t'.Wellformed ∧
      t'.Represents (Function.update m key none) := by
  unfold extract
  rcases find_spec h hm key with ⟨pos, mapped, hfind, hlook, hkey⟩ | ⟨hfind, hkey⟩
  · have hpos : pos < t.capacity := Slots.lt_of_look hlook
    obtain ⟨t', ht', hwell, hrep⟩ := rehashCluster_spec h hm hlook
    refine ⟨t', ?_, hwell, hrep⟩
    rw [hfind, hkey]
    simp [extractAtPos, hpos, hlook, ht', bind, Except.bind, pure, Except.pure]
  · rw [hfind]
    exact ⟨t, by rw [hkey], h, by rwa [← hkey, Function.update_eq_self]⟩

end Remove

/-! ## Runs -/

/-- The operations that change a map. -/
inductive Op where
  | insertOrAssignMove (key : String) (mapped : StoredFunction)
  | erase (key : String)
  | extract (key : String)

/-- What an operation does to the table. -/
def apply (t : FuncMap) : Op → Except Fault FuncMap
  | .insertOrAssignMove key mapped => (·.1) <$> t.insertOrAssign key mapped
  | .erase key => erase t key
  | .extract key => (·.1) <$> extract t key

/-- What an operation defines. -/
def Op.define (m : String → Option StoredFunction) : Op → String → Option StoredFunction
  | .insertOrAssignMove key mapped => Function.update m key (some mapped)
  | .erase key | .extract key => Function.update m key none

/-- Every operation ends and does what it defines. -/
theorem apply_spec {t : FuncMap} {m : String → Option StoredFunction} (h : t.Wellformed)
    (hm : t.Represents m) (op : Op) :
    ∃ t', apply t op = .ok t' ∧ t'.Wellformed ∧ t'.Represents (op.define m) := by
  cases op with
  | insertOrAssignMove key mapped =>
    obtain ⟨t', pos, ht', hwell, hrep⟩ := insertOrAssign_spec h hm key mapped
    exact ⟨t', by rw [apply, ht']; rfl, hwell, hrep⟩
  | erase key => exact erase_spec h hm key
  | extract key =>
    obtain ⟨t', ht', hwell, hrep⟩ := extract_spec h hm key
    exact ⟨t', by rw [apply, ht']; rfl, hwell, hrep⟩

/-- Operations one after the other on a new map. -/
def run (ops : List Op) : Except Fault FuncMap := ops.foldlM apply HashTable.create

/-- What they define. -/
def defined (ops : List Op) : String → Option StoredFunction :=
  ops.foldl Op.define fun _ => none

/-- Every run of operations ends. Its map has distinct keys, the right size, a free slot and whole
chains, and its lookups agree with the finite map that the operations define. -/
theorem run_refines (ops : List Op) :
    ∃ t, run ops = .ok t ∧ t.Wellformed ∧ (∃ i < t.capacity, t.slots.look i = none) ∧
      (∀ key pos, t.find key = some pos ↔
        ∃ mapped, defined ops key = some mapped ∧ t.slots.look pos = some (key, mapped)) ∧
      ∀ key, t.at? key = defined ops key := by
  have hrun : ∀ (t : FuncMap) (m : String → Option StoredFunction), t.Wellformed →
      t.Represents m → ∃ t', ops.foldlM apply t = .ok t' ∧ t'.Wellformed ∧
        t'.Represents (ops.foldl Op.define m) := by
    induction ops with
    | nil => exact fun t m h hm => ⟨t, rfl, h, hm⟩
    | cons op ops ih =>
      intro t m h hm
      obtain ⟨t₁, ht₁, h₁, hm₁⟩ := apply_spec h hm op
      obtain ⟨t', ht', h', hm'⟩ := ih t₁ _ h₁ hm₁
      exact ⟨t', by rw [List.foldlM_cons, ht₁]; exact ht', h', hm'⟩
  obtain ⟨t, ht, h, hm⟩ := hrun HashTable.create _ create_wellformed create_represents
  exact ⟨t, ht, h, h.exists_cut, find_iff h hm, at?_eq h hm⟩

/-! ## The function store -/

/-- What a name is bound to after an assignment to the store. -/
theorem get_insertOrAssign (store : FuncStore) (name : String) (f : StoredFunction) :
    (store.insertOrAssign name f).get = Function.update store.get name (some f) := by
  funext n
  unfold FuncStore.insertOrAssign FuncStore.get
  by_cases hn : n = name
  · subst hn
    simp
  · rw [Function.update_of_ne hn, List.lookup_cons, beq_false_of_ne hn]
    dsimp only
    induction store with
    | nil => rfl
    | cons entry store ih =>
      obtain ⟨key, g⟩ := entry
      by_cases hkey : key = name
      · rw [List.filter_cons_of_neg (by simpa using hkey), ih, List.lookup_cons,
          beq_false_of_ne (by rw [hkey]; exact hn)]
      · rw [List.filter_cons_of_pos (by simpa using hkey), List.lookup_cons, List.lookup_cons, ih]

/-- The table implements the list that stands for the store. -/
theorem insertOrAssign_refines {t : FuncMap} {store : FuncStore} (h : t.Wellformed)
    (hm : t.Represents store.get) (name : String) (f : StoredFunction) :
    ∃ t' pos, t.insertOrAssign name f = .ok (t', pos) ∧ t'.Wellformed ∧
      t'.Represents (store.insertOrAssign name f).get := by
  rw [get_insertOrAssign]
  exact insertOrAssign_spec h hm name f

end FuncMap

end Migash
