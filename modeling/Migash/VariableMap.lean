import Migash.HashTable

/-! # The variable map

The hash table behind the variable store. Behind an entry that is taken out the
following ones are shifted back, each into the slot that was empty last.
-/

namespace Migash

open Library

/-- `variable_map_mapped_t`; the value may be NULL. -/
structure VariableMapped where
  value : Option String
  exported : Bool
  readOnly : Bool
  deriving DecidableEq, Repr

/-- `variable_map_t`. -/
abbrev VariableMap := HashTable VariableMapped

namespace VariableMap

open HashTable

/-- `should_move` of `backward_shift_deletion`. -/
def shouldMove (ideal empty curr : ℕ) : Bool :=
  if empty ≤ curr then ideal ≤ empty || curr < ideal else curr < ideal && ideal ≤ empty

/-- The loop of `backward_shift_deletion`, at most `n` turns. -/
def shiftBack (home : String × VariableMapped → ℕ) (s : Slots (String × VariableMapped)) :
    ℕ → ℕ → ℕ → Option (Slots (String × VariableMapped))
  | 0, _, _ => none
  | n + 1, empty, curr =>
    match s.look curr with
    | none => some s
    | some entry =>
      if shouldMove (home entry) empty curr then
        shiftBack home ((s.set empty (some entry)).set curr none) n curr (s.next curr)
      else shiftBack home s n empty (s.next curr)

/-- `backward_shift_deletion`. -/
def backwardShiftDeletion (t : VariableMap) (empty : ℕ) : Except Fault VariableMap := do
  return { t with
    slots := ← ends (shiftBack (home t.capacity) t.slots t.capacity empty (t.slots.next empty)) }

/-- `variable_map_erase_at_pos`. -/
def eraseAtPos (t : VariableMap) (pos : ℕ) : Except Fault VariableMap :=
  if pos < t.capacity then
    match t.slots.look pos with
    | none => .ok t
    | some _ => backwardShiftDeletion (t.vacate pos) pos
  else .error (.contract "pos")

/-- `variable_map_erase`. -/
def erase (t : VariableMap) (key : String) : Except Fault VariableMap :=
  match t.find key with
  | some pos => eraseAtPos t pos
  | none => .ok t

/-- `variable_map_extract_at_pos`: what the caller owns from now on. -/
def extractAtPos (t : VariableMap) (pos : ℕ) :
    Except Fault (VariableMap × Option VariableMapped) :=
  if pos < t.capacity then
    match t.slots.look pos with
    | none => .ok (t, none)
    | some (_, mapped) => do return (← backwardShiftDeletion (t.vacate pos) pos, some mapped)
  else .error (.contract "pos")

/-- `variable_map_extract`. -/
def extract (t : VariableMap) (key : String) :
    Except Fault (VariableMap × Option VariableMapped) :=
  match t.find key with
  | some pos => extractAtPos t pos
  | none => .ok (t, none)

/-- The first loop of the rebuild in `variable_map_erase_multiple`: the slots of the keys that are
found are marked free, which may hide the keys behind them. -/
def markDeleted (t : VariableMap) : List String → VariableMap × ℕ
  | [] => (t, 0)
  | key :: keys =>
    match t.find key with
    | some pos =>
      let (t, deleted) := markDeleted { t with slots := t.slots.set pos none } keys
      (t, deleted + 1)
    | none => markDeleted t keys

/-- `variable_map_erase_multiple`. -/
def eraseMultiple (t : VariableMap) (keys : List String) : Except Fault VariableMap :=
  match keys with
  | [] => .ok t
  | [key] => erase t key
  | _ =>
    let count := keys.length
    if t.size / 8 < count ∨ 16 < count ∧ t.capacity / 16 < count then
      let (marked, deleted) := markDeleted t keys
      if deleted = 0 then .ok t
      else do
        let slots ← ends (marked.slots.rehash (home t.capacity) t.capacity)
        return ⟨slots, t.size - deleted⟩
    else keys.foldlM erase t

/-! ## Shifting back -/

/-- The comparisons of slots ask whether the hole is in the chain of the entry. -/
theorem shouldMove_iff {n z ideal empty curr : ℕ} (hz : z < n) (hideal : ideal < n)
    (hempty : empty < n) (hcurr : curr < n) (hle : Slots.rank n z ideal ≤ Slots.rank n z curr)
    (hlt : Slots.rank n z empty < Slots.rank n z curr) :
    shouldMove ideal empty curr = true ↔ Slots.rank n z ideal ≤ Slots.rank n z empty := by
  unfold Slots.rank at *
  unfold shouldMove
  split_ifs at * <;> simp only [Bool.or_eq_true, Bool.and_eq_true, decide_eq_true_eq] <;> omega

/-- The walk comes to its end before it has seen every slot, with the same entries in whole
chains. -/
theorem shiftBack_spec {home : String × VariableMapped → ℕ} {s : Slots (String × VariableMapped)}
    {z empty curr n : ℕ} (h : s.Walk home z empty curr) (hhome : ∀ x, home x < s.length)
    (hn : s.length ≤ Slots.rank s.length z curr + n) :
    ∃ s', shiftBack home s n empty curr = some s' ∧ s'.length = s.length ∧
      s'.entries.Perm s.entries ∧ s'.Unbroken home := by
  induction n generalizing s empty curr with
  | zero => exact absurd (Slots.rank_lt h.cur_lt h.cut_lt) (by omega)
  | succ n ih =>
    rw [shiftBack]
    cases hlook : s.look curr with
    | none => exact ⟨s, rfl, rfl, .refl _, h.finish hhome hlook⟩
    | some entry =>
      have hnext := Slots.rank_next h.cur_lt h.cut_lt (h.cur_ne_cut hlook)
      have hmove := shouldMove_iff h.cut_lt (hhome entry) h.hole_lt h.cur_lt
        (h.placed curr entry hlook).1 h.ordered
      dsimp only
      split_ifs with hshould
      · have hwalk := h.move hlook (hmove.mp hshould)
        have hlen : ((s.set empty (some entry)).set curr none).length = s.length := by simp
        obtain ⟨s', hs', hlen', hperm, hunbroken⟩ :=
          ih hwalk (hlen.symm ▸ hhome) (by rw [hlen]; omega)
        exact ⟨s', hs', hlen'.trans hlen, hperm.trans (h.entries_move hlook), hunbroken⟩
      · have hlate : Slots.rank s.length z empty < Slots.rank s.length z (home entry) := by
          by_contra hle
          exact hshould (hmove.mpr (by omega))
        exact ih (h.keep hlook hlate) hhome (by omega)

section Remove

variable {t : VariableMap} {m : String → Option VariableMapped}

/-- An entry that is taken out of its slot is gone from the map, and only it is. -/
theorem backwardShiftDeletion_spec (h : t.Wellformed) (hm : t.Represents m) {key : String}
    {mapped : VariableMapped} {pos : ℕ} (hlook : t.slots.look pos = some (key, mapped)) :
    ∃ t', backwardShiftDeletion (t.vacate pos) pos = .ok t' ∧ t'.Wellformed ∧
      t'.Represents (Function.update m key none) := by
  have hlen : (t.vacate pos).slots.length = t.capacity := vacate_capacity t pos
  have hwalk (z : ℕ)
      (h : Slots.Walk (home t.capacity) (t.vacate pos).slots z pos (t.slots.next pos))
      (hhome : ∀ x : String × VariableMapped,
        home t.capacity x < (t.vacate pos).slots.length) :=
    shiftBack_spec (n := t.capacity) h hhome (by rw [hlen]; omega)
  obtain ⟨s', hs', hwell, hrep⟩ := vacate_spec h hm hlook hwalk
  refine ⟨⟨s', t.size - 1⟩, ?_, hwell, hrep⟩
  rw [backwardShiftDeletion, vacate_capacity, vacate_next, hs']
  rfl

theorem eraseAtPos_spec (h : t.Wellformed) (hm : t.Represents m) {pos : ℕ} (hpos : pos < t.capacity) :
    ∃ t', eraseAtPos t pos = .ok t' ∧ t'.Wellformed ∧
      t'.Represents (match t.slots.look pos with
        | some (key, _) => Function.update m key none
        | none => m) := by
  unfold eraseAtPos
  rw [if_pos hpos]
  cases hlook : t.slots.look pos with
  | none => exact ⟨t, rfl, h, hm⟩
  | some entry => exact backwardShiftDeletion_spec h hm hlook

theorem erase_spec (h : t.Wellformed) (hm : t.Represents m) (key : String) :
    ∃ t', erase t key = .ok t' ∧ t'.Wellformed ∧ t'.Represents (Function.update m key none) := by
  unfold erase
  rcases find_spec h hm key with ⟨pos, mapped, hfind, hlook, -⟩ | ⟨hfind, hkey⟩
  · have hpos : pos < t.capacity := Slots.lt_of_look hlook
    rw [hfind]
    simpa only [hlook] using eraseAtPos_spec h hm hpos
  · rw [hfind]
    exact ⟨t, rfl, h, by rwa [← hkey, Function.update_eq_self]⟩

/-- What is handed out is what the map had. -/
theorem extract_spec (h : t.Wellformed) (hm : t.Represents m) (key : String) :
    ∃ t', extract t key = .ok (t', m key) ∧ t'.Wellformed ∧
      t'.Represents (Function.update m key none) := by
  unfold extract
  rcases find_spec h hm key with ⟨pos, mapped, hfind, hlook, hkey⟩ | ⟨hfind, hkey⟩
  · have hpos : pos < t.capacity := Slots.lt_of_look hlook
    obtain ⟨t', ht', hwell, hrep⟩ := backwardShiftDeletion_spec h hm hlook
    refine ⟨t', ?_, hwell, hrep⟩
    rw [hfind, hkey]
    simp [extractAtPos, hpos, hlook, ht', bind, Except.bind, pure, Except.pure]
  · rw [hfind]
    exact ⟨t, by rw [hkey], h, by rwa [← hkey, Function.update_eq_self]⟩

/-- Marking takes entries out and leaves the slots of the others. -/
theorem markDeleted_spec (t : VariableMap) (keys : List String) :
    (markDeleted t keys).1.slots.length = t.slots.length ∧
      ∃ gone, gone.length = (markDeleted t keys).2 ∧
        (gone ++ (markDeleted t keys).1.slots.entries).Perm t.slots.entries := by
  fun_induction markDeleted t keys with
  | case1 t => exact ⟨rfl, [], rfl, .refl _⟩
  | case2 t key keys pos hfind t' deleted heq ih =>
    obtain ⟨⟨pos', entry⟩, hl, rfl⟩ := Option.map_eq_some_iff.mp hfind
    obtain ⟨hlook, -⟩ := Slots.search_some hl
    obtain ⟨hlen, gone, hgone, hperm⟩ := ih
    rw [heq] at hlen hgone hperm
    refine ⟨hlen.trans List.length_set, entry :: gone, by simpa using hgone, ?_⟩
    exact (hperm.cons entry).trans (Slots.entries_set_none hlook)
  | case3 t key keys hfind ih => exact ih

/-- Whatever keys a rebuild misses, its table is whole again. -/
theorem eraseMultiple_wellformed (h : t.Wellformed) (keys : List String) :
    ∃ t', eraseMultiple t keys = .ok t' ∧ t'.Wellformed := by
  have hone (t : VariableMap) (h : t.Wellformed) (key : String) :
      ∃ t', erase t key = .ok t' ∧ t'.Wellformed := by
    obtain ⟨m, hm⟩ := h.exists_represents
    obtain ⟨t', ht', hwell, -⟩ := erase_spec h hm key
    exact ⟨t', ht', hwell⟩
  have hbatch (keys : List String) (t : VariableMap) (h : t.Wellformed) :
      ∃ t', keys.foldlM erase t = .ok t' ∧ t'.Wellformed := by
    induction keys generalizing t with
    | nil => exact ⟨t, rfl, h⟩
    | cons key keys ih =>
      obtain ⟨t₁, ht₁, h₁⟩ := hone t h key
      obtain ⟨t', ht', h'⟩ := ih t₁ h₁
      exact ⟨t', by rw [List.foldlM_cons, ht₁]; exact ht', h'⟩
  unfold eraseMultiple
  split
  · exact ⟨t, rfl, h⟩
  · exact hone t h _
  · dsimp only
    split_ifs
    · exact ⟨t, rfl, h⟩
    · obtain ⟨hlen, gone, hgone, hperm⟩ := markDeleted_spec t keys
      have hcount := hperm.length_eq
      rw [List.length_append] at hcount
      have hlt := h.entries_lt
      have hcap : t.capacity = t.slots.length := rfl
      have hpos := h.capacity_pos
      obtain ⟨slots, hrehash, hlen', hperm', hunbroken⟩ := Slots.rehash_spec
        (s := (markDeleted t keys).1.slots) (n := t.capacity)
        (home_lt hpos) (by omega)
      refine ⟨⟨slots, t.size - (markDeleted t keys).2⟩, by rw [hrehash]; rfl, ?_⟩
      have hcap' : (⟨slots, t.size - (markDeleted t keys).2⟩ : VariableMap).capacity =
          t.capacity := hlen'
      have hcount' := hperm'.length_eq
      have hsize := h.size_eq
      have hload := h.load
      refine
        { capacity_pos := hcap' ▸ hpos
          size_eq := ?_
          distinct := ?_
          unbroken := hcap' ▸ hunbroken
          load := ?_ }
      · change t.size - (markDeleted t keys).2 = slots.entries.length
        omega
      · refine (hperm'.map Prod.fst).nodup_iff.mpr ?_
        have hall := (hperm.map Prod.fst).nodup_iff.mpr h.distinct
        rw [List.map_append] at hall
        exact hall.of_append_right
      · rw [hcap']
        change t.size - (markDeleted t keys).2 ≤ _
        omega
    · exact hbatch keys t h

end Remove

/-! ## Runs -/

/-- The operations that change a map. -/
inductive Op where
  | insert (key : String) (mapped : VariableMapped)
  | insertOrAssign (key : String) (mapped : VariableMapped)
  | erase (key : String)
  | eraseAtPos (pos : ℕ)
  | extract (key : String)
  | clear
  deriving Repr

/-- What an operation does to the table. -/
def apply (t : VariableMap) : Op → Except Fault VariableMap
  | .insert key mapped => (·.1) <$> t.insert key mapped
  | .insertOrAssign key mapped => (·.1) <$> t.insertOrAssign key mapped
  | .erase key => erase t key
  | .eraseAtPos pos => eraseAtPos t pos
  | .extract key => (·.1) <$> extract t key
  | .clear => .ok t.clear

/-- The contract of an operation. -/
def Op.Allowed (t : VariableMap) : Op → Prop
  | .eraseAtPos pos => pos < t.capacity
  | _ => True

/-- What an operation defines: `t` says which key stands at a position. -/
def Op.define (t : VariableMap) (m : String → Option VariableMapped) :
    Op → String → Option VariableMapped
  | .insert key mapped => if (m key).isNone then Function.update m key (some mapped) else m
  | .insertOrAssign key mapped => Function.update m key (some mapped)
  | .erase key => Function.update m key none
  | .eraseAtPos pos =>
    match t.slots.look pos with
    | some (key, _) => Function.update m key none
    | none => m
  | .extract key => Function.update m key none
  | .clear => fun _ => none

/-- An empty table is whole. -/
theorem clear_wellformed {t : VariableMap} (h : t.Wellformed) : t.clear.Wellformed where
  capacity_pos := by simpa [HashTable.clear, capacity] using h.capacity_pos
  size_eq := by rw [HashTable.clear, Slots.entries_replicate]; rfl
  distinct := by rw [HashTable.clear, Slots.entries_replicate]; exact List.nodup_nil
  unbroken := Slots.Unbroken.replicate _ _
  load := Nat.zero_le _

/-- Every operation within its contract ends and does what it defines. -/
theorem apply_spec {t : VariableMap} {m : String → Option VariableMapped} (h : t.Wellformed)
    (hm : t.Represents m) {op : Op} (hop : op.Allowed t) :
    ∃ t', apply t op = .ok t' ∧ t'.Wellformed ∧ t'.Represents (op.define t m) := by
  cases op with
  | insert key mapped =>
    obtain ⟨t', pos, ht', hwell, hrep⟩ := insert_spec h hm key mapped
    exact ⟨t', by rw [apply, ht']; rfl, hwell, hrep⟩
  | insertOrAssign key mapped =>
    obtain ⟨t', pos, ht', hwell, hrep⟩ := insertOrAssign_spec h hm key mapped
    exact ⟨t', by rw [apply, ht']; rfl, hwell, hrep⟩
  | erase key => exact erase_spec h hm key
  | eraseAtPos pos => exact eraseAtPos_spec h hm hop
  | extract key =>
    obtain ⟨t', ht', hwell, hrep⟩ := extract_spec h hm key
    exact ⟨t', by rw [apply, ht']; rfl, hwell, hrep⟩
  | clear =>
    refine ⟨t.clear, rfl, clear_wellformed h, fun key mapped => ?_⟩
    rw [HashTable.clear, Slots.entries_replicate]
    simp [Op.define]

/-- The maps that operations lead to from a new one, each with what the operations define. -/
inductive Reaches : VariableMap → (String → Option VariableMapped) → Prop where
  | create : Reaches HashTable.create fun _ => none
  | step {t t' : VariableMap} {m : String → Option VariableMapped} (h : Reaches t m) (op : Op)
      (hop : apply t op = .ok t') : Reaches t' (op.define t m)

theorem allowed_of_apply {t t' : VariableMap} {op : Op} (h : apply t op = .ok t') :
    op.Allowed t := by
  cases op with
  | eraseAtPos pos =>
    by_contra hpos
    rw [apply, eraseAtPos, if_neg (show ¬ pos < t.capacity from hpos)] at h
    cases h
  | _ => trivial

theorem Reaches.spec {t : VariableMap} {m : String → Option VariableMapped} (h : Reaches t m) :
    t.Wellformed ∧ t.Represents m := by
  induction h with
  | create => exact ⟨create_wellformed, create_represents⟩
  | @step t t' m _ op hop ih =>
    obtain ⟨t'', ht'', hwell, hrep⟩ := apply_spec ih.1 ih.2 (allowed_of_apply hop)
    rw [hop, Except.ok.injEq] at ht''
    exact ht'' ▸ ⟨hwell, hrep⟩

/-- In every map that operations lead to the invariant holds, the lookups agree with the finite map
that the operations define, and every further operation within its contract ends. -/
theorem reaches_refines {t : VariableMap} {m : String → Option VariableMapped} (h : Reaches t m) :
    t.Wellformed ∧ (∀ key, t.at? key = m key) ∧ (∀ key, t.contains key = (m key).isSome) ∧
      (∀ key pos, t.find key = some pos ↔
        ∃ mapped, m key = some mapped ∧ t.slots.look pos = some (key, mapped)) ∧
      ∀ op : Op, op.Allowed t → ∃ t', apply t op = .ok t' := by
  obtain ⟨hwell, hrep⟩ := h.spec
  refine ⟨hwell, at?_eq hwell hrep, contains_eq hwell hrep, fun key pos => ?_, fun op hop => ?_⟩
  · exact find_iff hwell hrep key pos
  · obtain ⟨t', ht', -⟩ := apply_spec hwell hrep hop
    exact ⟨t', ht'⟩

/-- A variable that was inserted into a new map is found. -/
theorem insert_found :
    ∃ t, Reaches t ((Op.insert "x" ⟨some "1", true, false⟩).define HashTable.create fun _ => none) ∧
      t.at? "x" = some ⟨some "1", true, false⟩ := by
  have hop : (Op.insert "x" ⟨some "1", true, false⟩).Allowed HashTable.create := trivial
  obtain ⟨t, ht, -⟩ := apply_spec create_wellformed create_represents hop
  refine ⟨t, .step .create _ ht, ?_⟩
  exact (reaches_refines (.step .create _ ht)).2.1 "x"

end VariableMap

end Migash
