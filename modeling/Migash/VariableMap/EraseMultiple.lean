import Migash.VariableMap
import Mathlib.Data.List.Induction

/-! # Erasing a batch of keys

A batch that is large for the map is erased by a rebuild, which first marks the
slots of all keys as free. A key behind a slot that was marked before it is not
found any more, and it stays in the map. -/

namespace Migash.VariableMap

open Library HashTable

/-- `should_rebuild` for a list of two or more keys. -/
def Rebuilds (t : VariableMap) (keys : List String) : Prop :=
  2 ≤ keys.length ∧
    (t.size / 8 < keys.length ∨ 16 < keys.length ∧ t.capacity / 16 < keys.length)

instance (t : VariableMap) (keys : List String) : Decidable (Rebuilds t keys) :=
  inferInstanceAs (Decidable (_ ∧ _))

/-- A search for `key`, which stands in slot `pos`, comes to one of the slots `marked`. -/
def Meets (t : VariableMap) (marked : List ℕ) (key : String) (pos : ℕ) : Prop :=
  ∃ i ∈ marked, i = pos ∨ Slots.Between (findSlot key t.capacity) pos i

instance (t : VariableMap) (marked : List ℕ) (key : String) (pos : ℕ) :
    Decidable (Meets t marked key pos) :=
  inferInstanceAs (Decidable (∃ i ∈ marked, _))

/-- The slots that are marked once a key was looked for. -/
def mark (t : VariableMap) (marked : List ℕ) (key : String) : List ℕ :=
  match t.find key with
  | some pos => if Meets t marked key pos then marked else pos :: marked
  | none => marked

/-- The slots that are marked for a batch. -/
def marks (t : VariableMap) (keys : List String) : List ℕ := keys.foldl (mark t) []

/-- The slot of `a` is not in the chain of `b`. -/
def Apart (t : VariableMap) (a b : String) : Prop :=
  ∀ p q, t.find a = some p → t.find b = some q → ¬ Slots.Between (findSlot b t.capacity) q p

/-- Where a key comes for the first time, no key before it in the batch stands in its chain. -/
def KeepsChains (t : VariableMap) (keys : List String) : Prop :=
  ∀ before key after, keys = before ++ key :: after → key ∉ before → ∀ a ∈ before, Apart t a key

/-- The batch leaves the map that its keys leave which are erased one after the other. -/
structure ErasesLikeEach (t : VariableMap) (keys : List String) : Prop where
  agrees : ∃ t₁ t₂, eraseMultiple t keys = .ok t₁ ∧ keys.foldlM erase t = .ok t₂ ∧
    t₁.Wellformed ∧ t₁.size = t₂.size ∧ ∀ key, t₁.at? key = t₂.at? key

/-! ## The marked slots -/

section Marks

variable {t : VariableMap} {keys : List String} {key : String} {pos : ℕ}

theorem marks_append (t : VariableMap) (keys : List String) (key : String) :
    marks t (keys ++ [key]) = mark t (marks t keys) key := by
  simp [marks]

theorem subset_mark (t : VariableMap) (marked : List ℕ) (key : String) :
    marked ⊆ mark t marked key := by
  unfold mark
  split
  · split_ifs
    · exact fun i hi => hi
    · exact List.subset_cons_self _ _
  · exact fun i hi => hi

/-- What is marked is the slot of a key of the batch. -/
theorem mem_marks {i : ℕ} (h : i ∈ marks t keys) : ∃ key ∈ keys, t.find key = some i := by
  induction keys using List.reverseRecOn with
  | nil => cases h
  | append_singleton keys key ih =>
    have hearlier (h : i ∈ marks t keys) : ∃ k ∈ keys ++ [key], t.find k = some i := by
      obtain ⟨k, hk, hfind⟩ := ih h
      exact ⟨k, List.mem_append_left _ hk, hfind⟩
    rw [marks_append, mark] at h
    split at h
    · rename_i pos hfind
      split_ifs at h
      · exact hearlier h
      · rcases List.mem_cons.mp h with rfl | h
        · exact ⟨key, by simp, hfind⟩
        · exact hearlier h
    · exact hearlier h

/-- A key whose slot is not marked has a marked slot in its chain. -/
theorem meets_of_not_mem (hkey : key ∈ keys) (hfind : t.find key = some pos)
    (hnot : pos ∉ marks t keys) : Meets t (marks t keys) key pos := by
  induction keys using List.reverseRecOn with
  | nil => cases hkey
  | append_singleton keys last ih =>
    rw [marks_append] at hnot ⊢
    have hsubset := subset_mark t (marks t keys) last
    rcases List.mem_append.mp hkey with hkey | hkey
    · obtain ⟨i, hi, hmeets⟩ := ih hkey fun h => hnot (hsubset h)
      exact ⟨i, hsubset hi, hmeets⟩
    · cases List.mem_singleton.mp hkey
      unfold mark at hnot ⊢
      rw [hfind] at hnot ⊢
      dsimp only at hnot ⊢
      split_ifs at hnot ⊢ with hmeets
      · exact hmeets
      · exact absurd List.mem_cons_self hnot

end Marks

section Found

variable {t : VariableMap} (h : t.Wellformed)
include h

/-- Two keys do not share a slot. -/
theorem find_inj {a b : String} {pos : ℕ} (ha : t.find a = some pos) (hb : t.find b = some pos) :
    a = b := by
  obtain ⟨m, hm⟩ := h.exists_represents
  obtain ⟨v, -, hv⟩ := (find_iff h hm a pos).mp ha
  obtain ⟨w, -, hw⟩ := (find_iff h hm b pos).mp hb
  rw [hv, Option.some.injEq, Prod.mk.injEq] at hw
  exact hw.1

/-- Every key of a batch is marked if and only if none stands behind one that comes before it. -/
theorem all_marked_iff (keys : List String) :
    (∀ key ∈ keys, ∀ pos, t.find key = some pos → pos ∈ marks t keys) ↔ KeepsChains t keys := by
  induction keys using List.reverseRecOn with
  | nil =>
    refine ⟨fun _ before key after heq => ?_, by simp⟩
    simp at heq
  | append_singleton keys last ih =>
    have hsubset := subset_mark t (marks t keys) last
    constructor
    · intro hall
      -- what the last key adds is its own slot, which was missed before if it was in the list
      have hbefore : ∀ key ∈ keys, ∀ pos, t.find key = some pos → pos ∈ marks t keys := by
        intro key hkey pos hfind
        by_contra hnot
        have hmeets := meets_of_not_mem hkey hfind hnot
        have hmem := hall key (List.mem_append_left _ hkey) pos hfind
        rw [marks_append, mark] at hmem
        split at hmem
        · rename_i p hlast
          split_ifs at hmem with hpass
          · exact hnot hmem
          · rcases List.mem_cons.mp hmem with rfl | hmem
            · cases find_inj h hfind hlast
              exact hpass hmeets
            · exact hnot hmem
        · exact hnot hmem
      intro before key after heq hnew a ha p q hp hq
      rcases List.eq_nil_or_concat after with rfl | ⟨rest, x, rfl⟩
      · obtain ⟨rfl, hlast⟩ := List.append_inj' heq rfl
        cases hlast
        have hmem := hall last (by simp) q hq
        rw [marks_append, mark, hq] at hmem
        dsimp only at hmem
        split_ifs at hmem with hmeets
        · obtain ⟨k, hk, hfind⟩ := mem_marks hmem
          exact absurd (find_inj h hfind hq ▸ hk) hnew
        · exact fun hbetween => hmeets ⟨p, hbefore a ha p hp, .inr hbetween⟩
      · have heq' : keys ++ [last] = (before ++ key :: rest) ++ [x] := by simpa using heq
        obtain ⟨hkeys, -⟩ := List.append_inj' heq' rfl
        exact ih.mp hbefore before key rest hkeys hnew a ha p q hp hq
    · intro hchains key hkey pos hfind
      have hmarked : ∀ key ∈ keys, ∀ pos, t.find key = some pos → pos ∈ marks t keys := by
        refine ih.mpr fun before k after heq => hchains before k (after ++ [last]) ?_
        rw [heq]
        simp
      rw [marks_append]
      by_cases hold : key ∈ keys
      · exact hsubset (hmarked key hold pos hfind)
      · have hlast : key = last := by
          rcases List.mem_append.mp hkey with hkey | hkey
          · exact absurd hkey hold
          · exact List.mem_singleton.mp hkey
        subst hlast
        have hfree : ¬ Meets t (marks t keys) key pos := by
          rintro ⟨i, hi, hmeets⟩
          obtain ⟨a, ha, hfa⟩ := mem_marks hi
          rcases hmeets with rfl | hbetween
          · exact hold (find_inj h hfa hfind ▸ ha)
          · exact hchains keys key [] rfl hold a ha i pos hfa hfind hbetween
        rw [mark, hfind]
        dsimp only
        rw [if_neg hfree]
        exact List.mem_cons_self

end Found

/-! ## A table with marked slots -/

/-- The slots of a table of which those in `marked` were emptied. -/
structure Emptied (t : VariableMap) (marked : List ℕ) (s : Slots (String × VariableMapped)) :
    Prop where
  length_eq : s.length = t.capacity
  marked_lt : ∀ i ∈ marked, i < t.capacity
  look_eq : ∀ i, s.look i = if i ∈ marked then none else t.slots.look i

section Emptied

variable {t : VariableMap} {marked : List ℕ} {s : Slots (String × VariableMapped)}

theorem Emptied.refl (t : VariableMap) : Emptied t [] t.slots :=
  ⟨rfl, by simp, fun i => by simp⟩

/-- A search finds a key at its slot, or it meets a marked one. -/
theorem Emptied.find_eq (hs : Emptied t marked s) (h : t.Wellformed) (key : String) :
    HashTable.find { t with slots := s } key =
      (t.find key).filter fun pos => ¬ Meets t marked key pos := by
  obtain ⟨m, hm⟩ := h.exists_represents
  have hcap : HashTable.capacity { t with slots := s } = t.capacity := hs.length_eq
  have hstart : findSlot key t.capacity < s.length := by
    rw [hs.length_eq]
    exact findSlot_lt key h.capacity_pos
  cases hl : HashTable.lookup { t with slots := s } key with
  | some found =>
    obtain ⟨q, key', mapped⟩ := found
    have hsearch := hl
    unfold HashTable.lookup at hsearch
    rw [hcap] at hsearch
    obtain ⟨hlook, hkey⟩ := Slots.search_some hsearch
    obtain rfl : key' = key := by simpa using hkey
    rw [hs.look_eq] at hlook
    split_ifs at hlook with hq
    have hfind : t.find key' = some q := (find_iff h hm key' q).mpr
      ⟨mapped, (hm key' mapped).mpr (Slots.mem_entries.mpr ⟨q, hlook⟩), hlook⟩
    have hfree : ¬ Meets t marked key' q := by
      rintro ⟨i, hi, hmeets⟩
      rcases hmeets with rfl | hbetween
      · exact hq hi
      · refine Slots.search_filled hstart hsearch (k := i) ?_ hbetween ?_
        · rw [hs.length_eq]
          exact hs.marked_lt i hi
        · rw [hs.look_eq, if_pos hi]
    rw [HashTable.find, hl, hfind, Option.filter_some, if_pos (decide_eq_true hfree)]
    rfl
  | none =>
    rw [HashTable.find, hl]
    symm
    refine Option.filter_eq_none_iff.mpr fun pos hfind => ?_
    obtain ⟨mapped, -, hlook⟩ := (find_iff h hm key pos).mp hfind
    simp only [decide_eq_true_eq, not_not]
    by_contra hfree
    have hnot (i : ℕ) (hi : i = pos ∨ Slots.Between (findSlot key t.capacity) pos i) :
        i ∉ marked := fun hmem => hfree ⟨i, hmem, hi⟩
    have hpos : s.look pos = some (key, mapped) := by
      rw [hs.look_eq, if_neg (hnot pos (.inl rfl)), hlook]
    have hsearch : Slots.search (fun entry : String × VariableMapped => entry.1 = key) s t.capacity
        (findSlot key t.capacity) = none := by
      rw [← hcap]
      exact hl
    refine absurd hsearch (Slots.search_ne_none hstart hpos (by simp) ?_ ?_)
    · intro k hk hbetween
      rw [hs.look_eq, if_neg (hnot k (.inr hbetween))]
      rw [hs.length_eq] at hk
      exact h.unbroken pos _ hlook k hk hbetween
    · have hlt : pos < s.length := Slots.lt_of_look hpos
      have hsteps := Slots.steps_lt hstart hlt
      rwa [hs.length_eq] at hsteps ⊢

/-- The first loop of a rebuild empties the marked slots and counts them. -/
theorem markDeleted_emptied (h : t.Wellformed) (hs : Emptied t marked s) (keys : List String) :
    Emptied t (keys.foldl (mark t) marked) (markDeleted { t with slots := s } keys).1.slots ∧
      (markDeleted { t with slots := s } keys).2 + marked.length =
        (keys.foldl (mark t) marked).length := by
  obtain ⟨m, hm⟩ := h.exists_represents
  induction keys generalizing marked s with
  | nil => exact ⟨hs, Nat.zero_add _⟩
  | cons key keys ih =>
    have hfind := hs.find_eq h key
    rw [List.foldl_cons, markDeleted, mark]
    cases hkey : t.find key with
    | none =>
      rw [hkey] at hfind
      rw [hfind]
      exact ih hs
    | some pos =>
      rw [hkey] at hfind
      by_cases hmeets : Meets t marked key pos
      · have hnone : HashTable.find { t with slots := s } key = none := by
          rw [hfind]
          simp [hmeets]
        rw [hnone]
        dsimp only
        rw [if_pos hmeets]
        exact ih hs
      · have hsome : HashTable.find { t with slots := s } key = some pos := by
          rw [hfind]
          simp [hmeets]
        rw [hsome]
        dsimp only
        rw [if_neg hmeets]
        obtain ⟨mapped, -, hlook⟩ := (find_iff h hm key pos).mp hkey
        have hpos : pos < t.capacity := Slots.lt_of_look hlook
        have hset : Emptied t (pos :: marked) (s.set pos none) := by
          refine ⟨by rw [List.length_set, hs.length_eq], ?_, fun i => ?_⟩
          · intro i hi
            rcases List.mem_cons.mp hi with rfl | hi
            · exact hpos
            · exact hs.marked_lt i hi
          · rw [Slots.look_set s (hs.length_eq ▸ hpos), hs.look_eq]
            by_cases hi : i = pos <;> simp [hi]
        obtain ⟨hempty, hcount⟩ := ih hset
        refine ⟨hempty, ?_⟩
        rw [← hcount, List.length_cons]
        omega

end Emptied

/-! ## The strategies -/

section Batch

variable {t : VariableMap} {m : String → Option VariableMapped} {keys : List String}

/-- Keys that are erased one after the other are gone, and only they are. -/
theorem foldlM_erase_spec (h : t.Wellformed) (hm : t.Represents m) (keys : List String) :
    ∃ t', keys.foldlM erase t = .ok t' ∧ t'.Wellformed ∧
      t'.Represents fun key => if key ∈ keys then none else m key := by
  induction keys generalizing t m with
  | nil => exact ⟨t, rfl, h, by simpa using hm⟩
  | cons key keys ih =>
    obtain ⟨t₁, ht₁, hwell, hrep⟩ := erase_spec h hm key
    obtain ⟨t', ht', hwell', hrep'⟩ := ih hwell hrep
    refine ⟨t', by rw [List.foldlM_cons, ht₁]; exact ht', hwell', ?_⟩
    convert hrep' using 2 with k
    by_cases hk : k = key
    · simp [hk]
    · simp [hk]

theorem eraseMultiple_of_not_rebuilds (hno : ¬ Rebuilds t keys) :
    eraseMultiple t keys = keys.foldlM erase t := by
  unfold eraseMultiple
  match keys with
  | [] => rfl
  | [key] =>
    rw [List.foldlM_cons]
    dsimp only
    cases erase t key <;> rfl
  | _ :: _ :: _ =>
    dsimp only
    rw [if_neg fun hbatch => hno ⟨by simp, hbatch⟩]

theorem eraseMultiple_of_rebuilds (hre : Rebuilds t keys) :
    eraseMultiple t keys =
      if (markDeleted t keys).2 = 0 then .ok t
      else do
        let slots ← ends ((markDeleted t keys).1.slots.rehash (home t.capacity) t.capacity)
        return ⟨slots, t.size - (markDeleted t keys).2⟩ := by
  obtain ⟨htwo, hbatch⟩ := hre
  unfold eraseMultiple
  match keys with
  | [] => simp at htwo
  | [key] => simp at htwo
  | _ :: _ :: _ =>
    dsimp only
    rw [if_pos hbatch]

/-- After a rebuild the keys are gone whose slots were marked, and only they are. -/
theorem rebuild_spec (h : t.Wellformed) (hm : t.Represents m) (hre : Rebuilds t keys) :
    ∃ t', eraseMultiple t keys = .ok t' ∧ t'.Wellformed ∧
      t'.Represents fun key => if ∃ pos ∈ marks t keys, t.find key = some pos then none
        else m key := by
  obtain ⟨t', ht', hwell⟩ := eraseMultiple_wellformed h keys
  refine ⟨t', ht', hwell, ?_⟩
  obtain ⟨hempty, hcount⟩ := markDeleted_emptied h (Emptied.refl t) keys
  rw [eraseMultiple_of_rebuilds hre] at ht'
  change Emptied t (marks t keys) (markDeleted t keys).1.slots at hempty
  change (markDeleted t keys).2 + 0 = (marks t keys).length at hcount
  -- the entries that are left are those in the slots that are not marked
  have hleft (key : String) (mapped : VariableMapped) :
      (if ∃ pos ∈ marks t keys, t.find key = some pos then none else m key) = some mapped ↔
        (key, mapped) ∈ (markDeleted t keys).1.slots.entries := by
    rw [Slots.mem_entries]
    constructor
    · intro hkey
      split_ifs at hkey with hmarked
      obtain ⟨pos, hlook⟩ := Slots.mem_entries.mp ((hm key mapped).mp hkey)
      have hfind := (find_iff h hm key pos).mpr ⟨mapped, hkey, hlook⟩
      refine ⟨pos, ?_⟩
      rw [hempty.look_eq, if_neg fun hpos => hmarked ⟨pos, hpos, hfind⟩, hlook]
    · rintro ⟨pos, hlook⟩
      rw [hempty.look_eq] at hlook
      split_ifs at hlook with hpos
      have hkey := (hm key mapped).mpr (Slots.mem_entries.mpr ⟨pos, hlook⟩)
      have hfind := (find_iff h hm key pos).mpr ⟨mapped, hkey, hlook⟩
      rw [if_neg, hkey]
      rintro ⟨pos', hpos', hfind'⟩
      rw [hfind, Option.some.injEq] at hfind'
      exact hpos (hfind' ▸ hpos')
  split_ifs at ht' with hzero
  · cases ht'
    have hnil : marks t keys = [] := List.length_eq_zero_iff.mp (by omega)
    simpa [hnil] using hm
  · intro key mapped
    rw [hleft]
    have hlt : (markDeleted t keys).1.slots.entries.length < t.capacity := by
      obtain ⟨-, gone, -, hperm⟩ := markDeleted_spec t keys
      have hlen := hperm.length_eq
      rw [List.length_append] at hlen
      have := h.entries_lt
      have hcap : t.capacity = t.slots.length := rfl
      omega
    obtain ⟨slots, hrehash, -, hperm, -⟩ := Slots.rehash_spec (home_lt h.capacity_pos) hlt
    rw [hrehash] at ht'
    cases ht'
    exact hperm.mem_iff.symm

/-- What a batch erases: all its keys, or in a rebuild those whose slots were marked. -/
theorem eraseMultiple_spec (h : t.Wellformed) (hm : t.Represents m) (keys : List String) :
    ∃ t', eraseMultiple t keys = .ok t' ∧ t'.Wellformed ∧
      t'.Represents fun key =>
        if key ∈ keys ∧ (Rebuilds t keys → ∃ pos ∈ marks t keys, t.find key = some pos) then none
        else m key := by
  by_cases hre : Rebuilds t keys
  · obtain ⟨t', ht', hwell, hrep⟩ := rebuild_spec h hm hre
    refine ⟨t', ht', hwell, ?_⟩
    convert hrep using 3 with key
    constructor
    · exact fun hkey => hkey.2 hre
    · rintro ⟨pos, hpos, hfind⟩
      obtain ⟨a, ha, hfa⟩ := mem_marks hpos
      exact ⟨find_inj h hfa hfind ▸ ha, fun _ => ⟨pos, hpos, hfind⟩⟩
  · obtain ⟨t', ht', hwell, hrep⟩ := foldlM_erase_spec h hm keys
    refine ⟨t', by rw [eraseMultiple_of_not_rebuilds hre, ht'], hwell, ?_⟩
    simpa [hre] using hrep

/-- Two tables that stand for one map have the same size. -/
theorem size_eq_of_represents {t' : VariableMap} (h : t.Wellformed) (h' : t'.Wellformed)
    (hm : t.Represents m) (hm' : t'.Represents m) : t.size = t'.size := by
  rw [h.size_eq, h'.size_eq]
  refine List.Perm.length_eq ?_
  refine (List.perm_ext_iff_of_nodup (h.distinct.of_map _) (h'.distinct.of_map _)).mpr ?_
  rintro ⟨key, mapped⟩
  rw [← hm key mapped, hm' key mapped]

/-- The batch leaves what its keys leave one after the other, unless a rebuild comes to a key whose
chain an earlier key of the batch stands in. -/
theorem eraseMultiple_likeEach_iff (h : t.Wellformed) (keys : List String) :
    ErasesLikeEach t keys ↔ (Rebuilds t keys → KeepsChains t keys) := by
  obtain ⟨m, hm⟩ := h.exists_represents
  obtain ⟨t₂, ht₂, hwell₂, hrep₂⟩ := foldlM_erase_spec h hm keys
  by_cases hre : Rebuilds t keys
  · obtain ⟨t₁, ht₁, hwell₁, hrep₁⟩ := rebuild_spec h hm hre
    rw [← all_marked_iff h keys]
    constructor
    · rintro ⟨s₁, s₂, hs₁, hs₂, -, -, hagree⟩ - key hkey pos hfind
      cases ht₁.symm.trans hs₁
      cases ht₂.symm.trans hs₂
      have hkey' := hagree key
      rw [at?_eq hwell₁ hrep₁, at?_eq hwell₂ hrep₂, if_pos hkey] at hkey'
      obtain ⟨mapped, hmapped, -⟩ := (find_iff h hm key pos).mp hfind
      split_ifs at hkey' with hmarked
      · obtain ⟨pos', hpos', hfind'⟩ := hmarked
        rw [hfind, Option.some.injEq] at hfind'
        exact hfind' ▸ hpos'
      · rw [hmapped] at hkey'
        cases hkey'
    · intro hall
      have hsame : (fun key => if ∃ pos ∈ marks t keys, t.find key = some pos then none
          else m key) = fun key => if key ∈ keys then none else m key := by
        funext key
        rcases find_spec h hm key with ⟨pos, mapped, hfind, -, -⟩ | ⟨-, hnone⟩
        · by_cases hkey : key ∈ keys
          · rw [if_pos hkey, if_pos ⟨pos, hall hre key hkey pos hfind, hfind⟩]
          · rw [if_neg hkey, if_neg]
            rintro ⟨pos', hpos', hfind'⟩
            obtain ⟨a, ha, hfa⟩ := mem_marks hpos'
            exact hkey (find_inj h hfa hfind' ▸ ha)
        · rw [hnone, ite_self, ite_self]
      rw [hsame] at hrep₁
      refine ⟨t₁, t₂, ht₁, ht₂, hwell₁, size_eq_of_represents hwell₁ hwell₂ hrep₁ hrep₂, ?_⟩
      intro key
      rw [at?_eq hwell₁ hrep₁, at?_eq hwell₂ hrep₂]
  · refine ⟨fun _ hre' => absurd hre' hre, fun _ => ?_⟩
    refine ⟨t₂, t₂, ?_, ht₂, hwell₂, rfl, fun _ => rfl⟩
    rw [eraseMultiple_of_not_rebuilds hre, ht₂]

/-- Both keys of the batch stand in the slots where their searches start. -/
theorem eraseMultiple_likeEach_apart :
    ∃ t, apply HashTable.create (.insert "A" ⟨some "1", false, false⟩) = .ok t ∧
      ErasesLikeEach t ["A", "A"] := by
  have hallowed : (Op.insert "A" ⟨some "1", false, false⟩).Allowed HashTable.create := trivial
  obtain ⟨t, ht, hwell, -⟩ := apply_spec create_wellformed create_represents hallowed
  refine ⟨t, ht, (eraseMultiple_likeEach_iff hwell ["A", "A"]).mpr fun _ => ?_⟩
  intro before key after heq hnew a ha
  match before with
  | [] => cases ha
  | [b] =>
    simp only [List.singleton_append, List.cons.injEq] at heq
    obtain ⟨rfl, rfl, -⟩ := heq
    exact absurd List.mem_cons_self hnew
  | b :: c :: rest =>
    have hlen := congrArg List.length heq
    simp at hlen

end Batch

/-! ## Two names with one hash slot -/

/-- The slots that a new table has for `A` and `Q` are the same. -/
def crowded : VariableMap :=
  let set (t : VariableMap) (key : String) : VariableMap :=
    match t.insert key ⟨some "1", false, false⟩ with
    | .ok (t, _) => t
    | .error _ => t
  set (set HashTable.create "A") "Q"

/-- What is left of a variable after an operation on the map. -/
def leftover (result : Except Fault VariableMap) (key : String) :
    Option (Option VariableMapped) :=
  match result with
  | .ok t => some (t.at? key)
  | .error _ => none

theorem crowded_reaches :
    Reaches crowded ((Op.insert "Q" ⟨some "1", false, false⟩).define
      (match HashTable.create.insert "A" ⟨some "1", false, false⟩ with
        | .ok (t, _) => t
        | .error _ => HashTable.create)
      ((Op.insert "A" ⟨some "1", false, false⟩).define HashTable.create fun _ => none)) :=
  .step (.step .create (.insert "A" ⟨some "1", false, false⟩) rfl)
    (.insert "Q" ⟨some "1", false, false⟩) rfl

/-- The batch of both leaves `Q` in the map. -/
theorem eraseMultiple_leaves :
    crowded.Wellformed ∧ ¬ ErasesLikeEach crowded ["A", "Q"] := by
  refine ⟨crowded_reaches.spec.1, ?_⟩
  rintro ⟨t₁, t₂, ht₁, ht₂, -, -, hagree⟩
  have hbatch : leftover (eraseMultiple crowded ["A", "Q"]) "Q" =
      some (some ⟨some "1", false, false⟩) := by decide +kernel
  have heach : leftover (["A", "Q"].foldlM erase crowded) "Q" = some none := by decide +kernel
  rw [ht₁] at hbatch
  rw [ht₂] at heach
  simp only [leftover, Option.some.injEq] at hbatch heach
  have hsame := hagree "Q"
  rw [hbatch, heach] at hsame
  cases hsame

end Migash.VariableMap
