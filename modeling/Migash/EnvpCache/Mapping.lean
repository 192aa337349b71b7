import Migash.EnvpCache
import Migash.VariableMap.EraseMultiple
import Mathlib.Data.List.TakeWhile

/-! # Mapping over a store

`variable_store_map` writes an update to its entry at once. Removals and renames
wait for the end of the loop: first all keys are erased in one batch, then the
renamed variables are inserted. What is meant is stated for all answers together.
-/

namespace Migash.CachedStore

open Library HashTable VariableMap

/-! ## What is meant -/

/-- A variable and what the callback answered for it. -/
structure Answered where
  name : String
  old : VariableMapped
  answer : MapAnswer

namespace Answered

/-- The store does not take the answer. -/
def rejected (x : Answered) : Bool :=
  x.answer.action = .update && (MapAnswer.error? x.answer x.old).isSome

/-- What the answer leaves of the variable under its own name. -/
def leaves (x : Answered) : Option VariableMapped :=
  match x.answer.action with
  | .skip => some x.old
  | .remove => none
  | .update => if x.answer.name = x.name then some (MapAnswer.written x.answer x.old) else none

/-- The variable under its new name. -/
def moved (x : Answered) : Option (String × VariableMapped) :=
  if x.answer.action = .update ∧ x.answer.name ≠ x.name then
    some (x.answer.name, MapAnswer.written x.answer x.old)
  else none

/-- The entry of the variable at the end of the loop. -/
def entry (x : Answered) : String × VariableMapped := (x.name, x.leaves.getD x.old)

end Answered

section Answers

variable {U : Type} (fn : String → VariableMapped → U → MapAnswer × U)

/-- The callback is called once for each entry. -/
def answers : List (String × VariableMapped) → U → List Answered
  | [], _ => []
  | (name, old) :: rest, u => ⟨name, old, (fn name old u).1⟩ :: answers rest (fn name old u).2

/-- The answers for the variables of a store. -/
def storeAnswers (s : CachedStore) (u : U) : List Answered := answers fn s.map.slots.entries u

/-- The names that are not their variables' any more. -/
def givenUp (as : List Answered) : List String :=
  (as.filter fun x => x.leaves.isNone).map Answered.name

/-- The last of the renamed variables that have a name. -/
def latest (renames : List (String × VariableMapped)) (name : String) : Option VariableMapped :=
  (renames.reverse.find? (·.1 = name)).map Prod.snd

/-- What the answers leave under the names of their variables. -/
def kept (as : List Answered) (name : String) : Option VariableMapped :=
  (as.find? (·.name = name)).bind Answered.leaves

/-- All answers at once: a name is that of the variable which was given it, and otherwise that of
what is left of its own variable. -/
def settled (as : List Answered) (name : String) : Option VariableMapped :=
  (latest (as.filterMap Answered.moved) name).or (kept as name)

/-- Either all answers are carried out at once, or there is an error and nothing has changed. -/
structure MapsAtOnce (s : CachedStore) (u : U) : Prop where
  outcome :
    (∃ s', mapStore fn s u = .ok (none, s') ∧
      ∀ name, s'.map.at? name = settled (storeAnswers fn s u) name) ∨
    ∃ e s', mapStore fn s u = .ok (some e, s') ∧
      (∀ name, s'.map.at? name = s.map.at? name) ∧ s'.generation = s.generation

/-- An answer that is rejected comes before every change of an entry. Otherwise every variable that
is renamed has a value, and a name that is given up has its slot marked in the batch, if this is a
rebuild, or is given to another variable. -/
structure Settles (s : CachedStore) (u : U) : Prop where
  untouched : (∃ x ∈ storeAnswers fn s u, x.rejected) →
    ∀ x ∈ (storeAnswers fn s u).takeWhile (!·.rejected), x.entry = (x.name, x.old)
  valued : (∀ x ∈ storeAnswers fn s u, ¬ x.rejected) →
    ∀ x ∈ storeAnswers fn s u, x.moved.isSome → x.old.value.isSome
  erased : (∀ x ∈ storeAnswers fn s u, ¬ x.rejected) →
    Rebuilds s.map (givenUp (storeAnswers fn s u)) → ∀ name ∈ givenUp (storeAnswers fn s u),
      (∃ pos ∈ marks s.map (givenUp (storeAnswers fn s u)), s.map.find name = some pos) ∨
      name ∈ ((storeAnswers fn s u).filterMap Answered.moved).map Prod.fst

end Answers

/-! ## The answers -/

section Facts

variable {U : Type} {fn : String → VariableMapped → U → MapAnswer × U}

theorem map_answers (fn : String → VariableMapped → U → MapAnswer × U)
    (entries : List (String × VariableMapped)) (u : U) :
    (answers fn entries u).map (fun x => (x.name, x.old)) = entries := by
  induction entries generalizing u with
  | nil => rfl
  | cons entry rest ih =>
    obtain ⟨name, old⟩ := entry
    rw [answers, List.map_cons, ih]

theorem names_answers (entries : List (String × VariableMapped)) (u : U) :
    (answers fn entries u).map Answered.name = entries.map Prod.fst := by
  conv_rhs => rw [← map_answers fn entries u, List.map_map]
  rfl

/-- Of variables with different names the one that is looked for is found. -/
theorem find?_answered {as : List Answered} (hdistinct : (as.map Answered.name).Nodup)
    {x : Answered} (hx : x ∈ as) : as.find? (·.name = x.name) = some x := by
  induction as with
  | nil => cases hx
  | cons y as ih =>
    obtain ⟨hy, hrest⟩ := List.nodup_cons.mp hdistinct
    rcases List.mem_cons.mp hx with rfl | hx
    · exact List.find?_cons_of_pos (by simp)
    · rw [List.find?_cons_of_neg, ih hrest hx]
      have hmem : x.name ∈ as.map Answered.name := List.mem_map_of_mem hx
      simp only [decide_eq_true_eq]
      rintro heq
      exact hy (heq ▸ hmem)

theorem latest_cons (r : String × VariableMapped) (renames : List (String × VariableMapped))
    (name : String) : latest (r :: renames) name =
      (latest renames name).or (if r.1 = name then some r.2 else none) := by
  unfold latest
  rw [List.reverse_cons, List.find?_append]
  cases renames.reverse.find? (·.1 = name) with
  | some found => rfl
  | none =>
    by_cases hr : r.1 = name <;> simp [hr]

theorem latest_eq_none {renames : List (String × VariableMapped)} {name : String} :
    latest renames name = none ↔ name ∉ renames.map Prod.fst := by
  unfold latest
  rw [Option.map_eq_none_iff, List.find?_eq_none, List.mem_map]
  constructor
  · rintro h ⟨r, hr, rfl⟩
    exact h r (List.mem_reverse.mpr hr) (by simp)
  · intro h r hr heq
    exact h ⟨r, List.mem_reverse.mp hr, by simpa using heq⟩

/-! ## The loop -/

/-- What an answer adds to what is pending. -/
def Answered.pend (x : Answered) (p : Pending) : Pending where
  removals := p.removals ++ givenUp [x]
  renames := p.renames ++ x.moved.toList

/-- At an answer that is rejected the loop stops. -/
theorem mapSlots_rejected {key : String} {old : VariableMapped} {u : U}
    (h : Answered.rejected ⟨key, old, (fn key old u).1⟩ = true)
    (rest : Slots (String × VariableMapped)) (p : Pending) :
    ∃ e, mapSlots fn (some (key, old) :: rest) u p = (some (key, old) :: rest, .error e) := by
  cases hfn : fn key old u with | mk a u' =>
  simp only [Answered.rejected, hfn, Bool.and_eq_true, decide_eq_true_eq] at h
  obtain ⟨haction, herror⟩ := h
  obtain ⟨e, he⟩ := Option.isSome_iff_exists.mp herror
  exact ⟨e, by simp only [mapSlots, hfn, haction, he]⟩

/-- At every other answer it writes the entry and goes on. -/
theorem mapSlots_accepted {key : String} {old : VariableMapped} {u : U}
    (h : Answered.rejected ⟨key, old, (fn key old u).1⟩ = false)
    (rest : Slots (String × VariableMapped)) (p : Pending) :
    mapSlots fn (some (key, old) :: rest) u p =
      (some (Answered.entry ⟨key, old, (fn key old u).1⟩) ::
          (mapSlots fn rest (fn key old u).2
            (Answered.pend ⟨key, old, (fn key old u).1⟩ p)).1,
        (mapSlots fn rest (fn key old u).2
          (Answered.pend ⟨key, old, (fn key old u).1⟩ p)).2) := by
  cases hfn : fn key old u with | mk a u' =>
  rw [hfn] at h
  cases haction : a.action with
  | skip =>
    simp [mapSlots, hfn, haction, Answered.entry, Answered.leaves, Answered.pend, Answered.moved,
      givenUp]
  | remove =>
    simp [mapSlots, hfn, haction, Answered.entry, Answered.leaves, Answered.pend, Answered.moved,
      givenUp]
  | update =>
    have herror : MapAnswer.error? a old = none := by simpa [Answered.rejected, haction] using h
    by_cases hname : a.name = key <;>
      simp [mapSlots, hfn, haction, herror, hname, Answered.entry, Answered.leaves, Answered.pend,
        Answered.moved, givenUp]

/-- The entries before the answer that is rejected are written, and the others are as they were. -/
theorem entries_mapSlots (slots : Slots (String × VariableMapped)) (u : U) (p : Pending) :
    Slots.entries (mapSlots fn slots u p).1 =
      ((answers fn slots.entries u).takeWhile (!·.rejected)).map Answered.entry ++
        ((answers fn slots.entries u).dropWhile (!·.rejected)).map fun x => (x.name, x.old) := by
  induction slots generalizing u p with
  | nil => rfl
  | cons slot rest ih =>
    cases slot with
    | none => exact ih u p
    | some entry =>
      obtain ⟨key, old⟩ := entry
      have hcons (x : String × VariableMapped) (s : Slots (String × VariableMapped)) :
          Slots.entries (some x :: s) = x :: Slots.entries s :=
        List.reduceOption_cons_of_some _ _
      rw [hcons, answers]
      cases hrejected : Answered.rejected ⟨key, old, (fn key old u).1⟩ with
      | true =>
        obtain ⟨e, he⟩ := mapSlots_rejected hrejected rest p
        rw [he, hcons, List.takeWhile_cons_of_neg (by simp [hrejected]),
          List.dropWhile_cons_of_neg (by simp [hrejected]), List.map_cons, map_answers]
        rfl
      | false =>
        rw [mapSlots_accepted hrejected, hcons, ih,
          List.takeWhile_cons_of_pos (by simp [hrejected]),
          List.dropWhile_cons_of_pos (by simp [hrejected])]
        rfl

/-- The loop stops with an error at an answer that is rejected. -/
theorem mapSlots_error_of_rejected {slots : Slots (String × VariableMapped)} {u : U} (p : Pending)
    (h : ∃ x ∈ answers fn slots.entries u, x.rejected) :
    ∃ e, (mapSlots fn slots u p).2 = .error e := by
  induction slots generalizing u p with
  | nil => simp [Slots.entries, answers] at h
  | cons slot rest ih =>
    cases slot with
    | none => exact ih p h
    | some entry =>
      obtain ⟨key, old⟩ := entry
      cases hrejected : Answered.rejected ⟨key, old, (fn key old u).1⟩ with
      | true =>
        obtain ⟨e, he⟩ := mapSlots_rejected hrejected rest p
        exact ⟨e, by rw [he]⟩
      | false =>
        rw [mapSlots_accepted hrejected]
        refine ih _ ?_
        obtain ⟨x, hx, hrej⟩ := h
        rcases List.mem_cons.mp hx with rfl | hx
        · rw [hrejected] at hrej
          cases hrej
        · exact ⟨x, hx, hrej⟩

/-- When no answer is rejected all removals and renames are pending at the end. -/
theorem mapSlots_ok {slots : Slots (String × VariableMapped)} {u : U} (p : Pending)
    (h : ∀ x ∈ answers fn slots.entries u, ¬ x.rejected) :
    (mapSlots fn slots u p).2 = .ok
      { removals := p.removals ++ givenUp (answers fn slots.entries u)
        renames := p.renames ++ (answers fn slots.entries u).filterMap Answered.moved } := by
  induction slots generalizing u p with
  | nil => simp [Slots.entries, answers, mapSlots, givenUp]
  | cons slot rest ih =>
    cases slot with
    | none => exact ih p h
    | some entry =>
      obtain ⟨key, old⟩ := entry
      have hcons : Slots.entries (some (key, old) :: rest) = (key, old) :: Slots.entries rest :=
        List.reduceOption_cons_of_some _ _
      rw [hcons, answers] at h ⊢
      obtain ⟨hfirst, hrest⟩ := List.forall_mem_cons.mp h
      rw [mapSlots_accepted (by simpa using hfirst)]
      dsimp only
      rw [ih _ hrest]
      set x : Answered := ⟨key, old, (fn key old u).1⟩
      have hgone : givenUp (x :: answers fn (Slots.entries rest) (fn key old u).2) =
          givenUp [x] ++ givenUp (answers fn (Slots.entries rest) (fn key old u).2) := by
        unfold givenUp
        rw [← List.map_append, ← List.filter_append]
        rfl
      rw [hgone, List.filterMap_cons]
      cases hmoved : x.moved <;> simp [Answered.pend, hmoved]

/-- The table at the end of the loop. -/
def loopTable (fn : String → VariableMapped → U → MapAnswer × U) (s : CachedStore) (u : U) :
    VariableMap := { s.map with slots := (mapSlots fn s.map.slots u {}).1 }

theorem loopTable_keySlots (fn : String → VariableMapped → U → MapAnswer × U) (s : CachedStore)
    (u : U) : keySlots (loopTable fn s u).slots = keySlots s.map.slots := keySlots_mapSlots s.map.slots u {}

theorem loopTable_wellformed {s : CachedStore} (h : s.map.Wellformed)
    (fn : String → VariableMapped → U → MapAnswer × U) (u : U) :
    (loopTable fn s u).Wellformed := h.of_keySlots (loopTable_keySlots fn s u)

end Facts

/-! ## Tables with the same keys -/

section Keys

variable {t : VariableMap} {slots : Slots (String × VariableMapped)}

/-- A key is found where its slot has it. -/
theorem find_iff_keySlots (h : t.Wellformed) (key : String) (pos : ℕ) :
    t.find key = some pos ↔ Slots.look (keySlots t.slots) pos = some key := by
  obtain ⟨m, hm⟩ := h.exists_represents
  rw [find_iff h hm, look_keySlots, Option.map_eq_some_iff]
  constructor
  · rintro ⟨mapped, -, hlook⟩
    exact ⟨(key, mapped), hlook, rfl⟩
  · rintro ⟨⟨key', mapped⟩, hlook, rfl⟩
    exact ⟨mapped, (hm key' mapped).mpr (Slots.mem_entries.mpr ⟨pos, hlook⟩), hlook⟩

theorem find_of_keySlots (h : t.Wellformed) (hkeys : keySlots slots = keySlots t.slots)
    (key : String) : HashTable.find { t with slots } key = t.find key := by
  ext pos
  rw [find_iff_keySlots h, find_iff_keySlots (h.of_keySlots hkeys), hkeys]

theorem capacity_of_keySlots (hkeys : keySlots slots = keySlots t.slots) :
    HashTable.capacity { t with slots } = t.capacity := by
  have hlen := congrArg List.length hkeys
  simpa [keySlots, capacity] using hlen

theorem marks_of_keySlots (h : t.Wellformed) (hkeys : keySlots slots = keySlots t.slots)
    (keys : List String) : marks { t with slots } keys = marks t keys := by
  have hmeets (marked : List ℕ) (key : String) (pos : ℕ) :
      Meets { t with slots } marked key pos ↔ Meets t marked key pos := by
    unfold Meets
    rw [capacity_of_keySlots hkeys]
  have hmark : mark { t with slots } = mark t := by
    funext marked key
    unfold mark
    rw [find_of_keySlots h hkeys]
    cases t.find key with
    | none => rfl
    | some pos => exact if_congr (hmeets marked key pos) rfl rfl
  rw [marks, marks, hmark]

theorem rebuilds_of_keySlots (hkeys : keySlots slots = keySlots t.slots) (keys : List String) :
    Rebuilds { t with slots } keys ↔ Rebuilds t keys := by
  unfold Rebuilds
  rw [capacity_of_keySlots hkeys]

end Keys

/-! ## The insertions -/

section Insertions

variable {t : VariableMap} {m : String → Option VariableMapped}

/-- A variable without a value cannot be inserted. -/
theorem insertRenamed_spec (h : t.Wellformed) (hm : t.Represents m) (r : String × VariableMapped) :
    if r.2.value.isSome then
      ∃ t', insertRenamed t r = .ok t' ∧ t'.Wellformed ∧
        t'.Represents (Function.update m r.1 (some r.2))
    else ∃ e, insertRenamed t r = .error e := by
  obtain ⟨name, value, exported, readOnly⟩ := r
  cases value with
  | none => exact ⟨_, rfl⟩
  | some value =>
    obtain ⟨t', pos, ht', hwell, hrep⟩ :=
      insertOrAssign_spec h hm name ⟨some value, exported, readOnly⟩
    refine ⟨t', ?_, hwell, hrep⟩
    unfold insertRenamed
    dsimp only [stringCreateFrom, bind, Except.bind]
    rw [ht']
    rfl

/-- The renamed variables are inserted, the later ones over the earlier ones. -/
theorem insertRenames_spec (h : t.Wellformed) (hm : t.Represents m)
    {renames : List (String × VariableMapped)} (hvalues : ∀ r ∈ renames, r.2.value.isSome) :
    ∃ t', renames.foldlM insertRenamed t = .ok t' ∧ t'.Wellformed ∧
      t'.Represents fun name => (latest renames name).or (m name) := by
  induction renames generalizing t m with
  | nil => exact ⟨t, rfl, h, by simpa [latest] using hm⟩
  | cons r renames ih =>
    have hone := insertRenamed_spec h hm r
    rw [if_pos (hvalues r List.mem_cons_self)] at hone
    obtain ⟨t₁, ht₁, hwell, hrep⟩ := hone
    obtain ⟨t', ht', hwell', hrep'⟩ := ih hwell hrep fun r' hr' =>
      hvalues r' (List.mem_cons_of_mem r hr')
    refine ⟨t', by rw [List.foldlM_cons, ht₁]; exact ht', hwell', ?_⟩
    convert hrep' using 2 with name
    rw [latest_cons]
    by_cases hr : r.1 = name
    · subst hr
      cases latest renames r.1 <;> simp
    · cases latest renames name <;> simp [hr, Function.update_of_ne (Ne.symm hr)]

/-- All of them have values if the insertions end. -/
theorem values_of_insertRenames (h : t.Wellformed) {t' : VariableMap}
    {renames : List (String × VariableMapped)} (hok : renames.foldlM insertRenamed t = .ok t') :
    ∀ r ∈ renames, r.2.value.isSome := by
  induction renames generalizing t with
  | nil => simp
  | cons r renames ih =>
    rw [List.foldlM_cons] at hok
    obtain ⟨t₁, hone, hrest⟩ := except_bind_eq_ok.mp hok
    obtain ⟨m, hm⟩ := h.exists_represents
    have hspec := insertRenamed_spec h hm r
    split_ifs at hspec with hvalue
    · refine List.forall_mem_cons.mpr ⟨hvalue, ih ?_ hrest⟩
      exact insertRenamed_wellformed h hone
    · obtain ⟨e, he⟩ := hspec
      rw [hone] at he
      cases he

end Insertions

/-! ## The whole mapping -/

section Whole

variable {U : Type} {fn : String → VariableMapped → U → MapAnswer × U} {s : CachedStore} {u : U}

/-- No name is answered for twice. -/
theorem names_nodup (h : s.map.Wellformed) (u : U) :
    ((storeAnswers fn s u).map Answered.name).Nodup := by
  rw [storeAnswers, names_answers]
  exact h.distinct

theorem kept_of_mem (h : s.map.Wellformed) {x : Answered} (hx : x ∈ storeAnswers fn s u) :
    kept (storeAnswers fn s u) x.name = x.leaves := by
  rw [kept, find?_answered (names_nodup h u) hx]
  rfl

theorem kept_of_not_mem {name : String}
    (hname : name ∉ (storeAnswers fn s u).map Answered.name) :
    kept (storeAnswers fn s u) name = none := by
  have hnone : (storeAnswers fn s u).find? (·.name = name) = none := by
    refine List.find?_eq_none.mpr fun x hx heq => hname ?_
    exact List.mem_map.mpr ⟨x, hx, by simpa using heq⟩
  rw [kept, hnone]
  rfl

theorem mem_givenUp (h : s.map.Wellformed) {x : Answered} (hx : x ∈ storeAnswers fn s u) :
    x.name ∈ givenUp (storeAnswers fn s u) ↔ x.leaves = none := by
  unfold givenUp
  rw [List.mem_map]
  constructor
  · rintro ⟨y, hy, hname⟩
    obtain ⟨hy, hgone⟩ := List.mem_filter.mp hy
    obtain rfl : y = x := List.inj_on_of_nodup_map (names_nodup h u) hy hx hname
    exact Option.isNone_iff_eq_none.mp hgone
  · exact fun hgone => ⟨x, List.mem_filter.mpr ⟨hx, by rw [hgone]; rfl⟩, rfl⟩

theorem mem_names_of_givenUp {as : List Answered} {name : String} (hname : name ∈ givenUp as) :
    ∃ x ∈ as, x.name = name := by
  obtain ⟨x, hx, rfl⟩ := List.mem_map.mp hname
  exact ⟨x, (List.mem_filter.mp hx).1, rfl⟩

/-- The entries of the loop's table when no answer is rejected. -/
theorem loopTable_entries (haccepted : ∀ x ∈ storeAnswers fn s u, ¬ x.rejected) :
    (loopTable fn s u).slots.entries = (storeAnswers fn s u).map Answered.entry := by
  have hall : ∀ x ∈ storeAnswers fn s u, (!x.rejected) = true := by simpa using haccepted
  have hentries : (loopTable fn s u).slots.entries =
      ((storeAnswers fn s u).takeWhile (!·.rejected)).map Answered.entry ++
        ((storeAnswers fn s u).dropWhile (!·.rejected)).map fun x => (x.name, x.old) :=
    entries_mapSlots s.map.slots u {}
  rw [List.takeWhile_eq_self_iff.mpr hall, List.dropWhile_eq_nil_iff.mpr hall] at hentries
  simpa using hentries

section Accepted

variable (h : s.map.Wellformed) (haccepted : ∀ x ∈ storeAnswers fn s u, ¬ x.rejected)
include h haccepted

theorem loopTable_at?_of_mem {x : Answered} (hx : x ∈ storeAnswers fn s u) :
    (loopTable fn s u).at? x.name = some (x.leaves.getD x.old) := by
  rw [at?_eq_some (loopTable_wellformed h fn u), loopTable_entries haccepted]
  exact List.mem_map.mpr ⟨x, hx, rfl⟩

theorem loopTable_at?_of_not_mem {name : String}
    (hname : name ∉ (storeAnswers fn s u).map Answered.name) :
    (loopTable fn s u).at? name = none := by
  refine Option.eq_none_iff_forall_not_mem.mpr fun v hv => ?_
  have hmem := (at?_eq_some (loopTable_wellformed h fn u) name v).mp hv
  rw [loopTable_entries haccepted] at hmem
  obtain ⟨x, hx, heq⟩ := List.mem_map.mp hmem
  exact hname (List.mem_map.mpr ⟨x, hx, congrArg Prod.fst heq⟩)

end Accepted

/-- The batch erases the name. -/
def Erased (fn : String → VariableMapped → U → MapAnswer × U) (s : CachedStore) (u : U)
    (name : String) : Prop :=
  name ∈ givenUp (storeAnswers fn s u) ∧ (Rebuilds s.map (givenUp (storeAnswers fn s u)) →
    ∃ pos ∈ marks s.map (givenUp (storeAnswers fn s u)), s.map.find name = some pos)

instance (name : String) : Decidable (Erased fn s u name) :=
  inferInstanceAs (Decidable (_ ∧ (_ → _)))

theorem removePending_eq (t : VariableMap) (p : Pending) :
    removePending t p = eraseMultiple t p.removals := by
  unfold removePending
  split_ifs with hnil
  · rw [hnil]
    rfl
  · rfl

/-- The mapping behind its loop. -/
theorem mapStore_eq (fn : String → VariableMapped → U → MapAnswer × U) (s : CachedStore) (u : U) :
    mapStore fn s u =
      match (mapSlots fn s.map.slots u {}).2 with
      | .error e => .ok (some e, { s with map := loopTable fn s u })
      | .ok p => do
        let map ← removePending (loopTable fn s u) p
        let map ← p.renames.foldlM insertRenamed map
        return (none, { s with map }.touch) := rfl

/-- When no answer is rejected the mapping ends with the renamed variables over what the batch has
left, or it does not end for want of a value. -/
theorem mapStore_accepted (h : s.map.Wellformed)
    (haccepted : ∀ x ∈ storeAnswers fn s u, ¬ x.rejected) :
    if ∀ r ∈ (storeAnswers fn s u).filterMap Answered.moved, r.2.value.isSome then
      ∃ s', mapStore fn s u = .ok (none, s') ∧ ∀ name, s'.map.at? name =
        (latest ((storeAnswers fn s u).filterMap Answered.moved) name).or
          (if Erased fn s u name then none else (loopTable fn s u).at? name)
    else ∀ r, mapStore fn s u ≠ .ok r := by
  have hkeys := loopTable_keySlots fn s u
  have hwell := loopTable_wellformed h fn u
  obtain ⟨t₁, ht₁, hwell₁, hrep₁⟩ := eraseMultiple_spec hwell
    (fun key mapped => at?_eq_some hwell key mapped) (givenUp (storeAnswers fn s u))
  have hloop := mapSlots_ok {} haccepted
  change _ = Except.ok (Pending.mk ([] ++ givenUp (storeAnswers fn s u))
    ([] ++ (storeAnswers fn s u).filterMap Answered.moved)) at hloop
  rw [mapStore_eq, hloop]
  dsimp only [List.nil_append]
  rw [removePending_eq, ht₁]
  split_ifs with hvalues
  · obtain ⟨t₂, ht₂, hwell₂, hrep₂⟩ := insertRenames_spec hwell₁ hrep₁ hvalues
    refine ⟨_, by dsimp only [bind, Except.bind]; rw [ht₂]; rfl, fun name => ?_⟩
    refine (at?_eq hwell₂ hrep₂ name).trans ?_
    congr 1
    refine if_congr ?_ rfl rfl
    have hrebuilds : Rebuilds (loopTable fn s u) (givenUp (storeAnswers fn s u)) ↔ _ :=
      rebuilds_of_keySlots hkeys _
    have hmarks : marks (loopTable fn s u) (givenUp (storeAnswers fn s u)) = _ :=
      marks_of_keySlots h hkeys _
    have hfind : (loopTable fn s u).find name = _ := find_of_keySlots h hkeys name
    rw [hrebuilds, hmarks, hfind]
    rfl
  · rintro ⟨e, s'⟩ hok
    obtain ⟨t₂, ht₂, hrest⟩ := except_bind_eq_ok.mp hok
    obtain ⟨t₃, ht₃, -⟩ := except_bind_eq_ok.mp hrest
    cases ht₂
    exact hvalues (values_of_insertRenames hwell₁ ht₃)

/-- Every name is as it is meant if and only if each name that is given up is erased or given to
another variable. -/
theorem settled_iff (h : s.map.Wellformed)
    (haccepted : ∀ x ∈ storeAnswers fn s u, ¬ x.rejected) :
    (∀ name, (latest ((storeAnswers fn s u).filterMap Answered.moved) name).or
        (if Erased fn s u name then none else (loopTable fn s u).at? name) =
      settled (storeAnswers fn s u) name) ↔
    ∀ name ∈ givenUp (storeAnswers fn s u), Erased fn s u name ∨
      name ∈ ((storeAnswers fn s u).filterMap Answered.moved).map Prod.fst := by
  constructor
  · intro hall name hname
    by_contra hnot
    obtain ⟨herased, hmoved⟩ := not_or.mp hnot
    have hlatest := latest_eq_none.mpr hmoved
    obtain ⟨x, hx, rfl⟩ := mem_names_of_givenUp hname
    have heq := hall x.name
    rw [settled, hlatest, if_neg herased, loopTable_at?_of_mem h haccepted hx, kept_of_mem h hx,
      (mem_givenUp h hx).mp hname] at heq
    cases heq
  · intro hall name
    rw [settled]
    cases hlatest : latest ((storeAnswers fn s u).filterMap Answered.moved) name with
    | some v => rfl
    | none =>
      rw [Option.none_or, Option.none_or]
      by_cases hname : name ∈ (storeAnswers fn s u).map Answered.name
      · obtain ⟨x, hx, rfl⟩ := List.mem_map.mp hname
        rw [kept_of_mem h hx, loopTable_at?_of_mem h haccepted hx]
        cases hleaves : x.leaves with
        | none =>
          rcases hall x.name ((mem_givenUp h hx).mpr hleaves) with herased | hmoved
          · rw [if_pos herased]
          · exact absurd hmoved (latest_eq_none.mp hlatest)
        | some v =>
          rw [if_neg]
          · rfl
          · intro herased
            rw [(mem_givenUp h hx).mp herased.1] at hleaves
            cases hleaves
      · rw [kept_of_not_mem hname, loopTable_at?_of_not_mem h haccepted hname, ite_self]

/-- When an answer is rejected the contents are those from before if and only if no entry was
changed before it. -/
theorem untouched_iff (h : s.map.Wellformed) (u : U) :
    (∀ name, (loopTable fn s u).at? name = s.map.at? name) ↔
      ∀ x ∈ (storeAnswers fn s u).takeWhile (!·.rejected), x.entry = (x.name, x.old) := by
  have hentries : (loopTable fn s u).slots.entries =
      ((storeAnswers fn s u).takeWhile (!·.rejected)).map Answered.entry ++
        ((storeAnswers fn s u).dropWhile (!·.rejected)).map fun x => (x.name, x.old) :=
    entries_mapSlots s.map.slots u {}
  have hwell := loopTable_wellformed h fn u
  have hall : s.map.slots.entries =
      ((storeAnswers fn s u).takeWhile (!·.rejected)).map (fun x => (x.name, x.old)) ++
        ((storeAnswers fn s u).dropWhile (!·.rejected)).map fun x => (x.name, x.old) := by
    rw [← List.map_append, List.takeWhile_append_dropWhile, storeAnswers, map_answers]
  constructor
  · intro hsame x hx
    have hnew : (x.entry) ∈ (loopTable fn s u).slots.entries := by
      rw [hentries]
      exact List.mem_append_left _ (List.mem_map_of_mem hx)
    have hold : (x.name, x.old) ∈ s.map.slots.entries := by
      rw [hall]
      exact List.mem_append_left _ (List.mem_map.mpr ⟨x, hx, rfl⟩)
    have hnew' := (at?_eq_some hwell x.name (x.leaves.getD x.old)).mpr hnew
    rw [hsame, (at?_eq_some h x.name x.old).mpr hold, Option.some.injEq] at hnew'
    rw [Answered.entry, ← hnew']
  · intro hsame name
    have heq : (loopTable fn s u).slots.entries = s.map.slots.entries := by
      rw [hentries, List.map_congr_left hsame]
      exact hall.symm
    ext v
    rw [at?_eq_some hwell, at?_eq_some h, heq]

/-- What is renamed has a value if and only if its variable has one. -/
theorem moved_values_iff (as : List Answered) :
    (∀ r ∈ as.filterMap Answered.moved, r.2.value.isSome) ↔
      ∀ x ∈ as, x.moved.isSome → x.old.value.isSome := by
  have hvalue (x : Answered) (r : String × VariableMapped) (hr : x.moved = some r) :
      r.2.value.isSome = x.old.value.isSome := by
    unfold Answered.moved at hr
    split_ifs at hr
    cases hr
    exact Option.isSome_map
  constructor
  · intro hall x hx hmoved
    obtain ⟨r, hr⟩ := Option.isSome_iff_exists.mp hmoved
    rw [← hvalue x r hr]
    exact hall r (List.mem_filterMap.mpr ⟨x, hx, hr⟩)
  · intro hall r hr
    obtain ⟨x, hx, hmoved⟩ := List.mem_filterMap.mp hr
    rw [hvalue x r hmoved]
    exact hall x hx (by rw [hmoved]; rfl)

/-- The mapping is all or nothing, and at once, under these conditions and no others. -/
theorem mapStore_atOnce_iff (fn : String → VariableMapped → U → MapAnswer × U) {s : CachedStore}
    (h : s.map.Wellformed) (u : U) : MapsAtOnce fn s u ↔ Settles fn s u := by
  by_cases hrejected : ∃ x ∈ storeAnswers fn s u, x.rejected
  · obtain ⟨e, he⟩ := mapSlots_error_of_rejected (u := u) {} hrejected
    have hmap : mapStore fn s u = .ok (some e, { s with map := loopTable fn s u }) := by
      rw [mapStore_eq, he]
    have hnot : ¬ ∀ x ∈ storeAnswers fn s u, ¬ x.rejected := fun hall => by
      obtain ⟨x, hx, hrej⟩ := hrejected
      exact hall x hx hrej
    constructor
    · rintro ⟨⟨s', hok, -⟩ | ⟨e', s', hok, hsame, -⟩⟩
      · rw [hmap] at hok
        cases hok
      · rw [hmap] at hok
        cases hok
        exact ⟨fun _ => (untouched_iff h u).mp hsame, fun hall => absurd hall hnot,
          fun hall => absurd hall hnot⟩
    · intro hsettles
      exact ⟨.inr ⟨e, _, hmap, (untouched_iff h u).mpr (hsettles.untouched hrejected), rfl⟩⟩
  · have haccepted : ∀ x ∈ storeAnswers fn s u, ¬ x.rejected := fun x hx hrej =>
      hrejected ⟨x, hx, hrej⟩
    have hspec := mapStore_accepted (u := u) h haccepted
    have hvalues := moved_values_iff (storeAnswers fn s u)
    split_ifs at hspec with hall
    · obtain ⟨s', hs', hcontents⟩ := hspec
      have hsettled := settled_iff (u := u) h haccepted
      constructor
      · rintro ⟨⟨s'', hok, hmeant⟩ | ⟨e, s'', hok, -⟩⟩
        · cases hs'.symm.trans hok
          have hgone := hsettled.mp fun name => (hcontents name).symm.trans (hmeant name)
          refine ⟨fun hrej => absurd hrej hrejected, fun _ => hvalues.mp hall, ?_⟩
          intro _ hre name hname
          exact (hgone name hname).imp_left fun herased => herased.2 hre
        · cases hs'.symm.trans hok
      · intro hsettles
        refine ⟨.inl ⟨s', hs', fun name => (hcontents name).trans (hsettled.mpr ?_ name)⟩⟩
        intro name hname
        by_cases hre : Rebuilds s.map (givenUp (storeAnswers fn s u))
        · exact (hsettles.erased haccepted hre name hname).imp_left fun hmarked =>
            ⟨hname, fun _ => hmarked⟩
        · exact .inl ⟨hname, fun hre' => absurd hre' hre⟩
    · constructor
      · rintro ⟨⟨s'', hok, -⟩ | ⟨e, s'', hok, -⟩⟩
        · exact absurd hok (hspec _)
        · exact absurd hok (hspec _)
      · intro hsettles
        exact absurd (hvalues.mpr (hsettles.valued haccepted)) hall

end Whole

/-! ## Two variables -/

/-- A new store with two variables. -/
def twoVariables (a b : String) : CachedStore :=
  match run (U := Unit) [.add a (some "1") false false, .add b (some "1") false false] with
  | .ok s => s
  | .error _ => create

theorem twoVariables_wellformed {a b : String}
    (h : run (U := Unit) [.add a (some "1") false false, .add b (some "1") false false] =
      .ok (twoVariables a b)) : (twoVariables a b).map.Wellformed := by
  obtain ⟨s, hfirst, hrest⟩ := except_bind_eq_ok.mp h
  obtain ⟨s', hsecond, hlast⟩ := except_bind_eq_ok.mp hrest
  cases hlast
  have hone (s s' : CachedStore) (name : String) (hs : s.map.Wellformed)
      (hadd : apply s (.add name (some "1") false false : Op Unit) = .ok s') :
      s'.map.Wellformed := by
    obtain ⟨⟨e, s₁⟩, hs₁, rfl⟩ := except_map_eq_ok.mp hadd
    unfold add at hs₁
    split at hs₁
    · cases hs₁
      exact hs
    · split at hs₁
      · cases hs₁
        exact hs
      · split_ifs at hs₁
        · cases hs₁
          exact hs
        · obtain ⟨⟨t, pos⟩, hinsert, hs₁⟩ := except_bind_eq_ok.mp hs₁
          cases hs₁
          obtain ⟨m, hm⟩ := hs.exists_represents
          obtain ⟨t', pos', hinsert', hwell, -⟩ := insertOrAssign_spec hs hm name
            ⟨some "1", false, false⟩
          cases hinsert.symm.trans hinsert'
          exact hwell
  exact hone s _ b (hone create s a create_wellformed hfirst) hsecond

/-- `A` and `B` change their names. -/
def swapNames (name : String) (old : VariableMapped) (_ : Unit) : MapAnswer × Unit :=
  (⟨.update, if name = "A" then "B" else "A", old.value.getD "", old.exported, old.readOnly⟩, ())

theorem mapStore_atOnce_swap : MapsAtOnce swapNames (twoVariables "A" "B") () := by
  refine (mapStore_atOnce_iff swapNames (twoVariables_wellformed rfl) ()).mpr ?_
  exact ⟨by decide +kernel, by decide +kernel, by decide +kernel⟩

/-- Every variable gets a new name. -/
def renameAll (name : String) (old : VariableMapped) (_ : Unit) : MapAnswer × Unit :=
  (⟨.update, "x" ++ name, old.value.getD "", old.exported, old.readOnly⟩, ())

/-- The value of a variable after a mapping. -/
def valueAfter (result : Except Fault (Option VarStoreError × CachedStore)) (name : String) :
    Option (Option VarStoreError × Option String) :=
  match result with
  | .ok (e, s) => some (e, (s.map.at? name).bind VariableMapped.value)
  | .error _ => none

/-- An error comes after a variable was changed, and `Q` stays although it was given another
name. -/
theorem mapStore_not_atOnce :
    (twoVariables "A" "B").map.Wellformed ∧ ¬ MapsAtOnce updateOnce (twoVariables "A" "B") 0 ∧
      (twoVariables "A" "Q").map.Wellformed ∧ ¬ MapsAtOnce renameAll (twoVariables "A" "Q") () := by
  refine ⟨twoVariables_wellformed rfl, ?_, twoVariables_wellformed rfl, ?_⟩
  · have hafter : valueAfter (mapStore updateOnce (twoVariables "A" "B") 0) "B" =
        some (some .emptyName, some "2") := by decide +kernel
    have hbefore : ((twoVariables "A" "B").map.at? "B").bind VariableMapped.value = some "1" := by
      decide +kernel
    rintro ⟨⟨s', hok, -⟩ | ⟨e, s', hok, hsame, -⟩⟩
    · rw [hok] at hafter
      simp [valueAfter] at hafter
    · rw [hok] at hafter
      simp only [valueAfter, Option.some.injEq, Prod.mk.injEq] at hafter
      rw [hsame, hbefore] at hafter
      simp at hafter
  · have hafter : valueAfter (mapStore renameAll (twoVariables "A" "Q") ()) "Q" =
        some (none, some "1") := by decide +kernel
    have hmeant : settled (storeAnswers renameAll (twoVariables "A" "Q") ()) "Q" = none := by
      decide +kernel
    rintro ⟨⟨s', hok, hall⟩ | ⟨e, s', hok, -⟩⟩
    · rw [hok] at hafter
      simp only [valueAfter, Option.some.injEq, Prod.mk.injEq] at hafter
      rw [hall, hmeant] at hafter
      simp at hafter
    · rw [hok] at hafter
      simp [valueAfter] at hafter

end Migash.CachedStore
