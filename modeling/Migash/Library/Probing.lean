import Mathlib.Data.List.ReduceOption
import Mathlib.Data.List.Perm.Basic

/-! # Linear probing

A table of slots, each empty or filled, where every entry has a home slot and
stands in the first slot from there on that was free. A search goes from slot to
slot, around the end of the table, until it meets what it looks for or an empty
slot. Two ways to take an entry out without breaking a chain: the entries behind
it are shifted into the hole one by one, or they are taken out and put in again.

For the proofs about a removal the ring of slots is cut at an empty one: from
there on the slots have a rank, and no chain goes over the cut.
-/

namespace Migash.Library

/-- A table of slots. -/
abbrev Slots (α : Type) := List (Option α)

namespace Slots

variable {α : Type}

/-- What slot `i` holds. -/
def look (s : Slots α) (i : ℕ) : Option α := s.getD i none

/-- The slot after slot `i`. -/
def next (s : Slots α) (i : ℕ) : ℕ := (i + 1) % s.length

/-- The entries in the order of their slots. -/
def entries (s : Slots α) : List α := s.reduceOption

/-- From slot `i` up and around the end to the first slot that `stop` accepts, at most `n` slots
away. -/
def probe (stop : Option α → Bool) (s : Slots α) : ℕ → ℕ → Option ℕ
  | 0, _ => none
  | n + 1, i => if stop (s.look i) then some i else probe stop s n (s.next i)

/-- From slot `i` up and around the end to the first entry that `found` accepts: not further than
an empty slot, and at most `n` slots. -/
def search (found : α → Bool) (s : Slots α) : ℕ → ℕ → Option (ℕ × α)
  | 0, _ => none
  | n + 1, i =>
    match s.look i with
    | none => none
    | some x => if found x then some (i, x) else search found s n (s.next i)

/-- An entry is put into the first empty slot from its home on. -/
def place (home : α → ℕ) (s : Slots α) (x : α) : Option (Slots α) :=
  (probe Option.isNone s s.length (home x)).map fun i => s.set i (some x)

/-- The entries of a table, in the order of their slots, are put into an empty one. -/
def rehash (home : α → ℕ) (s : Slots α) (n : ℕ) : Option (Slots α) :=
  s.foldlM (fun t slot => match slot with
    | some x => place home t x
    | none => some t) (List.replicate n none)

/-! ## Slots -/

section Look

variable {s : Slots α} {i j : ℕ} {x : α}

theorem look_eq (s : Slots α) (h : i < s.length) : s.look i = s[i] := by
  simp [look, List.getD_eq_getElem?_getD, List.getElem?_eq_getElem h]

theorem lt_of_look (h : s.look i = some x) : i < s.length := by
  by_contra hlt
  simp [look, List.getD_eq_getElem?_getD, List.getElem?_eq_none (by omega : s.length ≤ i)] at h

theorem look_set (s : Slots α) (h : i < s.length) (o : Option α) (j : ℕ) :
    look (s.set i o) j = if j = i then o else s.look j := by
  unfold look
  rw [List.getD_eq_getElem?_getD, List.getD_eq_getElem?_getD, List.getElem?_set]
  by_cases hj : j = i
  · subst hj
    simp [h]
  · rw [if_neg (Ne.symm hj), if_neg hj]

@[simp] theorem look_replicate (n i : ℕ) : look (List.replicate n (none : Option α)) i = none := by
  simp only [look, List.getD_eq_getElem?_getD, List.getElem?_replicate]
  split_ifs <;> rfl

theorem mem_entries : x ∈ s.entries ↔ ∃ i, s.look i = some x := by
  rw [entries, List.reduceOption_mem_iff, List.mem_iff_getElem]
  constructor
  · rintro ⟨i, hi, hx⟩
    exact ⟨i, (look_eq s hi).trans hx⟩
  · rintro ⟨i, hx⟩
    have hi : i < s.length := lt_of_look hx
    exact ⟨i, hi, (look_eq s hi).symm.trans hx⟩

@[simp] theorem entries_replicate (n : ℕ) :
    entries (List.replicate n (none : Option α)) = [] := List.reduceOption_replicate_none

/-- The table around one slot. -/
theorem eq_append (s : Slots α) (h : i < s.length) :
    s = s.take i ++ s.look i :: s.drop (i + 1) := by
  conv_lhs => rw [← List.take_append_drop i s, List.drop_eq_getElem_cons h, ← look_eq s h]

/-- A filled slot adds its entry. -/
theorem entries_set_some (h : i < s.length) (hfree : s.look i = none) (x : α) :
    (entries (s.set i (some x))).Perm (x :: s.entries) := by
  have hs := eq_append s h
  rw [hfree] at hs
  conv_rhs => rw [hs]
  rw [List.set_eq_take_append_cons_drop, if_pos h]
  simp only [entries, List.reduceOption_append, List.reduceOption_cons_of_some,
    List.reduceOption_cons_of_none]
  exact List.perm_middle

/-- An emptied slot takes its entry away. -/
theorem entries_set_none (hx : s.look i = some x) :
    (x :: entries (s.set i none)).Perm s.entries := by
  have h : i < s.length := lt_of_look hx
  have hs := eq_append s h
  rw [hx] at hs
  conv_rhs => rw [hs]
  rw [List.set_eq_take_append_cons_drop, if_pos h]
  simp only [entries, List.reduceOption_append, List.reduceOption_cons_of_some,
    List.reduceOption_cons_of_none]
  exact List.perm_middle.symm

/-- An entry that the table has once stands in one slot. -/
theorem look_inj (h : s.entries.Nodup) (hi : s.look i = some x) (hj : s.look j = some x) :
    i = j := by
  by_contra hne
  have hnot : x ∉ entries (s.set i none) :=
    (List.nodup_cons.mp ((entries_set_none hi).nodup_iff.mpr h)).1
  exact hnot (mem_entries.mpr ⟨j, by rw [look_set s (lt_of_look hi), if_neg (Ne.symm hne), hj]⟩)

/-- A table with fewer entries than slots has an empty slot. -/
theorem exists_free (h : s.entries.length < s.length) : ∃ i < s.length, s.look i = none := by
  obtain ⟨i, hi, hnone⟩ := List.mem_iff_getElem.mp (List.reduceOption_length_lt_iff.mp h)
  exact ⟨i, hi, (look_eq s hi).trans hnone⟩

theorem next_eq (h : i < s.length) :
    s.next i = if i + 1 = s.length then 0 else i + 1 := by
  unfold next
  split_ifs with hlast
  · rw [hlast, Nat.mod_self]
  · exact Nat.mod_eq_of_lt (by omega)

theorem next_lt (h : i < s.length) : s.next i < s.length := Nat.mod_lt _ (by omega)

end Look

/-! ## The ring of slots -/

/-- Going up from `i` and around the end one comes to `k` before `j`. -/
def Between (i j k : ℕ) : Prop := if i ≤ j then i ≤ k ∧ k < j else i ≤ k ∨ k < j

/-- The number of slots from `i` up and around the end of a table of `n` slots to `j`. -/
def steps (n i j : ℕ) : ℕ := if i ≤ j then j - i else j + n - i

/-- No slot between the home of an entry and the entry is empty. -/
def Unbroken (home : α → ℕ) (s : Slots α) : Prop :=
  ∀ j x, s.look j = some x → ∀ k < s.length, Between (home x) j k → s.look k ≠ none

theorem not_between_self (i k : ℕ) : ¬ Between i i k := by
  unfold Between
  split_ifs <;> omega

theorem steps_lt {n i j : ℕ} (hi : i < n) (hj : j < n) : steps n i j < n := by
  unfold steps
  split_ifs <;> omega

section Next

variable {s : Slots α} {i j k : ℕ}

theorem steps_next (hi : i < s.length) (hj : j < s.length) (hne : i ≠ j) :
    steps s.length (s.next i) j + 1 = steps s.length i j := by
  rw [next_eq hi]
  unfold steps
  split_ifs <;> omega

/-- The slots before `j` are `i` and the ones from the next on. -/
theorem between_next (hi : i < s.length) (hj : j < s.length) (hk : k < s.length) (hne : i ≠ j) :
    Between i j k ↔ k = i ∨ Between (s.next i) j k := by
  rw [next_eq hi]
  unfold Between
  split_ifs <;> omega

/-- Of two slots one is reached first. -/
theorem eq_of_not_between (hij : ¬ Between i j k) (hik : ¬ Between i k j) : j = k := by
  unfold Between at hij hik
  split_ifs at hij hik <;> omega

end Next

instance (i j k : ℕ) : Decidable (Between i j k) :=
  inferInstanceAs (Decidable (if i ≤ j then i ≤ k ∧ k < j else i ≤ k ∨ k < j))

/-! ## Searching -/

section Search

variable {s : Slots α} {i j n : ℕ}

/-- A slot that `stop` accepts is not missed, and the first one is found. -/
theorem exists_probe (stop : Option α → Bool) (hi : i < s.length) (hj : j < s.length)
    (hstop : stop (s.look j) = true) (hn : steps s.length i j < n) :
    ∃ q < s.length, probe stop s n i = some q ∧ stop (s.look q) = true ∧
      ∀ k < s.length, Between i q k → stop (s.look k) = false := by
  induction n generalizing i with
  | zero => omega
  | succ n ih =>
    by_cases hhere : stop (s.look i) = true
    · exact ⟨i, hi, by simp [probe, hhere], hhere, fun k _ hk => absurd hk (not_between_self i k)⟩
    · have hne : i ≠ j := by
        rintro rfl
        exact hhere hstop
      have hsteps := steps_next hi hj hne
      obtain ⟨q, hq, hprobe, hqstop, hbefore⟩ := ih (next_lt hi) (by omega)
      refine ⟨q, hq, by simpa [probe, hhere] using hprobe, hqstop, fun k hk hbetween => ?_⟩
      have hqi : i ≠ q := by
        rintro rfl
        exact hhere hqstop
      rcases (between_next hi hq hk hqi).mp hbetween with rfl | hbetween
      · simpa using hhere
      · exact hbefore k hk hbetween

theorem search_some {found : α → Bool} {x : α} (h : search found s n i = some (j, x)) :
    s.look j = some x ∧ found x = true := by
  induction n generalizing i with
  | zero => cases h
  | succ n ih =>
    rw [search] at h
    split at h
    · cases h
    · rename_i y hy
      split_ifs at h with hfound
      · cases h
        exact ⟨hy, hfound⟩
      · exact ih h

/-- A search that finds an entry has met no empty slot before it. -/
theorem search_filled {found : α → Bool} {x : α} (hi : i < s.length)
    (h : search found s n i = some (j, x)) {k : ℕ} (hk : k < s.length) (hbetween : Between i j k) :
    s.look k ≠ none := by
  induction n generalizing i with
  | zero => cases h
  | succ n ih =>
    obtain ⟨hx, hfound⟩ := search_some h
    rw [search] at h
    cases hy : s.look i with
    | none =>
      rw [hy] at h
      cases h
    | some y =>
      rw [hy] at h
      dsimp only at h
      split_ifs at h with hhere
      · cases h
        exact absurd hbetween (not_between_self _ k)
      · have hij : i ≠ j := by
          rintro rfl
          rw [hy, Option.some.injEq] at hx
          exact hhere (hx ▸ hfound)
        rcases (between_next hi (lt_of_look hx) hk hij).mp hbetween with rfl | hrest
        · rw [hy]
          exact Option.some_ne_none y
        · exact ih (next_lt hi) h hrest

/-- An entry that can be reached without an empty slot in between is not missed. -/
theorem search_ne_none {found : α → Bool} {x : α} (hi : i < s.length) (hx : s.look j = some x)
    (hfound : found x = true) (hchain : ∀ k < s.length, Between i j k → s.look k ≠ none)
    (hn : steps s.length i j < n) : search found s n i ≠ none := by
  have hj : j < s.length := lt_of_look hx
  induction n generalizing i with
  | zero => omega
  | succ n ih =>
    rw [search]
    by_cases hij : i = j
    · subst hij
      simp [hx, hfound]
    · have hhere : s.look i ≠ none := hchain i hi ((between_next hi hj hi hij).mpr (.inl rfl))
      obtain ⟨y, hy⟩ := Option.ne_none_iff_exists'.mp hhere
      have hsteps := steps_next hi hj hij
      rw [hy]
      dsimp only
      split_ifs
      · exact Option.some_ne_none _
      · exact ih (next_lt hi)
          (fun k hk hbetween => hchain k hk ((between_next hi hj hk hij).mpr (.inr hbetween)))
          (by omega)

end Search

/-! ## Putting entries in -/

section Place

variable {home : α → ℕ} {s : Slots α} {q : ℕ} {x : α}

/-- A table with more filled slots keeps its chains. -/
theorem Unbroken.put (h : Unbroken home s) (hq : q < s.length)
    (hx : ∀ k < s.length, Between (home x) q k → s.look k ≠ none) :
    Unbroken home (s.set q (some x)) := by
  intro j y hy k hk hbetween
  rw [List.length_set] at hk
  rw [look_set s hq] at hy ⊢
  by_cases hkq : k = q
  · simp [hkq]
  · rw [if_neg hkq]
    by_cases hjq : j = q
    · subst hjq
      rw [if_pos rfl, Option.some.injEq] at hy
      exact hx k hk (hy ▸ hbetween)
    · rw [if_neg hjq] at hy
      exact h j y hy k hk hbetween

theorem Unbroken.replicate (home : α → ℕ) (n : ℕ) :
    Unbroken home (List.replicate n none) := by
  intro j x hx
  rw [look_replicate] at hx
  cases hx

/-- An entry finds a place in a table that is not full. -/
theorem place_spec (h : Unbroken home s) (hhome : home x < s.length)
    (hfree : s.entries.length < s.length) :
    ∃ t, place home s x = some t ∧ t.length = s.length ∧ t.entries.Perm (x :: s.entries) ∧
      Unbroken home t := by
  obtain ⟨z, hz, hempty⟩ := exists_free hfree
  obtain ⟨q, hq, hprobe, hqfree, hbefore⟩ := exists_probe Option.isNone hhome hz
    (by rw [hempty]; rfl) (steps_lt hhome hz)
  have hchain (k : ℕ) (hk : k < s.length) (hbetween : Between (home x) q k) :
      s.look k ≠ none := by
    have := hbefore k hk hbetween
    rintro hnone
    rw [hnone] at this
    cases this
  exact ⟨s.set q (some x), by rw [place, hprobe]; rfl, List.length_set,
    entries_set_some hq (Option.isNone_iff_eq_none.mp hqfree) x, h.put hq hchain⟩

/-- All entries of a table find a place in a bigger one. -/
theorem rehash_spec {n : ℕ} (hhome : ∀ x, home x < n) (hn : s.entries.length < n) :
    ∃ t, rehash home s n = some t ∧ t.length = n ∧ t.entries.Perm s.entries ∧
      Unbroken home t := by
  suffices hfold : ∀ (t₀ : Slots α), t₀.length = n → Unbroken home t₀ →
      t₀.entries.length + s.entries.length < n →
      ∃ t, s.foldlM (fun t slot => match slot with
          | some x => place home t x
          | none => some t) t₀ = some t ∧ t.length = n ∧
        t.entries.Perm (s.entries ++ t₀.entries) ∧ Unbroken home t by
    simpa [rehash] using hfold (List.replicate n none) List.length_replicate
      (Unbroken.replicate home n) (by simpa using hn)
  clear hn
  induction s with
  | nil =>
    intro t₀ hlen hunbroken _
    exact ⟨t₀, rfl, hlen, .refl _, hunbroken⟩
  | cons slot s ih =>
    intro t₀ hlen hunbroken hsum
    rw [List.foldlM_cons]
    cases slot with
    | none => exact ih t₀ hlen hunbroken (by simpa [entries] using hsum)
    | some x =>
      have hcons : entries (some x :: s) = x :: entries s := List.reduceOption_cons_of_some x s
      rw [hcons, List.length_cons] at hsum
      obtain ⟨t₁, hplace, hlen₁, hperm, hunbroken₁⟩ :=
        place_spec hunbroken (hlen ▸ hhome x) (by omega)
      have hcount := hperm.length_eq
      rw [List.length_cons] at hcount
      obtain ⟨t, hfold, hlen', hperm', hunbroken'⟩ :=
        ih t₁ (hlen₁.trans hlen) hunbroken₁ (by omega)
      refine ⟨t, by simpa [hplace] using hfold, hlen', ?_, hunbroken'⟩
      rw [hcons]
      exact hperm'.trans ((List.Perm.append_left _ hperm).trans List.perm_middle)

end Place

/-! ## The ring cut at an empty slot -/

/-- The rank of slot `i` in a table of `n` slots that is cut behind slot `z`. -/
def rank (n z i : ℕ) : ℕ := if i ≤ z then i + (n - 1 - z) else i - (z + 1)

section Rank

variable {s : Slots α} {z i j k : ℕ}

theorem rank_next (hi : i < s.length) (hz : z < s.length) (hne : i ≠ z) :
    rank s.length z (s.next i) = rank s.length z i + 1 := by
  rw [next_eq hi]
  unfold rank
  split_ifs <;> omega

theorem rank_inj (hi : i < s.length) (hj : j < s.length) (hz : z < s.length)
    (h : rank s.length z i = rank s.length z j) : i = j := by
  unfold rank at h
  split_ifs at h <;> omega

theorem rank_lt (hi : i < s.length) (hz : z < s.length) : rank s.length z i < s.length := by
  unfold rank
  split_ifs <;> omega

/-- A chain that does not go over the cut is an interval of ranks. -/
theorem between_iff_rank (hi : i < s.length) (hj : j < s.length) (hk : k < s.length)
    (hz : z < s.length) (h : rank s.length z i ≤ rank s.length z j) :
    Between i j k ↔
      rank s.length z i ≤ rank s.length z k ∧ rank s.length z k < rank s.length z j := by
  unfold rank at *
  unfold Between
  split_ifs at * <;> omega

/-- A chain that goes over the cut passes the empty slot. -/
theorem between_of_rank_lt (hi : i < s.length) (hz : z < s.length)
    (h : rank s.length z j < rank s.length z i) : Between i j z := by
  unfold rank at h
  unfold Between
  split_ifs at * <;> omega

end Rank

/-! ## Taking entries out -/

/-- The walk behind a removed entry: `hole` is the slot that is to be filled, `cur` the one that
the walk has come to, and `z` is an empty slot that it does not pass. The chains of all entries
before `cur` are whole, those of the others may have the hole in them. -/
structure Walk (home : α → ℕ) (s : Slots α) (z hole cur : ℕ) : Prop where
  cut_lt : z < s.length
  hole_lt : hole < s.length
  cur_lt : cur < s.length
  cut_free : s.look z = none
  hole_free : s.look hole = none
  ordered : rank s.length z hole < rank s.length z cur
  placed : ∀ j x, s.look j = some x → rank s.length z (home x) ≤ rank s.length z j ∧
    ∀ k < s.length, rank s.length z (home x) ≤ rank s.length z k →
      rank s.length z k < rank s.length z j →
      s.look k ≠ none ∨ k = hole ∧ rank s.length z cur ≤ rank s.length z j

section Walk

variable {home : α → ℕ} {s : Slots α} {z hole cur e : ℕ} {x : α}

/-- The chain of an entry in ranks. -/
theorem Unbroken.rank (h : Unbroken home s) (hhome : ∀ x, home x < s.length)
    (hz : z < s.length) (hfree : s.look z = none) {j : ℕ} (hx : s.look j = some x) :
    Slots.rank s.length z (home x) ≤ Slots.rank s.length z j ∧
      ∀ k < s.length, Slots.rank s.length z (home x) ≤ Slots.rank s.length z k →
        Slots.rank s.length z k < Slots.rank s.length z j → s.look k ≠ none := by
  have hj : j < s.length := lt_of_look hx
  have hle : Slots.rank s.length z (home x) ≤ Slots.rank s.length z j := by
    by_contra hlt
    exact h j x hx z hz (between_of_rank_lt (hhome x) hz (by omega)) hfree
  refine ⟨hle, fun k hk hlow hhigh => h j x hx k hk ?_⟩
  exact (between_iff_rank (hhome x) hj hk hz hle).mpr ⟨hlow, hhigh⟩

/-- The walk starts at the slot after the removed entry. -/
theorem Walk.start (h : Unbroken home s) (hhome : ∀ x, home x < s.length) (hz : z < s.length)
    (hfree : s.look z = none) (he : s.look e = some x) :
    Walk home (s.set e none) z e (s.next e) := by
  have helt : e < s.length := lt_of_look he
  have hez : e ≠ z := by
    rintro rfl
    rw [hfree] at he
    cases he
  have hnext := rank_next helt hz hez
  refine
    { cut_lt := by simpa using hz
      hole_lt := by simpa using helt
      cur_lt := by simpa using next_lt helt
      cut_free := by rw [look_set s helt, if_neg hez.symm, hfree]
      hole_free := by rw [look_set s helt, if_pos rfl]
      ordered := by simp only [List.length_set]; omega
      placed := fun j y hy => ?_ }
  simp only [List.length_set, look_set s helt] at hy ⊢
  have hje : j ≠ e := by
    rintro rfl
    simp at hy
  rw [if_neg hje] at hy
  obtain ⟨hle, hchain⟩ := h.rank hhome hz hfree hy
  refine ⟨hle, fun k hk hlow hhigh => ?_⟩
  by_cases hke : k = e
  · have hlt : rank s.length z e < rank s.length z j := hke ▸ hhigh
    exact .inr ⟨hke, by omega⟩
  · rw [if_neg hke]
    exact .inl (hchain k hk hlow hhigh)

variable (h : Walk home s z hole cur)
include h

theorem Walk.hole_ne_cur : hole ≠ cur := by
  rintro rfl
  exact absurd h.ordered (Nat.lt_irrefl _)

theorem Walk.cur_ne_cut (hx : s.look cur = some x) : cur ≠ z := by
  rintro rfl
  rw [h.cut_free] at hx
  cases hx

/-- The entry at `cur` may stay: its chain starts behind the hole. -/
theorem Walk.keep (hx : s.look cur = some x)
    (hlate : rank s.length z hole < rank s.length z (home x)) :
    Walk home s z hole (s.next cur) := by
  have hnext := rank_next h.cur_lt h.cut_lt (h.cur_ne_cut hx)
  refine { h with cur_lt := next_lt h.cur_lt, ordered := ?_, placed := fun j y hy => ?_ }
  · have := h.ordered
    omega
  · obtain ⟨hle, hchain⟩ := h.placed j y hy
    refine ⟨hle, fun k hk hlow hhigh => ?_⟩
    rcases hchain k hk hlow hhigh with hfilled | ⟨rfl, hge⟩
    · exact .inl hfilled
    · refine .inr ⟨rfl, ?_⟩
      have hj : j < s.length := lt_of_look hy
      have hne : j ≠ cur := by
        rintro rfl
        rw [hx, Option.some.injEq] at hy
        subst hy
        omega
      have := mt (rank_inj (s := s) hj h.cur_lt h.cut_lt) hne
      omega

/-- The entry at `cur` goes into the hole, which its chain has in it, and leaves one behind. -/
theorem Walk.move (hx : s.look cur = some x)
    (hearly : rank s.length z (home x) ≤ rank s.length z hole) :
    Walk home ((s.set hole (some x)).set cur none) z cur (s.next cur) := by
  have hnext := rank_next h.cur_lt h.cut_lt (h.cur_ne_cut hx)
  have hordered := h.ordered
  have hzhole : z ≠ hole := by
    rintro rfl
    have hcur := rank_lt h.cur_lt h.cut_lt
    have hmax : rank s.length z z = s.length - 1 := by
      have := h.cut_lt
      unfold rank
      rw [if_pos (Nat.le_refl z)]
      omega
    omega
  have hlook (k : ℕ) : look ((s.set hole (some x)).set cur none) k =
      if k = cur then none else if k = hole then some x else s.look k := by
    rw [look_set _ (by simpa using h.cur_lt), look_set s h.hole_lt]
  refine
    { cut_lt := by simpa using h.cut_lt
      hole_lt := by simpa using h.cur_lt
      cur_lt := by simpa using next_lt h.cur_lt
      cut_free := by rw [hlook, if_neg (h.cur_ne_cut hx).symm, if_neg hzhole, h.cut_free]
      hole_free := by rw [hlook, if_pos rfl]
      ordered := by simp only [List.length_set]; omega
      placed := fun j y hy => ?_ }
  simp only [List.length_set, hlook] at hy ⊢
  have hjcur : j ≠ cur := by
    rintro rfl
    simp at hy
  rw [if_neg hjcur] at hy
  by_cases hjhole : j = hole
  · subst hjhole
    rw [if_pos rfl, Option.some.injEq] at hy
    subst hy
    refine ⟨hearly, fun k hk hlow hhigh => .inl ?_⟩
    have hkcur : k ≠ cur := by rintro rfl; omega
    have hkhole : k ≠ j := by rintro rfl; omega
    rw [if_neg hkcur, if_neg hkhole]
    rcases (h.placed cur x hx).2 k hk hlow (by omega) with hfilled | ⟨hhole, -⟩
    · exact hfilled
    · exact absurd hhole hkhole
  · rw [if_neg hjhole] at hy
    obtain ⟨hle, hchain⟩ := h.placed j y hy
    refine ⟨hle, fun k hk hlow hhigh => ?_⟩
    by_cases hkcur : k = cur
    · have hlt : rank s.length z cur < rank s.length z j := hkcur ▸ hhigh
      exact .inr ⟨hkcur, by omega⟩
    · rw [if_neg hkcur]
      by_cases hkhole : k = hole
      · exact .inl (by simp [hkhole])
      · rw [if_neg hkhole]
        rcases hchain k hk hlow hhigh with hfilled | ⟨hhole, -⟩
        · exact .inl hfilled
        · exact absurd hhole hkhole

/-- A move changes the places of the entries only. -/
theorem Walk.entries_move (hx : s.look cur = some x) :
    (entries ((s.set hole (some x)).set cur none)).Perm s.entries := by
  have hfill := entries_set_some h.hole_lt h.hole_free x
  have hcur : look (s.set hole (some x)) cur = some x := by
    rw [look_set s h.hole_lt, if_neg h.hole_ne_cur.symm, hx]
  exact (List.perm_cons x).mp ((entries_set_none hcur).trans hfill)

/-- At an empty slot every chain is whole. -/
theorem Walk.finish (hhome : ∀ x, home x < s.length) (hcur : s.look cur = none) :
    Unbroken home s := by
  intro j x hx k hk hbetween
  have hj : j < s.length := lt_of_look hx
  obtain ⟨hle, hchain⟩ := h.placed j x hx
  have hranks := (between_iff_rank (hhome x) hj hk h.cut_lt hle).mp hbetween
  rcases hchain k hk hranks.1 hranks.2 with hfilled | ⟨rfl, hge⟩
  · exact hfilled
  · -- the chain would have the empty slot `cur` in it as well
    have hjcur : j ≠ cur := by
      rintro rfl
      rw [hcur] at hx
      cases hx
    have hne := mt (rank_inj (s := s) hj h.cur_lt h.cut_lt) hjcur
    have hordered := h.ordered
    rcases hchain cur h.cur_lt (by omega) (by omega) with hfilled | ⟨heq, -⟩
    · exact absurd hcur hfilled
    · exact absurd heq.symm h.hole_ne_cur

/-- An entry that is taken out at `cur` and put in again goes into the hole if its chain has the
hole in it, and back to `cur` otherwise. -/
theorem Walk.probe_eq (hhome : ∀ x, home x < s.length) (hx : s.look cur = some x) :
    probe Option.isNone (s.set cur none) s.length (home x) =
      some (if rank s.length z (home x) ≤ rank s.length z hole then hole else cur) := by
  set s' := s.set cur none with hs'
  have hlen : s'.length = s.length := List.length_set
  have hlook (k : ℕ) : look s' k = if k = cur then none else s.look k := look_set s h.cur_lt none k
  have hordered := h.ordered
  -- the first free slot from the home on
  obtain ⟨q, hq, hprobe, hqfree, hbefore⟩ := exists_probe (s := s') Option.isNone
    (i := home x) (j := cur) (n := s.length) (hlen ▸ hhome x) (hlen ▸ h.cur_lt)
    (by rw [hlook, if_pos rfl]; rfl) (hlen ▸ steps_lt (hlen ▸ hhome x) (hlen ▸ h.cur_lt))
  rw [hprobe]
  congr 1
  rw [Option.isNone_iff_eq_none] at hqfree
  set q' := if rank s.length z (home x) ≤ rank s.length z hole then hole else cur with hq'
  have hchain := h.placed cur x hx
  have hq'lt : q' < s.length := by
    rw [hq']
    split_ifs
    · exact h.hole_lt
    · exact h.cur_lt
  have hq'free : look s' q' = none := by
    rw [hlook, hq']
    split_ifs with h1 h2 h2
    · rfl
    · exact h.hole_free
    · rfl
    · exact absurd rfl h2
  have hq'rank : rank s.length z (home x) ≤ rank s.length z q' ∧
      rank s.length z q' ≤ rank s.length z cur := by
    rw [hq']
    split_ifs with hearly
    · exact ⟨hearly, Nat.le_of_lt hordered⟩
    · exact ⟨hchain.1, Nat.le_refl _⟩
  -- no slot between the home and that place is free
  have hq'before (k : ℕ) (hk : k < s.length) (hbetween : Between (home x) q' k) :
      look s' k ≠ none := by
    have hranks := (between_iff_rank (hhome x) hq'lt hk h.cut_lt hq'rank.1).mp hbetween
    have hkcur : k ≠ cur := by rintro rfl; omega
    rw [hlook, if_neg hkcur]
    rcases hchain.2 k hk hranks.1 (by omega) with hfilled | ⟨rfl, -⟩
    · exact hfilled
    · exfalso
      by_cases hearly : rank s.length z (home x) ≤ rank s.length z k
      · rw [if_pos hearly] at hq'
        rw [hq'] at hranks
        omega
      · exact hearly hranks.1
  refine eq_of_not_between (i := home x) (fun hb => ?_) fun hb => ?_
  · have := hbefore q' (hlen ▸ hq'lt) hb
    rw [hq'free] at this
    cases this
  · exact hq'before q (hlen ▸ hq) hb hqfree

end Walk

end Slots

end Migash.Library
