import Migash.Library.Probing

/-! # Linear probing with tombstones

A removal may leave a dead entry in the slot instead of an empty one, so that
no chain is broken. A search passes over the dead entries and remembers the
first of them, which is where a new entry goes.
-/

namespace Migash.Library

namespace Slots

variable {α : Type}

/-- From slot `i` up and around the end, at most `n` slots: the slot of the first live entry that
`found` accepts. At an empty slot, or behind the last turn, it is the first dead entry that was
passed, with `first` before all of them. -/
def seek (dead found : α → Bool) (s : Slots α) : ℕ → ℕ → Option ℕ → ℕ
  | 0, _, first => first.getD 0
  | n + 1, i, first =>
    match s.look i with
    | none => first.getD i
    | some x =>
      if dead x then seek dead found s n (s.next i) (first.or (some i))
      else if found x then i
      else seek dead found s n (s.next i) first

/-- Where a search stops: at the entry, or in a place that is free for it. -/
inductive Sought (dead found : α → Bool) (s : Slots α) (i q : ℕ) : Prop
  /-- the entry stands in slot `q` -/
  | entry (x : α) (look : s.look q = some x) (live : dead x = false) (accepted : found x = true)
  /-- the chain from `i` ends at the empty slot `e` without it -/
  | place (e : ℕ) (lt : e < s.length) (empty : s.look e = none)
    (passed : ∀ k < s.length, Between i e k →
      ∃ y, s.look k = some y ∧ (dead y = true ∨ found y = false))
    (free : q = e ∨ Between i e q ∧ ∃ y, s.look q = some y ∧ dead y = true)

section Seek

variable {dead found : α → Bool} {s : Slots α} {i q n z : ℕ}

theorem Sought.lt (h : Sought dead found s i q) : q < s.length := by
  cases h with
  | entry x look => exact lt_of_look look
  | place e lt _ _ free =>
    rcases free with rfl | ⟨-, y, hy, -⟩
    · exact lt
    · exact lt_of_look hy

theorem between_trans {i e q k : ℕ} (hq : Between i e q) (hk : Between i q k) : Between i e k := by
  unfold Between at *
  split_ifs at * <;> omega

theorem between_self {i e : ℕ} (h : i ≠ e) : Between i e i := by
  unfold Between
  split_ifs <;> omega

/-- The chain up to a place that is free has no empty slot. -/
theorem chain_of_free {e : ℕ}
    (hpassed : ∀ k < s.length, Between i e k →
      ∃ y, s.look k = some y ∧ (dead y = true ∨ found y = false))
    (hfree : q = e ∨ Between i e q ∧ ∃ y, s.look q = some y ∧ dead y = true) (k : ℕ)
    (hk : k < s.length) (hbetween : Between i q k) : s.look k ≠ none := by
  have hto : Between i e k := by
    rcases hfree with rfl | ⟨hq, -⟩
    · exact hbetween
    · exact between_trans hq hbetween
  obtain ⟨y, hy, -⟩ := hpassed k hk hto
  rw [hy]
  exact Option.some_ne_none y

/-- A search that meets an empty slot in time. What it remembers from before wins over the places
that it passes itself. -/
theorem seek_cases (hi : i < s.length) (hz : z < s.length) (hempty : s.look z = none)
    (hn : steps s.length i z < n) (first : Option ℕ) :
    (∃ q x, seek dead found s n i first = q ∧ s.look q = some x ∧ dead x = false ∧
      found x = true) ∨
    ∃ e q, seek dead found s n i first = first.getD q ∧ e < s.length ∧ s.look e = none ∧
      (∀ k < s.length, Between i e k →
        ∃ y, s.look k = some y ∧ (dead y = true ∨ found y = false)) ∧
      (q = e ∨ Between i e q ∧ ∃ y, s.look q = some y ∧ dead y = true) := by
  induction n generalizing i first with
  | zero => omega
  | succ n ih =>
    rw [seek]
    cases hlook : s.look i with
    | none =>
      exact .inr ⟨i, i, rfl, hi, hlook, fun k _ hk => absurd hk (not_between_self i k), .inl rfl⟩
    | some x =>
      have hne : i ≠ z := by
        rintro rfl
        rw [hempty] at hlook
        cases hlook
      have hsteps := steps_next hi hz hne
      have hrest := ih (next_lt hi) (by omega)
      -- an empty slot behind slot `i` ends the chain from `i` on as well
      have hextend {e : ℕ} (he : e < s.length) (hfree : s.look e = none)
          (hx : dead x = true ∨ found x = false)
          (hpassed : ∀ k < s.length, Between (s.next i) e k →
            ∃ y, s.look k = some y ∧ (dead y = true ∨ found y = false)) :
          i ≠ e ∧ ∀ k < s.length, Between i e k →
            ∃ y, s.look k = some y ∧ (dead y = true ∨ found y = false) := by
        have hie : i ≠ e := by
          rintro rfl
          rw [hfree] at hlook
          cases hlook
        refine ⟨hie, fun k hk hbetween => ?_⟩
        rcases (between_next hi he hk hie).mp hbetween with rfl | hbetween
        · exact ⟨x, hlook, hx⟩
        · exact hpassed k hk hbetween
      dsimp only
      split_ifs with hdead hfound
      · rcases hrest (first.or (some i)) with ⟨q, y, hq⟩ | ⟨e, q, hq, he, hfree, hpassed, -⟩
        · exact .inl ⟨q, y, hq⟩
        · obtain ⟨hie, hall⟩ := hextend he hfree (.inl hdead) hpassed
          refine .inr ⟨e, i, ?_, he, hfree, hall, .inr ⟨between_self hie, x, hlook, hdead⟩⟩
          rw [hq]
          cases first <;> rfl
      · exact .inl ⟨i, x, rfl, hlook, by simpa using hdead, hfound⟩
      · have hx : dead x = true ∨ found x = false := .inr (by simpa using hfound)
        rcases hrest first with ⟨q, y, hq⟩ | ⟨e, q, hq, he, hfree, hpassed, hplace⟩
        · exact .inl ⟨q, y, hq⟩
        · obtain ⟨hie, hall⟩ := hextend he hfree hx hpassed
          refine .inr ⟨e, q, hq, he, hfree, hall, ?_⟩
          rcases hplace with rfl | ⟨hbetween, hy⟩
          · exact .inl rfl
          · obtain ⟨y, hlooky, -⟩ := id hy
            exact .inr
              ⟨(between_next hi he (lt_of_look hlooky) hie).mpr (.inr hbetween), hy⟩

/-- In a table that has an empty slot a search of all its slots ends properly. -/
theorem sought_seek (hi : i < s.length) (hfree : ∃ z < s.length, s.look z = none) :
    Sought dead found s i (seek dead found s s.length i none) := by
  obtain ⟨z, hz, hempty⟩ := hfree
  rcases seek_cases hi hz hempty (steps_lt hi hz) none with
    ⟨q, x, hq, hlook, hlive, hfound⟩ | ⟨e, q, hq, he, hfree, hpassed, hplace⟩
  · rw [hq]
    exact .entry x hlook hlive hfound
  · rw [hq]
    exact .place e he hfree hpassed hplace

/-- An entry whose chain is whole is found if it is there: a search that ends in a free place has
not missed it. -/
theorem not_found_of_place {home : α → ℕ} {e : ℕ} (h : Unbroken home s) (he : e < s.length)
    (hempty : s.look e = none)
    (hpassed : ∀ k < s.length, Between i e k →
      ∃ y, s.look k = some y ∧ (dead y = true ∨ found y = false))
    {j : ℕ} {x : α} (hx : s.look j = some x) (hhome : home x = i) :
    dead x = true ∨ found x = false := by
  have hj : j < s.length := lt_of_look hx
  by_cases hbetween : Between i e j
  · obtain ⟨y, hy, hcase⟩ := hpassed j hj hbetween
    rw [hx, Option.some.injEq] at hy
    exact hy ▸ hcase
  · have hje : j = e := by
      refine eq_of_not_between (fun hb => ?_) hbetween
      exact h j x hx e he (hhome ▸ hb) hempty
    rw [hje, hempty] at hx
    cases hx

/-- Another entry in a slot takes the place of the old one. -/
theorem entries_replace {x : α} (hx : s.look q = some x) (y : α) :
    ∃ rest, s.entries.Perm (x :: rest) ∧ (entries (s.set q (some y))).Perm (y :: rest) := by
  have hq : q < s.length := lt_of_look hx
  refine ⟨entries (s.set q none), (entries_set_none hx).symm, ?_⟩
  have hset : (s.set q none).set q (some y) = s.set q (some y) := by rw [List.set_set]
  have hlook : look (s.set q none) q = none := by rw [look_set s hq, if_pos rfl]
  have := entries_set_some (s := s.set q none) (by simpa using hq) hlook y
  rwa [hset] at this

/-- An entry that has the home of the one it replaces breaks no chain. -/
theorem Unbroken.replace {home : α → ℕ} {x y : α} (h : Unbroken home s) (hx : s.look q = some x)
    (hhome : home y = home x) : Unbroken home (s.set q (some y)) :=
  h.put (lt_of_look hx) fun k hk hbetween => h q x hx k hk (hhome ▸ hbetween)

end Seek

end Slots

end Migash.Library
