import Mathlib.Data.List.Nodup
import Mathlib.Data.List.Perm.Basic

/-! # The shell's own record of its descriptors

`fd_table_t`: one entry for each descriptor the shell keeps track of, with
the flags that tell redirected descriptors and saved copies apart.
-/

namespace Migash

/-- `fd_flags_t`. -/
structure FdFlags where
  closeOnExec : Bool := false
  redirected : Bool := false
  saved : Bool := false
  deriving DecidableEq, Repr

/-- `fd_entry_t`. -/
structure FdEntry where
  fd : ℕ
  originalFd : Option ℕ := none
  flags : FdFlags := {}
  isOpen : Bool := true
  path : String
  deriving DecidableEq, Repr

/-- `fd_table_t`. No descriptor has two entries. -/
structure FdTable where
  entries : List FdEntry := []
  capacity : ℕ := 16
  highestFd : Option ℕ := none
  distinct : (entries.map FdEntry.fd).Nodup := by first | exact List.nodup_nil | simp

/-- `fd_table_generate_name`. -/
def fdTableGenerateName (fd : ℕ) (flags : FdFlags) : String :=
  if flags.saved then s!"(saved copy of fd {fd})"
  else match fd with
    | 0 => "(stdin)"
    | 1 => "(stdout)"
    | 2 => "(stderr)"
    | fd => s!"(fd {fd})"

/-- `fd_table_generate_name_ex` for an original descriptor that is not negative. -/
def fdTableGenerateNameEx (origFd : ℕ) (flags : FdFlags) : String :=
  let saved := if flags.saved then "saved copy of " else ""
  let redirected := if flags.redirected then "redirected " else ""
  s!"({saved}{redirected}fd {origFd})"

namespace FdTable

/-- `fd_table_find`. -/
def find? (t : FdTable) (fd : ℕ) : Option FdEntry := t.entries.find? (·.fd = fd)

/-- The entry of `fd`, if there is one, is rewritten. -/
def modify (t : FdTable) (fd : ℕ) (f : FdEntry → FdEntry) : FdTable where
  entries := t.entries.map fun e => if e.fd = fd then { f e with fd } else e
  capacity := t.capacity
  highestFd := t.highestFd
  distinct := by
    have hmap : (t.entries.map fun e => if e.fd = fd then { f e with fd } else e).map FdEntry.fd =
        t.entries.map FdEntry.fd := by
      rw [List.map_map]
      apply List.map_congr_left
      intro e _
      by_cases h : e.fd = fd <;> simp [h]
    rw [hmap]
    exact t.distinct

/-- `ensure_capacity`: the array doubles when fewer than four slots would stay free. -/
def ensureCapacity (t : FdTable) : ℕ :=
  if t.entries.length + 4 < t.capacity then t.capacity else t.capacity * 2

/-- A new entry at the end of the array. -/
def append (t : FdTable) (e : FdEntry) (h : t.find? e.fd = none) : FdTable where
  entries := t.entries ++ [e]
  capacity := t.ensureCapacity
  highestFd := some (max e.fd (t.highestFd.getD 0))
  distinct := by
    rw [List.map_append, List.nodup_append]
    refine ⟨t.distinct, by simp, ?_⟩
    intro a ha b hb hab
    obtain ⟨e', he', rfl⟩ := List.mem_map.mp ha
    have hne := List.find?_eq_none.mp h e' he'
    simp_all

/-- `fd_table_add`: an existing entry keeps its original descriptor. -/
def add (t : FdTable) (fd : ℕ) (flags : FdFlags) (path : String) : FdTable :=
  if h : t.find? fd = none then t.append { fd, flags, path } h
  else t.modify fd fun e => { e with flags, path, isOpen := true }

/-- `fd_table_mark_saved`. -/
def markSaved (t : FdTable) (savedFd originalFd : ℕ) : FdTable :=
  if h : t.find? savedFd = none then
    t.append { fd := savedFd, originalFd := some originalFd, flags := { saved := true },
               path := "(unknown)" } h
  else t.modify savedFd fun e =>
    { e with originalFd := some originalFd, flags := { e.flags with saved := true } }

/-- `fd_table_mark_closed`. -/
def markClosed (t : FdTable) (fd : ℕ) : FdTable := t.modify fd fun e => { e with isOpen := false }

/-- `fd_table_mark_open`. -/
def markOpen (t : FdTable) (fd : ℕ) : FdTable := t.modify fd fun e => { e with isOpen := true }

/-- `fd_table_clear_flag` of `FD_IS_REDIRECTED`. -/
def clearRedirected (t : FdTable) (fd : ℕ) : FdTable :=
  t.modify fd fun e => { e with flags := { e.flags with redirected := false } }

/-- The last entry is moved into the gap at `idx`. -/
def moveLast (entries : List FdEntry) (idx : ℕ) : List FdEntry :=
  match entries.getLast? with
  | some last => (entries.set idx last).dropLast
  | none => []

/-- Filling the gap with the last entry keeps the other entries, in another order. -/
theorem moveLast_perm {entries : List FdEntry} {idx : ℕ} (h : idx < entries.length) :
    (moveLast entries idx).Perm (entries.eraseIdx idx) := by
  obtain ⟨front, last, rfl⟩ : ∃ front last, entries = front ++ [last] :=
    ⟨_, _, (List.dropLast_append_getLast (List.ne_nil_of_length_pos (by omega))).symm⟩
  simp only [moveLast, List.getLast?_append, List.getLast?_singleton, Option.some_or]
  rcases Nat.lt_or_ge idx front.length with hlt | hge
  · rw [List.set_append_left _ _ hlt, List.dropLast_concat, List.eraseIdx_append_of_lt_length hlt]
    exact (List.set_perm_cons_eraseIdx hlt last).trans (List.perm_append_singleton last _).symm
  · have hidx : idx = front.length := by simp at h; omega
    subst hidx
    rw [List.set_append_right _ _ (Nat.le_refl _), List.eraseIdx_append_of_length_le (Nat.le_refl _)]
    simp

/-- `fd_table_remove`. -/
def remove (t : FdTable) (fd : ℕ) : FdTable :=
  match h : t.entries.findIdx? (·.fd = fd) with
  | none => t
  | some idx =>
    let entries := moveLast t.entries idx
    { entries
      capacity := t.capacity
      highestFd := if t.highestFd = some fd then (entries.map FdEntry.fd).max? else t.highestFd
      distinct := by
        have hlt : idx < t.entries.length := (List.findIdx?_eq_some_iff_findIdx_eq.mp h).1
        have hperm := (moveLast_perm hlt).map FdEntry.fd
        rw [hperm.nodup_iff]
        exact t.distinct.sublist ((List.eraseIdx_sublist _ _).map FdEntry.fd) }

/-- `fd_table_has_flag` of `FD_IS_REDIRECTED`. -/
def isRedirected (t : FdTable) (fd : ℕ) : Bool :=
  match t.find? fd with
  | some e => e.flags.redirected
  | none => false

/-- `fd_table_get_saved_fds`. -/
def getSavedFds (t : FdTable) : List ℕ := (t.entries.filter (·.flags.saved)).map FdEntry.fd

/-- `fd_table_get_original_fd`. -/
def getOriginalFd (t : FdTable) (savedFd : ℕ) : Option ℕ := (t.find? savedFd).bind FdEntry.originalFd

/-! ## The entry of a descriptor -/

theorem find?_eq_some {t : FdTable} {fd : ℕ} {e : FdEntry} :
    t.find? fd = some e ↔ e ∈ t.entries ∧ e.fd = fd := by
  constructor
  · intro h
    exact ⟨List.mem_of_find?_eq_some h, by simpa using List.find?_some h⟩
  · rintro ⟨hmem, rfl⟩
    cases hfind : t.find? e.fd with
    | none => exact absurd (List.find?_eq_none.mp hfind e hmem) (by simp)
    | some e' =>
      have hmem' := List.mem_of_find?_eq_some hfind
      have hfd : e'.fd = e.fd := by simpa using List.find?_some hfind
      rw [List.inj_on_of_nodup_map t.distinct hmem' hmem hfd]

/-- The saved copies are the descriptors whose entry is flagged. -/
theorem mem_getSavedFds {t : FdTable} {fd : ℕ} :
    fd ∈ t.getSavedFds ↔ ∃ e, t.find? fd = some e ∧ e.flags.saved = true := by
  simp [getSavedFds, find?_eq_some, and_comm, and_left_comm]

theorem nodup_getSavedFds (t : FdTable) : t.getSavedFds.Nodup :=
  t.distinct.sublist (List.filter_sublist.map FdEntry.fd)

theorem find?_modify (t : FdTable) (fd fd' : ℕ) (f : FdEntry → FdEntry) :
    (t.modify fd f).find? fd' =
      (t.find? fd').map fun e => if e.fd = fd then { f e with fd } else e := by
  unfold find? modify
  rw [List.find?_map]
  congr 2
  funext e
  by_cases h : e.fd = fd <;> simp [h]

@[simp] theorem find?_modify_of_ne (t : FdTable) {fd fd' : ℕ} (f : FdEntry → FdEntry)
    (h : fd' ≠ fd) : (t.modify fd f).find? fd' = t.find? fd' := by
  rw [find?_modify]
  cases hfind : t.find? fd' with
  | none => rfl
  | some e =>
    have hfd : e.fd = fd' := (find?_eq_some.mp hfind).2
    simp [hfd, h]

theorem find?_append_self {t : FdTable} {e : FdEntry} (h : t.find? e.fd = none) :
    (t.append e h).find? e.fd = some e := by
  rw [find?_eq_some]
  simp [append]

theorem find?_append_of_ne {t : FdTable} {e : FdEntry} (h : t.find? e.fd = none) {fd : ℕ}
    (hne : fd ≠ e.fd) : (t.append e h).find? fd = t.find? fd := by
  simp [append, find?, List.find?_append, hne.symm]

@[simp] theorem find?_add_of_ne (t : FdTable) {fd fd' : ℕ} (flags : FdFlags) (path : String)
    (h : fd' ≠ fd) : (t.add fd flags path).find? fd' = t.find? fd' := by
  unfold add
  split_ifs with hfind
  · exact find?_append_of_ne hfind h
  · exact find?_modify_of_ne t _ h

/-- The entry after `fd_table_add`. -/
theorem find?_add_entry (t : FdTable) (fd : ℕ) (flags : FdFlags) (path : String) :
    ∃ e, (t.add fd flags path).find? fd = some e ∧ e.flags = flags ∧ e.path = path ∧
      e.isOpen = true := by
  unfold add
  split_ifs with hfind
  · exact ⟨_, find?_append_self hfind, rfl, rfl, rfl⟩
  · obtain ⟨e, he⟩ := Option.ne_none_iff_exists'.mp hfind
    have hfd : e.fd = fd := (find?_eq_some.mp he).2
    exact ⟨_, by rw [find?_modify, he, Option.map_some, if_pos hfd], rfl, rfl, rfl⟩

/-- After `fd_table_add` the entry has the new flags. -/
theorem find?_add_self (t : FdTable) (fd : ℕ) (flags : FdFlags) (path : String) :
    ∃ e, (t.add fd flags path).find? fd = some e ∧ e.flags = flags := by
  obtain ⟨e, he, hflags, -⟩ := t.find?_add_entry fd flags path
  exact ⟨e, he, hflags⟩

theorem modify_eq_self {t : FdTable} {fd : ℕ} {f : FdEntry → FdEntry}
    (h : ∀ e, t.find? fd = some e → f e = e) : t.modify fd f = t := by
  have hentries : (t.entries.map fun e => if e.fd = fd then { f e with fd } else e) = t.entries := by
    rw [List.map_congr_left (g := id), List.map_id]
    intro e he
    split_ifs with hfd
    · rw [h e (find?_eq_some.mpr ⟨he, hfd⟩), ← hfd]
      rfl
    · rfl
  unfold modify
  congr

/-- `fd_table_add` changes nothing exactly if the table has the entry, open, already. -/
theorem add_eq_self_iff {t : FdTable} {fd : ℕ} {flags : FdFlags} {path : String} :
    t.add fd flags path = t ↔
      ∃ e, t.find? fd = some e ∧ e.flags = flags ∧ e.path = path ∧ e.isOpen = true := by
  constructor
  · intro h
    have hentry := t.find?_add_entry fd flags path
    rwa [h] at hentry
  · rintro ⟨e, he, rfl, rfl, hopen⟩
    rw [add, dif_neg (by simp [he])]
    apply modify_eq_self
    intro e' he'
    cases he.symm.trans he'
    rw [← hopen]

@[simp] theorem find?_markSaved_of_ne (t : FdTable) {fd fd' : ℕ} (originalFd : ℕ)
    (h : fd' ≠ fd) : (t.markSaved fd originalFd).find? fd' = t.find? fd' := by
  unfold markSaved
  split_ifs with hfind
  · exact find?_append_of_ne hfind h
  · exact find?_modify_of_ne t _ h

/-- After `fd_table_mark_saved` the entry is flagged and knows its original. -/
theorem find?_markSaved_self (t : FdTable) (fd originalFd : ℕ) :
    ∃ e, (t.markSaved fd originalFd).find? fd = some e ∧ e.flags.saved = true ∧
      e.originalFd = some originalFd := by
  unfold markSaved
  split_ifs with hfind
  · exact ⟨_, find?_append_self hfind, rfl, rfl⟩
  · obtain ⟨e, he⟩ := Option.ne_none_iff_exists'.mp hfind
    have hfd : e.fd = fd := (find?_eq_some.mp he).2
    exact ⟨_, by rw [find?_modify, he, Option.map_some, if_pos hfd], rfl, rfl⟩

theorem mem_remove {t : FdTable} {fd : ℕ} {e : FdEntry} :
    e ∈ (t.remove fd).entries ↔ e ∈ t.entries ∧ e.fd ≠ fd := by
  unfold remove
  split
  · rename_i hnone
    rw [List.findIdx?_eq_none_iff] at hnone
    constructor
    · exact fun h => ⟨h, by simpa using hnone e h⟩
    · exact fun h => h.1
  · rename_i idx hidx
    obtain ⟨hlt, hfd, -⟩ := List.findIdx?_eq_some_iff_getElem.mp hidx
    have hperm := List.getElem_cons_eraseIdx_perm hlt
    have hnodup : ((t.entries[idx] :: t.entries.eraseIdx idx).map FdEntry.fd).Nodup :=
      (hperm.map FdEntry.fd).nodup_iff.mpr t.distinct
    rw [(moveLast_perm hlt).mem_iff]
    have hfd' : t.entries[idx].fd = fd := by simpa using hfd
    constructor
    · intro hmem
      refine ⟨hperm.mem_iff.mp (List.mem_cons_of_mem _ hmem), ?_⟩
      rintro rfl
      rw [List.map_cons, List.nodup_cons] at hnodup
      exact hnodup.1 (hfd' ▸ List.mem_map_of_mem hmem)
    · rintro ⟨hmem, hne⟩
      rcases List.mem_cons.mp (hperm.mem_iff.mpr hmem) with rfl | h
      · exact absurd hfd' hne
      · exact h

@[simp] theorem find?_remove_self (t : FdTable) (fd : ℕ) : (t.remove fd).find? fd = none := by
  rw [Option.eq_none_iff_forall_ne_some]
  intro e he
  obtain ⟨hmem, hfd⟩ := find?_eq_some.mp he
  exact (mem_remove.mp hmem).2 hfd

@[simp] theorem find?_remove_of_ne (t : FdTable) {fd fd' : ℕ} (h : fd' ≠ fd) :
    (t.remove fd).find? fd' = t.find? fd' := by
  apply Option.ext
  intro e
  rw [find?_eq_some, find?_eq_some, mem_remove]
  constructor
  · exact fun ⟨⟨hmem, _⟩, hfd⟩ => ⟨hmem, hfd⟩
  · rintro ⟨hmem, rfl⟩
    exact ⟨⟨hmem, h⟩, rfl⟩

/-! ## Updates that leave the saved copies alone -/

/-- Only the entries of descriptors in `T` differ, and none of them has become a saved copy. -/
structure Touches (T : ℕ → Prop) (t t' : FdTable) : Prop where
  find? : ∀ fd, ¬ T fd → t'.find? fd = t.find? fd
  saved : ∀ fd, T fd → fd ∈ t'.getSavedFds → fd ∈ t.getSavedFds

variable {T : ℕ → Prop} {t t' t'' : FdTable} {fd : ℕ}

theorem Touches.refl (t : FdTable) : t.Touches T t := ⟨fun _ _ => rfl, fun _ _ h => h⟩

theorem Touches.trans (h : t.Touches T t') (h' : t'.Touches T t'') : t.Touches T t'' :=
  ⟨fun fd hfd => (h'.find? fd hfd).trans (h.find? fd hfd),
    fun fd hfd hmem => h.saved fd hfd (h'.saved fd hfd hmem)⟩

theorem Touches.mem_getSavedFds (h : t.Touches T t') (hfd : ¬ T fd) :
    fd ∈ t'.getSavedFds ↔ fd ∈ t.getSavedFds := by
  rw [FdTable.mem_getSavedFds, FdTable.mem_getSavedFds, h.find? fd hfd]

theorem Touches.getOriginalFd (h : t.Touches T t') (hfd : ¬ T fd) :
    t'.getOriginalFd fd = t.getOriginalFd fd := by
  unfold FdTable.getOriginalFd
  rw [h.find? fd hfd]

theorem touches_modify {f : FdEntry → FdEntry} (hf : ∀ e, (f e).flags.saved = e.flags.saved)
    (hfd : T fd) : t.Touches T (t.modify fd f) where
  find? fd' hfd' := find?_modify_of_ne t f (by rintro rfl; exact hfd' hfd)
  saved fd' _ hmem := by
    rw [FdTable.mem_getSavedFds, find?_modify] at hmem
    rw [FdTable.mem_getSavedFds]
    obtain ⟨e, he, hsaved⟩ := hmem
    obtain ⟨e', he', rfl⟩ := Option.map_eq_some_iff.mp he
    refine ⟨e', he', ?_⟩
    split_ifs at hsaved
    · exact (hf e').symm.trans hsaved
    · exact hsaved

theorem touches_markClosed (hfd : T fd) : t.Touches T (t.markClosed fd) :=
  touches_modify (fun _ => rfl) hfd

theorem touches_markOpen (hfd : T fd) : t.Touches T (t.markOpen fd) :=
  touches_modify (fun _ => rfl) hfd

theorem touches_clearRedirected (hfd : T fd) : t.Touches T (t.clearRedirected fd) :=
  touches_modify (fun _ => rfl) hfd

theorem touches_add {flags : FdFlags} {path : String} (hflags : flags.saved = false) (hfd : T fd) :
    t.Touches T (t.add fd flags path) where
  find? fd' hfd' := find?_add_of_ne t flags path (by rintro rfl; exact hfd' hfd)
  saved fd' _ hmem := by
    rw [FdTable.mem_getSavedFds] at hmem ⊢
    obtain ⟨e, he, hsaved⟩ := hmem
    by_cases h : fd' = fd
    · obtain ⟨e', he', heq⟩ := find?_add_self t fd flags path
      rw [h, he'] at he
      cases he
      rw [heq, hflags] at hsaved
      cases hsaved
    · exact ⟨e, (find?_add_of_ne t flags path h).symm.trans he, hsaved⟩

theorem touches_remove (hfd : T fd) : t.Touches T (t.remove fd) where
  find? fd' hfd' := find?_remove_of_ne t (by rintro rfl; exact hfd' hfd)
  saved fd' _ hmem := by
    rw [FdTable.mem_getSavedFds] at hmem ⊢
    obtain ⟨e, he, hsaved⟩ := hmem
    by_cases h : fd' = fd
    · rw [h, find?_remove_self] at he
      cases he
    · exact ⟨e, (find?_remove_of_ne t h).symm.trans he, hsaved⟩

end FdTable

end Migash
