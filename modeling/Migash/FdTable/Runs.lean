import Mathlib.Logic.Function.Basic
import Migash.FdTable
import Migash.Library.Runs

/-! # Runs of the descriptor table

Every call changes the entry of one descriptor. Removal fills its gap with the
last entry, so that the array is not kept in order, but what is found in it is
the finite map that the calls define.
-/

namespace Migash

open Library

namespace FdFlags

/-- `flags | flag`. -/
def union (flags flag : FdFlags) : FdFlags where
  closeOnExec := flags.closeOnExec || flag.closeOnExec
  redirected := flags.redirected || flag.redirected
  saved := flags.saved || flag.saved

/-- `flags & ~flag`. -/
def diff (flags flag : FdFlags) : FdFlags where
  closeOnExec := flags.closeOnExec && !flag.closeOnExec
  redirected := flags.redirected && !flag.redirected
  saved := flags.saved && !flag.saved

end FdFlags

namespace FdTable

/-- `fd_table_set_flag`. -/
def setFlag (t : FdTable) (fd : ℕ) (flag : FdFlags) : FdTable :=
  t.modify fd fun e => { e with flags := e.flags.union flag }

/-- `fd_table_clear_flag`. -/
def clearFlag (t : FdTable) (fd : ℕ) (flag : FdFlags) : FdTable :=
  t.modify fd fun e => { e with flags := e.flags.diff flag }

theorem clearRedirected_eq_clearFlag (t : FdTable) (fd : ℕ) :
    t.clearRedirected fd = t.clearFlag fd { redirected := true } := by
  unfold clearRedirected clearFlag
  congr
  funext e
  simp [FdFlags.diff]

end FdTable

/-! ## The calls and the finite map they define -/

/-- A call that changes the table. -/
inductive FdCall where
  | add (fd : ℕ) (flags : FdFlags) (path : String)
  | markSaved (savedFd originalFd : ℕ)
  | markClosed (fd : ℕ)
  | markOpen (fd : ℕ)
  | remove (fd : ℕ)
  | setFlag (fd : ℕ) (flag : FdFlags)
  | clearFlag (fd : ℕ) (flag : FdFlags)
  deriving DecidableEq, Repr

/-- What is known of each descriptor. -/
abbrev FdMap := ℕ → Option FdEntry

namespace FdCall

/-- The descriptor whose entry the call changes. -/
def fd : FdCall → ℕ
  | add fd _ _ | markSaved fd _ | markClosed fd | markOpen fd | remove fd | setFlag fd _
  | clearFlag fd _ => fd

/-- The call, made on the table. -/
def run (t : FdTable) : FdCall → FdTable
  | add fd flags path => t.add fd flags path
  | markSaved savedFd originalFd => t.markSaved savedFd originalFd
  | markClosed fd => t.markClosed fd
  | markOpen fd => t.markOpen fd
  | remove fd => t.remove fd
  | setFlag fd flag => t.setFlag fd flag
  | clearFlag fd flag => t.clearFlag fd flag

/-- What the call makes of the entry of its descriptor. -/
def entry (old : Option FdEntry) : FdCall → Option FdEntry
  | add fd flags path => some { fd, originalFd := old.bind FdEntry.originalFd, flags, path }
  | markSaved savedFd originalFd =>
    let e := old.getD { fd := savedFd, path := "(unknown)" }
    some { e with originalFd := some originalFd, flags := { e.flags with saved := true } }
  | markClosed _ => old.map fun e => { e with isOpen := false }
  | markOpen _ => old.map fun e => { e with isOpen := true }
  | remove _ => none
  | setFlag _ flag => old.map fun e => { e with flags := e.flags.union flag }
  | clearFlag _ flag => old.map fun e => { e with flags := e.flags.diff flag }

/-- The call, made on the finite map. -/
def update (m : FdMap) (c : FdCall) : FdMap := Function.update m c.fd (c.entry (m c.fd))

end FdCall

/-- `fd_table_create`, and then the calls. -/
def FdTable.afterCalls (calls : List FdCall) : FdTable := calls.foldl FdCall.run {}

/-- The finite map that the calls define. -/
def FdMap.ofCalls (calls : List FdCall) : FdMap := calls.foldl FdCall.update fun _ => none

/-! ## Lookups agree with the finite map -/

namespace FdTable

variable {t : FdTable}

theorem find?_modify_eq (t : FdTable) (fd : ℕ) (f : FdEntry → FdEntry)
    (hf : ∀ e, (f e).fd = e.fd) :
    (t.modify fd f).find? = Function.update t.find? fd ((t.find? fd).map f) := by
  funext fd'
  by_cases h : fd' = fd
  · subst h
    rw [find?_modify, Function.update_self]
    apply Option.map_congr
    intro e he
    have hfd : e.fd = fd' := (find?_eq_some.mp he).2
    rw [if_pos hfd, ← hfd, ← hf e]
  · rw [find?_modify_of_ne t f h, Function.update_of_ne h]

theorem find?_append_eq {e : FdEntry} (h : t.find? e.fd = none) :
    (t.append e h).find? = Function.update t.find? e.fd (some e) := by
  funext fd
  by_cases hfd : fd = e.fd
  · rw [hfd, find?_append_self, Function.update_self]
  · rw [find?_append_of_ne h hfd, Function.update_of_ne hfd]

theorem find?_remove_eq (t : FdTable) (fd : ℕ) :
    (t.remove fd).find? = Function.update t.find? fd none := by
  funext fd'
  by_cases h : fd' = fd
  · rw [h, find?_remove_self, Function.update_self]
  · rw [find?_remove_of_ne t h, Function.update_of_ne h]

/-- A call changes what is found as it changes the finite map. -/
theorem find?_run (t : FdTable) (c : FdCall) : (c.run t).find? = c.update t.find? := by
  cases c with
  | add fd flags path =>
    simp only [FdCall.run, FdCall.update, FdCall.fd, FdCall.entry, add]
    split_ifs with h
    · rw [find?_append_eq, h]
      rfl
    · obtain ⟨e, he⟩ := Option.ne_none_iff_exists'.mp h
      rw [find?_modify_eq t fd, he, ← (find?_eq_some.mp he).2]
      · rfl
      · exact fun _ => rfl
  | markSaved savedFd originalFd =>
    simp only [FdCall.run, FdCall.update, FdCall.fd, FdCall.entry, markSaved]
    split_ifs with h
    · rw [find?_append_eq, h]
      rfl
    · obtain ⟨e, he⟩ := Option.ne_none_iff_exists'.mp h
      rw [find?_modify_eq t savedFd, he]
      · rfl
      · exact fun _ => rfl
  | markClosed fd => exact find?_modify_eq t fd _ fun _ => rfl
  | markOpen fd => exact find?_modify_eq t fd _ fun _ => rfl
  | remove fd => exact find?_remove_eq t fd
  | setFlag fd flag => exact find?_modify_eq t fd _ fun _ => rfl
  | clearFlag fd flag => exact find?_modify_eq t fd _ fun _ => rfl

theorem find?_afterCalls (calls : List FdCall) :
    (afterCalls calls).find? = FdMap.ofCalls calls := by
  have hrun : ∀ t : FdTable,
      (calls.foldl FdCall.run t).find? = calls.foldl FdCall.update t.find? := by
    induction calls with
    | nil => exact fun _ => rfl
    | cons c calls ih =>
      intro t
      rw [List.foldl_cons, List.foldl_cons, ih, find?_run]
  exact hrun {}

/-! ## The array -/

/-- There is room in the array, and the greatest descriptor is known. -/
structure Sound (t : FdTable) : Prop where
  pos : 0 < t.capacity
  room : t.entries.length ≤ t.capacity
  highest : t.highestFd = (t.entries.map FdEntry.fd).max?

theorem Sound.modify (h : t.Sound) (fd : ℕ) (f : FdEntry → FdEntry) : (t.modify fd f).Sound := by
  have hfds : (t.modify fd f).entries.map FdEntry.fd = t.entries.map FdEntry.fd := by
    rw [FdTable.modify, List.map_map]
    apply List.map_congr_left
    intro e _
    by_cases h : e.fd = fd <;> simp [h]
  refine ⟨h.pos, ?_, ?_⟩
  · simpa [FdTable.modify] using h.room
  · rw [hfds]
    exact h.highest

/-- The array is doubled before it is full. -/
theorem Sound.ensureCapacity (h : t.Sound) : t.entries.length + 1 ≤ t.ensureCapacity := by
  have hpos := h.pos
  have hroom := h.room
  unfold FdTable.ensureCapacity
  split_ifs <;> omega

theorem Sound.append (h : t.Sound) {e : FdEntry} (hfind : t.find? e.fd = none) :
    (t.append e hfind).Sound := by
  have hcapacity := h.ensureCapacity
  refine ⟨?_, ?_, ?_⟩
  · exact (Nat.succ_pos _).trans_le hcapacity
  · simpa [FdTable.append] using hcapacity
  · simp only [FdTable.append, List.map_append, List.map_cons, List.map_nil, h.highest]
    refine (List.max?_eq_some_iff.mpr ⟨?_, ?_⟩).symm
    · cases hmax : (t.entries.map FdEntry.fd).max? with
      | none => simp
      | some highest =>
        have hmem := (List.max?_eq_some_iff.mp hmax).1
        rcases Nat.le_total e.fd highest with hle | hle <;> simp [hle, hmem]
    · intro fd hfd
      rcases List.mem_append.mp hfd with hmem | hmem
      · obtain ⟨highest, hmax⟩ := Option.isSome_iff_exists.mp (List.isSome_max?_of_mem hmem)
        rw [hmax]
        exact ((List.max?_eq_some_iff.mp hmax).2 fd hmem).trans (Nat.le_max_right _ _)
      · cases List.mem_singleton.mp hmem
        exact Nat.le_max_left _ _

theorem Sound.add (h : t.Sound) (fd : ℕ) (flags : FdFlags) (path : String) :
    (t.add fd flags path).Sound := by
  unfold FdTable.add
  split_ifs
  · exact h.append _
  · exact h.modify _ _

theorem Sound.markSaved (h : t.Sound) (savedFd originalFd : ℕ) :
    (t.markSaved savedFd originalFd).Sound := by
  unfold FdTable.markSaved
  split_ifs
  · exact h.append _
  · exact h.modify _ _

/-- The order of a list says nothing about its greatest element. -/
theorem max?_of_perm {xs ys : List ℕ} (h : xs.Perm ys) : xs.max? = ys.max? := by
  cases hmax : ys.max? with
  | none =>
    rw [List.max?_eq_none_iff] at hmax ⊢
    exact List.Perm.eq_nil (hmax ▸ h)
  | some highest =>
    rw [List.max?_eq_some_iff] at hmax ⊢
    exact ⟨h.mem_iff.mpr hmax.1, fun fd hfd => hmax.2 fd (h.mem_iff.mp hfd)⟩

/-- What is the greatest of a list stays so when another element is taken out. -/
theorem max?_eraseIdx {fds : List ℕ} {idx : ℕ} (hidx : idx < fds.length)
    (hne : fds.max? ≠ some fds[idx]) : (fds.eraseIdx idx).max? = fds.max? := by
  obtain ⟨highest, hmax⟩ : ∃ highest, fds.max? = some highest := by
    cases hmax : fds.max? with
    | some highest => exact ⟨highest, rfl⟩
    | none =>
      rw [List.max?_eq_none_iff.mp hmax] at hidx
      cases hidx
  have hperm := List.getElem_cons_eraseIdx_perm hidx
  obtain ⟨hmem, hle⟩ := List.max?_eq_some_iff.mp hmax
  rw [hmax, List.max?_eq_some_iff]
  constructor
  · rcases List.mem_cons.mp (hperm.mem_iff.mpr hmem) with heq | h
    · exact absurd (heq ▸ hmax) hne
    · exact h
  · exact fun fd hfd => hle fd (hperm.mem_iff.mp (List.mem_cons_of_mem _ hfd))

theorem Sound.remove (h : t.Sound) (fd : ℕ) : (t.remove fd).Sound := by
  unfold FdTable.remove
  split
  · exact h
  · rename_i idx hidx
    obtain ⟨hlt, hfd, -⟩ := List.findIdx?_eq_some_iff_getElem.mp hidx
    have hperm := moveLast_perm hlt
    have hlength : (moveLast t.entries idx).length ≤ t.entries.length := by
      rw [hperm.length_eq]
      exact List.length_eraseIdx_le _ _
    refine ⟨h.pos, hlength.trans h.room, ?_⟩
    dsimp only
    split_ifs with hhighest
    · rfl
    · have hfd' : t.entries[idx].fd = fd := by simpa using hfd
      rw [max?_of_perm (hperm.map FdEntry.fd), ← List.eraseIdx_map, max?_eraseIdx (by simpa using hlt)]
      · exact h.highest
      · rw [← h.highest]
        simpa [hfd'] using hhighest

theorem Sound.run (h : t.Sound) (c : FdCall) : (c.run t).Sound := by
  cases c with
  | add fd flags path => exact h.add fd flags path
  | markSaved savedFd originalFd => exact h.markSaved savedFd originalFd
  | markClosed fd => exact h.modify fd _
  | markOpen fd => exact h.modify fd _
  | remove fd => exact h.remove fd
  | setFlag fd flag => exact h.modify fd _
  | clearFlag fd flag => exact h.modify fd _

theorem sound_afterCalls (calls : List FdCall) : (afterCalls calls).Sound :=
  foldl_invariant (fun _ c h => h.run c) ⟨by decide, Nat.zero_le _, rfl⟩ calls

end FdTable

/-! ## The recorded originals -/

/-- An entry has a recorded original exactly if it is flagged as a saved copy. -/
def FdMap.OriginalsRecorded (m : FdMap) : Prop :=
  ∀ fd e, m fd = some e → e.originalFd.isSome = e.flags.saved

/-- The call flags no entry as a saved copy that has no original, and unflags none that has one.
Only `fd_table_mark_saved` sees to both by itself. -/
def FdCall.FitsOriginals (m : FdMap) : FdCall → Prop
  | .add fd flags _ => flags.saved = ((m fd).bind FdEntry.originalFd).isSome
  | .setFlag fd flag => flag.saved = true → ∀ e, m fd = some e → e.originalFd.isSome = true
  | .clearFlag fd flag => flag.saved = true → ∀ e, m fd = some e → e.originalFd.isSome = false
  | .markSaved _ _ | .markClosed _ | .markOpen _ | .remove _ => True

namespace FdMap

variable {m : FdMap}

theorem OriginalsRecorded.update_iff (h : m.OriginalsRecorded) (fd : ℕ) (o : Option FdEntry) :
    OriginalsRecorded (Function.update m fd o) ↔
      ∀ e, o = some e → e.originalFd.isSome = e.flags.saved := by
  constructor
  · exact fun hupdate e he => hupdate fd e ((Function.update_self fd o m).trans he)
  · intro ho fd' e he
    by_cases hfd : fd' = fd
    · subst hfd
      exact ho e ((Function.update_self fd' o m).symm.trans he)
    · exact h fd' e ((Function.update_of_ne hfd o m).symm.trans he)

/-- An entry that is rewritten. -/
theorem forall_map_iff {o : Option FdEntry} {f : FdEntry → FdEntry} {p : FdEntry → Prop} :
    (∀ e, o.map f = some e → p e) ↔ ∀ e, o = some e → p (f e) := by
  constructor
  · rintro h e rfl
    exact h _ rfl
  · intro h e he
    obtain ⟨e', he', rfl⟩ := Option.map_eq_some_iff.mp he
    exact h e' he'

/-- A call keeps the recorded originals exactly if it fits them. -/
theorem OriginalsRecorded.step_iff (h : m.OriginalsRecorded) (c : FdCall) :
    OriginalsRecorded (c.update m) ↔ c.FitsOriginals m := by
  rw [FdCall.update, h.update_iff]
  cases c with
  | add fd flags path => simp [FdCall.entry, FdCall.FitsOriginals, FdCall.fd, eq_comm]
  | markSaved savedFd originalFd => simp [FdCall.entry, FdCall.FitsOriginals]
  | markClosed fd => simpa [FdCall.entry, FdCall.FitsOriginals, FdCall.fd] using h fd
  | markOpen fd => simpa [FdCall.entry, FdCall.FitsOriginals, FdCall.fd] using h fd
  | remove fd => simp [FdCall.entry, FdCall.FitsOriginals]
  | setFlag fd flag =>
    rw [FdCall.entry, forall_map_iff, FdCall.FitsOriginals]
    constructor
    · intro hset hflag e he
      simpa [FdFlags.union, hflag] using hset e he
    · intro hfits e he
      have hold := h fd e he
      cases hflag : flag.saved with
      | false => simpa [FdFlags.union, hflag] using hold
      | true => simpa [FdFlags.union, hflag] using hfits hflag e he
  | clearFlag fd flag =>
    rw [FdCall.entry, forall_map_iff, FdCall.FitsOriginals]
    constructor
    · intro hclear hflag e he
      simpa [FdFlags.diff, hflag] using hclear e he
    · intro hfits e he
      have hold := h fd e he
      cases hflag : flag.saved with
      | false => simpa [FdFlags.diff, hflag] using hold
      | true => simpa [FdFlags.diff, hflag] using hfits hflag e he

end FdMap

/-- Whatever the calls: no descriptor has two entries, the array has room for the entries, the
greatest descriptor is known and what is found is the finite map. The recorded originals agree with
the flags in every state exactly if every call fits them. -/
theorem fdTable_afterCalls (calls : List FdCall) :
    let t := FdTable.afterCalls calls
    (t.entries.map FdEntry.fd).Nodup ∧ t.entries.length ≤ t.capacity ∧
      t.highestFd = (t.entries.map FdEntry.fd).max? ∧ t.find? = FdMap.ofCalls calls ∧
      ((∀ before, before <+: calls →
          FdMap.OriginalsRecorded (FdTable.afterCalls before).find?) ↔
        ∀ before c, before ++ [c] <+: calls →
          c.FitsOriginals (FdTable.afterCalls before).find?) := by
  have hsound := FdTable.sound_afterCalls calls
  have hempty : FdMap.OriginalsRecorded ({} : FdTable).find? := by
    intro fd e he
    cases he
  have hstep : ∀ c ∈ calls, ∀ t : FdTable, FdMap.OriginalsRecorded t.find? →
      (FdMap.OriginalsRecorded (c.run t).find? ↔ c.FitsOriginals t.find?) := by
    intro c _ t h
    rw [FdTable.find?_run]
    exact h.step_iff c
  exact ⟨(FdTable.afterCalls calls).distinct, hsound.room, hsound.highest,
    FdTable.find?_afterCalls calls, forall_prefix_iff hstep hempty⟩

/-- A saved copy whose descriptor is redirected afterwards keeps its original and loses its flag. -/
theorem stale_original :
    ¬ FdMap.OriginalsRecorded (FdTable.afterCalls
      [.add 10 { closeOnExec := true, saved := true } "(saved copy of fd 1)", .markSaved 10 1,
        .add 10 { redirected := true } "out"]).find? := by
  intro h
  cases h 10 _ rfl

end Migash
