import Migash.StringT
import Migash.Library.Gives
import Mathlib.Data.List.TakeWhile

/-! # What the functions on strings do to the contents

`Represents str l`: the object is laid out as `string_t` promises and holds the characters
`l`. Every function keeps that, with what the operation on lists of the same name makes
of `l`.
-/

namespace Migash.Strings

open Library Library.Block

variable {junk : Junk} {str : StringT} {l p : List UInt8} {pos len : ℕ} {needed : ℤ}

/-! ## Layout -/

/-- The storage fits the capacity. -/
structure Allocated (str : StringT) : Prop where
  inlineData_length : str.inlineData.length = 16
  data_iff : str.data = .inlineData ↔ str.capacity ≤ stringInitialCapacity
  buffer_length : str.buffer.length = str.capacity

structure Represents (str : StringT) (l : List UInt8) : Prop extends Allocated str where
  length_eq : str.length = l.length
  starts : l ++ [0] <+: str.buffer
  nulFree : 0 ∉ l

theorem Represents.starts_with (h : Represents str l) : l <+: str.buffer :=
  (List.prefix_append l [0]).trans h.starts

theorem Represents.lt_capacity (h : Represents str l) : (l.length : ℤ) < str.capacity := by
  have hprefix := h.starts.length_le
  rw [List.length_append, List.length_singleton] at hprefix
  have hbuffer := h.buffer_length
  omega

theorem Allocated.isInline_iff (h : Allocated str) : str.isInline = true ↔ str.data = .inlineData := by
  rw [h.data_iff, StringT.isInline, decide_eq_true_iff]

theorem Allocated.isHeapAllocated_iff (h : Allocated str) :
    str.isHeapAllocated = true ↔ str.data ≠ .inlineData := by
  rw [ne_eq, h.data_iff, StringT.isHeapAllocated, decide_eq_true_iff, gt_iff_lt, Int.not_le]

/-- A string in the object itself has all of its sixteen bytes. -/
theorem Allocated.capacity_of_inline (h : Allocated str) (hdata : str.data = .inlineData) :
    str.capacity = stringInitialCapacity := by
  rw [← h.buffer_length, StringT.buffer, hdata, h.inlineData_length]
  rfl

theorem Allocated.initialCapacity_le (h : Allocated str) :
    stringInitialCapacity ≤ str.capacity := by
  by_cases hdata : str.data = .inlineData
  · exact Int.le_of_eq (h.capacity_of_inline hdata).symm
  · exact Int.le_of_lt (Int.not_le.mp fun hle => hdata (h.data_iff.mpr hle))

/-! ## Writes -/

namespace StringT

@[simp] theorem buffer_withBuffer (block : List UInt8) : (str.withBuffer block).buffer = block := by
  cases h : str.data <;> simp [withBuffer, buffer, h]

@[simp] theorem length_withBuffer (block : List UInt8) :
    (str.withBuffer block).length = str.length := by
  cases h : str.data <;> simp [withBuffer, h]

@[simp] theorem capacity_withBuffer (block : List UInt8) :
    (str.withBuffer block).capacity = str.capacity := by
  cases h : str.data <;> simp [withBuffer, h]

end StringT

theorem Allocated.withBuffer (h : Allocated str) {block : List UInt8}
    (hlength : block.length = str.buffer.length) : Allocated (str.withBuffer block) := by
  constructor
  · cases hdata : str.data with
    | inlineData =>
      have hinline := h.inlineData_length
      simp only [StringT.buffer, hdata] at hlength
      simp only [StringT.withBuffer, hdata]
      omega
    | heap old => simpa only [StringT.withBuffer, hdata] using h.inlineData_length
  · rw [StringT.capacity_withBuffer, ← h.data_iff]
    cases hdata : str.data <;> simp [StringT.withBuffer, hdata]
  · rw [StringT.buffer_withBuffer, StringT.capacity_withBuffer, hlength, h.buffer_length]

theorem Allocated.setLength (h : Allocated str) (n : ℤ) : Allocated { str with length := n } :=
  ⟨h.inlineData_length, h.data_iff, h.buffer_length⟩

theorem store_eq {i : ℕ} {bytes : List UInt8} (hin : i + bytes.length ≤ str.buffer.length) :
    str.store i bytes = .ok (str.withBuffer (patch str.buffer i bytes)) := by
  rw [StringT.store, overwrite_eq hin]
  rfl

/-- Ending a block behind its first characters makes them the contents. -/
theorem setLength_returns (h : Allocated str) (hstarts : l <+: str.buffer)
    (hroom : l.length < str.buffer.length) (hnul : 0 ∉ l) :
    Returns (Represents · l) (str.setLength l.length) := by
  have hin : l.length + [(0 : UInt8)].length ≤ str.buffer.length := hroom
  rw [StringT.setLength, store_eq hin]
  refine Returns.ok ⟨(h.withBuffer (length_patch hin)).setLength _, rfl, ?_, hnul⟩
  have hbuffer : ({ str.withBuffer (patch str.buffer l.length [0]) with
      length := (l.length : ℤ) } : StringT).buffer = patch str.buffer l.length [0] :=
    str.buffer_withBuffer _
  rw [hbuffer]
  exact patch_behind hstarts [0]

/-- `length = n; data[n] = '\0'` on a string cuts it. -/
theorem Represents.cut (h : Represents str l) {n : ℕ} (hn : n ≤ l.length) :
    Returns (Represents · (l.take n)) (str.setLength n) := by
  have hlength : (l.take n).length = n := List.length_take_of_le hn
  have hroom := h.starts.length_le
  rw [List.length_append, List.length_singleton] at hroom
  have hcut := setLength_returns h.toAllocated ((List.take_prefix n l).trans h.starts_with)
    (by omega) fun hmem => h.nulFree (List.mem_of_mem_take hmem)
  rwa [hlength] at hcut

theorem Represents.clear (h : Represents str l) : Returns (Represents · []) (str.setLength 0) :=
  h.cut (Nat.zero_le _)

/-! ## Capacity -/

theorem length_xmalloc (n : ℤ) : (xmalloc junk n).length = n.toNat := by simp [xmalloc]

theorem length_xrealloc (block : List UInt8) (n : ℤ) :
    (xrealloc junk block n).length = n.toNat := by
  simp only [xrealloc, List.length_append, List.length_take, List.length_drop, length_xmalloc]
  omega

/-- What fits into the new size outlives a reallocation. -/
theorem xrealloc_starts {block : List UInt8} (h : l <+: block) {n : ℤ} (hn : (l.length : ℤ) ≤ n) :
    l <+: xrealloc junk block n := by
  refine List.IsPrefix.trans ?_ (List.prefix_append _ _)
  rw [List.prefix_take_iff]
  exact ⟨h, by omega⟩

/-- A heap block of another size for the same contents. -/
theorem Represents.reallocated (h : Represents str l) {n : ℤ} (hn : (l.length : ℤ) < n)
    (hheap : stringInitialCapacity < n) :
    Represents { str with data := .heap (xrealloc junk str.buffer n), capacity := n } l := by
  refine ⟨⟨h.inlineData_length, ?_, ?_⟩, h.length_eq, ?_, h.nulFree⟩
  · simp only [reduceCtorEq, false_iff]
    exact Int.not_le.mpr hheap
  · simp only [StringT.buffer, length_xrealloc]
    omega
  · apply xrealloc_starts h.starts
    rw [List.length_append, List.length_singleton]
    omega

theorem window_start {block : List UInt8} (h : l <+: block) :
    checked (window block 0 l.length) = .ok l := by
  have hwindow := window_eq h (i := 0) (n := l.length) (by omega)
  rw [Int.natCast_zero, List.drop_zero, List.take_length] at hwindow
  rw [hwindow, checked]

theorem overwrite_at {block bytes : List UInt8} {i : ℕ} (hin : i + bytes.length ≤ block.length) :
    checked (overwrite block i bytes) = .ok (patch block i bytes) := by
  rw [overwrite_eq hin, checked]

/-- What `memcpy` and the NUL behind it leave in a block. -/
def copied (block l : List UInt8) : List UInt8 := patch (patch block 0 l) l.length [0]

theorem copied_starts (block l : List UInt8) : l ++ [0] <+: copied block l :=
  patch_behind (patch_behind (List.nil_prefix (l := block)) l) [0]

theorem length_copied {block : List UInt8} (hroom : l.length < block.length) :
    (copied block l).length = block.length := by
  have hpatch : (patch block 0 l).length = block.length := length_patch (by omega)
  rw [copied, length_patch (by rw [hpatch, List.length_singleton]; omega), hpatch]

/-- Copying the contents into another block. -/
theorem copied_returns {block : List UInt8} {f : List UInt8 → Except MemoryFault StringT}
    {P : StringT → Prop} (hroom : l.length < block.length) (hf : Returns P (f (copied block l))) :
    Returns P (do
      let block ← checked (overwrite block 0 l)
      let block ← checked (overwrite block l.length [0])
      f block) := by
  have hpatch : (patch block 0 l).length = block.length := length_patch (by omega)
  have hfirst : checked (overwrite block (0 : ℕ) l) = .ok (patch block 0 l) := overwrite_at (by omega)
  rw [Int.natCast_zero] at hfirst
  refine Returns.bind_eq hfirst (Returns.bind_eq (overwrite_at ?_) hf)
  rw [hpatch, List.length_singleton]
  omega

theorem stringNormalizeCapacity_returns (h : Represents str l) {newCapacity : ℤ}
    (hroom : (l.length : ℤ) < newCapacity) :
    Returns (fun s => Represents s l ∧ newCapacity ≤ s.capacity)
      (stringNormalizeCapacity junk str newCapacity) := by
  have hlength := h.length_eq
  have hinlineData := h.inlineData_length
  rw [stringNormalizeCapacity]
  split
  next hinto =>
    obtain ⟨-, hsmall⟩ := hinto
    have hshort : str.length < stringInitialCapacity := hlength ▸ Int.lt_of_lt_of_le hroom hsmall
    have hfits : l.length < str.inlineData.length := by
      rw [hinlineData]
      exact Int.ofNat_lt.mp (hlength ▸ hshort)
    rw [if_pos hshort, hlength]
    refine Returns.bind_eq (window_start h.starts_with) (copied_returns hfits (Returns.pure ?_))
    refine ⟨⟨⟨(length_copied hfits).trans hinlineData, ?_, ?_⟩, rfl, copied_starts _ _, h.nulFree⟩,
      hsmall⟩
    · simp
    · exact congrArg Nat.cast ((length_copied hfits).trans hinlineData)
  next =>
    split
    next hheap => exact Returns.pure ⟨h.reallocated hroom hheap.2, Int.le_refl _⟩
    next =>
      split
      next hinto =>
        obtain ⟨hinline, hlarge⟩ := hinto
        have hbuffer : str.buffer = str.inlineData := by
          rw [StringT.buffer, h.isInline_iff.mp hinline]
        have hfits : l.length < (xmalloc junk newCapacity).length := by
          rw [length_xmalloc]
          omega
        rw [hlength, ← hbuffer]
        refine Returns.bind_eq (window_start h.starts_with) (copied_returns hfits (Returns.pure ?_))
        refine ⟨⟨⟨hbuffer ▸ hinlineData, ?_, ?_⟩, hlength ▸ rfl, copied_starts _ _, h.nulFree⟩,
          Int.le_refl _⟩
        · simp only [reduceCtorEq, false_iff]
          exact Int.not_le.mpr hlarge
        · simp only [StringT.buffer, length_copied hfits, length_xmalloc]
          omega
      next hheap hgrow hinto =>
        refine Returns.pure ⟨h, ?_⟩
        -- a new size that moves nothing is at most that of the object itself
        have hinitial := h.initialCapacity_le
        by_cases hlarge : stringInitialCapacity < newCapacity
        · have hinline : ¬ str.isInline = true := fun hinline => hinto ⟨hinline, hlarge⟩
          have hout : str.isHeapAllocated = true := by
            rw [h.isHeapAllocated_iff]
            exact fun hdata => hinline (h.isInline_iff.mpr hdata)
          exact absurd ⟨hout, hlarge⟩ hgrow
        · exact Int.le_trans (Int.not_lt.mp hlarge) hinitial

theorem le_grownCapacity {newCapacity : ℤ} (hpos : 0 < newCapacity) :
    needed ≤ grownCapacity needed newCapacity := by
  induction newCapacity using grownCapacity.induct needed with
  | case1 c hgoes hlarge =>
    have hgrown : grownCapacity needed c = needed := by
      rw [grownCapacity, if_pos hgoes, if_pos hlarge]
    exact Int.le_of_eq hgrown.symm
  | case2 c hgoes hlarge ih =>
    rw [grownCapacity, if_pos hgoes, if_neg hlarge]
    exact ih (by simp only [stringGrowFactor]; omega)
  | case3 c hstops =>
    rw [grownCapacity, if_neg hstops]
    omega

theorem stringEnsureCapacity_returns (h : Represents str l) :
    Returns (fun s => Represents s l ∧ needed ≤ s.capacity) (stringEnsureCapacity junk str needed) := by
  have hinitial := h.initialCapacity_le
  have hpos : 0 < str.capacity := Int.lt_of_lt_of_le (by decide) hinitial
  have hroom := h.lt_capacity
  rw [stringEnsureCapacity]
  split
  next hneg => exact Returns.pure ⟨h, by omega⟩
  next =>
    split
    next hfits => exact Returns.pure ⟨h, hfits⟩
    next =>
      rw [if_pos (by omega)]
      have hgrown : needed ≤ grownCapacity needed str.capacity := le_grownCapacity hpos
      exact (stringNormalizeCapacity_returns h (by omega)).mono fun s hs => ⟨hs.1, by omega⟩

/-! ## Replacing a range -/

section Splice

variable {bytes : StringT → Except MemoryFault (List UInt8)}

/-- What the payload is read from: a string that still has the characters before the range and its
replacement, and all of them where nothing has to move. -/
structure Reads (l p : List UInt8) (pos len : ℕ)
    (bytes : StringT → Except MemoryFault (List UInt8)) : Prop where
  eq_ok : ∀ s : StringT, l.take (pos + p.length) <+: s.buffer →
    (len = p.length ∨ pos + len = l.length → l <+: s.buffer) → bytes s = .ok p

/-- The tail of the characters has moved over what the range and its replacement differ in. -/
theorem Represents.moved_starts (h : Represents str l) (hcut : pos + len ≤ l.length)
    (hkept : len = p.length ∨ pos + len = l.length) :
    l <+: patch str.buffer (pos + p.length) (l.drop (pos + len)) := by
  rcases hkept with rfl | hend
  · have hbehind := patch_behind ((List.take_prefix (pos + p.length) l).trans h.starts_with)
      (l.drop (pos + p.length))
    rwa [List.take_append_drop, List.length_take_of_le hcut] at hbehind
  · rw [hend, List.drop_length, patch_nil]
    exact h.starts_with

theorem Represents.filled_starts (h : Represents str l) (hcut : pos + len ≤ l.length)
    (hroom : pos + p.length ≤ str.buffer.length) :
    l.take pos ++ p ++ l.drop (pos + len) <+:
      patch (patch str.buffer (pos + p.length) (l.drop (pos + len))) pos p := by
  have hfirst : (l.take pos).length = pos := List.length_take_of_le (by omega)
  have hsame : str.buffer.take pos = l.take pos := by
    obtain ⟨rest, hrest⟩ := h.starts_with
    rw [← hrest, List.take_append_of_le_length (by omega)]
  have hlength : (str.buffer.take (pos + p.length)).length = pos + p.length :=
    List.length_take_of_le hroom
  have hmoved := patch_behind (List.take_prefix (pos + p.length) str.buffer) (l.drop (pos + len))
  rw [hlength, List.take_add, hsame] at hmoved
  have hold : p.length = ((str.buffer.drop pos).take p.length).length := by
    rw [List.length_take_of_le]
    rw [List.length_drop]
    omega
  have hfilled := patch_between hmoved hold
  rwa [hfirst] at hfilled

theorem replaceRange_returns (h : Represents str l) (hcut : pos + len ≤ l.length) (hnul : 0 ∉ p)
    (hroom : (l.length - len + p.length : ℤ) < str.capacity) (hreads : Reads l p pos len bytes)
    {count newLength : ℤ} (hcount : count = p.length)
    (hnewLength : newLength = l.length - len + p.length) :
    Returns (Represents · (l.take pos ++ p ++ l.drop (pos + len)))
      (replaceRange str pos len count newLength bytes) := by
  subst hcount
  have hlength := h.length_eq
  have hbuffer := h.buffer_length
  have htail : (l.drop (pos + len)).length = l.length - (pos + len) := List.length_drop
  have hwindow : checked (window str.buffer ((pos : ℤ) + len) (str.length - pos - len)) =
      .ok (l.drop (pos + len)) := by
    have hread := window_eq h.starts_with (i := pos + len) (n := l.length - (pos + len)) (by omega)
    rw [List.take_of_length_le (by omega)] at hread
    have hcountTail : str.length - pos - len = ((l.length - (pos + len) : ℕ) : ℤ) := by omega
    rw [hcountTail, ← Int.natCast_add, hread, checked]
  have hmove : pos + p.length + (l.drop (pos + len)).length ≤ str.buffer.length := by omega
  have hmoved : str.store (pos + p.length : ℕ) _ = _ := store_eq hmove
  have hfill : pos + p.length ≤
      (str.withBuffer (patch str.buffer (pos + p.length) (l.drop (pos + len)))).buffer.length := by
    rw [StringT.buffer_withBuffer, length_patch hmove]
    omega
  rw [replaceRange]
  refine Returns.bind_eq hwindow (Returns.bind_eq hmoved (Returns.bind_eq (hreads.eq_ok _ ?_ ?_)
    (Returns.bind_eq (store_eq hfill) ?_)))
  · rw [StringT.buffer_withBuffer]
    exact (h.starts_with.take _).trans take_patch
  · intro hkept
    rw [StringT.buffer_withBuffer]
    exact h.moved_starts hcut hkept
  · have hstarts := h.filled_starts hcut (p := p) (by omega)
    rw [StringT.buffer_withBuffer] at hfill ⊢
    have hended := (h.withBuffer (length_patch hmove)).withBuffer
      ((length_patch hfill).trans (congrArg List.length (StringT.buffer_withBuffer _)).symm)
    have hlengthNew : (l.take pos ++ p ++ l.drop (pos + len)).length =
        l.length - len + p.length := by
      simp only [List.length_append, List.length_take, List.length_drop]
      omega
    have hnew : newLength = ((l.take pos ++ p ++ l.drop (pos + len)).length : ℤ) := by omega
    rw [hnew]
    refine setLength_returns hended (by rwa [StringT.buffer_withBuffer]) ?_ ?_
    · rw [StringT.buffer_withBuffer, length_patch hfill, length_patch hmove]
      omega
    · simp only [List.mem_append, not_or]
      exact ⟨⟨fun hmem => h.nulFree (List.mem_of_mem_take hmem), hnul⟩,
        fun hmem => h.nulFree (List.mem_of_mem_drop hmem)⟩

theorem addInt_eq {a b : ℤ} (h : a + b ≤ intMax) : addInt a b = .ok (a + b) := if_pos h

theorem spliceRange_returns (junk : Junk) (h : Represents str l) (hcut : pos + len ≤ l.length) (hnul : 0 ∉ p)
    (hroom : (l.length - len + p.length : ℤ) < intMax) (hreads : Reads l p pos len bytes)
    {count : ℤ} (hcount : count = p.length) :
    Returns (Represents · (l.take pos ++ p ++ l.drop (pos + len)))
      (spliceRange junk str pos len count bytes) := by
  subst hcount
  have hlength := h.length_eq
  rw [spliceRange]
  refine Returns.bind_eq (addInt_eq (by omega)) (Returns.bind_eq (addInt_eq (by omega)) ?_)
  refine (stringEnsureCapacity_returns h).bind fun s hs => ?_
  obtain ⟨hrepresents, hcapacity⟩ := hs
  exact replaceRange_returns hrepresents hcut hnul (by omega) hreads rfl (by rw [hlength])

end Splice

/-! ## Where the bytes come from -/

theorem nChars_reads {count : ℤ} {ch : UInt8} :
    Reads l (List.replicate count.toNat ch) pos len (nChars count ch) := ⟨fun _ _ _ => rfl⟩

theorem nChar_reads {ch : UInt8} : Reads l [ch] pos len (nChars 1 ch) := ⟨fun _ _ _ => rfl⟩

theorem fromData_reads {data : List UInt8} {n : ℤ} (hn : 0 ≤ n) (hin : n ≤ data.length) :
    Reads l (data.take n.toNat) pos len (fromData data n) := by
  constructor
  intro s _ _
  have hwindow := window_eq (List.prefix_refl data) (i := 0) (n := n.toNat) (by omega)
  rw [Int.toNat_of_nonneg hn, Int.natCast_zero, List.drop_zero] at hwindow
  rw [fromData, hwindow, checked]

/-- The characters behind an argument, where `l` are those of the string that changes. -/
def Source.Holds (l m : List UInt8) : Source → Prop
  | .own => m = l
  | .other str2 => Represents str2 m

theorem Source.Holds.length_eq {m : List UInt8} {source : Source} (hholds : source.Holds l m)
    (h : Represents str l) : source.length str = m.length := by
  cases source with
  | own => rw [Source.length, h.length_eq, hholds]
  | other str2 => exact Represents.length_eq hholds

/-- A string may be read while it changes, if the bytes read are clear of those written and do not
move. -/
def Source.Clear (l : List UInt8) (pos len start count : ℕ) : Source → Prop
  | .own => start + count ≤ pos ∨ pos + count ≤ start ∧ (len = count ∨ pos + len = l.length)
  | .other _ => True

theorem Source.Holds.reads {m : List UInt8} {source : Source} (hholds : source.Holds l m)
    (start count : ℕ) (hin : start + count ≤ m.length)
    (hclear : source.Clear l pos len start count) :
    Reads l ((m.drop start).take count) pos len (source.read start count pos) := by
  constructor
  intro s hbefore hkept
  cases source with
  | other str2 =>
    have hread := window_eq (Represents.starts_with hholds) hin
    simp only [Source.read]
    rw [hread, checked]
  | own =>
    obtain rfl : m = l := hholds
    have hcount : ((m.drop start).take count).length = count :=
      List.length_take_of_le (by rw [List.length_drop]; omega)
    rw [hcount] at hbefore hkept
    rcases hclear with hbelow | ⟨habove, hstays⟩
    · have hread := window_eq hbefore (i := start) (n := count)
        (by rw [List.length_take]; omega)
      have hsame : ((m.take (pos + count)).drop start).take count = (m.drop start).take count := by
        rw [List.drop_take, List.take_take, Nat.min_eq_left (by omega)]
      simp only [Source.read]
      rw [if_neg (by omega), hread, hsame, checked]
    · have hread := window_eq (hkept hstays) hin
      simp only [Source.read]
      rw [if_neg (by omega), hread, checked]

theorem ifAny_reads {bytes : StringT → Except MemoryFault (List UInt8)} {count : ℤ}
    (hcount : count = p.length) (hreads : p ≠ [] → Reads l p pos len bytes) :
    Reads l p pos len (ifAny count bytes) := by
  subst hcount
  constructor
  intro s hbefore hkept
  cases hp : p with
  | nil => rfl
  | cons b rest =>
    rw [← hp, ifAny, if_pos (by rw [hp, List.length_cons]; omega)]
    exact (hreads (by simp [hp])).eq_ok s hbefore hkept

/-! ## Operations on lists -/

/-- The part of a list between two indices, `-1` standing for its end. -/
def slice (m : List UInt8) (first last : ℤ) : List UInt8 :=
  let last : ℤ := if last = -1 then m.length else last
  (m.take last.toNat).drop first.toNat

/-- A list with another one inside it. -/
def insertAt (l : List UInt8) (at_ : ℤ) (p : List UInt8) : List UInt8 :=
  l.take at_.toNat ++ p ++ l.drop at_.toNat

/-- A list with another one in place of `len` members. -/
def replaceAt (l : List UInt8) (at_ len : ℤ) (p : List UInt8) : List UInt8 :=
  if at_.toNat < l.length ∧ 0 < len then
    l.take at_.toNat ++ p ++ l.drop (at_.toNat + len.toNat)
  else l

/-- A list cut or filled up to a length. -/
def resizeTo (l : List UInt8) (size : ℤ) (ch : UInt8) : List UInt8 :=
  l.take size.toNat ++ List.replicate (size.toNat - l.length) ch

theorem slice_nil (first last : ℤ) : slice [] first last = [] := by simp [slice]

/-- A bound brought between zero and `n`. -/
theorem clamped_eq (k : ℤ) (n : ℕ) :
    (if (if k < 0 then 0 else k) > (n : ℤ) then (n : ℤ) else if k < 0 then 0 else k) =
      (min k.toNat n : ℕ) := by
  split <;> split <;> omega

theorem clampRange_eq (m : List UInt8) (first last : ℤ) :
    ∃ b e : ℕ, clampRange m.length first last = ((b : ℤ), (e : ℤ)) ∧ b = min first.toNat m.length ∧
      b ≤ e ∧ e ≤ m.length ∧ (m.drop b).take (e - b) = slice m first last := by
  have hslice : slice m first last = (m.drop first.toNat).take
      ((if last = -1 then (m.length : ℤ) else last).toNat - first.toNat) := by
    rw [slice, List.drop_take]
  rw [hslice, clampRange]
  generalize (if last = -1 then (m.length : ℤ) else last) = stop
  rw [clamped_eq first, clamped_eq stop]
  generalize stop.toNat = k
  generalize first.toNat = i
  by_cases hempty : ((min k m.length : ℕ) : ℤ) ≤ (min i m.length : ℕ)
  · refine ⟨min i m.length, min i m.length, if_pos hempty, rfl, Nat.le_refl _, Nat.min_le_right _ _, ?_⟩
    have hnone : (m.drop i).take (k - i) = [] := by
      rw [← List.length_eq_zero_iff, List.length_take, List.length_drop]
      omega
    rw [hnone, Nat.sub_self, List.take_zero]
  · refine ⟨min i m.length, min k m.length, if_neg hempty, rfl, by omega, Nat.min_le_right _ _, ?_⟩
    rw [Nat.min_eq_left (by omega : i ≤ m.length)]
    rcases Nat.le_total k m.length with hk | hk
    · rw [Nat.min_eq_left hk]
    · rw [Nat.min_eq_right hk, List.take_of_length_le (by rw [List.length_drop]),
        List.take_of_length_le (by rw [List.length_drop]; omega)]

theorem mem_of_mem_slice {m : List UInt8} {first last : ℤ} {ch : UInt8}
    (h : ch ∈ slice m first last) : ch ∈ m := List.mem_of_mem_take (List.mem_of_mem_drop h)

theorem clampPos_eq (h : Represents str l) (at_ : ℤ) :
    clampPos str at_ = (min at_.toNat l.length : ℕ) := by
  have hlength := h.length_eq
  rw [clampPos, hlength]
  split <;> split <;> omega

theorem strlen_eq {cstr : List UInt8} (hnul : 0 ∉ cstr) : strlen cstr = cstr.length := by
  rw [strlen, List.takeWhile_eq_self_iff.mpr]
  intro ch hmem
  exact decide_eq_true (ne_of_mem_of_not_mem hmem hnul)

end Migash.Strings
