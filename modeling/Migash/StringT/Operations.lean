import Migash.StringT.Contents

/-! # The functions on strings, one by one

Each function of `string_t` makes of the contents what the operation on lists makes of
them, where its arguments are free of NUL, the result is shorter than `INT_MAX`, and no
sum of two arguments leaves the range of `int`.
-/

namespace Migash.Strings

open Library Library.Block

variable (junk : Junk) {str : StringT} {l p m : List UInt8} {other : Option Source}
  {bytes : StringT → Except MemoryFault (List UInt8)} {count : ℤ}

/-! ## The families -/

def NulFree (data : Option (List UInt8)) : Prop := ∀ d ∈ data, 0 ∉ d

/-- A buffer has the bytes it is said to have. -/
def HasBytes (data : Option (List UInt8)) (n : ℤ) : Prop := ∀ d ∈ data, n ≤ d.length

/-- The characters behind an argument that may be `NULL`. -/
def HoldsAny (l m : List UInt8) : Option Source → Prop
  | none => m = []
  | some source => source.Holds l m

theorem stringCreate_represents : Represents stringCreate [] where
  inlineData_length := rfl
  data_iff := by simp [stringCreate]
  buffer_length := rfl
  length_eq := rfl
  starts := ⟨List.replicate 15 0, rfl⟩
  nulFree := List.not_mem_nil

theorem createAll_returns (hnul : 0 ∉ p) (hroom : (p.length : ℤ) < intMax)
    (hreads : Reads [] p 0 0 bytes) (hcount : count = p.length) :
    Returns (Represents · p) (spliceRange junk stringCreate 0 0 count bytes) := by
  have hsplice := spliceRange_returns junk stringCreate_represents (by simp) hnul
    (by simpa using hroom) hreads hcount
  simpa using hsplice

theorem setAll_returns (h : Represents str l) (hnul : 0 ∉ p) (hroom : (p.length : ℤ) < intMax)
    (hreads : Reads l p 0 l.length bytes) (hcount : count = p.length) :
    Returns (Represents · p) (spliceRange junk str 0 str.length count bytes) := by
  have hsplice := spliceRange_returns junk h (by omega) hnul (by omega) hreads hcount
  rw [Int.natCast_zero, ← h.length_eq] at hsplice
  simpa using hsplice

theorem appendAll_returns (h : Represents str l) (hnul : 0 ∉ p)
    (hroom : (l.length + p.length : ℤ) < intMax) (hreads : Reads l p l.length 0 bytes)
    (hcount : count = p.length) :
    Returns (Represents · (l ++ p)) (spliceRange junk str str.length 0 count bytes) := by
  have hsplice := spliceRange_returns junk h (by omega) hnul (by omega) hreads hcount
  rw [Int.natCast_zero, ← h.length_eq] at hsplice
  simpa using hsplice

theorem insertAt_nil (l : List UInt8) (at_ : ℤ) : insertAt l at_ [] = l := by simp [insertAt]

theorem insertAt_eq (l p : List UInt8) (at_ : ℤ) :
    insertAt l at_ p = l.take (min at_.toNat l.length) ++ p ++ l.drop (min at_.toNat l.length) := by
  rw [insertAt]
  rcases Nat.le_total at_.toNat l.length with hle | hle
  · rw [Nat.min_eq_left hle]
  · rw [Nat.min_eq_right hle, List.take_of_length_le hle, List.drop_eq_nil_of_le hle, List.take_length,
      List.drop_length]

theorem insertAll_returns (h : Represents str l) (hnul : 0 ∉ p) {at_ : ℤ}
    (hroom : (l.length + p.length : ℤ) < intMax)
    (hreads : Reads l p (min at_.toNat l.length) 0 bytes) (hcount : count = p.length) :
    Returns (Represents · (insertAt l at_ p))
      (spliceRange junk str (clampPos str at_) 0 count bytes) := by
  have hsplice := spliceRange_returns junk h (by omega) hnul (by omega) hreads hcount
  rw [clampPos_eq h, insertAt_eq]
  rwa [Int.natCast_zero, Nat.add_zero] at hsplice

/-- The head of a replacement: a range that is not empty is handed on, cut to the length. -/
theorem replaceIn_returns (h : Represents str l) {at_ n : ℤ}
    (body : ℤ → ℤ → Except MemoryFault StringT)
    (hint : at_.toNat < l.length → 0 < n → at_.toNat + n ≤ intMax)
    (hbody : ∀ pos len : ℕ, pos = at_.toNat → len = min n.toNat (l.length - pos) →
      pos < l.length → 0 < len →
      Returns (Represents · (l.take pos ++ p ++ l.drop (pos + len))) (body pos len)) :
    Returns (Represents · (replaceAt l at_ n p)) (replaceIn str at_ n body) := by
  have hlength := h.length_eq
  have hpos : (if at_ < 0 then 0 else at_) = (at_.toNat : ℤ) := by split <;> omega
  rw [replaceIn, hpos, replaceAt]
  by_cases hinside : at_.toNat < l.length
  · by_cases hlen : 0 < n
    · have hsum := addInt_eq (hint hinside hlen)
      rw [if_pos ⟨hinside, hlen⟩, if_neg (by omega), if_neg (by omega)]
      have hclamp : clampLen str at_.toNat n = .ok (min n.toNat (l.length - at_.toNat) : ℕ) := by
        rw [clampLen, hsum]
        simp only [bind, Except.bind, pure, Except.pure, hlength]
        congr 1
        split <;> omega
      refine Returns.bind_eq hclamp ?_
      have hrun := hbody at_.toNat _ rfl rfl hinside (by omega)
      have hdrop : l.drop (at_.toNat + min n.toNat (l.length - at_.toNat)) =
          l.drop (at_.toNat + n.toNat) := by
        rcases Nat.le_total n.toNat (l.length - at_.toNat) with hle | hle
        · rw [Nat.min_eq_left hle]
        · rw [Nat.min_eq_right hle, List.drop_eq_nil_of_le (by omega),
            List.drop_eq_nil_of_le (by omega)]
      rwa [hdrop] at hrun
    · rw [if_neg fun hboth => hlen hboth.2, if_neg (by omega), if_pos (by omega)]
      exact Returns.pure h
  · rw [if_neg fun hboth => hinside hboth.1, if_pos (by omega)]
    exact Returns.pure h

theorem nulFreeRun_eq {data : List UInt8} {n : ℤ} (hnul : 0 ∉ data) (hin : n ≤ data.length) :
    nulFreeRun data n = .ok ((data.take n.toNat).length : ℕ) := by
  have hrun : (data.take n.toNat).takeWhile (· ≠ 0) = data.take n.toNat := by
    rw [List.takeWhile_eq_self_iff]
    intro ch hmem
    exact decide_eq_true (ne_of_mem_of_not_mem (List.mem_of_mem_take hmem) hnul)
  rw [nulFreeRun, hrun]
  exact if_neg fun hboth => by omega

theorem not_mem_replicate {ch : UInt8} (hch : ch ≠ 0) (n : ℕ) : 0 ∉ List.replicate n ch :=
  fun hmem => hch (List.eq_of_mem_replicate hmem).symm

theorem not_mem_take {data : List UInt8} (hnul : 0 ∉ data) (n : ℕ) : 0 ∉ data.take n :=
  fun hmem => hnul (List.mem_of_mem_take hmem)

/-! ## Constructors -/

theorem stringCreateFromNChars_returns {ch : UInt8} (hch : ch ≠ 0) (hroom : count < intMax) :
    Returns (Represents · (List.replicate count.toNat ch))
      (stringCreateFromNChars junk count ch) := by
  rw [stringCreateFromNChars]
  split
  next hnone =>
    rw [Int.toNat_of_nonpos hnone]
    exact Returns.pure stringCreate_represents
  next hsome =>
    exact createAll_returns junk (not_mem_replicate hch _) (by rw [List.length_replicate]; omega)
      nChars_reads (by rw [List.length_replicate]; omega)

theorem stringCreateFromCstrLen_returns {data : Option (List UInt8)} {len : ℤ}
    (hnul : NulFree data) (hin : HasBytes data len)
    (hroom : (((data.getD []).take len.toNat).length : ℤ) < intMax) :
    Returns (Represents · ((data.getD []).take len.toNat))
      (stringCreateFromCstrLen junk data len) := by
  cases data with
  | none =>
    rw [Option.getD_none, List.take_nil]
    exact Returns.pure stringCreate_represents
  | some data =>
    rw [Option.getD_some] at hroom ⊢
    rw [stringCreateFromCstrLen]
    have hin := hin data rfl
    split
    next hnone =>
      rw [Int.toNat_of_nonpos hnone]
      exact Returns.pure stringCreate_represents
    next hsome =>
      have hlength : (data.take len.toNat).length = len.toNat := List.length_take_of_le (by omega)
      exact createAll_returns junk (not_mem_take (hnul data rfl) _) hroom
        (fromData_reads (by omega) hin) (by rw [hlength]; omega)

theorem stringCreateFromCstr_returns {data : Option (List UInt8)} (hnul : NulFree data)
    (hroom : ((data.getD []).length : ℤ) < intMax) :
    Returns (Represents · (data.getD [])) (stringCreateFromCstr junk data) := by
  cases data with
  | none => exact Returns.pure stringCreate_represents
  | some data =>
    have hlen := strlen_eq (hnul data rfl)
    rw [Option.getD_some] at hroom ⊢
    rw [stringCreateFromCstr, hlen, if_neg (by omega)]
    have hin : HasBytes (some data) data.length := fun d hd => by cases hd; exact Int.le_refl _
    have hfirst := stringCreateFromCstrLen_returns junk hnul hin
      (by rwa [Option.getD_some, Int.toNat_natCast, List.take_length])
    rwa [Option.getD_some, Int.toNat_natCast, List.take_length] at hfirst

theorem stringCreateFromRange_returns (h : Represents str l) (first last : ℤ)
    (hroom : (l.length : ℤ) < intMax) :
    Returns (Represents · (slice l first last)) (stringCreateFromRange junk str first last) := by
  have hlength := h.length_eq
  rw [stringCreateFromRange]
  split
  next hempty =>
    have hl : l = [] := List.length_eq_zero_iff.mp (by omega)
    rw [hl, slice_nil]
    exact Returns.pure stringCreate_represents
  next =>
    obtain ⟨b, e, hclamp, -, hle, hin, hslice⟩ := clampRange_eq l first last
    rw [hlength, hclamp]
    dsimp only
    split
    next heq =>
      have hnone : slice l first last = [] := by
        rw [← hslice, Int.ofNat_inj.mp heq, Nat.sub_self, List.take_zero]
      rw [hnone]
      exact Returns.pure stringCreate_represents
    next =>
      have hcount : (slice l first last).length = e - b := by
        rw [← hslice, List.length_take_of_le (by rw [List.length_drop]; omega)]
      have hreads : Reads [] (slice l first last) 0 0 ((Source.other str).read b (e - b) 0) := by
        have hholds : (Source.other str).Holds [] l := h
        have hread : Reads [] _ 0 0 _ := hholds.reads b (e - b) (by omega) trivial
        rw [hslice] at hread
        rwa [Int.ofNat_sub hle] at hread
      exact createAll_returns junk (fun hmem => h.nulFree (mem_of_mem_slice hmem)) (by omega) hreads
        (by rw [hcount]; omega)

theorem slice_all (l : List UInt8) : slice l 0 l.length = l := by
  have hpos : ((l.length : ℤ) = -1) = False := eq_false (by omega)
  rw [slice, if_neg (by omega), Int.toNat_natCast, List.take_length]
  rfl

theorem stringCreateFrom_returns (h : Represents str l) (hroom : (l.length : ℤ) < intMax) :
    Returns (Represents · l) (stringCreateFrom junk str) := by
  have hlength := h.length_eq
  rw [stringCreateFrom]
  split
  next hempty =>
    have hl : l = [] := List.length_eq_zero_iff.mp (by omega)
    rw [hl]
    exact Returns.pure stringCreate_represents
  next =>
    have hrange := stringCreateFromRange_returns junk h 0 l.length hroom
    rwa [slice_all, ← hlength] at hrange

/-! ## Setters -/

theorem HoldsAny.length_zero {source : Source} (h : Represents str l)
    (hholds : HoldsAny l m (some source)) (hzero : source.length str = 0) : m = [] := by
  have hlength := Source.Holds.length_eq hholds h
  exact List.length_eq_zero_iff.mp (by omega)

theorem Source.Holds.nulFree {source : Source} (hholds : source.Holds l m) (h : Represents str l) :
    0 ∉ m := by
  cases source with
  | own =>
    rw [Source.Holds] at hholds
    exact hholds ▸ h.nulFree
  | other str2 => exact Represents.nulFree hholds

/-- The whole of an argument. -/
theorem Source.Holds.reads_all {source : Source} {pos len : ℕ} (hholds : source.Holds l m)
    (hclear : source.Clear l pos len 0 m.length) :
    Reads l m pos len (source.read 0 m.length pos) := by
  have hreads := hholds.reads 0 m.length (by omega) hclear
  rwa [List.drop_zero, List.take_length, Int.natCast_zero] at hreads

theorem stringSet_returns (h : Represents str l) (hother : HoldsAny l m other)
    (hroom : (m.length : ℤ) < intMax) : Returns (Represents · m) (stringSet junk str other) := by
  cases other with
  | none =>
    rw [hother]
    exact h.clear
  | some source =>
    simp only [stringSet]
    split
    next hzero =>
      rw [hother.length_zero h hzero]
      exact h.clear
    next =>
      cases source with
      | own =>
        obtain rfl : m = l := hother
        exact Returns.pure h
      | other str2 =>
        have hlength : str2.length = m.length := Represents.length_eq hother
        have hholds : (Source.other str2).Holds l m := hother
        have hreads : Reads l m 0 l.length _ := hholds.reads_all trivial
        dsimp only
        rw [hlength]
        exact setAll_returns junk h (Represents.nulFree hother) hroom hreads rfl

theorem stringSetCstr_returns (h : Represents str l) {cstr : Option (List UInt8)}
    (hnul : NulFree cstr) (hroom : ((cstr.getD []).length : ℤ) < intMax) :
    Returns (Represents · (cstr.getD [])) (stringSetCstr junk str cstr) := by
  cases cstr with
  | none => exact h.clear
  | some cstr =>
    rw [Option.getD_some] at hroom ⊢
    rw [stringSetCstr, strlen_eq (hnul cstr rfl), if_neg (by omega)]
    have hreads : Reads l _ 0 l.length (fromData cstr cstr.length) :=
      fromData_reads (by omega) (Int.le_refl _)
    rw [Int.toNat_natCast, List.take_length] at hreads
    exact setAll_returns junk h (hnul cstr rfl) hroom hreads rfl

theorem stringSetChar_returns (h : Represents str l) {ch : UInt8} (hch : ch ≠ 0) :
    Returns (Represents · [ch]) (stringSetChar str ch) := by
  rw [stringSetChar, if_neg hch]
  have hinitial := h.initialCapacity_le
  have hlarge : (1 : ℤ) < stringInitialCapacity := by decide
  have hreplace : Returns _ (replaceRange str (0 : ℕ) l.length 1 1 (nChars 1 ch)) :=
    replaceRange_returns h (p := [ch]) (by omega) (by simpa using hch.symm)
      (by rw [List.length_singleton]; omega) nChar_reads rfl (by rw [List.length_singleton]; omega)
  rw [Int.natCast_zero, ← h.length_eq] at hreplace
  simpa using hreplace

theorem stringSetData_returns (h : Represents str l) {data : Option (List UInt8)} {n : ℤ}
    (hnul : NulFree data) (hin : HasBytes data n)
    (hroom : (((data.getD []).take n.toNat).length : ℤ) < intMax) :
    Returns (Represents · ((data.getD []).take n.toNat)) (stringSetData junk str data n) := by
  cases data with
  | none =>
    rw [Option.getD_none, List.take_nil]
    exact h.clear
  | some data =>
    have hin := hin data rfl
    rw [Option.getD_some] at hroom ⊢
    rw [stringSetData]
    split
    next hnone =>
      rw [Int.toNat_of_nonpos hnone]
      exact h.clear
    next hsome =>
      have hlength : (data.take n.toNat).length = n.toNat := List.length_take_of_le (by omega)
      have hn : (n.toNat : ℤ) = n := Int.toNat_of_nonneg (by omega)
      dsimp only
      rw [if_neg (by omega)]
      refine Returns.bind_eq (nulFreeRun_eq (hnul data rfl) hin) ?_
      rw [hlength, hn]
      exact setAll_returns junk h (not_mem_take (hnul data rfl) _) (by omega)
        (fromData_reads (by omega) hin) (by omega)

theorem stringSetNChars_returns (h : Represents str l) {ch : UInt8} (hch : ch ≠ 0)
    (hroom : count < intMax) :
    Returns (Represents · (List.replicate count.toNat ch)) (stringSetNChars junk str count ch) := by
  rw [stringSetNChars]
  split
  next hnone =>
    rw [Int.toNat_of_nonpos (hnone.resolve_right hch)]
    exact h.clear
  next hsome =>
    dsimp only
    rw [if_neg (by omega)]
    exact setAll_returns junk h (not_mem_replicate hch _) (by rw [List.length_replicate]; omega)
      nChars_reads (by rw [List.length_replicate]; omega)

theorem Source.Holds.clampRange_eq {source : Source} (hholds : source.Holds l m)
    (h : Represents str l) (first last : ℤ) :
    ∃ b e : ℕ, clampRange (source.length str) first last = ((b : ℤ), (e : ℤ)) ∧
      b = min first.toNat m.length ∧ b ≤ e ∧ e ≤ m.length ∧
      (m.drop b).take (e - b) = slice m first last ∧ (slice m first last).length = e - b := by
  obtain ⟨b, e, hclamp, hb, hle, hin, hslice⟩ := Strings.clampRange_eq m first last
  refine ⟨b, e, by rw [hholds.length_eq h, hclamp], hb, hle, hin, hslice, ?_⟩
  rw [← hslice, List.length_take_of_le (by rw [List.length_drop]; omega)]

/-- The string's own characters may be copied, if they lie behind the place they go to. -/
theorem stringSetSubstring_returns (h : Represents str l) {begin2 end2 : ℤ}
    (hother : HoldsAny l m other) (hroom : ((slice m begin2 end2).length : ℤ) < intMax)
    (hclear : other = some .own → (slice m begin2 end2).length ≤ begin2.toNat) :
    Returns (Represents · (slice m begin2 end2))
      (stringSetSubstring junk str other begin2 end2) := by
  cases other with
  | none =>
    rw [hother, slice_nil]
    exact h.clear
  | some source =>
    obtain ⟨b, e, hclamp, hb, hle, hin, hslice, hcount⟩ :=
      Source.Holds.clampRange_eq hother h begin2 end2
    rw [stringSetSubstring, hclamp]
    split
    next hzero =>
      rw [hother.length_zero h hzero, slice_nil]
      exact h.clear
    next =>
      dsimp only
      split
      next heq =>
        rw [List.length_eq_zero_iff.mp (by omega : (slice m begin2 end2).length = 0)]
        exact h.clear
      next =>
        have hgap : source.Clear l 0 l.length b (e - b) := by
          cases source with
          | own =>
            have hbehind := hclear rfl
            exact .inr ⟨by omega, .inr (Nat.zero_add _)⟩
          | other str2 => trivial
        have hreads := Source.Holds.reads hother b (e - b) (by omega) hgap
        rw [hslice, Int.ofNat_sub hle] at hreads
        exact setAll_returns junk h
          (fun hmem => Source.Holds.nulFree hother h (mem_of_mem_slice hmem)) hroom hreads (by omega)

/-! ## Capacity -/

theorem stringReserve_returns (h : Represents str l) (newCap : ℤ) :
    Returns (Represents · l) (stringReserve junk str newCap) := by
  rw [stringReserve]
  split
  next => exact Returns.pure h
  next =>
    dsimp only
    generalize (if newCap > intMax - 1 then intMax - 1 else newCap) = needed
    split
    next => exact (stringEnsureCapacity_returns h).mono fun s hs => hs.1
    next => exact Returns.pure h

theorem stringShrinkToFit_returns (h : Represents str l) (hroom : (l.length : ℤ) < intMax) :
    Returns (Represents · l) (stringShrinkToFit junk str) := by
  have hlength := h.length_eq
  rw [stringShrinkToFit]
  refine Returns.bind_eq (addInt_eq (by omega)) ?_
  split
  next hsmall =>
    split
    next => exact (stringNormalizeCapacity_returns h (by omega)).mono fun s hs => hs.1
    next => exact Returns.pure h
  next hlarge =>
    split
    next => exact Returns.pure (h.reallocated (by omega) (by omega))
    next => exact Returns.pure h

/-! ## Insertion and erasure -/

/-- The string may be inserted into itself at its end only. -/
theorem stringInsert_returns (h : Represents str l) {at_ : ℤ} (hother : HoldsAny l m other)
    (hroom : (l.length + m.length : ℤ) < intMax)
    (hclear : other = some .own → l.length ≤ at_.toNat) :
    Returns (Represents · (insertAt l at_ m)) (stringInsert junk str at_ other) := by
  cases other with
  | none =>
    rw [hother, insertAt_nil]
    exact Returns.pure h
  | some source =>
    rw [stringInsert]
    dsimp only
    split
    next hzero =>
      rw [hother.length_zero h hzero, insertAt_nil]
      exact Returns.pure h
    next =>
      have hgap : source.Clear l (min at_.toNat l.length) 0 0 m.length := by
        cases source with
        | own =>
          obtain rfl : m = l := hother
          have hend := hclear rfl
          exact .inl (by omega)
        | other str2 => trivial
      have hreads := Source.Holds.reads_all hother hgap
      rw [← clampPos_eq h, ← Source.Holds.length_eq hother h] at hreads
      exact insertAll_returns junk h (Source.Holds.nulFree hother h) hroom hreads
        (Source.Holds.length_eq hother h)

theorem stringInsertNChars_returns (h : Represents str l) {at_ : ℤ} {ch : UInt8} (hch : ch ≠ 0)
    (hroom : (l.length + count.toNat : ℤ) < intMax) :
    Returns (Represents · (insertAt l at_ (List.replicate count.toNat ch)))
      (stringInsertNChars junk str at_ count ch) := by
  rw [stringInsertNChars, if_neg hch]
  split
  next hnone =>
    rw [Int.toNat_of_nonpos hnone, List.replicate_zero, insertAt_nil]
    exact Returns.pure h
  next =>
    exact insertAll_returns junk h (not_mem_replicate hch _) (by rw [List.length_replicate]; omega)
      nChars_reads (by rw [List.length_replicate]; omega)

theorem intOfSize_eq {n : ℕ} (h : (n : ℤ) < intMax) : intOfSize n = n := by
  have hmax : intMax = 2147483647 := rfl
  refine Int.bmod_eq_of_le ?_ ?_
  · omega
  · omega

theorem stringInsertCstr_returns (h : Represents str l) {at_ : ℤ} {cstr : Option (List UInt8)}
    (hnul : NulFree cstr) (hroom : (l.length + (cstr.getD []).length : ℤ) < intMax) :
    Returns (Represents · (insertAt l at_ (cstr.getD []))) (stringInsertCstr junk str at_ cstr) := by
  cases cstr with
  | none =>
    rw [Option.getD_none, insertAt_nil]
    exact Returns.pure h
  | some cstr =>
    rw [Option.getD_some] at hroom ⊢
    rw [stringInsertCstr, strlen_eq (hnul cstr rfl)]
    split
    next hzero =>
      rw [List.length_eq_zero_iff.mp hzero, insertAt_nil]
      exact Returns.pure h
    next =>
      rw [intOfSize_eq (by omega)]
      have hreads : Reads l _ (min at_.toNat l.length) 0 (fromData cstr cstr.length) :=
        fromData_reads (by omega) (Int.le_refl _)
      rw [Int.toNat_natCast, List.take_length] at hreads
      exact insertAll_returns junk h (hnul cstr rfl) hroom hreads rfl

theorem stringInsertData_returns (h : Represents str l) {at_ : ℤ} {data : Option (List UInt8)}
    {n : ℤ} (hnul : NulFree data) (hin : HasBytes data n)
    (hroom : (l.length + ((data.getD []).take n.toNat).length : ℤ) < intMax) :
    Returns (Represents · (insertAt l at_ ((data.getD []).take n.toNat)))
      (stringInsertData junk str at_ data n) := by
  cases data with
  | none =>
    rw [Option.getD_none, List.take_nil, insertAt_nil]
    exact Returns.pure h
  | some data =>
    have hin := hin data rfl
    rw [Option.getD_some] at hroom ⊢
    rw [stringInsertData]
    split
    next hnone =>
      rw [Int.toNat_of_nonpos hnone, List.take_zero, insertAt_nil]
      exact Returns.pure h
    next hsome =>
      have hlength : (data.take n.toNat).length = n.toNat := List.length_take_of_le (by omega)
      have hn : (n.toNat : ℤ) = n := Int.toNat_of_nonneg (by omega)
      refine Returns.bind_eq (nulFreeRun_eq (hnul data rfl) hin) ?_
      rw [hlength, hn, if_neg (by omega)]
      exact insertAll_returns junk h (not_mem_take (hnul data rfl) _) hroom
        (fromData_reads (by omega) hin) (by omega)

theorem stringErase_returns (h : Represents str l) {at_ n : ℤ} (hroom : (l.length : ℤ) < intMax)
    (hint : at_.toNat < l.length → 0 < n → at_.toNat + n ≤ intMax) :
    Returns (Represents · (replaceAt l at_ n [])) (stringErase junk str at_ n) := by
  refine replaceIn_returns (p := []) h (fun pos len => do
    let s ← replaceRange str pos len 0 (str.length - len) (nChars 0 0)
    if s.isHeapAllocated ∧ s.capacity - s.length > stringReduceThreshold then
      stringShrinkToFit junk s
    else return s) hint fun pos len hpos hlen hinside hsome => ?_
  have hcapacity := h.lt_capacity
  have hreads : Reads l [] pos len (nChars 0 0) := ⟨fun _ _ _ => rfl⟩
  have hreplace : Returns _ (replaceRange str pos len 0 (str.length - len) (nChars 0 0)) :=
    replaceRange_returns h (by omega) List.not_mem_nil (by rw [List.length_nil]; omega) hreads rfl
      (by rw [List.length_nil, h.length_eq]; omega)
  refine hreplace.bind fun s hs => ?_
  split
  next =>
    refine stringShrinkToFit_returns junk hs ?_
    simp only [List.length_append, List.length_take, List.length_drop, List.length_nil]
    omega
  next => exact Returns.pure hs

/-! ## Appending -/

theorem stringPushBack_returns (h : Represents str l) {ch : UInt8} (hch : ch ≠ 0)
    (hroom : (l.length : ℤ) < intMax - 2) :
    Returns (Represents · (l ++ [ch])) (stringPushBack junk str ch) := by
  have hlength := h.length_eq
  rw [stringPushBack, if_neg hch, if_neg (by omega)]
  exact appendAll_returns junk h (by simpa using hch.symm)
    (by rw [List.length_singleton]; omega) nChar_reads rfl

theorem stringPopBack_returns (h : Represents str l) :
    Returns (fun r => r.1 = l.getLast?.getD 0 ∧ Represents r.2 l.dropLast) (stringPopBack str) := by
  have hlength := h.length_eq
  rw [stringPopBack]
  split
  next hnone =>
    have hl : l = [] := List.length_eq_zero_iff.mp (by omega)
    subst hl
    exact Returns.pure ⟨rfl, h⟩
  next hsome =>
    have hread := window_eq h.starts_with (i := l.length - 1) (n := 1) (by omega)
    have hat : str.length - 1 = (l.length - 1 : ℕ) := by omega
    rw [Int.natCast_one, ← hat] at hread
    refine Returns.bind_eq (by rw [hread, checked]) ?_
    rw [hat]
    refine (h.cut (by omega)).bind fun s hs => Returns.pure ⟨?_, ?_⟩
    · rw [List.headD_eq_head?_getD, List.head?_take, if_neg (by decide), List.head?_drop,
        List.getLast?_eq_getElem?]
    · rwa [List.dropLast_eq_take]

/-- An appending function that cuts what would reach `INT_MAX` has nothing to cut here. -/
theorem appendAtMost_returns (h : Represents str l) (hnul : 0 ∉ p)
    {body : ℤ → StringT → Except MemoryFault (List UInt8)}
    (hroom : (l.length + p.length : ℤ) < intMax) (hreads : Reads l p l.length 0 (body count))
    (hcount : count = p.length) :
    Returns (Represents · (l ++ p)) (appendAtMost junk str count body) := by
  have hlength := h.length_eq
  rw [appendAtMost, if_neg (by omega)]
  exact appendAll_returns junk h hnul hroom hreads hcount

/-- The characters before the end of a string are clear of what is appended. -/
theorem Source.clear_append {source : Source} {start count' : ℕ} (hholds : source.Holds l m)
    (hin : start + count' ≤ m.length) : source.Clear l l.length 0 start count' := by
  cases source with
  | own =>
    rw [Source.Holds] at hholds
    exact .inl (hholds ▸ hin)
  | other str2 => trivial

theorem stringAppend_returns (h : Represents str l) (hother : HoldsAny l m other)
    (hroom : (l.length + m.length : ℤ) < intMax) :
    Returns (Represents · (l ++ m)) (stringAppend junk str other) := by
  cases other with
  | none =>
    rw [hother, List.append_nil]
    exact Returns.pure h
  | some source =>
    rw [stringAppend]
    split
    next hzero =>
      rw [hother.length_zero h hzero, List.append_nil]
      exact Returns.pure h
    next =>
      have hreads := Source.Holds.reads_all hother (Source.clear_append hother (by omega))
      rw [Source.Holds.length_eq hother h]
      refine appendAtMost_returns junk h (Source.Holds.nulFree hother h) hroom ?_ rfl
      rwa [← h.length_eq] at hreads

theorem stringAppendSubstring_returns (h : Represents str l) {first last : ℤ}
    (hother : HoldsAny l m other) (hroom : (l.length + (slice m first last).length : ℤ) < intMax) :
    Returns (Represents · (l ++ slice m first last))
      (stringAppendSubstring junk str other first last) := by
  cases other with
  | none =>
    rw [hother, slice_nil, List.append_nil]
    exact Returns.pure h
  | some source =>
    obtain ⟨b, e, hclamp, -, hle, hin, hslice, hcount⟩ :=
      Source.Holds.clampRange_eq hother h first last
    rw [stringAppendSubstring, hclamp]
    split
    next hzero =>
      rw [hother.length_zero h hzero, slice_nil, List.append_nil]
      exact Returns.pure h
    next =>
      dsimp only
      split
      next heq =>
        rw [List.length_eq_zero_iff.mp (by omega : (slice m first last).length = 0),
          List.append_nil]
        exact Returns.pure h
      next =>
        have hreads := Source.Holds.reads hother b (e - b) (by omega)
          (Source.clear_append hother (by omega))
        rw [hslice, Int.ofNat_sub hle, ← h.length_eq] at hreads
        exact appendAll_returns junk h
          (fun hmem => Source.Holds.nulFree hother h (mem_of_mem_slice hmem)) hroom hreads (by omega)

theorem stringAppendCstr_returns (h : Represents str l) {cstr : Option (List UInt8)}
    (hnul : NulFree cstr) (hroom : (l.length + (cstr.getD []).length : ℤ) < intMax) :
    Returns (Represents · (l ++ cstr.getD [])) (stringAppendCstr junk str cstr) := by
  cases cstr with
  | none =>
    rw [Option.getD_none, List.append_nil]
    exact Returns.pure h
  | some cstr =>
    rw [Option.getD_some] at hroom ⊢
    rw [stringAppendCstr, strlen_eq (hnul cstr rfl)]
    split
    next hzero =>
      rw [List.length_eq_zero_iff.mp hzero, List.append_nil]
      exact Returns.pure h
    next =>
      rw [intOfSize_eq (by omega)]
      have hreads : Reads l _ l.length 0 (fromData cstr cstr.length) :=
        fromData_reads (by omega) (Int.le_refl _)
      rw [Int.toNat_natCast, List.take_length] at hreads
      exact appendAtMost_returns junk h (hnul cstr rfl) hroom hreads rfl

theorem stringAppendNChars_returns (h : Represents str l) {ch : UInt8} (hch : ch ≠ 0)
    (hroom : (l.length + count.toNat : ℤ) < intMax) :
    Returns (Represents · (l ++ List.replicate count.toNat ch))
      (stringAppendNChars junk str count ch) := by
  rw [stringAppendNChars]
  split
  next hnone =>
    rw [Int.toNat_of_nonpos (hnone.resolve_right hch), List.replicate_zero, List.append_nil]
    exact Returns.pure h
  next =>
    exact appendAtMost_returns junk h (not_mem_replicate hch _)
      (by rw [List.length_replicate]; omega) nChars_reads (by rw [List.length_replicate]; omega)

theorem stringAppendData_returns (h : Represents str l) {data : Option (List UInt8)} {n : ℤ}
    (hnul : NulFree data) (hin : HasBytes data n)
    (hroom : (l.length + ((data.getD []).take n.toNat).length : ℤ) < intMax) :
    Returns (Represents · (l ++ (data.getD []).take n.toNat)) (stringAppendData junk str data n) := by
  cases data with
  | none =>
    rw [Option.getD_none, List.take_nil, List.append_nil]
    exact Returns.pure h
  | some data =>
    have hin := hin data rfl
    rw [Option.getD_some] at hroom ⊢
    rw [stringAppendData]
    split
    next hnone =>
      rw [Int.toNat_of_nonpos hnone, List.take_zero, List.append_nil]
      exact Returns.pure h
    next hsome =>
      have hlength : (data.take n.toNat).length = n.toNat := List.length_take_of_le (by omega)
      have hn : (n.toNat : ℤ) = n := Int.toNat_of_nonneg (by omega)
      refine Returns.bind_eq (nulFreeRun_eq (hnul data rfl) hin) ?_
      rw [hlength, hn, if_neg (by omega)]
      exact appendAtMost_returns junk h (not_mem_take (hnul data rfl) _) hroom
        (fromData_reads (by omega) hin) (by omega)

theorem utf8Byte_ne_zero {mark bits : UInt32} (hmark : mark.toUInt8 ≠ 0) :
    utf8Byte mark bits ≠ 0 := by
  rw [utf8Byte, UInt32.toUInt8_or]
  exact fun hzero => hmark (UInt8.or_eq_zero_iff.mp hzero).1

/-- Only the code point NUL is encoded with a NUL. -/
theorem utf8Bytes_nulFree {cp : UInt32} (hcp : cp ≠ 0) : 0 ∉ utf8Bytes cp := by
  have htrail : ∀ bits, 0 ≠ utf8Byte 0x80 bits := fun bits => (utf8Byte_ne_zero (by decide)).symm
  have hlead2 : ∀ bits, 0 ≠ utf8Byte 0xC0 bits := fun bits => (utf8Byte_ne_zero (by decide)).symm
  have hlead3 : ∀ bits, 0 ≠ utf8Byte 0xE0 bits := fun bits => (utf8Byte_ne_zero (by decide)).symm
  have hlead4 : ∀ bits, 0 ≠ utf8Byte 0xF0 bits := fun bits => (utf8Byte_ne_zero (by decide)).symm
  rw [utf8Bytes]
  split
  next hascii =>
    have hbyte : 0 ≠ cp.toUInt8 := by
      intro hzero
      apply hcp
      have hsmall := UInt32.le_iff_toNat_le.mp hascii
      have hnat := congrArg UInt8.toNat hzero
      rw [UInt32.toNat_toUInt8] at hnat
      apply UInt32.toNat_inj.mp
      simp only [UInt32.reduceToNat, UInt8.toNat_zero] at hsmall hnat
      rw [UInt32.toNat_zero]
      omega
    simpa using hbyte
  next =>
    split
    next => simp [htrail, hlead2]
    next =>
      split
      next => exact List.not_mem_nil
      next =>
        split
        next => simp [htrail, hlead3]
        next =>
          split
          next => simp [htrail, hlead4]
          next => exact List.not_mem_nil

theorem stringAppendUtf8_returns (h : Represents str l) {cp : UInt32} (hcp : cp ≠ 0)
    (hroom : (l.length + (utf8Bytes cp).length : ℤ) < intMax) :
    Returns (fun r : ℤ × StringT => r.1 = (utf8Bytes cp).length ∧ Represents r.2 (l ++ utf8Bytes cp))
      (stringAppendUtf8 junk str cp) := by
  rw [stringAppendUtf8]
  split
  next hnone =>
    rw [hnone, List.append_nil]
    exact Returns.pure ⟨rfl, h⟩
  next =>
    have hnul : NulFree (some (utf8Bytes cp)) := fun d hd => by
      cases hd
      exact utf8Bytes_nulFree hcp
    have hin : HasBytes (some (utf8Bytes cp)) (utf8Bytes cp).length := fun d hd => by
      cases hd
      exact Int.le_refl _
    have happend := stringAppendData_returns junk h hnul hin
      (by rw [Option.getD_some, Int.toNat_natCast, List.take_length]; exact hroom)
    rw [Option.getD_some, Int.toNat_natCast, List.take_length] at happend
    exact happend.bind fun s hs => Returns.pure ⟨rfl, hs⟩

/-! ## Replacement -/

/-- A range that is empty is not replaced, whatever by. -/
theorem replaceIn_outside (h : Represents str l) {at_ n : ℤ}
    (hrange : ¬ (at_.toNat < l.length ∧ 0 < n)) (body : ℤ → ℤ → Except MemoryFault StringT) :
    Returns (Represents · (replaceAt l at_ n p)) (replaceIn str at_ n body) := by
  refine replaceIn_returns h body (fun hinside hsome => absurd ⟨hinside, hsome⟩ hrange)
    fun pos len hpos hlen hinside hsome => ?_
  subst hpos
  exact absurd ⟨hinside, by omega⟩ hrange

/-- The room a replacement needs, in terms of its result. -/
theorem length_replaceAt {at_ n : ℤ} (hinside : at_.toNat < l.length) (hsome : 0 < n) :
    ((replaceAt l at_ n p).length : ℤ) =
      l.length + p.length - (min n.toNat (l.length - at_.toNat) : ℕ) := by
  rw [replaceAt, if_pos ⟨hinside, hsome⟩]
  simp only [List.length_append, List.length_take, List.length_drop]
  omega

/-- What an argument of a replacement has to satisfy if it overwrites something. -/
def OnRange (l : List UInt8) (at_ n : ℤ) (P : ℕ → ℕ → Prop) : Prop :=
  at_.toNat < l.length → 0 < n → P at_.toNat (min n.toNat (l.length - at_.toNat))

theorem replaceWith_returns (h : Represents str l) {at_ n : ℤ}
    {read : ℤ → StringT → Except MemoryFault (List UInt8)} (hnul : 0 ∉ p)
    (hint : at_.toNat < l.length → 0 < n → at_.toNat + n ≤ intMax)
    (hroom : ((replaceAt l at_ n p).length : ℤ) < intMax)
    (hreads : OnRange l at_ n fun pos len => p ≠ [] → Reads l p pos len (read pos))
    (hcount : count = p.length) :
    Returns (Represents · (replaceAt l at_ n p))
      (replaceIn str at_ n fun pos len =>
        spliceRange junk str pos len count (ifAny count (read pos))) := by
  refine replaceIn_returns h _ hint fun pos len hpos hlen hinside hsome => ?_
  subst hpos
  have hn : 0 < n := by omega
  rw [length_replaceAt hinside hn] at hroom
  have hread := hreads hinside hn
  rw [← hlen] at hread hroom
  exact spliceRange_returns junk h (by omega) hnul (by omega) (ifAny_reads hcount hread) hcount

/-- A string does not replace a part of itself. -/
theorem stringReplace_returns (h : Represents str l) {at_ n : ℤ} (hother : HoldsAny l m other)
    (hint : at_.toNat < l.length → 0 < n → at_.toNat + n ≤ intMax)
    (hroom : ((replaceAt l at_ n m).length : ℤ) < intMax)
    (hclear : OnRange l at_ n fun _ _ => other ≠ some .own) :
    Returns (Represents · (replaceAt l at_ n m)) (stringReplace junk str at_ n other) := by
  cases other with
  | none =>
    obtain rfl : m = [] := hother
    exact replaceWith_returns junk h List.not_mem_nil hint hroom (fun _ _ hne => absurd rfl hne) rfl
  | some source =>
    refine replaceWith_returns junk h (Source.Holds.nulFree hother h) hint hroom
      (fun hinside hsome _ => ?_) (Source.Holds.length_eq hother h)
    cases source with
    | own => exact absurd rfl (hclear hinside hsome)
    | other str2 =>
      have hholds : (Source.other str2).Holds l m := hother
      have hreads : Reads l m at_.toNat (min n.toNat (l.length - at_.toNat)) _ :=
        hholds.reads_all trivial
      rwa [← hholds.length_eq h] at hreads

/-- A string replaces a part of itself by one of its parts before that, or by one behind it if nothing
moves. -/
def OwnPartClear (l : List UInt8) (pos len first count : ℕ) : Prop :=
  first + count ≤ pos ∨ pos + count ≤ first ∧ (len = count ∨ pos + len = l.length)

theorem stringReplaceSubstring_returns (h : Represents str l) {at_ n begin2 end2 : ℤ}
    (hother : HoldsAny l m other) (hint : at_.toNat < l.length → 0 < n → at_.toNat + n ≤ intMax)
    (hroom : ((replaceAt l at_ n (slice m begin2 end2)).length : ℤ) < intMax)
    (hclear : OnRange l at_ n fun pos len => other = some .own → slice m begin2 end2 ≠ [] →
      OwnPartClear l pos len begin2.toNat (slice m begin2 end2).length) :
    Returns (Represents · (replaceAt l at_ n (slice m begin2 end2)))
      (stringReplaceSubstring junk str at_ n other begin2 end2) := by
  cases other with
  | none =>
    obtain rfl : m = [] := hother
    rw [slice_nil] at hroom ⊢
    exact replaceWith_returns junk h List.not_mem_nil hint hroom (fun _ _ hne => absurd rfl hne) rfl
  | some source =>
    have hholds : source.Holds l m := hother
    have hlength := hholds.length_eq h
    obtain ⟨b, e, hclamp, hb, hle, hin, hslice, hcount⟩ := hholds.clampRange_eq h begin2 end2
    have hnul : 0 ∉ slice m begin2 end2 := fun hmem => hholds.nulFree h (mem_of_mem_slice hmem)
    rw [stringReplaceSubstring]
    by_cases hempty : source.length str > 0
    · simp only [if_pos hempty, hclamp]
      refine replaceWith_returns junk h hnul hint hroom (fun hinside hsome hne => ?_) (by omega)
      have hcountPos := List.length_pos_iff.mpr hne
      have hgap : source.Clear l at_.toNat (min n.toNat (l.length - at_.toNat)) b (e - b) := by
        cases source with
        | own =>
          have hclear := hclear hinside hsome rfl hne
          have hfirst : b = begin2.toNat := by omega
          rwa [← hfirst, hcount] at hclear
        | other str2 => trivial
      have hreads := hholds.reads b (e - b) (by omega) hgap
      rwa [hslice, Int.ofNat_sub hle] at hreads
    · simp only [if_neg hempty]
      have hnone : slice m begin2 end2 = [] := List.length_eq_zero_iff.mp (by omega)
      rw [hnone] at hroom ⊢
      exact replaceWith_returns junk h List.not_mem_nil hint hroom (fun _ _ hne => absurd rfl hne) rfl

theorem stringReplaceCstr_returns (h : Represents str l) {at_ n : ℤ} {cstr : Option (List UInt8)}
    (hnul : NulFree cstr) (hint : at_.toNat < l.length → 0 < n → at_.toNat + n ≤ intMax)
    (hroom : ((replaceAt l at_ n (cstr.getD [])).length : ℤ) < intMax) :
    Returns (Represents · (replaceAt l at_ n (cstr.getD [])))
      (stringReplaceCstr junk str at_ n cstr) := by
  by_cases hrange : at_.toNat < l.length ∧ 0 < n
  case neg => exact replaceIn_outside h hrange _
  have hsize : ((cstr.getD []).length : ℤ) < intMax := by
    rw [length_replaceAt hrange.1 hrange.2] at hroom
    omega
  have hstrlen : cstr.elim 0 strlen = (cstr.getD []).length := by
    cases cstr with
    | none => rfl
    | some cstr => exact strlen_eq (hnul cstr rfl)
  rw [stringReplaceCstr, hstrlen, intOfSize_eq hsize]
  refine replaceWith_returns junk h (fun hmem => ?_) hint hroom (fun _ _ _ => ?_) rfl
  · cases cstr with
    | none => exact List.not_mem_nil hmem
    | some cstr => exact hnul cstr rfl hmem
  · have hreads : Reads l _ at_.toNat (min n.toNat (l.length - at_.toNat))
        (fromData (cstr.getD []) (cstr.getD []).length) := fromData_reads (by omega) (Int.le_refl _)
    rwa [Int.toNat_natCast, List.take_length] at hreads

theorem stringReplaceNChars_returns (h : Represents str l) {at_ n : ℤ} {ch : UInt8} (hch : ch ≠ 0)
    (hint : at_.toNat < l.length → 0 < n → at_.toNat + n ≤ intMax)
    (hroom : ((replaceAt l at_ n (List.replicate count.toNat ch)).length : ℤ) < intMax) :
    Returns (Represents · (replaceAt l at_ n (List.replicate count.toNat ch)))
      (stringReplaceNChars junk str at_ n count ch) := by
  have hcount : (if count ≤ 0 then 0 else count) = (count.toNat : ℤ) := by split <;> omega
  rw [stringReplaceNChars, if_neg hch]
  dsimp only
  rw [hcount]
  refine replaceWith_returns junk h (not_mem_replicate hch _) hint hroom (fun _ _ _ => ?_)
    (by rw [List.length_replicate])
  exact ⟨fun _ _ _ => rfl⟩

theorem stringReplaceData_returns (h : Represents str l) {at_ n dataLen : ℤ}
    {data : List UInt8} (hnul : 0 ∉ data) (hin : dataLen ≤ data.length)
    (hint : at_.toNat < l.length → 0 < n → at_.toNat + n ≤ intMax)
    (hroom : ((replaceAt l at_ n (data.take dataLen.toNat)).length : ℤ) < intMax) :
    Returns (Represents · (replaceAt l at_ n (data.take dataLen.toNat)))
      (stringReplaceData junk str at_ n (some data) dataLen) := by
  have hlength : (data.take dataLen.toNat).length = dataLen.toNat :=
    List.length_take_of_le (by omega)
  have hbody : stringReplaceData junk str at_ n (some data) dataLen =
      replaceIn str at_ n fun pos len =>
        spliceRange junk str pos len dataLen.toNat
          (ifAny dataLen.toNat (fromData data dataLen.toNat)) := by
    by_cases hsome : dataLen > 0
    · simp only [stringReplaceData, if_pos hsome, nulFreeRun_eq hnul hin, hlength]
      rfl
    · simp only [stringReplaceData, if_neg hsome]
      rw [Int.toNat_of_nonpos (by omega)]
      rfl
  rw [hbody]
  refine replaceWith_returns junk h (not_mem_take hnul _) hint hroom (fun _ _ _ => ?_)
    (by rw [hlength])
  exact fromData_reads (n := (dataLen.toNat : ℤ)) (by omega) (by omega)

/-! ## Resizing -/

theorem stringResize_returns (h : Represents str l) (newSize : ℤ) :
    Returns (Represents · (l.take newSize.toNat)) (stringResize str newSize) := by
  have hlength := h.length_eq
  have hsize : (if newSize < 0 then 0 else newSize) = (newSize.toNat : ℤ) := by split <;> omega
  rw [stringResize, hsize]
  split
  next hlarge =>
    rw [List.take_of_length_le (by omega)]
    exact Returns.pure h
  next hsmall => exact h.cut (by omega)

theorem stringResizeWithChar_returns (h : Represents str l) {newSize : ℤ} {ch : UInt8} (hch : ch ≠ 0)
    (hroom : newSize < intMax) :
    Returns (Represents · (resizeTo l newSize ch)) (stringResizeWithChar junk str newSize ch) := by
  have hlength := h.length_eq
  have hsize : (if newSize < 0 then 0 else newSize) = (newSize.toNat : ℤ) := by split <;> omega
  rw [stringResizeWithChar, hsize, resizeTo]
  split
  next hsmall =>
    rw [Nat.sub_eq_zero_of_le (by omega), List.replicate_zero, List.append_nil]
    exact h.cut (by omega)
  next hlarge =>
    have hfill : ((newSize.toNat : ℤ) - str.length).toNat = newSize.toNat - l.length := by omega
    rw [List.take_of_length_le (by omega), ← hfill]
    exact appendAll_returns junk h (not_mem_replicate hch _)
      (by rw [List.length_replicate]; omega) nChars_reads (by rw [List.length_replicate]; omega)

/-! ## More than one string -/

theorem stringMove_returns {str2 : StringT} (h : Represents str l) (h2 : Represents str2 m) :
    Returns (fun r => Represents r.1 m ∧ Represents r.2 []) (stringMove str str2) := by
  have hfirst : [(0 : UInt8)].length ≤ str2.inlineData.length := by
    rw [h2.inlineData_length]
    decide
  have hclear : checked (overwrite str2.inlineData (0 : ℕ) [0]) = .ok (patch str2.inlineData 0 [0]) :=
    overwrite_at (by omega)
  have hsecond : Represents
      ⟨0, stringInitialCapacity, .inlineData, patch str2.inlineData 0 [0]⟩ [] := by
    have hlength : (patch str2.inlineData 0 [0]).length = 16 :=
      (length_patch (by omega)).trans h2.inlineData_length
    refine ⟨⟨hlength, by simp, congrArg Nat.cast hlength⟩, rfl, ?_, List.not_mem_nil⟩
    exact patch_behind (List.nil_prefix (l := str2.inlineData)) [0]
  rw [stringMove]
  split
  next hheap =>
    refine Returns.bind_eq rfl (Returns.bind_eq hclear (Returns.pure ⟨?_, hsecond⟩))
    have hdata := h2.isHeapAllocated_iff.mp hheap
    have hbuffer : ({ str with data := str2.data, length := str2.length, capacity := str2.capacity } :
        StringT).buffer = str2.buffer := by
      cases hcase : str2.data with
      | inlineData => exact absurd hcase hdata
      | heap block => simp only [StringT.buffer, hcase]
    refine ⟨⟨h.inlineData_length, h2.data_iff, ?_⟩, h2.length_eq, ?_, h2.nulFree⟩
    · rw [hbuffer]
      exact h2.buffer_length
    · rw [hbuffer]
      exact h2.starts
  next hinline =>
    have hdata : str2.data = .inlineData := by
      by_contra hne
      exact hinline (h2.isHeapAllocated_iff.mpr hne)
    have hbuffer : str2.buffer = str2.inlineData := by rw [StringT.buffer, hdata]
    have hroom := h2.starts.length_le
    rw [hbuffer, List.length_append, List.length_singleton, h2.inlineData_length] at hroom
    have hread : checked (window str2.inlineData 0 (str2.length + 1)) = .ok (m ++ [0]) := by
      have hwindow := window_start h2.starts
      rwa [hbuffer, List.length_append, List.length_singleton, Int.natCast_add, Int.natCast_one,
        ← h2.length_eq] at hwindow
    have hwrite : checked (overwrite str.inlineData (0 : ℕ) (m ++ [0])) =
        .ok (patch str.inlineData 0 (m ++ [0])) := by
      apply overwrite_at
      rw [List.length_append, List.length_singleton, h.inlineData_length]
      omega
    have hlength : (patch str.inlineData 0 (m ++ [0])).length = 16 := by
      rw [length_patch, h.inlineData_length]
      rw [List.length_append, List.length_singleton, h.inlineData_length]
      omega
    refine Returns.bind_eq hread (Returns.bind_eq hwrite (Returns.bind_eq rfl
      (Returns.bind_eq hclear (Returns.pure ⟨?_, hsecond⟩))))
    refine ⟨⟨hlength, by simp, congrArg Nat.cast hlength⟩, h2.length_eq, ?_, h2.nulFree⟩
    exact patch_behind (List.nil_prefix (l := str.inlineData)) (m ++ [0])

/-- The strings of a list, the separator before each but one at index zero. -/
def joined (separator : List UInt8) (strv : List (List UInt8)) (k : ℕ) : List UInt8 :=
  (strv.zipIdx k).flatMap fun (s, i) => (if 0 < i then separator else []) ++ s

theorem joined_succ (separator : List UInt8) (strv : List (List UInt8)) (k : ℕ) :
    joined separator strv (k + 1) = strv.flatMap (separator ++ ·) := by
  induction strv generalizing k with
  | nil => rfl
  | cons s strv ih =>
    have hrest := ih (k + 1)
    rw [joined] at hrest ⊢
    rw [List.zipIdx_cons, List.flatMap_cons, List.flatMap_cons, hrest]
    rfl

theorem intercalate_cons (separator s : List UInt8) (strv : List (List UInt8)) :
    List.intercalate separator (s :: strv) = s ++ strv.flatMap (separator ++ ·) := by
  induction strv generalizing s with
  | nil => simp
  | cons s' strv ih => rw [List.intercalate_cons_cons, ih, List.flatMap_cons, List.append_assoc,
      List.append_assoc]

theorem joined_zero (separator : List UInt8) (strv : List (List UInt8)) :
    joined separator strv 0 = List.intercalate separator strv := by
  cases strv with
  | nil => rfl
  | cons s strv =>
    have hrest := joined_succ separator strv 0
    rw [joined] at hrest ⊢
    rw [intercalate_cons, List.zipIdx_cons, List.flatMap_cons, hrest]
    rfl

theorem appendStrings_returns {strv : List (List UInt8)} {separator : Option (List UInt8)}
    (hnul : ∀ s ∈ strv, 0 ∉ s) (hseparator : NulFree separator) {k : ℕ} (h : Represents str l)
    (hroom : (l.length + (joined (separator.getD []) strv k).length : ℤ) < intMax) :
    Returns (Represents · (l ++ joined (separator.getD []) strv k))
      ((strv.zipIdx k).foldlM (fun result (s, i) => do
        let result ← appendSeparator junk result separator i
        stringAppendCstr junk result (some s)) str) := by
  induction strv generalizing k str l with
  | nil =>
    rw [show joined (separator.getD []) [] k = [] from rfl, List.append_nil]
    exact Returns.pure h
  | cons s strv ih =>
    have hjoined : joined (separator.getD []) (s :: strv) k =
        (if 0 < k then separator.getD [] else []) ++ (s ++ joined (separator.getD []) strv (k + 1)) := by
      rw [joined, joined, List.zipIdx_cons, List.flatMap_cons, List.append_assoc]
    rw [hjoined, List.length_append, List.length_append] at hroom
    rw [hjoined, List.zipIdx_cons, List.foldlM_cons, ← List.append_assoc, ← List.append_assoc]
    have hs : NulFree (some s) := fun d hd => by
      cases hd
      exact hnul s List.mem_cons_self
    have hfirst : Returns (Represents · (l ++ (if 0 < k then separator.getD [] else [])))
        (appendSeparator junk str separator k) := by
      rw [appendSeparator]
      split
      next hlater =>
        rw [if_pos hlater] at hroom
        exact stringAppendCstr_returns junk h hseparator (by omega)
      next =>
        rw [List.append_nil]
        exact Returns.pure h
    have hboth : Returns (Represents · (l ++ (if 0 < k then separator.getD [] else []) ++ s)) (do
        let result ← appendSeparator junk str separator k
        stringAppendCstr junk result (some s)) :=
      hfirst.bind fun t ht => stringAppendCstr_returns junk ht hs
        (by rw [List.length_append, Option.getD_some]; omega)
    refine hboth.bind fun t ht => ih (fun s' hs' => hnul s' (List.mem_cons_of_mem s hs')) ht ?_
    rw [List.length_append, List.length_append]
    omega

theorem stringCreateFromCstrList_returns {strv : List (List UInt8)} {separator : Option (List UInt8)}
    (hnul : ∀ s ∈ strv, 0 ∉ s) (hseparator : NulFree separator)
    (hroom : ((List.intercalate (separator.getD []) strv).length : ℤ) < intMax) :
    Returns (Represents · (List.intercalate (separator.getD []) strv))
      (stringCreateFromCstrList junk strv separator) := by
  rw [← joined_zero] at hroom ⊢
  exact appendStrings_returns junk hnul hseparator stringCreate_represents
    (by rw [List.length_nil]; omega)

end Migash.Strings
