import Migash.StringT.Runs

/-! # Splitting a string at separators

Both functions of `strlist.c` cut a string by one loop, which makes the pieces
between the separators it finds. `strlist_create_from_string_split_cstr` gives
it the separators of its argument. `strlist_create_from_string_split_char`
hands its separator to `string_create_from_n_chars` as the count: what it looks
for is the byte `1`, or nothing at all.
-/

namespace Migash.Strings

open Library Library.Block

/-! ## The functions -/

section

variable (junk : Junk)

/-- `data[i]`. -/
def byteAt (str : StringT) (i : ℤ) : Except MemoryFault UInt8 :=
  checked (if 0 ≤ i then str.buffer[i.toNat]? else none)

/-- The loop over the next `n` bytes, for one that passes the test. -/
def findByte (test : UInt8 → Bool) (str : StringT) : ℕ → ℤ → Except MemoryFault ℤ
  | 0, _ => return -1
  | n + 1, i => do
    if test (← byteAt str i) then return i
    else findByte test str n (i + 1)

/-- The part that the two searches share. -/
def findFrom (test : UInt8 → Bool) (str : StringT) (pos : ℤ) : Except MemoryFault ℤ :=
  let pos := if pos < 0 then 0 else pos
  if pos ≥ str.length then return -1
  else findByte test str (str.length - pos).toNat pos

/-- `string_find_first_of_at`. -/
def stringFindFirstOfAt (str : StringT) (chars : Option StringT) (pos : ℤ) :
    Except MemoryFault ℤ :=
  match chars with
  | none => return -1
  | some chars =>
    if chars.length = 0 then return -1
    else do
      let set ← checked (window chars.buffer 0 chars.length)
      findFrom (fun ch => set.contains ch) str pos

/-- `strchr` finds the byte; it finds the end of the string too. -/
def strchr (chars : List UInt8) (ch : UInt8) : Bool :=
  ch = 0 || (chars.takeWhile (· ≠ 0)).contains ch

/-- `string_find_first_of_cstr_at`. -/
def stringFindFirstOfCstrAt (str : StringT) (chars : Option (List UInt8)) (pos : ℤ) :
    Except MemoryFault ℤ :=
  match chars with
  | none => return -1
  | some chars =>
    if strlen chars = 0 then return -1
    else findFrom (strchr chars) str pos

/-- The loop of the two functions, for `n` turns. -/
def splitLoop (find : ℤ → Except MemoryFault ℤ) (str : StringT) :
    ℕ → ℤ → Except MemoryFault (Option (List StringT))
  | 0, _ => return none
  | n + 1, first => do
    let last ← find first
    let substr ← stringSubstring junk str first last
    if last = -1 then return some [substr]
    else
      let rest ← splitLoop find str n (last + 1)
      return rest.map fun rest => substr :: rest

/-- A `char` as an `int`; whether it has a sign is up to the platform. -/
def intOfChar (signed : Bool) (ch : UInt8) : ℤ :=
  if signed && 128 ≤ ch.toNat then (ch.toNat : ℤ) - 256 else ch.toNat

/-- `strlist_create_from_string_split_char`, for `n` turns. The two arguments of
`string_create_from_n_chars` stand the wrong way round. -/
def strlistCreateFromStringSplitChar (signed : Bool) (n : ℕ) (str : StringT) (separator : UInt8) :
    Except MemoryFault (Option (List StringT)) := do
  let separatorStr ← stringCreateFromNChars junk (intOfChar signed separator) 1
  splitLoop junk (stringFindFirstOfAt str (some separatorStr)) str n 0

/-- `strlist_create_from_string_split_cstr`, for `n` turns. -/
def strlistCreateFromStringSplitCstr (n : ℕ) (str : StringT) (separators : List UInt8) :
    Except MemoryFault (Option (List StringT)) :=
  splitLoop junk (stringFindFirstOfCstrAt str (some separators)) str n 0

/-- `strlist_join` of a list without NULL. -/
def strlistJoin (list : List StringT) (separator : List UInt8) : Except MemoryFault StringT :=
  list.zipIdx.foldlM (fun result (str, i) => do
    let result ← appendSeparator junk result (some separator) i
    stringAppend junk result (some (.other str))) stringCreate

end

/-! ## The pieces of a list -/

section Pieces

variable {p q : UInt8 → Bool} {l : List UInt8} {ch : UInt8}

/-- The pieces are free of separators, and each separator put back behind its piece they are the
list. -/
structure Pieces (p : UInt8 → Bool) (l : List UInt8) (pieces : List (List UInt8)) : Prop where
  free : ∀ piece ∈ pieces, ∀ ch ∈ piece, p ch = false
  length : pieces.length = l.countP p + 1
  whole : (pieces.zipWith (· ++ ·) ((l.filter p).map ([·]) ++ [[]])).flatten = l

theorem splitOnP_free {piece : List UInt8} (h : piece ∈ l.splitOnP p) (hch : ch ∈ piece) :
    p ch = false := by
  induction l generalizing piece with
  | nil =>
    rw [List.splitOnP_nil, List.mem_singleton] at h
    rw [h] at hch
    cases hch
  | cons x l ih =>
    obtain ⟨first, rest, hsplit⟩ := List.exists_cons_of_ne_nil (List.splitOnP_ne_nil p l)
    rw [List.splitOnP_cons_eq_if_modifyHead, hsplit] at h
    rw [hsplit] at ih
    split at h
    · rcases List.mem_cons.mp h with rfl | h
      · cases hch
      · exact ih h hch
    · next hx =>
      rw [List.modifyHead_cons] at h
      rcases List.mem_cons.mp h with rfl | h
      · rcases List.mem_cons.mp hch with rfl | hch
        · simpa using hx
        · exact ih List.mem_cons_self hch
      · exact ih (List.mem_cons_of_mem _ h) hch

theorem length_splitOnP (p : UInt8 → Bool) (l : List UInt8) :
    (l.splitOnP p).length = l.countP p + 1 := by
  induction l with
  | nil => rfl
  | cons x l ih =>
    rw [List.splitOnP_cons_eq_if_modifyHead]
    split
    · next hx => rw [List.length_cons, ih, List.countP_cons_of_pos hx]
    · next hx => rw [List.length_modifyHead, ih, List.countP_cons_of_neg hx]

theorem pieces_splitOnP (p : UInt8 → Bool) (l : List UInt8) : Pieces p l (l.splitOnP p) where
  free := fun _ hpiece _ => splitOnP_free hpiece
  length := length_splitOnP p l
  whole := List.splitOnP_spec l

/-- A byte of the list that is no separator is in one of the pieces. -/
theorem exists_mem_splitOnP (hch : ch ∈ l) (hp : p ch = false) :
    ∃ piece ∈ l.splitOnP p, ch ∈ piece := by
  induction l with
  | nil => cases hch
  | cons x l ih =>
    obtain ⟨first, rest, hsplit⟩ := List.exists_cons_of_ne_nil (List.splitOnP_ne_nil p l)
    rw [List.splitOnP_cons_eq_if_modifyHead, hsplit]
    rw [hsplit] at ih
    split
    · next hx =>
      have hne : ch ≠ x := by
        rintro rfl
        rw [hp] at hx
        cases hx
      obtain ⟨piece, hpiece, hmem⟩ := ih ((List.mem_cons.mp hch).resolve_left hne)
      exact ⟨piece, List.mem_cons_of_mem _ hpiece, hmem⟩
    · rw [List.modifyHead_cons]
      rcases List.mem_cons.mp hch with rfl | hch
      · exact ⟨_, List.mem_cons_self, List.mem_cons_self⟩
      · obtain ⟨piece, hpiece, hmem⟩ := ih hch
        rcases List.mem_cons.mp hpiece with rfl | hpiece
        · exact ⟨_, List.mem_cons_self, List.mem_cons_of_mem _ hmem⟩
        · exact ⟨piece, List.mem_cons_of_mem _ hpiece, hmem⟩

theorem splitOnP_congr (h : ∀ ch ∈ l, p ch = q ch) : l.splitOnP p = l.splitOnP q := by
  induction l with
  | nil => rfl
  | cons x l ih =>
    rw [List.splitOnP_cons_eq_if_modifyHead, List.splitOnP_cons_eq_if_modifyHead,
      h x List.mem_cons_self, ih fun ch hch => h ch (List.mem_cons_of_mem x hch)]

end Pieces

/-! ## What the search finds -/

section Search

variable {str : StringT} {l : List UInt8} {test : UInt8 → Bool}

/-- The answer of a search from `first` on: the place of the next separator, or `-1`. -/
inductive Finds (p : UInt8 → Bool) (l : List UInt8) (first : ℕ) : ℤ → Prop where
  | nothing (h : ∀ ch ∈ l.drop first, p ch = false) : Finds p l first (-1)
  | found {passed rest : List UInt8} {ch : UInt8} (hsplit : l.drop first = passed ++ ch :: rest)
      (hpassed : ∀ other ∈ passed, p other = false) (hch : p ch = true) :
      Finds p l first (first + passed.length : ℕ)

theorem byteAt_eq (h : Represents str l) {i : ℕ} {ch : UInt8} (hget : l[i]? = some ch) :
    byteAt str i = .ok ch := by
  obtain ⟨rest, hrest⟩ := h.starts_with
  have hlt := (List.getElem?_eq_some_iff.mp hget).1
  rw [byteAt, if_pos (Int.natCast_nonneg i), Int.toNat_natCast, ← hrest,
    List.getElem?_append_left hlt, hget]
  rfl

theorem findByte_finds (h : Represents str l) {n first : ℕ} (hlen : first + n = l.length) :
    Returns (Finds test l first) (findByte test str n first) := by
  induction n generalizing first with
  | zero =>
    refine Returns.pure (.nothing fun ch hch => ?_)
    rw [List.drop_eq_nil_of_le (by omega)] at hch
    cases hch
  | succ n ih =>
    have hlt : first < l.length := by omega
    have hdrop : l.drop first = l[first] :: l.drop (first + 1) := List.drop_eq_getElem_cons hlt
    rw [findByte]
    refine Returns.bind_eq (byteAt_eq h (List.getElem?_eq_getElem hlt)) ?_
    split
    · next htest =>
      have hfound : Finds test l first (first + ([] : List UInt8).length : ℕ) :=
        .found hdrop (fun _ hother => nomatch hother) htest
      exact Returns.pure hfound
    · next htest =>
      have hrest : Returns (Finds test l (first + 1)) (findByte test str n (first + 1 : ℕ)) :=
        ih (by omega)
      rw [Int.natCast_add, Int.natCast_one] at hrest
      refine hrest.mono fun last hlast => ?_
      have hfirst : test l[first] = false := by simpa using htest
      cases hlast with
      | nothing hnone =>
        refine .nothing fun ch hch => ?_
        rw [hdrop] at hch
        rcases List.mem_cons.mp hch with rfl | hch
        · exact hfirst
        · exact hnone ch hch
      | found hsplit hpassed hch =>
        rename_i passed rest ch
        rw [hsplit] at hdrop
        have hlater : Finds test l first (first + (l[first] :: passed).length : ℕ) := by
          refine .found hdrop (fun other hother => ?_) hch
          rcases List.mem_cons.mp hother with rfl | hother
          · exact hfirst
          · exact hpassed other hother
        rw [List.length_cons] at hlater
        rwa [Nat.add_right_comm, Nat.add_assoc]

theorem findFrom_finds (h : Represents str l) {first : ℕ} (hfirst : first ≤ l.length) :
    Returns (Finds test l first) (findFrom test str first) := by
  have hlength := h.length_eq
  have hpos : (if (first : ℤ) < 0 then 0 else (first : ℤ)) = first := if_neg (by omega)
  unfold findFrom
  rw [hpos]
  dsimp only
  split
  · refine Returns.pure (.nothing fun ch hch => ?_)
    rw [List.drop_eq_nil_of_le (by omega)] at hch
    cases hch
  · have hcount : (str.length - first).toNat = l.length - first := by omega
    rw [hcount]
    exact findByte_finds h (by omega)

theorem Finds.congr {p q : UInt8 → Bool} {first : ℕ} {last : ℤ} (h : Finds p l first last)
    (hpq : ∀ ch ∈ l, p ch = q ch) : Finds q l first last := by
  cases h with
  | nothing hnone =>
    exact .nothing fun ch hch => (hpq ch (List.mem_of_mem_drop hch)).symm.trans (hnone ch hch)
  | found hsplit hpassed hch =>
    rename_i passed rest ch
    have hmem : ∀ other ∈ passed ++ ch :: rest, other ∈ l := by
      intro other hother
      rw [← hsplit] at hother
      exact List.mem_of_mem_drop hother
    refine .found hsplit (fun other hother => ?_) ?_
    · rw [← hpq other (hmem other (List.mem_append_left _ hother))]
      exact hpassed other hother
    · rw [← hpq ch (hmem ch (List.mem_append_right _ List.mem_cons_self))]
      exact hch

/-- The search for the characters of a string, which may be empty. -/
theorem stringFindFirstOfAt_finds (h : Represents str l) {chars : StringT} {set : List UInt8}
    (hchars : Represents chars set) {first : ℕ} (hfirst : first ≤ l.length) :
    Returns (Finds (fun ch => set.contains ch) l first)
      (stringFindFirstOfAt str (some chars) first) := by
  have hlength := hchars.length_eq
  rw [stringFindFirstOfAt]
  split
  · next hzero =>
    have hset : set = [] := List.length_eq_zero_iff.mp (by omega)
    rw [hset]
    exact Returns.pure (.nothing fun _ _ => rfl)
  · have hread : checked (window chars.buffer 0 chars.length) = .ok set := by
      rw [hlength, window_start hchars.starts_with]
    exact Returns.bind_eq hread (findFrom_finds h hfirst)

/-- The search for the separators of a C string. The end of it is no byte of a string. -/
theorem stringFindFirstOfCstrAt_finds (h : Represents str l) {chars : List UInt8}
    (hsome : strlen chars ≠ 0) {first : ℕ} (hfirst : first ≤ l.length) :
    Returns (Finds (fun ch => (chars.takeWhile (· ≠ 0)).contains ch) l first)
      (stringFindFirstOfCstrAt str (some chars) first) := by
  rw [stringFindFirstOfCstrAt, if_neg hsome]
  refine (findFrom_finds h hfirst).mono fun last hlast => hlast.congr fun ch hch => ?_
  have hne : ch ≠ 0 := ne_of_mem_of_not_mem hch h.nulFree
  rw [strchr, decide_eq_false hne, Bool.false_or]

end Search

/-! ## The loop -/

section Loop

variable (junk : Junk) {str : StringT} {l : List UInt8} {p : UInt8 → Bool}
  {find : ℤ → Except MemoryFault ℤ}

theorem slice_to_end (l : List UInt8) (first : ℕ) : slice l first (-1) = l.drop first := by
  rw [slice, if_pos rfl, Int.toNat_natCast, Int.toNat_natCast, List.take_length]

theorem slice_found {first : ℕ} {passed rest : List UInt8} {ch : UInt8}
    (hsplit : l.drop first = passed ++ ch :: rest) :
    slice l first (first + passed.length : ℕ) = passed := by
  have hne : ((first + passed.length : ℕ) : ℤ) ≠ -1 := by omega
  rw [slice, if_neg hne, Int.toNat_natCast, Int.toNat_natCast, List.drop_take, hsplit,
    Nat.add_sub_cancel_left, List.take_left]

/-- The strings of a list hold the lists, each the one at its place. -/
abbrev Hold (strs : List StringT) (pieces : List (List UInt8)) : Prop :=
  List.Forall₂ Represents strs pieces

/-- The loop makes the pieces of what is left; every turn but the last passes a separator. -/
theorem splitLoop_returns (h : Represents str l) (hroom : (l.length : ℤ) < intMax)
    (hfind : ∀ first : ℕ, first ≤ l.length → Returns (Finds p l first) (find first)) {n first : ℕ}
    (hfirst : first ≤ l.length) (hn : l.length < first + n) :
    Returns (fun strs => ∃ strs', strs = some strs' ∧ Hold strs' ((l.drop first).splitOnP p))
      (splitLoop junk find str n first) := by
  induction n generalizing first with
  | zero => omega
  | succ n ih =>
    rw [splitLoop]
    refine (hfind first hfirst).bind fun last hlast => ?_
    refine (stringCreateFromRange_returns junk h first last hroom).bind fun substr hsubstr => ?_
    cases hlast with
    | nothing hnone =>
      rw [slice_to_end] at hsubstr
      rw [if_pos rfl, List.splitOnP_eq_singleton hnone]
      exact Returns.pure ⟨_, rfl, .cons hsubstr .nil⟩
    | found hsplit hpassed hch =>
      rename_i passed rest ch
      rw [slice_found hsplit] at hsubstr
      have hlen : (l.drop first).length = (passed ++ ch :: rest).length := congrArg _ hsplit
      rw [List.length_drop, List.length_append, List.length_cons] at hlen
      have hrest : l.drop (first + passed.length + 1) = rest := by
        have hpass : (passed ++ ch :: rest).drop (passed.length + 1) = rest := by
          rw [List.drop_append, List.drop_eq_nil_of_le (by omega), Nat.add_sub_cancel_left]
          rfl
        rw [Nat.add_assoc, ← List.drop_drop, hsplit, hpass]
      have hne : ((first + passed.length : ℕ) : ℤ) ≠ -1 := by omega
      have hnext : Returns (fun strs => ∃ strs', strs = some strs' ∧
            Hold strs' ((l.drop (first + passed.length + 1)).splitOnP p))
          (splitLoop junk find str n (first + passed.length + 1 : ℕ)) := ih (by omega) (by omega)
      rw [hrest, Int.natCast_add _ 1, Int.natCast_one] at hnext
      rw [if_neg hne, hsplit, List.splitOnP_append_cons_of_forall_mem hpassed ch hch]
      refine hnext.bind fun strs hstrs => ?_
      obtain ⟨strs, rfl, hhold⟩ := hstrs
      exact Returns.pure ⟨_, rfl, .cons hsubstr hhold⟩

theorem strlistCreateFromStringSplitCstr_returns (h : Represents str l)
    (hroom : (l.length : ℤ) < intMax) {separators : List UInt8} (hsome : strlen separators ≠ 0)
    {n : ℕ} (hn : l.length < n) :
    Returns (fun strs => ∃ strs', strs = some strs' ∧
        Hold strs' (l.splitOnP fun ch => (separators.takeWhile (· ≠ 0)).contains ch))
      (strlistCreateFromStringSplitCstr junk n str separators) := by
  rw [strlistCreateFromStringSplitCstr]
  have hloop := splitLoop_returns junk h hroom (fun _ => stringFindFirstOfCstrAt_finds h hsome)
    (n := n) (Nat.zero_le _) (by omega)
  rwa [List.drop_zero] at hloop

/-- What the other function splits at: the byte `1` if the separator is positive as a `char`, and
nothing if not. -/
def soughtSet (signed : Bool) (separator : UInt8) : List UInt8 :=
  List.replicate (intOfChar signed separator).toNat 1

theorem intOfChar_lt (signed : Bool) (ch : UInt8) : intOfChar signed ch < intMax := by
  have := ch.toNat_lt
  unfold intOfChar intMax
  split <;> omega

theorem strlistCreateFromStringSplitChar_returns (h : Represents str l)
    (hroom : (l.length : ℤ) < intMax) (signed : Bool) (separator : UInt8) {n : ℕ}
    (hn : l.length < n) :
    Returns (fun strs => ∃ strs', strs = some strs' ∧
        Hold strs' (l.splitOnP fun ch => (soughtSet signed separator).contains ch))
      (strlistCreateFromStringSplitChar junk signed n str separator) := by
  rw [strlistCreateFromStringSplitChar]
  refine (stringCreateFromNChars_returns junk (by decide) (intOfChar_lt signed separator)).bind
    fun chars hchars => ?_
  have hloop := splitLoop_returns junk h hroom (fun _ => stringFindFirstOfAt_finds h hchars)
    (n := n) (Nat.zero_le _) (by omega)
  rwa [List.drop_zero] at hloop

theorem joinStrings_returns {strs : List StringT} {pieces : List (List UInt8)}
    (hhold : Hold strs pieces) {separator : List UInt8} (hseparator : 0 ∉ separator) {k : ℕ}
    {result : StringT} {m : List UInt8} (h : Represents result m)
    (hroom : (m.length + (joined separator pieces k).length : ℤ) < intMax) :
    Returns (Represents · (m ++ joined separator pieces k))
      ((strs.zipIdx k).foldlM (fun result (str, i) => do
        let result ← appendSeparator junk result (some separator) i
        stringAppend junk result (some (.other str))) result) := by
  induction hhold generalizing k result m with
  | nil =>
    have hnil : joined separator [] k = [] := rfl
    rw [hnil, List.append_nil]
    exact Returns.pure h
  | cons hstr hhold ih =>
    rename_i str piece strs pieces
    have hjoined : joined separator (piece :: pieces) k =
        (if 0 < k then separator else []) ++ (piece ++ joined separator pieces (k + 1)) := by
      rw [joined, joined, List.zipIdx_cons, List.flatMap_cons, List.append_assoc]
    rw [hjoined, List.length_append, List.length_append] at hroom
    rw [hjoined, List.zipIdx_cons, List.foldlM_cons, ← List.append_assoc, ← List.append_assoc]
    have hfirst : Returns (Represents · (m ++ if 0 < k then separator else []))
        (appendSeparator junk result (some separator) k) := by
      rw [appendSeparator]
      split
      · next hlater =>
        rw [if_pos hlater] at hroom
        have hnul : NulFree (some separator) := fun d hd => by
          cases hd
          exact hseparator
        exact stringAppendCstr_returns junk h hnul (by rw [Option.getD_some]; omega)
      · rw [List.append_nil]
        exact Returns.pure h
    have hboth : Returns (Represents · (m ++ (if 0 < k then separator else []) ++ piece)) (do
        let result ← appendSeparator junk result (some separator) k
        stringAppend junk result (some (.other str))) :=
      hfirst.bind fun t ht =>
        have hother : HoldsAny _ piece (some (.other str)) := hstr
        stringAppend_returns junk ht hother (by rw [List.length_append]; omega)
    refine hboth.bind fun t ht => ih ht ?_
    rw [List.length_append, List.length_append]
    omega

theorem strlistJoin_returns {strs : List StringT} {pieces : List (List UInt8)}
    (hhold : Hold strs pieces) {separator : List UInt8} (hseparator : 0 ∉ separator)
    (hroom : ((List.intercalate separator pieces).length : ℤ) < intMax) :
    Returns (Represents · (List.intercalate separator pieces))
      (strlistJoin junk strs separator) := by
  rw [← joined_zero] at hroom ⊢
  exact joinStrings_returns junk hhold hseparator stringCreate_represents
    (by rw [List.length_nil]; omega)

theorem Hold.contents_eq {strs : List StringT} {pieces : List (List UInt8)}
    (h : Hold strs pieces) : strs.map StringT.contents = pieces := by
  induction h with
  | nil => rfl
  | cons hstr _ ih => rw [List.map_cons, hstr.contents_eq, ih]

theorem Hold.wellFormed {strs : List StringT} {pieces : List (List UInt8)}
    (h : Hold strs pieces) : ∀ str ∈ strs, WellFormed str := by
  induction h with
  | nil =>
    intro str hstr
    cases hstr
  | cons hfirst _ ih =>
    intro str hstr
    rcases List.mem_cons.mp hstr with rfl | hstr
    · exact hfirst.wellFormed
    · exact ih str hstr

end Loop

/-! ## What a split promises -/

/-- The strings of the answer are the pieces between the bytes that satisfy `p`. -/
def Splits (p : UInt8 → Bool) (l : List UInt8)
    (answer : Except MemoryFault (Option (List StringT))) : Prop :=
  ∃ strs, answer = .ok (some strs) ∧ (∀ str ∈ strs, WellFormed str) ∧
    Pieces p l (strs.map StringT.contents)

/-- What the two functions promise of a string that holds `l`: they cut it at the separators, and
the pieces between single separators joined again are the string. -/
structure SplitsBoth (junk : Junk) (signed : Bool) (str : StringT) (l : List UInt8)
    (separator : UInt8) (separators : List UInt8) : Prop where
  char : ∀ n > l.length, Splits (· == separator) l
    (strlistCreateFromStringSplitChar junk signed n str separator)
  join : ∀ n > l.length, ∀ strs,
    strlistCreateFromStringSplitChar junk signed n str separator = .ok (some strs) →
      Returns (fun str => WellFormed str ∧ str.contents = l) (strlistJoin junk strs [separator])
  cstr : ∀ n > l.length, Splits (fun ch => (separators.takeWhile (· ≠ 0)).contains ch) l
    (strlistCreateFromStringSplitCstr junk n str separators)

section Promise

variable {junk : Junk} {signed : Bool} {str : StringT} {l : List UInt8} {separator : UInt8}
  {separators : List UInt8} {n : ℕ}

theorem splits_cstr (h : Represents str l) (hroom : (l.length : ℤ) < intMax)
    (hsome : strlen separators ≠ 0) (hn : l.length < n) :
    Splits (fun ch => (separators.takeWhile (· ≠ 0)).contains ch) l
      (strlistCreateFromStringSplitCstr junk n str separators) := by
  obtain ⟨_, heq, strs, rfl, hhold⟩ :=
    strlistCreateFromStringSplitCstr_returns junk h hroom hsome hn
  refine ⟨strs, heq, hhold.wellFormed, ?_⟩
  rw [hhold.contents_eq]
  exact pieces_splitOnP _ l

/-- The separator is `1`, or it is not in the string and nothing that is looked for is. -/
def SplitsRight (signed : Bool) (l : List UInt8) (separator : UInt8) : Prop :=
  separator = 1 ∨ (separator ∉ l ∧ (0 < intOfChar signed separator → 1 ∉ l))

theorem mem_soughtSet {ch : UInt8} :
    ch ∈ soughtSet signed separator ↔ ch = 1 ∧ 0 < intOfChar signed separator := by
  rw [soughtSet, List.mem_replicate, and_comm]
  refine and_congr_right fun _ => ?_
  omega

/-- A split at other bytes is one at the separator only where neither is in the string. -/
theorem splitsRight_of_pieces
    (h : Pieces (· == separator) l (l.splitOnP fun ch => (soughtSet signed separator).contains ch)) :
    SplitsRight signed l separator := by
  by_cases hone : separator = 1
  · exact .inl hone
  have hnot : separator ∉ soughtSet signed separator := fun hmem => hone (mem_soughtSet.mp hmem).1
  have habsent : separator ∉ l := by
    intro hmem
    obtain ⟨piece, hpiece, hin⟩ := exists_mem_splitOnP
      (p := fun ch => (soughtSet signed separator).contains ch) hmem (by simpa using hnot)
    have := h.free piece hpiece separator hin
    rw [beq_self_eq_true] at this
    cases this
  refine .inr ⟨habsent, fun hpos hmem => ?_⟩
  have hnone : l.countP (· == separator) = 0 := by
    rw [List.countP_eq_zero]
    intro ch hch heq
    rw [beq_iff_eq.mp heq] at hch
    exact habsent hch
  have hlength := h.length
  rw [length_splitOnP, hnone] at hlength
  have hsought : l.countP (fun ch => (soughtSet signed separator).contains ch) = 0 := by omega
  rw [List.countP_eq_zero] at hsought
  exact hsought 1 hmem (List.contains_iff_mem.mpr (mem_soughtSet.mpr ⟨rfl, hpos⟩))

/-- Where the condition holds, what is looked for is the separator, as far as the string goes. -/
theorem SplitsRight.splitOnP_eq (h : SplitsRight signed l separator) :
    (l.splitOnP fun ch => (soughtSet signed separator).contains ch) =
      l.splitOnP (· == separator) := by
  refine splitOnP_congr fun ch hch => ?_
  rw [Bool.eq_iff_iff, List.contains_iff_mem, mem_soughtSet, beq_iff_eq]
  rcases h with rfl | ⟨habsent, hone⟩
  · have hpos : 0 < intOfChar signed 1 := by cases signed <;> decide
    exact and_iff_left hpos
  · constructor
    · rintro ⟨rfl, hpos⟩
      exact absurd hch (hone hpos)
    · rintro rfl
      exact absurd hch habsent

/-- For a string and separators that the functions may be called with: they keep their promise
exactly if the separator is the byte `1`, or neither the separator nor what is looked for in its
place is in the string. -/
theorem splitsBoth_iff (h : Represents str l) (hroom : (l.length : ℤ) < intMax)
    (hseparator : separator ≠ 0) (hsome : strlen separators ≠ 0) :
    SplitsBoth junk signed str l separator separators ↔ SplitsRight signed l separator := by
  constructor
  · intro hboth
    obtain ⟨_, heq, strs, rfl, hhold⟩ :=
      strlistCreateFromStringSplitChar_returns junk h hroom signed separator (Nat.lt_succ_self _)
    obtain ⟨strs', heq', _, hpieces⟩ := hboth.char _ (Nat.lt_succ_self _)
    rw [heq, Except.ok.injEq, Option.some.injEq] at heq'
    rw [← heq', hhold.contents_eq] at hpieces
    exact splitsRight_of_pieces hpieces
  · intro hright
    have hchar : ∀ n > l.length, ∃ strs,
        strlistCreateFromStringSplitChar junk signed n str separator = .ok (some strs) ∧
          Hold strs (l.splitOnP (· == separator)) := by
      intro n hn
      obtain ⟨_, heq, strs, rfl, hhold⟩ :=
        strlistCreateFromStringSplitChar_returns junk h hroom signed separator hn
      rw [hright.splitOnP_eq] at hhold
      exact ⟨strs, heq, hhold⟩
    refine ⟨fun n hn => ?_, fun n hn strs hstrs => ?_, fun n hn => splits_cstr h hroom hsome hn⟩
    · obtain ⟨strs, heq, hhold⟩ := hchar n hn
      refine ⟨strs, heq, hhold.wellFormed, ?_⟩
      rw [hhold.contents_eq]
      exact pieces_splitOnP _ l
    · obtain ⟨strs', heq, hhold⟩ := hchar n hn
      rw [hstrs, Except.ok.injEq, Option.some.injEq] at heq
      subst heq
      have hjoined : List.intercalate [separator] (l.splitOnP (· == separator)) = l :=
        List.intercalate_splitOn separator
      have hjoin := strlistJoin_returns junk hhold (List.mem_singleton.not.mpr hseparator.symm)
        (by rwa [hjoined])
      rw [hjoined] at hjoin
      exact hjoin.mono fun str hstr => ⟨hstr.wellFormed, hstr.contents_eq⟩

/-- The string `a:b`. -/
theorem exists_colon : ∃ str, stringCreateFromCstr (fun _ _ => 0) (some [97, 58, 98]) = .ok str ∧
    Represents str [97, 58, 98] := by
  have hnul : NulFree (some [97, 58, 98]) := by
    rintro _ ⟨⟩
    decide
  exact (stringCreateFromCstr_returns _ hnul (by decide)).exists_answer

theorem splitsBoth_iff_colon : ∃ str,
    stringCreateFromCstr (fun _ _ => 0) (some [97, 58, 98]) = .ok str ∧
      (SplitsBoth (fun _ _ => 0) true str [97, 58, 98] 58 [58] ↔
        SplitsRight true [97, 58, 98] 58) := by
  obtain ⟨str, hcreate, hstr⟩ := exists_colon
  exact ⟨str, hcreate, splitsBoth_iff hstr (by decide) (by decide) (by decide)⟩

/-- `a:b` split at the colon is one piece: the search is for 58 bytes `1`. -/
theorem colon_not_split : ∃ str,
    stringCreateFromCstr (fun _ _ => 0) (some [97, 58, 98]) = .ok str ∧
      ¬ SplitsBoth (fun _ _ => 0) true str [97, 58, 98] 58 [58] := by
  obtain ⟨str, hcreate, hstr⟩ := exists_colon
  refine ⟨str, hcreate, fun hboth => ?_⟩
  obtain ⟨_, heq, strs, rfl, hhold⟩ := strlistCreateFromStringSplitChar_returns (fun _ _ => 0) hstr
    (by decide) true 58 (n := 4) (by decide)
  obtain ⟨strs', heq', _, hpieces⟩ := hboth.char 4 (by decide)
  rw [heq, Except.ok.injEq, Option.some.injEq] at heq'
  have hone : [97, 58, 98].splitOnP (fun ch => (soughtSet true 58).contains ch) =
      [[97, 58, 98]] := by
    refine List.splitOnP_eq_singleton fun ch hmem => ?_
    have hch : ch ∉ soughtSet true 58 := fun hset => by
      rw [(mem_soughtSet.mp hset).1] at hmem
      exact absurd hmem (by decide)
    simpa using hch
  rw [← heq', hhold.contents_eq, hone] at hpieces
  exact absurd hpieces.length (by decide)

end Promise

end Migash.Strings
