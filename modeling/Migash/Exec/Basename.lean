import Migash.StringT.Canonicalize
import Migash.Exec.Exported
import Mathlib.Data.List.DropRight

/-! # The builtins that take a path apart

`basename`, `dirname` and `miga_dirnamevar` drop the trailing separators, look
for the last one that is left and cut there. What they print is compared with
the last component of the path and with what stands before it.
-/

namespace Migash.Exec

open Library Library.Block Strings

/-! ## Searching from the end -/

/-- The loop of `string_rfind_cstr_at`, from the position before `n` down. -/
def rfindLoop (str : StringT) (substr : List UInt8) : ℕ → Except MemoryFault ℤ
  | 0 => return -1
  | n + 1 => do
    let bytes ← checked (window str.buffer n substr.length)
    if bytes = substr then return n
    else rfindLoop str substr n

/-- `string_rfind_cstr_at`. -/
def stringRfindCstrAt (str : StringT) (substr : Option (List UInt8)) (pos : ℤ) :
    Except MemoryFault ℤ :=
  let pos := clampPos str pos
  match substr with
  | none => return pos
  | some substr =>
    if strlen substr = 0 then return pos
    else
      let sublen := strlen substr
      let start := if pos > str.length - sublen then str.length - sublen else pos
      rfindLoop str (substr.take sublen) (start + 1).toNat

/-- `string_rfind_cstr`. -/
def stringRfindCstr (str : StringT) (substr : Option (List UInt8)) : Except MemoryFault ℤ :=
  if (substr.map strlen).getD 0 = 0 then return str.length
  else stringRfindCstrAt str substr str.length

/-- `string_at`. -/
def stringAt (str : StringT) (index : ℤ) : Except MemoryFault UInt8 :=
  if index < 0 ∨ index ≥ str.length then return 0 else byteAt str index

/-- `string_eq`. -/
def stringEq (str1 str2 : StringT) : Except MemoryFault Bool := strcmpEqual str1.buffer str2.buffer

/-- What `string_cstr` shows to a function that reads up to the NUL. -/
def stringCstr (str : StringT) : Except MemoryFault (List UInt8) :=
  checked (if str.buffer.contains 0 then some (str.buffer.takeWhile (· ≠ 0)) else none)

/-! ## The builtins -/

/-- What a builtin prints, its exit status and its complaint. -/
structure Printed where
  out : List UInt8
  status : ℤ := 0
  complaint : Option String := none
  deriving DecidableEq, Repr

/-- `printf("%s\n", …)`. -/
def printLine (line : List UInt8) : Printed := { out := line ++ [10] }

section

variable (junk : Junk)

/-- The loop that removes trailing separators, with at most `n` turns left. -/
def dropSeparators : ℕ → StringT → ℤ → Except MemoryFault (StringT × ℤ)
  | 0, work, len => return (work, len)
  | n + 1, work, len => do
    if len > 1 then
      let last ← stringAt work (len - 1)
      if last = 47 ∨ last = 92 then
        let (_, work) ← stringPopBack work
        dropSeparators n work (len - 1)
      else return (work, len)
    else return (work, len)

/-- One byte is left, and it is a separator. -/
def onlySeparator (work : StringT) (len : ℤ) : Except MemoryFault Bool :=
  if len = 1 then do
    let first ← stringAt work 0
    return first = 47 || first = 92
  else return false

/-- `last_sep_pos`. -/
def lastSepPos (work : StringT) : Except MemoryFault ℤ := do
  let lastSlashPos ← stringRfindCstr work (some [47])
  let lastBackslashPos ← stringRfindCstr work (some [92])
  if lastSlashPos > lastBackslashPos then return lastSlashPos
  else if lastBackslashPos > lastSlashPos then return lastBackslashPos
  else return lastSlashPos

/-- The suffix taken off if it is shorter and the end of the base matches. -/
def removeSuffix (base : StringT) (suffix : Option StringT) : Except MemoryFault StringT :=
  match suffix with
  | none => return base
  | some suffix =>
    if stringEmpty suffix then return base
    else if suffix.length < base.length then do
      let baseEnd ← stringCreateFromRange junk base (base.length - suffix.length) (-1)
      if ← stringEq baseEnd suffix then stringResize base (base.length - suffix.length)
      else return base
    else return base

/-- What `builtin_basename` prints for its arguments. -/
def basenameLine (pathArg : StringT) (suffix : Option StringT) :
    Except MemoryFault (List UInt8) := do
  if stringEmpty pathArg then return [46]
  let work ← Strings.stringCreateFrom junk pathArg
  let (work, len) ← dropSeparators work.length.toNat work work.length
  if ← onlySeparator work len then return [47]
  let lastSepPos ← lastSepPos work
  let base ← if lastSepPos ≥ 0 ∧ lastSepPos < len - 1
    then stringCreateFromRange junk work (lastSepPos + 1) (-1)
    else Strings.stringCreateFrom junk work
  let base ← removeSuffix junk base suffix
  stringCstr base

/-- `builtin_basename`. -/
def builtinBasename : List StringT → Except MemoryFault Printed
  | [_, pathArg] => printLine <$> basenameLine junk pathArg none
  | [_, pathArg, suffix] => printLine <$> basenameLine junk pathArg (some suffix)
  | _ => return ⟨[], 2, some "basename: usage: basename string [suffix]"⟩

/-- What `builtin_dirname` prints and `builtin_miga_dirnamevar` assigns. -/
def dirnameLine (pathArg : StringT) : Except MemoryFault (List UInt8) := do
  if stringEmpty pathArg then return [46]
  let work ← Strings.stringCreateFrom junk pathArg
  let (work, len) ← dropSeparators work.length.toNat work work.length
  if ← onlySeparator work len then return [47]
  let hasSlashPos ← stringFindFirstOfCstrAt work (some slashes) 0
  if hasSlashPos < 0 then return [46]
  let lastSepPos ← lastSepPos work
  let work ← if lastSepPos ≥ 0 then stringResize work lastSepPos else pure work
  let len := if lastSepPos ≥ 0 then lastSepPos else len
  let (work, len) ← dropSeparators len.toNat work len
  if len = 0 || (← onlySeparator work len) then return [47]
  else stringCstr work

/-- `builtin_dirname`. -/
def builtinDirname : List StringT → Except MemoryFault Printed
  | [_, pathArg] => printLine <$> dirnameLine junk pathArg
  | _ => return ⟨[], 2, some "dirname: usage: dirname string\n"⟩

/-- `builtin_miga_dirnamevar`; `text` are the characters of the store's strings. Whether the
assignment succeeds makes no difference to the exit status. -/
def builtinMigaDirnamevar (text : List UInt8 → String) (frame : FrameStores) :
    List StringT → Except MemoryFault (Printed × FrameStores)
  | [_, varnameArg, pathArg] =>
    if stringEmpty varnameArg then
      return (⟨[], 2, some "miga_dirnamevar: variable name cannot be empty\n"⟩, frame)
    else do
      let name ← stringCstr varnameArg
      let value ← dirnameLine junk pathArg
      return ({ out := [] }, (frame.frameSetPersistentVariable (text name) (text value)).2)
  | _ => return (⟨[], 2, some "miga_dirnamevar: usage: miga_dirnamevar varname string\n"⟩, frame)

end

/-! ## The parts of a path -/

section Parts

variable {path before comp after l : List UInt8}

/-- The components that are not empty. -/
def words (path : List UInt8) : List (List UInt8) :=
  (path.splitOnP isSlash).filter (!·.isEmpty)

/-- The last component of a path, what stands before it and the separators behind it. -/
structure Parts (path before comp after : List UInt8) : Prop where
  whole : path = before ++ comp ++ after
  named : comp ≠ []
  free : ∀ ch ∈ comp, isSlash ch = false
  cut : ∀ ch ∈ before.getLast?, isSlash ch = true
  trailing : ∀ ch ∈ after, isSlash ch = true

theorem rdropWhile_append {p : UInt8 → Bool} (h : ∀ ch ∈ after, p ch = true) (l : List UInt8) :
    (l ++ after).rdropWhile p = l.rdropWhile p := by
  induction after using List.reverseRecOn with
  | nil => rw [List.append_nil]
  | append_singleton after ch ih =>
    rw [← List.append_assoc, List.rdropWhile_concat_pos _ _ _ (h ch List.mem_concat_self),
      ih fun ch hmem => h ch (List.mem_append_left _ hmem)]

theorem rdropWhile_eq_self {p : UInt8 → Bool} (h : ∀ ch ∈ l.getLast?, p ch = false) :
    l.rdropWhile p = l :=
  List.rdropWhile_eq_self_iff.mpr fun hsome => by
    rw [h _ (List.getLast?_eq_some_getLast hsome)]
    exact Bool.false_ne_true

theorem getLast?_rdropWhile {p : UInt8 → Bool} {ch : UInt8}
    (h : ch ∈ (l.rdropWhile p).getLast?) : p ch = false := by
  have hsome : l.rdropWhile p ≠ [] := fun hnil => by
    rw [hnil] at h
    cases h
  rw [List.getLast?_eq_some_getLast hsome, Option.mem_some_iff] at h
  exact h ▸ Bool.eq_false_iff.mpr (List.rdropWhile_last_not _ _ hsome)

theorem words_append_cons {ch : UInt8} (hch : isSlash ch = true) (before after : List UInt8) :
    words (before ++ ch :: after) = words before ++ words after := by
  rw [words, List.splitOnP_append_cons _ _ hch, List.filter_append]
  rfl

theorem words_of_separators (h : ∀ ch ∈ l, isSlash ch = true) : words l = [] := by
  induction l with
  | nil => rfl
  | cons ch l ih =>
    have hcons := words_append_cons (h ch List.mem_cons_self) [] l
    rw [List.nil_append, ih fun ch hmem => h ch (List.mem_cons_of_mem _ hmem)] at hcons
    exact hcons

theorem words_of_free (hsome : comp ≠ []) (h : ∀ ch ∈ comp, isSlash ch = false) :
    words comp = [comp] := by
  rw [words, List.splitOnP_eq_singleton h, List.filter_cons_of_pos (by simpa using hsome),
    List.filter_nil]

theorem words_append_separators (h : ∀ ch ∈ after, isSlash ch = true) (l : List UInt8) :
    words (l ++ after) = words l := by
  cases after with
  | nil => rw [List.append_nil]
  | cons ch after =>
    rw [words_append_cons (h ch List.mem_cons_self),
      words_of_separators fun ch hmem => h ch (List.mem_cons_of_mem _ hmem), List.append_nil]

theorem Parts.getLast?_words (h : Parts path before comp after) :
    (words path).getLast? = some comp := by
  have hcomp := words_of_free h.named h.free
  rw [h.whole, words_append_separators h.trailing]
  rcases List.eq_nil_or_concat' before with rfl | ⟨init, ch, rfl⟩
  · rw [List.nil_append, hcomp]
    rfl
  · have hch : isSlash ch = true := h.cut ch List.getLast?_concat
    rw [List.append_assoc, List.singleton_append, words_append_cons hch, hcomp,
      List.getLast?_concat]

/-- The path without its trailing separators. -/
theorem Parts.rdropWhile_eq (h : Parts path before comp after) :
    path.rdropWhile isSlash = before ++ comp := by
  rw [h.whole, rdropWhile_append h.trailing]
  refine rdropWhile_eq_self fun ch hch => ?_
  rw [List.getLast?_append_of_ne_nil _ h.named] at hch
  exact h.free ch (List.mem_of_mem_getLast? hch)

theorem Parts.before_eq (h : Parts path before comp after) :
    (path.rdropWhile isSlash).rdropWhile (!isSlash ·) = before := by
  rw [h.rdropWhile_eq, rdropWhile_append fun ch hch => by rw [h.free ch hch]; rfl]
  exact rdropWhile_eq_self fun ch hch => by rw [h.cut ch hch]; rfl

/-- There is a last component if there is more than separators. -/
theorem exists_parts (h : path.rdropWhile isSlash ≠ []) :
    Parts path ((path.rdropWhile isSlash).rdropWhile (!isSlash ·))
      ((path.rdropWhile isSlash).rtakeWhile (!isSlash ·)) (path.rtakeWhile isSlash) where
  whole := by rw [List.rdropWhile_append_rtakeWhile, List.rdropWhile_append_rtakeWhile]
  named := fun hnil => by
    have hlast := List.rdropWhile_last_not _ _ h
    rw [List.rtakeWhile_eq_nil_iff] at hnil
    exact hnil h (by simpa using hlast)
  free := fun ch hch => by simpa using List.mem_rtakeWhile_imp hch
  cut := fun ch hch => by simpa using getLast?_rdropWhile hch
  trailing := fun ch hch => List.mem_rtakeWhile_imp hch

/-- What the loop leaves of a path: one byte stays even if it is a separator. -/
def kept (path : List UInt8) : List UInt8 :=
  if path.rdropWhile isSlash = [] then path.take 1 else path.rdropWhile isSlash

theorem kept_of_length_le (h : l.length ≤ 1) : kept l = l := by
  rw [kept]
  split_ifs with hnil
  · exact List.take_of_length_le h
  · match l, h with
    | [], _ => rfl
    | [ch], _ =>
      rw [List.rdropWhile_singleton] at hnil ⊢
      exact if_neg fun hch => hnil (if_pos hch)

theorem kept_concat {ch : UInt8} (hsome : l ≠ []) (hch : isSlash ch = true) :
    kept (l ++ [ch]) = kept l := by
  rw [kept, kept, List.rdropWhile_concat_pos _ _ _ hch,
    List.take_append_of_le_length (List.length_pos_of_ne_nil hsome)]

theorem kept_concat_other {ch : UInt8} (hch : isSlash ch = false) :
    kept (l ++ [ch]) = l ++ [ch] := by
  rw [kept, List.rdropWhile_concat_neg _ _ _ (by rw [hch]; exact Bool.false_ne_true),
    if_neg (List.concat_ne_nil _ _)]

theorem Parts.kept_eq (h : Parts path before comp after) : kept path = before ++ comp := by
  rw [kept, h.rdropWhile_eq, if_neg (List.append_ne_nil_of_right_ne_nil _ h.named)]

/-- What is left of separators is one of them. -/
theorem kept_of_separators (hsome : path ≠ []) (h : ∀ ch ∈ path, isSlash ch = true) :
    (kept path).length = 1 ∧ (kept path).all isSlash = true := by
  obtain ⟨ch, rest, rfl⟩ := List.exists_cons_of_ne_nil hsome
  rw [kept, if_pos (List.rdropWhile_eq_nil_iff.mpr h)]
  exact ⟨rfl, by simpa using h ch List.mem_cons_self⟩

/-- The component without a proper suffix of it. -/
def withoutSuffix (comp suffix : List UInt8) : List UInt8 :=
  if suffix <:+ comp ∧ suffix ≠ comp then comp.take (comp.length - suffix.length) else comp

/-- The last component of a path without the suffix. -/
def basenameOf (path suffix : List UInt8) : List UInt8 :=
  match (words path).getLast? with
  | none => [47]
  | some comp => withoutSuffix comp suffix

/-- What stands before a component, as the name of a directory. -/
def directory (before : List UInt8) : List UInt8 :=
  if before = [] then [46]
  else if before.rdropWhile isSlash = [] then [47]
  else before.rdropWhile isSlash

/-- The directory of a path. -/
def dirnameOf (path : List UInt8) : List UInt8 :=
  if path.rdropWhile isSlash = [] then [47]
  else directory ((path.rdropWhile isSlash).rdropWhile (!isSlash ·))

theorem Parts.basenameOf_eq (h : Parts path before comp after) (suffix : List UInt8) :
    basenameOf path suffix = withoutSuffix comp suffix := by
  rw [basenameOf, h.getLast?_words]

theorem Parts.dirnameOf_eq (h : Parts path before comp after) :
    dirnameOf path = directory before := by
  have hsome : path.rdropWhile isSlash ≠ [] := by
    rw [h.rdropWhile_eq]
    exact List.append_ne_nil_of_right_ne_nil _ h.named
  rw [dirnameOf, if_neg hsome, h.before_eq]

/-- Every path that is more than separators has its parts. -/
theorem separators_or_parts (path : List UInt8) :
    (∀ ch ∈ path, isSlash ch = true) ∨ ∃ before comp after, Parts path before comp after := by
  by_cases hnil : path.rdropWhile isSlash = []
  · exact .inl (List.rdropWhile_eq_nil_iff.mp hnil)
  · exact .inr ⟨_, _, _, exists_parts hnil⟩

end Parts

/-! ## What the functions return -/

section Returns

variable {str : StringT} {l m : List UInt8}

theorem isSlash_iff {ch : UInt8} : isSlash ch = true ↔ ch = 47 ∨ ch = 92 := by
  simp [isSlash, slashes]

theorem stringAt_eq (h : Represents str l) {i : ℕ} {ch : UInt8} (hget : l[i]? = some ch) :
    stringAt str i = .ok ch := by
  have hlt := (List.getElem?_eq_some_iff.mp hget).1
  have hlength := h.length_eq
  rw [stringAt, if_neg (by omega)]
  exact byteAt_eq h hget

theorem stringCstr_eq (h : Represents str l) : stringCstr str = .ok l := by
  obtain ⟨rest, hrest⟩ := h.starts
  have hall : ∀ ch ∈ l, decide (ch ≠ 0) = true := fun ch hch =>
    decide_eq_true fun heq => h.nulFree (heq ▸ hch)
  have hmem : str.buffer.contains 0 = true := by simp [← hrest]
  rw [stringCstr, if_pos hmem, ← hrest, List.append_assoc,
    List.takeWhile_append_of_pos hall]
  simp [checked]

theorem stringEq_eq {str2 : StringT} (h : Represents str l) (h2 : Represents str2 m) :
    stringEq str str2 = .ok (decide (l = m)) :=
  strcmpEqual_eq h.starts h2.starts h.nulFree h2.nulFree

/-- The loop keeps what is left of the path without trailing separators. -/
theorem dropSeparators_returns (h : Represents str l) {n : ℕ} (hn : l.length ≤ n) :
    Returns (fun r : StringT × ℤ => Represents r.1 (kept l) ∧ r.2 = (kept l).length)
      (dropSeparators n str l.length) := by
  induction n generalizing str l with
  | zero =>
    rw [dropSeparators, kept_of_length_le (by omega)]
    exact Returns.pure ⟨h, rfl⟩
  | succ n ih =>
    rw [dropSeparators]
    split
    · next hlong =>
      rcases List.eq_nil_or_concat' l with rfl | ⟨init, ch, rfl⟩
      · cases hlong
      · have hlen : (init ++ [ch]).length = init.length + 1 := by simp
        have hget : (init ++ [ch])[init.length]? = some ch := by simp
        have hat : (((init ++ [ch]).length : ℕ) : ℤ) - 1 = (init.length : ℕ) := by omega
        rw [hat]
        refine Returns.bind_eq (stringAt_eq h hget) ?_
        by_cases hch : isSlash ch = true
        · rw [if_pos (isSlash_iff.mp hch),
            kept_concat (List.ne_nil_of_length_pos (by omega)) hch]
          refine (stringPopBack_returns h).bind fun r hr => ?_
          obtain ⟨_, work⟩ := r
          have hwork := hr.2
          rw [List.dropLast_concat] at hwork
          exact ih hwork (by omega)
        · rw [if_neg (isSlash_iff.not.mp hch), kept_concat_other (Bool.eq_false_iff.mpr hch)]
          exact Returns.pure ⟨h, by omega⟩
    · next hshort =>
      rw [kept_of_length_le (by omega)]
      exact Returns.pure ⟨h, rfl⟩

theorem onlySeparator_eq (h : Represents str l) :
    onlySeparator str l.length = .ok (decide (l.length = 1) && l.all isSlash) := by
  rw [onlySeparator]
  split_ifs with hone
  · obtain ⟨ch, rfl⟩ := List.length_eq_one_iff.mp (Int.natCast_inj.mp hone)
    rw [← Int.natCast_zero, stringAt_eq h rfl]
    simp [bind, Except.bind, pure, Except.pure, isSlash, slashes]
  · rw [decide_eq_false (fun heq => hone (congrArg Nat.cast heq))]
    rfl

/-- The last place at which a byte passes the test, or `-1`. -/
structure LastAt (p : UInt8 → Bool) (l : List UInt8) (r : ℤ) : Prop where
  low : -1 ≤ r
  behind : ∀ (i : ℕ) ch, r < i → l[i]? = some ch → p ch = false
  here : 0 ≤ r → ∃ ch, l[r.toNat]? = some ch ∧ p ch = true

theorem rfindLoop_returns (h : Represents str l) {c : UInt8} {n : ℕ} (hn : n ≤ l.length)
    (hbehind : ∀ (i : ℕ) ch, n ≤ i → l[i]? = some ch → (ch == c) = false) :
    Returns (LastAt (· == c) l) (rfindLoop str [c] n) := by
  induction n with
  | zero =>
    exact Returns.pure {
      low := Int.le_refl _
      behind := fun i ch _ hget => hbehind i ch (Nat.zero_le _) hget
      here := fun hnot => absurd hnot (by decide) }
  | succ n ih =>
    rw [rfindLoop]
    have hread := window_eq h.starts_with (i := n) (n := 1) hn
    have hget : l[n]? = some l[n] := List.getElem?_eq_getElem hn
    rw [List.take_one_drop_eq_of_lt_length hn] at hread
    refine Returns.bind_eq (by rw [List.length_singleton, hread]; rfl) ?_
    split
    · next heq =>
      exact Returns.pure {
        low := by omega
        behind := fun i ch hi hch => hbehind i ch (by omega) hch
        here := fun _ => ⟨l[n], hget, beq_iff_eq.mpr (List.singleton_inj.mp heq)⟩ }
    · next hne =>
      refine ih (Nat.le_of_succ_le hn) fun i ch hi hch => ?_
      rcases Nat.eq_or_lt_of_le hi with rfl | hlt
      · rw [hget, Option.some.injEq] at hch
        exact hch ▸ beq_eq_false_iff_ne.mpr fun heq => hne (List.singleton_inj.mpr heq)
      · exact hbehind i ch hlt hch

theorem stringRfindCstr_returns (h : Represents str l) {c : UInt8} (hc : c ≠ 0) :
    Returns (LastAt (· == c) l) (stringRfindCstr str (some [c])) := by
  have hlength := h.length_eq
  have hlen : strlen [c] = 1 := by simp [strlen, hc]
  have hclamp : clampPos str str.length = l.length := by
    rw [hlength, clampPos_eq h]
    simp
  have hsome : ¬ ((some [c]).map strlen).getD 0 = 0 := by
    rw [Option.map_some, Option.getD_some, hlen]
    decide
  have hnonzero : ¬ strlen [c] = 0 := hsome
  rw [stringRfindCstr, if_neg hsome, stringRfindCstrAt, hclamp]
  dsimp only
  rw [if_neg hnonzero, hlength, hlen]
  have hstart : ((if (l.length : ℤ) > l.length - (1 : ℕ) then (l.length : ℤ) - (1 : ℕ)
      else l.length) + 1).toNat = l.length := by
    split <;> omega
  rw [hstart]
  refine rfindLoop_returns h (Nat.le_refl _) fun i ch hi hch => ?_
  exact absurd (List.getElem?_eq_some_iff.mp hch).1 (by omega)

/-- The later one of two finds. -/
theorem LastAt.either {p q s : UInt8 → Bool} {r r' : ℤ} (h : LastAt p l r) (h' : LastAt q l r')
    (hle : r' ≤ r) (hs : ∀ ch, s ch = (p ch || q ch)) : LastAt s l r where
  low := h.low
  behind := fun i ch hi hch => by
    rw [hs, h.behind i ch hi hch, h'.behind i ch (by omega) hch]
    rfl
  here := fun hsome => by
    obtain ⟨ch, hget, hch⟩ := h.here hsome
    exact ⟨ch, hget, by rw [hs, hch, Bool.true_or]⟩

theorem lastSepPos_returns (h : Represents str l) :
    Returns (LastAt isSlash l) (lastSepPos str) := by
  have hslash : ∀ ch, isSlash ch = (ch == 47 || ch == 92) := fun ch =>
    Bool.eq_iff_iff.mpr (by rw [isSlash_iff]; simp)
  have hbackslash : ∀ ch, isSlash ch = (ch == 92 || ch == 47) := fun ch => by
    rw [hslash, Bool.or_comm]
  rw [lastSepPos]
  refine (stringRfindCstr_returns h (by decide)).bind fun r hr => ?_
  refine (stringRfindCstr_returns h (by decide)).bind fun r' hr' => ?_
  split_ifs with hlt hgt
  · exact Returns.pure (hr.either hr' (by omega) hslash)
  · exact Returns.pure (hr'.either hr (by omega) hbackslash)
  · exact Returns.pure (hr.either hr' (by omega) hslash)

/-- The last separator that is left stands right before the last component. -/
theorem Parts.lastAt {path before comp after : List UInt8} (h : Parts path before comp after)
    {r : ℤ} (hr : LastAt isSlash (before ++ comp) r) : r + 1 = before.length := by
  have hlow : (before.length : ℤ) ≤ r + 1 := by
    rcases List.eq_nil_or_concat' before with rfl | ⟨init, ch, rfl⟩
    · have := hr.low
      rw [List.length_nil]
      omega
    · by_contra hlt
      have hlen : (init ++ [ch]).length = init.length + 1 := by simp
      have hget : (init ++ [ch] ++ comp)[init.length]? = some ch := by simp
      have hnot := hr.behind init.length ch (by omega) hget
      rw [h.cut ch List.getLast?_concat] at hnot
      cases hnot
  have hhigh : r < before.length := by
    by_contra hle
    obtain ⟨ch, hget, hch⟩ := hr.here (by omega)
    rw [List.getElem?_append_right (by omega)] at hget
    rw [h.free ch (List.mem_of_getElem? hget)] at hch
    cases hch
  omega

section Builtins

variable (junk : Junk)

theorem removeSuffix_some (h : Represents str l) (hroom : (l.length : ℤ) < intMax)
    {suffix : StringT} (hsuffix : Represents suffix m) :
    Returns (Represents · (withoutSuffix l m)) (removeSuffix junk str (some suffix)) := by
  have hlength := h.length_eq
  have hlength' := hsuffix.length_eq
  rw [removeSuffix, stringEmpty_eq hsuffix, withoutSuffix]
  by_cases hnil : m = []
  · have hsame : (if m <:+ l ∧ m ≠ l then l.take (l.length - m.length) else l) = l := by
      rw [hnil, List.length_nil, Nat.sub_zero, List.take_length, ite_self]
    rw [hsame, if_pos (decide_eq_true hnil)]
    exact Returns.pure h
  · rw [if_neg (decide_eq_true_iff.not.mpr hnil)]
    by_cases hlt : suffix.length < str.length
    · have hpos : str.length - suffix.length = (l.length - m.length : ℕ) := by omega
      have hend := stringCreateFromRange_returns junk h (l.length - m.length : ℕ) (-1) hroom
      rw [slice_to_end] at hend
      rw [if_pos hlt, hpos]
      refine hend.bind fun baseEnd hbaseEnd => ?_
      refine Returns.bind_eq (stringEq_eq hbaseEnd hsuffix) ?_
      by_cases hends : m <:+ l
      · have hdrop : l.drop (l.length - m.length) = m := (List.suffix_iff_eq_drop.mp hends).symm
        have hne : m ≠ l := fun heq => by rw [heq] at hlength'; omega
        rw [if_pos (decide_eq_true hdrop), if_pos ⟨hends, hne⟩]
        have hresize := stringResize_returns h (l.length - m.length : ℕ)
        rwa [Int.toNat_natCast] at hresize
      · have hdrop : l.drop (l.length - m.length) ≠ m := fun heq =>
          hends (List.suffix_iff_eq_drop.mpr heq.symm)
        rw [if_neg (decide_eq_true_iff.not.mpr hdrop), if_neg (fun hboth => hends hboth.1)]
        exact Returns.pure h
    · have hnot : ¬ (m <:+ l ∧ m ≠ l) := fun hboth =>
        hboth.2 (hboth.1.eq_of_length_le (by omega))
      rw [if_neg hlt, if_neg hnot]
      exact Returns.pure h

theorem withoutSuffix_nil (l : List UInt8) : withoutSuffix l [] = l := by
  rw [withoutSuffix, List.length_nil, Nat.sub_zero, List.take_length, ite_self]

/-- The argument that stands for the suffix. -/
def IsSuffix (suffix : Option StringT) (m : List UInt8) : Prop :=
  suffix.elim (m = []) (Represents · m)

theorem removeSuffix_returns (h : Represents str l) (hroom : (l.length : ℤ) < intMax)
    {suffix : Option StringT} (hsuffix : IsSuffix suffix m) :
    Returns (Represents · (withoutSuffix l m)) (removeSuffix junk str suffix) := by
  cases suffix with
  | none =>
    have hnil : m = [] := hsuffix
    rw [hnil, withoutSuffix_nil]
    exact Returns.pure h
  | some suffix => exact removeSuffix_some junk h hroom hsuffix

theorem dropAll_returns (h : Represents str l) :
    Returns (fun r : StringT × ℤ => Represents r.1 (kept l) ∧ r.2 = (kept l).length)
      (dropSeparators str.length.toNat str str.length) := by
  rw [h.length_eq, Int.toNat_natCast]
  exact dropSeparators_returns h (Nat.le_refl _)

theorem length_kept_le (l : List UInt8) : (kept l).length ≤ l.length := by
  rw [kept]
  split
  · exact (List.take_prefix _ _).length_le
  · exact (List.rdropWhile_prefix _ _).length_le

theorem Parts.onlySeparator_eq {path before comp after : List UInt8}
    (h : Parts path before comp after) (hstr : Represents str (before ++ comp)) :
    onlySeparator str ((before ++ comp).length : ℕ) = .ok false := by
  have hnot : (before ++ comp).all isSlash = false := by
    obtain ⟨ch, rest, rfl⟩ := List.exists_cons_of_ne_nil h.named
    simp [h.free ch List.mem_cons_self]
  rw [Exec.onlySeparator_eq hstr, hnot, Bool.and_false]

theorem basenameLine_eq (h : Represents str l) (hsome : l ≠ []) (hroom : (l.length : ℤ) < intMax)
    {suffix : Option StringT} (hsuffix : IsSuffix suffix m) :
    basenameLine junk str suffix = .ok (basenameOf l m) := by
  have hreturns : Returns (· = basenameOf l m) (basenameLine junk str suffix) := by
    rw [basenameLine, stringEmpty_eq h, decide_eq_false hsome]
    refine (stringCreateFrom_returns junk h hroom).bind fun work hwork => ?_
    refine (dropAll_returns hwork).bind fun r hr => ?_
    obtain ⟨work, len⟩ := r
    obtain ⟨hwork, rfl⟩ := hr
    dsimp only at hwork ⊢
    rcases separators_or_parts l with hseps | ⟨before, comp, after, hparts⟩
    · obtain ⟨hone, hall⟩ := kept_of_separators hsome hseps
      refine Returns.bind_eq (onlySeparator_eq hwork) ?_
      rw [hone, hall]
      refine Returns.pure ?_
      rw [basenameOf, words_of_separators hseps]
      rfl
    · rw [hparts.kept_eq] at hwork ⊢
      refine Returns.bind_eq (hparts.onlySeparator_eq hwork) ?_
      refine (lastSepPos_returns hwork).bind fun r hr => ?_
      have hpos := hparts.lastAt hr
      have hlen := length_kept_le l
      have hcomp : comp.length ≠ 0 := fun hzero =>
        hparts.named (List.length_eq_zero_iff.mp hzero)
      rw [hparts.kept_eq] at hlen
      have hrest : ∀ base, Represents base comp → Returns (· = basenameOf l m) (do
          let base ← removeSuffix junk base suffix
          stringCstr base) := fun base hbase => by
        rw [hparts.basenameOf_eq]
        have hshort : (comp.length : ℤ) < intMax := by
          rw [List.length_append] at hlen
          omega
        refine (removeSuffix_returns junk hbase hshort hsuffix).bind fun base hbase => ?_
        rw [stringCstr_eq hbase]
        exact Returns.ok rfl
      split
      · rw [hpos]
        have hrange := stringCreateFromRange_returns junk hwork before.length (-1) (by omega)
        rw [slice_to_end, List.drop_left] at hrange
        exact hrange.bind hrest
      · next hnone =>
        have hbefore : before = [] := by
          by_contra hne
          have hpositive := List.length_pos_of_ne_nil hne
          rw [List.length_append] at hnone
          omega
        rw [hbefore, List.nil_append] at hwork hlen
        exact (stringCreateFrom_returns junk hwork (by omega)).bind hrest
  obtain ⟨_, hrun, rfl⟩ := hreturns
  exact hrun

/-- The separator that a directory was cut at, and what stands before it. -/
theorem Parts.cut_at {path before comp after : List UInt8} (h : Parts path before comp after)
    (hsome : before ≠ []) : ∃ init ch, before = init ++ [ch] ∧ isSlash ch = true := by
  obtain ⟨init, ch, rfl⟩ := (List.eq_nil_or_concat' before).resolve_left hsome
  exact ⟨init, ch, rfl, h.cut ch List.getLast?_concat⟩

/-- No separator is left exactly if nothing stands before the last component. -/
theorem Parts.finds_neg_iff {path before comp after : List UInt8}
    (h : Parts path before comp after) {pos : ℤ} (hpos : Finds isSlash (before ++ comp) 0 pos) :
    pos < 0 ↔ before = [] := by
  cases hpos with
  | nothing hnone =>
    refine iff_of_true (by decide) ?_
    by_contra hsome
    obtain ⟨init, ch, rfl, hch⟩ := h.cut_at hsome
    rw [hnone ch (by simp)] at hch
    cases hch
  | found hsplit hpassed hch =>
    rename_i passed rest ch
    refine iff_of_false (by omega) ?_
    rintro rfl
    rw [List.drop_zero, List.nil_append] at hsplit
    rw [h.free ch (by rw [hsplit]; simp)] at hch
    cases hch

/-- The end of `dirname`, for what stands before the last separator. -/
theorem directory_returns {init : List UInt8} (h : Represents str init) {ch : UInt8}
    (hch : isSlash ch = true) :
    Returns (· = directory (init ++ [ch])) (do
      let (work, len) ← dropSeparators init.length str init.length
      if len = 0 || (← onlySeparator work len) then return [47]
      else stringCstr work) := by
  have hdirectory : directory (init ++ [ch]) =
      if init.rdropWhile isSlash = [] then [47] else init.rdropWhile isSlash := by
    rw [directory, if_neg (List.concat_ne_nil _ _), List.rdropWhile_concat_pos _ _ _ hch]
  refine (dropSeparators_returns h (Nat.le_refl _)).bind fun r hr => ?_
  obtain ⟨work, len⟩ := r
  obtain ⟨hwork, rfl⟩ := hr
  dsimp only at hwork ⊢
  refine Returns.bind_eq (onlySeparator_eq hwork) ?_
  rw [hdirectory]
  by_cases hnil : init.rdropWhile isSlash = []
  · have hdone : (decide (((kept init).length : ℤ) = 0) ||
        (decide ((kept init).length = 1) && (kept init).all isSlash)) = true := by
      by_cases hsome : init = []
      · rw [hsome]
        rfl
      · obtain ⟨hone, hall⟩ := kept_of_separators hsome (List.rdropWhile_eq_nil_iff.mp hnil)
        rw [hone, hall]
        rfl
    rw [if_pos hdone, if_pos hnil]
    exact Returns.pure rfl
  · have hkept : kept init = init.rdropWhile isSlash := if_neg hnil
    have hnotall : (kept init).all isSlash = false := by
      refine Bool.eq_false_iff.mpr fun hall => hnil ?_
      rw [hkept] at hall
      rw [← List.rdropWhile_idempotent]
      exact List.rdropWhile_eq_nil_iff.mpr (List.all_eq_true.mp hall)
    have hlen : ¬ ((kept init).length : ℤ) = 0 := by
      rw [hkept]
      exact fun hzero => hnil (List.length_eq_zero_iff.mp (by omega))
    rw [hnotall, Bool.and_false, decide_eq_false hlen, if_neg hnil, ← hkept]
    rw [stringCstr_eq hwork]
    exact Returns.ok rfl

theorem dirnameLine_eq (h : Represents str l) (hsome : l ≠ []) (hroom : (l.length : ℤ) < intMax) :
    dirnameLine junk str = .ok (dirnameOf l) := by
  have hreturns : Returns (· = dirnameOf l) (dirnameLine junk str) := by
    rw [dirnameLine, stringEmpty_eq h, decide_eq_false hsome]
    refine (stringCreateFrom_returns junk h hroom).bind fun work hwork => ?_
    refine (dropAll_returns hwork).bind fun r hr => ?_
    obtain ⟨work, len⟩ := r
    obtain ⟨hwork, rfl⟩ := hr
    dsimp only at hwork ⊢
    rcases separators_or_parts l with hseps | ⟨before, comp, after, hparts⟩
    · obtain ⟨hone, hall⟩ := kept_of_separators hsome hseps
      refine Returns.bind_eq (onlySeparator_eq hwork) ?_
      rw [hone, hall]
      refine Returns.pure ?_
      rw [dirnameOf, if_pos (List.rdropWhile_eq_nil_iff.mpr hseps)]
    · rw [hparts.kept_eq] at hwork ⊢
      refine Returns.bind_eq (hparts.onlySeparator_eq hwork) ?_
      refine (stringFindFirstOfCstrAt_finds hwork (by decide) (Nat.zero_le _)).bind
        fun pos hpos => ?_
      have hneg := hparts.finds_neg_iff hpos
      rw [hparts.dirnameOf_eq]
      by_cases hbefore : before = []
      · rw [if_pos (hneg.mpr hbefore), hbefore]
        exact Returns.pure rfl
      · rw [if_neg (hneg.not.mpr hbefore)]
        refine (lastSepPos_returns hwork).bind fun r hr => ?_
        have hat := hparts.lastAt hr
        obtain ⟨init, ch, rfl, hch⟩ := hparts.cut_at hbefore
        rw [List.length_append, List.length_singleton] at hat
        obtain rfl : r = init.length := by omega
        have hresize := stringResize_returns hwork init.length
        rw [Int.toNat_natCast, List.append_assoc, List.take_left] at hresize
        rw [if_pos (by omega), if_pos (by omega)]
        refine hresize.bind fun work hwork => ?_
        rw [Int.toNat_natCast]
        exact directory_returns hwork hch
  obtain ⟨_, hrun, rfl⟩ := hreturns
  exact hrun

end Builtins

end Returns

/-! ## The builtins agree with the parts -/

/-- The suffix is removed if it is a proper suffix, and nothing else is. -/
structure SuffixRemoved (comp suffix base : List UInt8) : Prop where
  proper : suffix <:+ comp → suffix ≠ comp → base ++ suffix = comp
  other : ¬ (suffix <:+ comp ∧ suffix ≠ comp) → base = comp

/-- The name of the directory that is written before a component. -/
structure IsDirectory (before dir : List UInt8) : Prop where
  nothing : before = [] → dir = [46]
  separators : before ≠ [] → (∀ ch ∈ before, isSlash ch = true) → dir = [47]
  trimmed : (∃ ch ∈ before, isSlash ch = false) → ∃ seps, before = dir ++ seps ∧
    (∀ ch ∈ seps, isSlash ch = true) ∧ ∀ ch ∈ dir.getLast?, isSlash ch = false

/-- The last component and the directory are those of the path. -/
structure TakenApart (path : List UInt8) (base : List UInt8 → List UInt8) (dir : List UInt8) :
    Prop where
  either : (∀ ch ∈ path, isSlash ch = true) ∨ ∃ before comp after, Parts path before comp after
  separators : (∀ ch ∈ path, isSlash ch = true) →
    words path = [] ∧ (∀ suffix, base suffix = [47]) ∧ dir = [47]
  parts : ∀ before comp after, Parts path before comp after →
    (words path).getLast? = some comp ∧ (∀ suffix, SuffixRemoved comp suffix (base suffix)) ∧
      IsDirectory before dir

theorem suffixRemoved_withoutSuffix (comp suffix : List UInt8) :
    SuffixRemoved comp suffix (withoutSuffix comp suffix) where
  proper := fun hends hne => by
    obtain ⟨base, rfl⟩ := hends
    rw [withoutSuffix, if_pos ⟨List.suffix_append _ _, hne⟩, List.length_append,
      Nat.add_sub_cancel, List.take_left]
  other := fun hnot => if_neg hnot

theorem isDirectory_directory (before : List UInt8) : IsDirectory before (directory before) where
  nothing := fun hnil => if_pos hnil
  separators := fun hsome hall => by
    rw [directory, if_neg hsome, if_pos (List.rdropWhile_eq_nil_iff.mpr hall)]
  trimmed := fun ⟨ch, hmem, hch⟩ => by
    have hsome : before ≠ [] := List.ne_nil_of_mem hmem
    have hleft : before.rdropWhile isSlash ≠ [] := fun hnil => by
      rw [List.rdropWhile_eq_nil_iff.mp hnil ch hmem] at hch
      cases hch
    rw [directory, if_neg hsome, if_neg hleft]
    exact ⟨before.rtakeWhile isSlash, List.rdropWhile_append_rtakeWhile.symm,
      fun _ => List.mem_rtakeWhile_imp, fun _ => getLast?_rdropWhile⟩

theorem takenApart (path : List UInt8) : TakenApart path (basenameOf path) (dirnameOf path) where
  either := separators_or_parts path
  separators := fun hall => by
    have hnone := words_of_separators hall
    refine ⟨hnone, fun suffix => ?_, if_pos (List.rdropWhile_eq_nil_iff.mpr hall)⟩
    rw [basenameOf, hnone]
    rfl
  parts := fun before comp after h => by
    refine ⟨h.getLast?_words, fun suffix => ?_, ?_⟩
    · rw [h.basenameOf_eq]
      exact suffixRemoved_withoutSuffix comp suffix
    · rw [h.dirnameOf_eq]
      exact isDirectory_directory before

/-- An assignment that the store admits gives the variable the value. -/
theorem setKeepingFlags_getValue {store : VariableStore} {name value : String}
    (h : store.admitsSame name value) :
    (store.setKeepingFlags name value).getValue name = some value := by
  rcases h with hadmits | ⟨hreadOnly, hvalue⟩
  · rw [VariableStore.getValue, VariableStore.setKeepingFlags]
    cases store.get name with
    | none =>
      rw [VariableStore.tryAdd_get_of_admits hadmits]
      rfl
    | some v =>
      dsimp only
      rw [VariableStore.tryAdd_get_of_admits hadmits]
      rfl
  · have hnot : ¬ store.admits name value := fun hadmits => by
      rw [hadmits.2.2] at hreadOnly
      cases hreadOnly
    rw [VariableStore.setKeepingFlags_of_not_admits hnot, hvalue]

/-- The three builtins take a path apart in the same way. -/
theorem pathBuiltins_agree (junk : Junk) {cmd pathArg : StringT} {path : List UInt8}
    (h : Represents pathArg path) (hsome : path ≠ []) (hroom : (path.length : ℤ) < intMax) :
    ∃ base dir, TakenApart path base dir ∧
      builtinBasename junk [cmd, pathArg] = .ok (printLine (base [])) ∧
      (∀ suffixArg suffix, Represents suffixArg suffix →
        builtinBasename junk [cmd, pathArg, suffixArg] = .ok (printLine (base suffix))) ∧
      builtinDirname junk [cmd, pathArg] = .ok (printLine dir) ∧
      ∀ text frame varnameArg name, Represents varnameArg name → name ≠ [] →
        ∃ frame', builtinMigaDirnamevar junk text frame [cmd, varnameArg, pathArg] =
            .ok ({ out := [] }, frame') ∧
          frame' = (frame.frameSetPersistentVariable (text name) (text dir)).2 ∧
          (frame.persistent.admitsSame (text name) (text dir) →
            frame'.persistent.getValue (text name) = some (text dir)) := by
  refine ⟨basenameOf path, dirnameOf path, takenApart path, ?_, fun suffixArg suffix hsuffix => ?_,
    ?_, fun text frame varnameArg name hname hnonempty => ⟨_, ?_, rfl, fun hadmits => ?_⟩⟩
  · have hnone : IsSuffix none [] := rfl
    rw [builtinBasename, basenameLine_eq junk h hsome hroom hnone]
    rfl
  · have hgiven : IsSuffix (some suffixArg) suffix := hsuffix
    rw [builtinBasename, basenameLine_eq junk h hsome hroom hgiven]
    rfl
  · rw [builtinDirname, dirnameLine_eq junk h hsome hroom]
    rfl
  · rw [builtinMigaDirnamevar, stringEmpty_eq hname, decide_eq_false hnonempty, stringCstr_eq hname,
      dirnameLine_eq junk h hsome hroom]
    rfl
  · rw [FrameStores.persistent_frameSetPersistentVariable]
    exact setKeepingFlags_getValue hadmits

/-- The path `//usr\bin/`. -/
theorem pathBuiltins_agree_usr : ∃ pathArg base dir,
    Strings.stringCreateFromCstr (fun _ _ => 0)
      (some [47, 47, 117, 115, 114, 92, 98, 105, 110, 47]) = .ok pathArg ∧
    TakenApart [47, 47, 117, 115, 114, 92, 98, 105, 110, 47] base dir ∧
    builtinBasename (fun _ _ => 0) [stringCreate, pathArg] = .ok (printLine (base [])) ∧
    builtinDirname (fun _ _ => 0) [stringCreate, pathArg] = .ok (printLine dir) := by
  have hnul : NulFree (some [47, 47, 117, 115, 114, 92, 98, 105, 110, 47]) :=
    fun d hd => Option.some.inj hd ▸ by decide
  obtain ⟨pathArg, hcreate, hrep⟩ :=
    stringCreateFromCstr_returns (fun _ _ => 0) hnul (by decide)
  obtain ⟨base, dir, htaken, hbase, -, hdir, -⟩ :=
    pathBuiltins_agree (fun _ _ => 0) hrep (List.cons_ne_nil _ _) (by decide)
  exact ⟨pathArg, base, dir, hcreate, htaken, hbase, hdir⟩

example : dirnameOf [47, 47, 117, 115, 114, 92, 98, 105, 110, 47] = [47, 47, 117, 115, 114] := by
  decide

end Migash.Exec
