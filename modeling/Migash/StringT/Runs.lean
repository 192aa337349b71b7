import Migash.StringT.Operations
import Migash.Library.Runs
import Mathlib.Data.Option.Basic
import Mathlib.Logic.Function.Basic

/-! # Runs of calls on strings

Strings are named by numbers. A run makes them, changes them and gives them up in any
order, and each call is compared with the operation on lists it stands for.
-/

namespace Migash.Strings

open Library

/-! ## Calls -/

/-- A call that changes one string. An argument that is a string is named, and may be the string that
is changed. -/
inductive Change where
  | set (str2 : Option ℕ)
  | setCstr (cstr : Option (List UInt8))
  | setChar (ch : UInt8)
  | setData (data : Option (List UInt8)) (n : ℤ)
  | setNChars (count : ℤ) (ch : UInt8)
  | setSubstring (str2 : Option ℕ) (begin2 end2 : ℤ)
  | reserve (newCap : ℤ)
  | shrinkToFit
  | clear
  | insert (pos : ℤ) (other : Option ℕ)
  | insertNChars (pos count : ℤ) (ch : UInt8)
  | insertCstr (pos : ℤ) (cstr : Option (List UInt8))
  | insertData (pos : ℤ) (data : Option (List UInt8)) (len : ℤ)
  | erase (pos len : ℤ)
  | pushBack (ch : UInt8)
  | popBack
  | append (other : Option ℕ)
  | appendSubstring (other : Option ℕ) (first last : ℤ)
  | appendCstr (cstr : Option (List UInt8))
  | appendUtf8 (cp : UInt32)
  | appendNChars (count : ℤ) (ch : UInt8)
  | appendData (data : Option (List UInt8)) (len : ℤ)
  | replace (pos len : ℤ) (other : Option ℕ)
  | replaceSubstring (pos len : ℤ) (other : Option ℕ) (begin2 end2 : ℤ)
  | replaceCstr (pos len : ℤ) (cstr : Option (List UInt8))
  | replaceNChars (pos len count : ℤ) (ch : UInt8)
  | replaceData (pos len : ℤ) (data : Option (List UInt8)) (dataLen : ℤ)
  | resize (newSize : ℤ)
  | resizeWithChar (newSize : ℤ) (ch : UInt8)

inductive Call where
  | create (x : ℕ)
  | createFromNChars (x : ℕ) (count : ℤ) (ch : UInt8)
  | createFromCstr (x : ℕ) (data : Option (List UInt8))
  | createFromCstrLen (x : ℕ) (data : Option (List UInt8)) (len : ℤ)
  | createFromCstrList (x : ℕ) (strv : List (List UInt8)) (separator : Option (List UInt8))
  | createFrom (x other : ℕ)
  | createFromRange (x other : ℕ) (start last : ℤ)
  | substring (x other : ℕ) (first last : ℤ)
  | change (x : ℕ) (c : Change)
  | move (x str2 : ℕ)
  | consume (x : ℕ) (str2 : Option ℕ)
  | destroy (x : ℕ)

/-- The strings that exist. -/
abbrev Objects := ℕ → Option StringT

namespace Objects

def find (w : Objects) (x : ℕ) : Except MemoryFault StringT :=
  match w x with
  | some str => .ok str
  | none => .error .dangling

/-- The argument `y` of a call that changes `x`. -/
def source (w : Objects) (x y : ℕ) : Except MemoryFault Source :=
  if y = x then .ok .own else Source.other <$> w.find y

def put (w : Objects) (x : ℕ) (str : StringT) : Objects := Function.update w x (some str)

end Objects

def Change.run (junk : Junk) (source : ℕ → Except MemoryFault Source) (str : StringT) :
    Change → Except MemoryFault StringT
  | set str2 => do stringSet junk str (← str2.mapM source)
  | setCstr cstr => stringSetCstr junk str cstr
  | setChar ch => stringSetChar str ch
  | setData data n => stringSetData junk str data n
  | setNChars count ch => stringSetNChars junk str count ch
  | setSubstring str2 begin2 end2 => do
    stringSetSubstring junk str (← str2.mapM source) begin2 end2
  | reserve newCap => stringReserve junk str newCap
  | shrinkToFit => stringShrinkToFit junk str
  | clear => stringClear str
  | insert pos other => do stringInsert junk str pos (← other.mapM source)
  | insertNChars pos count ch => stringInsertNChars junk str pos count ch
  | insertCstr pos cstr => stringInsertCstr junk str pos cstr
  | insertData pos data len => stringInsertData junk str pos data len
  | erase pos len => stringErase junk str pos len
  | pushBack ch => stringPushBack junk str ch
  | popBack => Prod.snd <$> stringPopBack str
  | append other => do stringAppend junk str (← other.mapM source)
  | appendSubstring other first last => do
    stringAppendSubstring junk str (← other.mapM source) first last
  | appendCstr cstr => stringAppendCstr junk str cstr
  | appendUtf8 cp => Prod.snd <$> stringAppendUtf8 junk str cp
  | appendNChars count ch => stringAppendNChars junk str count ch
  | appendData data len => stringAppendData junk str data len
  | replace pos len other => do stringReplace junk str pos len (← other.mapM source)
  | replaceSubstring pos len other begin2 end2 => do
    stringReplaceSubstring junk str pos len (← other.mapM source) begin2 end2
  | replaceCstr pos len cstr => stringReplaceCstr junk str pos len cstr
  | replaceNChars pos len count ch => stringReplaceNChars junk str pos len count ch
  | replaceData pos len data dataLen => stringReplaceData junk str pos len data dataLen
  | resize newSize => stringResize str newSize
  | resizeWithChar newSize ch => stringResizeWithChar junk str newSize ch

/-- `string_consume` moves from its second argument and frees it. -/
def consume (w : Objects) (x : ℕ) (str2 : Option ℕ) : Except MemoryFault Objects :=
  match str2 with
  | none => return w
  | some y => do
    if y = x then return Function.update w y none
    else
      let (str, _) ← stringMove (← w.find x) (← w.find y)
      return Function.update (w.put x str) y none

def Call.run (junk : Junk) (w : Objects) : Call → Except MemoryFault Objects
  | create x => return w.put x stringCreate
  | createFromNChars x count ch => w.put x <$> stringCreateFromNChars junk count ch
  | createFromCstr x data => w.put x <$> stringCreateFromCstr junk data
  | createFromCstrLen x data len => w.put x <$> stringCreateFromCstrLen junk data len
  | createFromCstrList x strv separator => w.put x <$> stringCreateFromCstrList junk strv separator
  | createFrom x other => do return w.put x (← stringCreateFrom junk (← w.find other))
  | createFromRange x other start last => do
    return w.put x (← stringCreateFromRange junk (← w.find other) start last)
  | substring x other first last => do
    return w.put x (← stringSubstring junk (← w.find other) first last)
  | change x c => do return w.put x (← c.run junk (w.source x) (← w.find x))
  | move x str2 => do
    let str ← w.find x
    if str2 = x then return w
    else
      let (moved, emptied) ← stringMove str (← w.find str2)
      return (w.put x moved).put str2 emptied
  | consume x str2 => Strings.consume w x str2
  | destroy x => return Function.update w x none

/-! ## The same calls on lists -/

abbrev Texts := ℕ → Option (List UInt8)

def Texts.put (a : Texts) (x : ℕ) (l : List UInt8) : Texts := Function.update a x (some l)

/-- The characters of a string argument. -/
def Texts.at (a : Texts) (other : Option ℕ) : List UInt8 := (other.bind a).getD []

def Change.meaning (a : Texts) (l : List UInt8) : Change → List UInt8
  | set str2 => a.at str2
  | setCstr cstr => cstr.getD []
  | setChar ch => [ch]
  | setData data n => (data.getD []).take n.toNat
  | setNChars count ch => List.replicate count.toNat ch
  | setSubstring str2 begin2 end2 => slice (a.at str2) begin2 end2
  | reserve _ | shrinkToFit => l
  | clear => []
  | insert pos other => insertAt l pos (a.at other)
  | insertNChars pos count ch => insertAt l pos (List.replicate count.toNat ch)
  | insertCstr pos cstr => insertAt l pos (cstr.getD [])
  | insertData pos data len => insertAt l pos ((data.getD []).take len.toNat)
  | erase pos len => replaceAt l pos len []
  | pushBack ch => l ++ [ch]
  | popBack => l.dropLast
  | append other => l ++ a.at other
  | appendSubstring other first last => l ++ slice (a.at other) first last
  | appendCstr cstr => l ++ cstr.getD []
  | appendUtf8 cp => l ++ utf8Bytes cp
  | appendNChars count ch => l ++ List.replicate count.toNat ch
  | appendData data len => l ++ (data.getD []).take len.toNat
  | replace pos len other => replaceAt l pos len (a.at other)
  | replaceSubstring pos len other begin2 end2 =>
    replaceAt l pos len (slice (a.at other) begin2 end2)
  | replaceCstr pos len cstr => replaceAt l pos len (cstr.getD [])
  | replaceNChars pos len count ch => replaceAt l pos len (List.replicate count.toNat ch)
  | replaceData _ _ none _ => l
  | replaceData pos len (some data) dataLen => replaceAt l pos len (data.take dataLen.toNat)
  | resize newSize => l.take newSize.toNat
  | resizeWithChar newSize ch => resizeTo l newSize ch

def Call.meaning (a : Texts) : Call → Texts
  | create x => a.put x []
  | createFromNChars x count ch => a.put x (List.replicate count.toNat ch)
  | createFromCstr x data => a.put x (data.getD [])
  | createFromCstrLen x data len => a.put x ((data.getD []).take len.toNat)
  | createFromCstrList x strv separator => a.put x (List.intercalate (separator.getD []) strv)
  | createFrom x other => a.put x (a.at (some other))
  | createFromRange x other start last => a.put x (slice (a.at (some other)) start last)
  | substring x other first last => a.put x (slice (a.at (some other)) first last)
  | change x c => a.put x (c.meaning a (a.at (some x)))
  | move x str2 => if str2 = x then a else (a.put x (a.at (some str2))).put str2 []
  | consume _ none => a
  | consume x (some y) => Function.update (a.put x (a.at (some y))) y none
  | destroy x => Function.update a x none

/-! ## When a call does what the list operation does -/

/-- The string argument of a change. -/
def Change.other : Change → Option ℕ
  | set other | setSubstring other _ _ | insert _ other | append other | appendSubstring other _ _
  | replace _ _ other | replaceSubstring _ _ other _ _ => other
  | _ => none

/-- The sum of the position and the length of a range is an `int`. -/
def SumFits (l : List UInt8) (pos len : ℤ) : Prop :=
  OnRange l pos len fun _ _ => pos.toNat + len ≤ intMax

/-- The arguments of a change of `x` are free of NUL, no sum of two of them overflows, and a string that
is its own argument is not overwritten before it is read. -/
def Change.ArgumentsFit (x : ℕ) (l : List UInt8) : Change → Prop
  | setCstr cstr | insertCstr _ cstr | appendCstr cstr => NulFree cstr
  | setChar ch | setNChars _ ch | insertNChars _ _ ch | appendNChars _ ch | resizeWithChar _ ch =>
    ch ≠ 0
  | setData data n | insertData _ data n | appendData data n => NulFree data ∧ HasBytes data n
  | setSubstring str2 begin2 end2 =>
    str2 = some x → (slice l begin2 end2).length ≤ begin2.toNat
  | insert pos other => other = some x → l.length ≤ pos.toNat
  | erase pos len => SumFits l pos len
  | pushBack ch => ch ≠ 0 ∧ (l.length : ℤ) < intMax - 2
  | appendUtf8 cp => cp ≠ 0
  | replace pos len other => SumFits l pos len ∧ OnRange l pos len fun _ _ => other ≠ some x
  | replaceSubstring pos len other begin2 end2 =>
    SumFits l pos len ∧ OnRange l pos len fun pos len =>
      other = some x → slice l begin2 end2 ≠ [] →
        OwnPartClear l pos len begin2.toNat (slice l begin2 end2).length
  | replaceCstr pos len cstr => SumFits l pos len ∧ NulFree cstr
  | replaceNChars pos len _ ch => SumFits l pos len ∧ ch ≠ 0
  | replaceData pos len data dataLen => SumFits l pos len ∧ NulFree data ∧ HasBytes data dataLen
  | _ => True

def Texts.Alive (a : Texts) (x : ℕ) : Prop := ∃ l, a x = some l

/-- The strings a call works on exist, and its arguments fit. -/
def Call.ArgumentsFit (a : Texts) : Call → Prop
  | createFromNChars _ _ ch => ch ≠ 0
  | createFromCstr _ data => NulFree data
  | createFromCstrLen _ data len => NulFree data ∧ HasBytes data len
  | createFromCstrList _ strv separator => (∀ s ∈ strv, 0 ∉ s) ∧ NulFree separator
  | createFrom _ other | createFromRange _ other _ _ | substring _ other _ _ => a.Alive other
  | change x c => a.Alive x ∧ (∀ y ∈ c.other, a.Alive y) ∧ c.ArgumentsFit x (a.at (some x))
  | move x str2 => a.Alive x ∧ a.Alive str2
  | consume x str2 => a.Alive x ∧ ∀ y ∈ str2, a.Alive y
  | create _ | destroy _ => True

/-- Every string is shorter than `INT_MAX`. -/
def Texts.Fit (a : Texts) : Prop := ∀ x, ∀ l ∈ a x, (l.length : ℤ) < intMax

structure Call.Admits (a : Texts) (call : Call) : Prop where
  argumentsFit : call.ArgumentsFit a
  fit : (call.meaning a).Fit

/-! ## One call -/

/-- The strings hold the lists. -/
def Agree (w : Objects) (a : Texts) : Prop := ∀ x, Option.Rel Represents (w x) (a x)

variable {junk : Junk} {w : Objects} {a : Texts} {l m : List UInt8} {str : StringT} {x y : ℕ}

theorem Agree.find (h : Agree w a) (hl : a x = some l) : Returns (Represents · l) (w.find x) := by
  have hx := h x
  rw [hl] at hx
  cases hw : w x with
  | none =>
    rw [hw] at hx
    cases hx
  | some str =>
    rw [hw] at hx
    cases hx with
    | some hrepresents => exact Returns.of_eq (by rw [Objects.find, hw]) hrepresents

theorem Agree.put (h : Agree w a) (hstr : Represents str l) : Agree (w.put x str) (a.put x l) := by
  intro y
  by_cases hy : y = x
  · subst hy
    simpa [Objects.put, Texts.put] using Option.Rel.some hstr
  · simpa [Objects.put, Texts.put, hy] using h y

theorem Agree.drop (h : Agree w a) (x : ℕ) :
    Agree (Function.update w x none) (Function.update a x none) := by
  intro y
  by_cases hy : y = x
  · subst hy
    simp
  · simpa [hy] using h y

/-- What the argument `other` of a call on `x` holds. -/
theorem Agree.source (h : Agree w a) (hx : a x = some l) {other : Option ℕ}
    (halive : ∀ y ∈ other, a.Alive y) :
    Returns (fun source => HoldsAny l (a.at other) source ∧ (source = some .own ↔ other = some x))
      (other.mapM (w.source x)) := by
  cases other with
  | none => exact Returns.pure ⟨rfl, by simp⟩
  | some y =>
    rw [Option.mapM_some]
    by_cases hy : y = x
    · subst hy
      refine Returns.of_eq (a := some .own) (by simp [Objects.source]) ⟨?_, by simp⟩
      simp [HoldsAny, Source.Holds, Texts.at, hx]
    · obtain ⟨m, hm⟩ := halive y rfl
      obtain ⟨str, hfind, hstr⟩ := h.find hm
      refine Returns.of_eq (a := some (.other str)) (by simp [Objects.source, hy, hfind]) ⟨?_, ?_⟩
      · simpa [HoldsAny, Source.Holds, Texts.at, hm] using hstr
      · simp [hy]

theorem length_insertAt (l p : List UInt8) (at_ : ℤ) :
    (insertAt l at_ p).length = l.length + p.length := by
  simp only [insertAt, List.length_append, List.length_take, List.length_drop]
  omega

theorem length_resizeTo (l : List UInt8) (size : ℤ) (ch : UInt8) :
    (resizeTo l size ch).length = size.toNat := by
  simp only [resizeTo, List.length_append, List.length_take, List.length_replicate]
  omega

theorem Texts.Fit.at (hfit : a.Fit) (other : Option ℕ) : ((a.at other).length : ℤ) < intMax := by
  have hzero : (0 : ℤ) < intMax := by decide
  cases other with
  | none => exact hzero
  | some y =>
    cases hy : a y with
    | none => simpa [Texts.at, hy] using hzero
    | some m => simpa [Texts.at, hy] using hfit y m hy

/-- A change of one string does what the operation on its characters does. -/
theorem Change.run_returns (h : Agree w a) (hfit : a.Fit) (hx : a x = some l)
    (hstr : Represents str l) {c : Change} (halive : ∀ y ∈ c.other, a.Alive y)
    (hargs : c.ArgumentsFit x l) (hroom : ((c.meaning a l).length : ℤ) < intMax) :
    Returns (Represents · (c.meaning a l)) (c.run junk (w.source x) str) := by
  have hlength := hfit x l hx
  cases c with
  | set str2 =>
    exact (h.source hx halive).bind fun o ho => stringSet_returns junk hstr ho.1 hroom
  | setCstr cstr => exact stringSetCstr_returns junk hstr hargs hroom
  | setChar ch => exact stringSetChar_returns hstr hargs
  | setData data n => exact stringSetData_returns junk hstr hargs.1 hargs.2 hroom
  | setNChars count ch =>
    rw [Change.meaning, List.length_replicate] at hroom
    exact stringSetNChars_returns junk hstr hargs (by omega)
  | setSubstring str2 begin2 end2 =>
    refine (h.source hx halive).bind fun o ho =>
      stringSetSubstring_returns junk hstr ho.1 hroom fun hown => ?_
    have hother : str2 = some x := ho.2.mp hown
    rw [hother, Texts.at, Option.bind_some, hx, Option.getD_some]
    exact hargs hother
  | reserve newCap => exact stringReserve_returns junk hstr newCap
  | shrinkToFit => exact stringShrinkToFit_returns junk hstr hlength
  | clear => exact hstr.clear
  | insert pos other =>
    rw [Change.meaning, length_insertAt] at hroom
    exact (h.source hx halive).bind fun o ho =>
      stringInsert_returns junk hstr ho.1 (by omega) fun hown => hargs (ho.2.mp hown)
  | insertNChars pos count ch =>
    rw [Change.meaning, length_insertAt, List.length_replicate] at hroom
    exact stringInsertNChars_returns junk hstr hargs (by omega)
  | insertCstr pos cstr =>
    rw [Change.meaning, length_insertAt] at hroom
    exact stringInsertCstr_returns junk hstr hargs (by omega)
  | insertData pos data len =>
    rw [Change.meaning, length_insertAt] at hroom
    exact stringInsertData_returns junk hstr hargs.1 hargs.2 (by omega)
  | erase pos len => exact stringErase_returns junk hstr hlength hargs
  | pushBack ch => exact stringPushBack_returns junk hstr hargs.1 hargs.2
  | popBack => exact (stringPopBack_returns hstr).map fun r hr => hr.2
  | append other =>
    rw [Change.meaning, List.length_append] at hroom
    exact (h.source hx halive).bind fun o ho => stringAppend_returns junk hstr ho.1 (by omega)
  | appendSubstring other first last =>
    rw [Change.meaning, List.length_append] at hroom
    exact (h.source hx halive).bind fun o ho =>
      stringAppendSubstring_returns junk hstr ho.1 (by omega)
  | appendCstr cstr =>
    rw [Change.meaning, List.length_append] at hroom
    exact stringAppendCstr_returns junk hstr hargs (by omega)
  | appendUtf8 cp =>
    rw [Change.meaning, List.length_append] at hroom
    exact (stringAppendUtf8_returns junk hstr hargs (by omega)).map fun r hr => hr.2
  | appendNChars count ch =>
    rw [Change.meaning, List.length_append, List.length_replicate] at hroom
    exact stringAppendNChars_returns junk hstr hargs (by omega)
  | appendData data len =>
    rw [Change.meaning, List.length_append] at hroom
    exact stringAppendData_returns junk hstr hargs.1 hargs.2 (by omega)
  | replace pos len other =>
    exact (h.source hx halive).bind fun o ho => stringReplace_returns junk hstr ho.1 hargs.1 hroom
      fun hinside hsome hown => hargs.2 hinside hsome (ho.2.mp hown)
  | replaceSubstring pos len other begin2 end2 =>
    refine (h.source hx halive).bind fun o ho =>
      stringReplaceSubstring_returns junk hstr ho.1 hargs.1 hroom fun hinside hsome hown => ?_
    have hother : other = some x := ho.2.mp hown
    rw [hother, Texts.at, Option.bind_some, hx, Option.getD_some]
    exact hargs.2 hinside hsome hother
  | replaceCstr pos len cstr => exact stringReplaceCstr_returns junk hstr hargs.2 hargs.1 hroom
  | replaceNChars pos len count ch =>
    exact stringReplaceNChars_returns junk hstr hargs.2 hargs.1 hroom
  | replaceData pos len data dataLen =>
    cases data with
    | none => exact Returns.pure hstr
    | some data =>
      exact stringReplaceData_returns junk hstr (hargs.2.1 data rfl) (hargs.2.2 data rfl) hargs.1
        hroom
  | resize newSize => exact stringResize_returns hstr newSize
  | resizeWithChar newSize ch =>
    rw [Change.meaning, length_resizeTo] at hroom
    exact stringResizeWithChar_returns junk hstr hargs (by omega)

theorem Texts.at_of_eq {other : ℕ} (h : a other = some m) : a.at (some other) = m := by
  rw [Texts.at, Option.bind_some, h, Option.getD_some]

theorem Texts.Fit.of_put (hfit : (a.put x l).Fit) : (l.length : ℤ) < intMax :=
  hfit x l (by rw [Texts.put, Function.update_self, Option.mem_some_iff])

theorem Texts.Fit.put (hfit : a.Fit) (hl : (l.length : ℤ) < intMax) : (a.put x l).Fit := by
  intro y m hm
  by_cases hy : y = x
  · subst hy
    rw [Texts.put, Function.update_self, Option.mem_some_iff] at hm
    exact hm ▸ hl
  · rw [Texts.put, Function.update_of_ne hy] at hm
    exact hfit y m hm

theorem consume_returns (h : Agree w a) {str2 : Option ℕ} (hx : a.Alive x)
    (halive : ∀ y ∈ str2, a.Alive y) :
    Returns (Agree · ((Call.consume x str2).meaning a)) (consume w x str2) := by
  cases str2 with
  | none => exact Returns.pure h
  | some y =>
    obtain ⟨l, hl⟩ := hx
    obtain ⟨m, hm⟩ := halive y rfl
    rw [Call.meaning, Texts.at_of_eq hm, consume]
    split
    next heq =>
      subst heq
      rw [show Function.update (a.put y m) y none = Function.update a y none from
        Function.update_idem _ _ _]
      exact Returns.pure (h.drop y)
    next =>
      refine (h.find hl).bind fun str hstr => (h.find hm).bind fun str2 hstr2 => ?_
      exact (stringMove_returns hstr hstr2).bind fun r hr => Returns.pure ((h.put hr.1).drop y)

/-- A call keeps the strings and the lists together. -/
theorem Call.run_returns (h : Agree w a) (hfit : a.Fit) {call : Call} (hadmits : call.Admits a) :
    Returns (Agree · (call.meaning a)) (call.run junk w) := by
  obtain ⟨hargs, hafter⟩ := hadmits
  cases call with
  | create x => exact Returns.pure (h.put stringCreate_represents)
  | createFromNChars x count ch =>
    have hroom := hafter.of_put
    rw [List.length_replicate] at hroom
    exact (stringCreateFromNChars_returns junk hargs (by omega)).map fun s hs => h.put hs
  | createFromCstr x data =>
    exact (stringCreateFromCstr_returns junk hargs hafter.of_put).map fun s hs => h.put hs
  | createFromCstrLen x data len =>
    exact (stringCreateFromCstrLen_returns junk hargs.1 hargs.2 hafter.of_put).map
      fun s hs => h.put hs
  | createFromCstrList x strv separator =>
    exact (stringCreateFromCstrList_returns junk hargs.1 hargs.2 hafter.of_put).map
      fun s hs => h.put hs
  | createFrom x other =>
    obtain ⟨m, hm⟩ := hargs
    rw [Call.meaning, Texts.at_of_eq hm]
    exact (h.find hm).bind fun str hstr =>
      (stringCreateFrom_returns junk hstr (hfit other m hm)).bind fun s hs => Returns.pure (h.put hs)
  | createFromRange x other first last =>
    obtain ⟨m, hm⟩ := hargs
    rw [Call.meaning, Texts.at_of_eq hm]
    exact (h.find hm).bind fun str hstr =>
      (stringCreateFromRange_returns junk hstr first last (hfit other m hm)).bind
        fun s hs => Returns.pure (h.put hs)
  | substring x other first last =>
    obtain ⟨m, hm⟩ := hargs
    rw [Call.meaning, Texts.at_of_eq hm]
    exact (h.find hm).bind fun str hstr =>
      (stringCreateFromRange_returns junk hstr first last (hfit other m hm)).bind
        fun s hs => Returns.pure (h.put hs)
  | change x c =>
    obtain ⟨⟨l, hl⟩, halive, hfits⟩ := hargs
    rw [Texts.at_of_eq hl] at hfits
    rw [Call.meaning, Texts.at_of_eq hl] at hafter ⊢
    exact (h.find hl).bind fun str hstr =>
      (Change.run_returns h hfit hl hstr halive hfits hafter.of_put).bind
        fun s hs => Returns.pure (h.put hs)
  | move x str2 =>
    obtain ⟨⟨l, hl⟩, ⟨m, hm⟩⟩ := hargs
    rw [Call.meaning, Texts.at_of_eq hm]
    refine (h.find hl).bind fun str hstr => ?_
    split
    next => exact Returns.pure h
    next =>
      exact (h.find hm).bind fun other hother => (stringMove_returns hstr hother).bind
        fun r hr => Returns.pure ((h.put hr.1).put hr.2)
  | consume x str2 => exact consume_returns h hargs.1 hargs.2
  | destroy x => exact Returns.pure (h.drop x)

/-! ## Runs -/

/-- A run; what fresh blocks hold may differ from call to call. -/
def runCalls (calls : List (Junk × Call)) : Except MemoryFault Objects :=
  calls.foldlM (fun w c => c.2.run c.1 w) fun _ => none

/-- The lists after the same calls. -/
def textsAfter (calls : List (Junk × Call)) : Texts :=
  calls.foldl (fun a c => c.2.meaning a) fun _ => none

/-- What `string_t` promises of a string. -/
structure WellFormed (str : StringT) : Prop where
  length_nonneg : 0 ≤ str.length
  length_lt : str.length < str.capacity
  nul_at_length : str.buffer[str.length.toNat]? = some 0
  no_nul_before : ∀ i, i < str.length.toNat → ∃ ch, str.buffer[i]? = some ch ∧ ch ≠ 0
  inline_iff : str.data = .inlineData ↔ str.capacity ≤ stringInitialCapacity

def StringT.contents (str : StringT) : List UInt8 := str.buffer.take str.length.toNat

/-- The run is defined, and each of its strings is well formed and holds the list that the same
operations on lists make. -/
def Right (calls : List (Junk × Call)) : Prop :=
  Returns (fun w => ∀ x, Option.Rel (fun str l => WellFormed str ∧ str.contents = l) (w x)
    (textsAfter calls x)) (runCalls calls)

theorem Represents.contents_eq (h : Represents str l) : str.contents = l := by
  rw [StringT.contents, h.length_eq, Int.toNat_natCast]
  exact (List.prefix_iff_eq_take.mp h.starts_with).symm

theorem Represents.wellFormed (h : Represents str l) : WellFormed str := by
  have hlength := h.length_eq
  obtain ⟨rest, hrest⟩ := h.starts
  refine ⟨by omega, by rw [hlength]; exact h.lt_capacity, ?_, ?_, h.data_iff⟩
  · rw [hlength, Int.toNat_natCast, ← hrest, List.append_assoc,
      List.getElem?_append_right (Nat.le_refl _), Nat.sub_self]
    rfl
  · intro i hi
    rw [hlength, Int.toNat_natCast] at hi
    refine ⟨l[i], ?_, ne_of_mem_of_not_mem (List.getElem_mem hi) h.nulFree⟩
    rw [← hrest, List.append_assoc, List.getElem?_append_left hi, List.getElem?_eq_getElem hi]

/-- Every call of a run is admitted where it is made. -/
def Admitted (a : Texts) : List (Junk × Call) → Prop
  | [] => True
  | c :: calls => c.2.Admits a ∧ Admitted (c.2.meaning a) calls

theorem foldlM_returns (calls : List (Junk × Call)) (h : Agree w a) (hfit : a.Fit)
    (hadmitted : Admitted a calls) :
    Returns (Agree · (calls.foldl (fun a c => c.2.meaning a) a))
      (calls.foldlM (fun w c => c.2.run c.1 w) w) := by
  induction calls generalizing w a with
  | nil => exact Returns.pure h
  | cons c calls ih =>
    rw [List.foldlM_cons, List.foldl_cons]
    exact (Call.run_returns h hfit hadmitted.1).bind fun w' hw' =>
      ih hw' hadmitted.1.fit hadmitted.2

/-- Calls whose arguments are free of NUL, whose sums are `int`s and that overwrite no string before
they have read it keep every string well formed, with the contents of the list operations. -/
theorem right_of_admitted (calls : List (Junk × Call))
    (hadmitted : Admitted (fun _ => none) calls) : Right calls := by
  have hnone : Agree (fun _ => none) fun _ => none := fun _ => .none
  have hfit : Texts.Fit fun _ => none := fun _ _ hl => by cases hl
  refine (foldlM_returns calls hnone hfit hadmitted).mono fun w hw x => ?_
  exact option_rel_mono (hw x) fun str l hstr => ⟨hstr.wellFormed, hstr.contents_eq⟩

/-- `hello`, with sixteen characters more, cut to `he`. -/
def growAndCut : List (Junk × Call) :=
  [(fun _ _ => 170, .createFromCstr 0 (some [104, 101, 108, 108, 111])),
    (fun _ _ => 171, .change 0 (.appendNChars 16 33)), (fun _ _ => 172, .change 0 (.erase 2 19))]

theorem right_of_admitted_growAndCut : Right growAndCut := by
  have hempty : Texts.Fit fun _ => none := fun _ _ hl => by cases hl
  have hfirst := hempty.put (x := 0) (l := [104, 101, 108, 108, 111]) (by decide)
  have hsecond := hfirst.put (x := 0) (l := [104, 101, 108, 108, 111] ++ List.replicate 16 33)
    (by decide)
  refine right_of_admitted growAndCut ⟨⟨?_, hfirst⟩, ⟨⟨⟨_, rfl⟩, ?_, ?_⟩, hsecond⟩,
    ⟨⟨⟨_, rfl⟩, ?_, ?_⟩, hsecond.put (by decide)⟩, trivial⟩
  · intro d hd
    cases hd
    decide
  · intro y hy
    cases hy
  · exact show (33 : UInt8) ≠ 0 by decide
  · intro y hy
    cases hy
  · exact show SumFits _ 2 19 from fun _ _ => by decide

/-- `abcdef` with the first character replaced by the fourth and the fifth. -/
def replaceByItself : List (Junk × Call) :=
  [(fun _ _ => 0, .createFromCstr 0 (some [97, 98, 99, 100, 101, 102])),
    (fun _ _ => 0, .change 0 (.replaceSubstring 0 1 (some 0) 3 5))]

/-- `abcdef` with all that follows the first character erased, as many as there may be. -/
def eraseAll : List (Junk × Call) :=
  [(fun _ _ => 0, .createFromCstr 0 (some [97, 98, 99, 100, 101, 102])),
    (fun _ _ => 0, .change 0 (.erase 1 2147483647))]

theorem not_right_replaceByItself : ¬ Right replaceByItself ∧ ¬ Right eraseAll := by
  constructor
  · rintro ⟨w, hrun, hw⟩
    have hcontents : (runCalls replaceByItself).toOption.bind (fun w => (w 0).map StringT.contents) =
        some [99, 100, 98, 99, 100, 101, 102] := by decide +kernel
    have htexts : textsAfter replaceByItself 0 = some [100, 101, 98, 99, 100, 101, 102] := by
      decide +kernel
    have hzero := hw 0
    rw [htexts] at hzero
    rw [hrun] at hcontents
    cases hobject : w 0 with
    | none =>
      rw [hobject] at hzero
      cases hzero
    | some str =>
      rw [hobject] at hzero
      obtain ⟨-, hstr⟩ : WellFormed str ∧ str.contents = [100, 101, 98, 99, 100, 101, 102] := by
        cases hzero with
        | some hboth => exact hboth
      have hwrong : some str.contents = some [99, 100, 98, 99, 100, 101, 102] := by
        simpa [Except.toOption, hobject] using hcontents
      rw [hstr] at hwrong
      exact absurd hwrong (by decide)
  · rintro ⟨w, hrun, -⟩
    have hfault : (runCalls eraseAll).toOption.isSome = false := by decide +kernel
    rw [hrun] at hfault
    cases hfault

end Migash.Strings
