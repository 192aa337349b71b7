import Migash.Library.Blocks

/-! # Strings with inline storage

`string_t`: up to fifteen characters live in the object itself, longer contents in a
block of the heap. The length and the capacity are C `int`s, every access to memory is
checked, and what a fresh block holds is a parameter.
-/

namespace Migash.Strings

open Library.Block

/-- What C leaves undefined. -/
inductive MemoryFault where
  /-- a sum outside the range of `int` -/
  | overflow
  /-- an access outside the object, or with a negative count -/
  | outOfBounds
  /-- `memcpy` between places that overlap -/
  | overlap
  /-- a call on a string that does not exist -/
  | dangling
  deriving DecidableEq, Repr

/-- Where `data` points. -/
inductive Storage where
  | inlineData
  | heap (block : List UInt8)
  deriving DecidableEq, Repr

structure StringT where
  length : ℤ
  capacity : ℤ
  data : Storage
  inlineData : List UInt8
  deriving DecidableEq, Repr

abbrev stringInitialCapacity : ℤ := 16
abbrev stringGrowFactor : ℤ := 2
abbrev stringReduceThreshold : ℤ := 512
abbrev intMax : ℤ := 2147483647

/-- What a fresh block of `n` bytes holds at `i`. -/
abbrev Junk := ℕ → ℕ → UInt8

def xmalloc (junk : Junk) (n : ℤ) : List UInt8 := (List.range n.toNat).map (junk n.toNat)

def xrealloc (junk : Junk) (block : List UInt8) (n : ℤ) : List UInt8 :=
  block.take n.toNat ++ (xmalloc junk n).drop block.length

/-- A sum of two `int`s. -/
def addInt (a b : ℤ) : Except MemoryFault ℤ :=
  if a + b ≤ intMax then .ok (a + b) else .error .overflow

/-- The conversion of a `size_t` to `int`. -/
def intOfSize (n : ℕ) : ℤ := Int.bmod n 4294967296

def checked {α : Type} : Option α → Except MemoryFault α
  | some a => .ok a
  | none => .error .outOfBounds

namespace StringT

/-- The bytes `data` points to. -/
def buffer (str : StringT) : List UInt8 :=
  match str.data with
  | .inlineData => str.inlineData
  | .heap block => block

def withBuffer (str : StringT) (block : List UInt8) : StringT :=
  match str.data with
  | .inlineData => { str with inlineData := block }
  | .heap _ => { str with data := .heap block }

/-- A write to `data`. -/
def store (str : StringT) (start : ℤ) (bytes : List UInt8) : Except MemoryFault StringT := do
  let block ← checked (overwrite str.buffer start bytes)
  return str.withBuffer block

/-- `length = n; data[n] = '\0'`. -/
def setLength (str : StringT) (n : ℤ) : Except MemoryFault StringT := do
  let str ← str.store n [0]
  return { str with length := n }

def isInline (str : StringT) : Bool := str.capacity ≤ stringInitialCapacity
def isHeapAllocated (str : StringT) : Bool := str.capacity > stringInitialCapacity

end StringT

/-! ## Capacity -/

def stringNormalizeCapacity (junk : Junk) (str : StringT) (newCapacity : ℤ) :
    Except MemoryFault StringT :=
  if str.isHeapAllocated ∧ newCapacity ≤ stringInitialCapacity then do
    let newLength :=
      if str.length < stringInitialCapacity then str.length else stringInitialCapacity - 1
    let bytes ← checked (window str.buffer 0 newLength)
    let inlineData ← checked (overwrite str.inlineData 0 bytes)
    let inlineData ← checked (overwrite inlineData newLength [0])
    return { length := newLength, capacity := stringInitialCapacity, data := .inlineData, inlineData }
  else if str.isHeapAllocated ∧ newCapacity > stringInitialCapacity then
    return { str with
      data := .heap (xrealloc junk str.buffer newCapacity), capacity := newCapacity }
  else if str.isInline ∧ newCapacity > stringInitialCapacity then do
    let bytes ← checked (window str.inlineData 0 str.length)
    let block ← checked (overwrite (xmalloc junk newCapacity) 0 bytes)
    let block ← checked (overwrite block str.length [0])
    return { str with data := .heap block, capacity := newCapacity }
  else return str

/-- The loop of `string_ensure_capacity`. It starts from a capacity above zero. -/
def grownCapacity (needed newCapacity : ℤ) : ℤ :=
  if newCapacity < needed ∧ 0 < newCapacity then
    if newCapacity > intMax / stringGrowFactor then needed
    else grownCapacity needed (newCapacity * stringGrowFactor)
  else newCapacity
termination_by (needed - newCapacity).toNat
decreasing_by
  simp only [stringGrowFactor]
  omega

def stringEnsureCapacity (junk : Junk) (str : StringT) (needed : ℤ) : Except MemoryFault StringT :=
  if needed < 0 then return str
  else if needed ≤ str.capacity then return str
  else
    let newCapacity := if str.capacity ≠ 0 then str.capacity else stringInitialCapacity
    stringNormalizeCapacity junk str (grownCapacity needed newCapacity)

/-! ## Ranges and sources -/

def clampRange (len first last : ℤ) : ℤ × ℤ :=
  let last := if last = -1 then len else last
  let first := if first < 0 then 0 else first
  let first := if first > len then len else first
  let last := if last < 0 then 0 else last
  let last := if last > len then len else last
  if last ≤ first then (first, first) else (first, last)

/-- A position brought between zero and the length. -/
def clampPos (str : StringT) (pos : ℤ) : ℤ :=
  let pos := if pos < 0 then 0 else pos
  if pos > str.length then str.length else pos

/-- An argument of type `const string_t *`: the string that is changed itself, or another one. -/
inductive Source where
  | own
  | other (str : StringT)

namespace Source

def length (str : StringT) : Source → ℤ
  | own => str.length
  | other str2 => str2.length

/-- What `memcpy` to `target` reads: `count` bytes of the source from `start` on. -/
def read (source : Source) (start count target : ℤ) (str : StringT) :
    Except MemoryFault (List UInt8) :=
  match source with
  | own =>
    if start < target + count ∧ target < start + count then .error .overlap
    else checked (window str.buffer start count)
  | other str2 => checked (window str2.buffer start count)

end Source

def strlen (cstr : List UInt8) : ℕ := (cstr.takeWhile (· ≠ 0)).length

/-- The count of bytes before a NUL or the end of the first `n` bytes. -/
def nulFreeRun (data : List UInt8) (n : ℤ) : Except MemoryFault ℤ :=
  let bytes := (data.take n.toNat).takeWhile (· ≠ 0)
  if bytes.length = data.length ∧ data.length < n then .error .outOfBounds else .ok bytes.length

/-! ## Replacement of a range

The body most of the functions share: `len` bytes from `pos` on become `count` bytes that
`bytes` reads. Where nothing stands behind the range, the source has no `memmove`, and the one
here moves nothing.
-/

def replaceRange (str : StringT) (pos len count newLength : ℤ)
    (bytes : StringT → Except MemoryFault (List UInt8)) : Except MemoryFault StringT := do
  let tail ← checked (window str.buffer (pos + len) (str.length - pos - len))
  let str ← str.store (pos + count) tail
  let payload ← bytes str
  let str ← str.store pos payload
  str.setLength newLength

def spliceRange (junk : Junk) (str : StringT) (pos len count : ℤ)
    (bytes : StringT → Except MemoryFault (List UInt8)) : Except MemoryFault StringT := do
  let newLength ← addInt (str.length - len) count
  let neededCapacity ← addInt newLength 1
  let str ← stringEnsureCapacity junk str neededCapacity
  replaceRange str pos len count newLength bytes

/-- The bytes that `memset` writes. -/
def nChars (count : ℤ) (ch : UInt8) (_ : StringT) : Except MemoryFault (List UInt8) :=
  .ok (List.replicate count.toNat ch)

/-- The first `count` bytes of a buffer of the caller. -/
def fromData (data : List UInt8) (count : ℤ) (_ : StringT) : Except MemoryFault (List UInt8) :=
  checked (window data 0 count)

section

variable (junk : Junk)

/-! ## Constructors -/

/-- `xcalloc` clears the object. -/
def stringCreate : StringT where
  length := 0
  capacity := stringInitialCapacity
  data := .inlineData
  inlineData := List.replicate 16 0

def stringCreateFromNChars (count : ℤ) (ch : UInt8) : Except MemoryFault StringT :=
  if count ≤ 0 then return stringCreate
  else spliceRange junk stringCreate 0 0 count (nChars count ch)

def stringCreateFromCstrLen (data : Option (List UInt8)) (len : ℤ) : Except MemoryFault StringT :=
  match data with
  | none => return stringCreate
  | some data =>
    if len ≤ 0 then return stringCreate
    else spliceRange junk stringCreate 0 0 len (fromData data len)

def stringCreateFromCstr (data : Option (List UInt8)) : Except MemoryFault StringT :=
  match data with
  | none => return stringCreate
  | some cstr =>
    let len : ℤ := if strlen cstr > intMax then intMax - 1 else strlen cstr
    stringCreateFromCstrLen junk (some cstr) len

def stringCreateFromRange (str : StringT) (start last : ℤ) : Except MemoryFault StringT :=
  if str.length = 0 then return stringCreate
  else
    let (b, e) := clampRange str.length start last
    if b = e then return stringCreate
    else spliceRange junk stringCreate 0 0 (e - b) ((Source.other str).read b (e - b) 0)

def stringCreateFrom (other : StringT) : Except MemoryFault StringT :=
  if other.length = 0 then return stringCreate
  else stringCreateFromRange junk other 0 other.length

def stringSubstring (str : StringT) (first last : ℤ) : Except MemoryFault StringT :=
  stringCreateFromRange junk str first last

/-! ## Setters -/

def stringSet (str : StringT) (str2 : Option Source) : Except MemoryFault StringT :=
  match str2 with
  | none => str.setLength 0
  | some source =>
    if source.length str = 0 then str.setLength 0
    else match source with
      | .own => return str
      | .other str2 => spliceRange junk str 0 str.length str2.length (source.read 0 str2.length 0)

/-- Both strings of `string_move`, where they are not the same. -/
def stringMove (str str2 : StringT) : Except MemoryFault (StringT × StringT) := do
  let moved ←
    if str2.isHeapAllocated then
      pure { str with data := str2.data, length := str2.length, capacity := str2.capacity }
    else do
      let bytes ← checked (window str2.inlineData 0 (str2.length + 1))
      let inlineData ← checked (overwrite str.inlineData 0 bytes)
      pure { length := str2.length, capacity := stringInitialCapacity,
             data := .inlineData, inlineData }
  let inlineData ← checked (overwrite str2.inlineData 0 [0])
  return (moved, { data := .inlineData, length := 0, capacity := stringInitialCapacity, inlineData })

def stringSetCstr (str : StringT) (cstr : Option (List UInt8)) : Except MemoryFault StringT :=
  match cstr with
  | none => str.setLength 0
  | some cstr =>
    let len : ℤ := if strlen cstr > intMax - 1 then intMax - 1 else strlen cstr
    spliceRange junk str 0 str.length len (fromData cstr len)

def stringSetChar (str : StringT) (ch : UInt8) : Except MemoryFault StringT :=
  if ch = 0 then str.setLength 0
  else replaceRange str 0 str.length 1 1 (nChars 1 ch)

def stringSetData (str : StringT) (data : Option (List UInt8)) (n : ℤ) :
    Except MemoryFault StringT :=
  match data with
  | none => str.setLength 0
  | some data =>
    if n ≤ 0 then str.setLength 0
    else do
      let n := if n > intMax - 1 then intMax - 1 else n
      let actualLen ← nulFreeRun data n
      spliceRange junk str 0 str.length actualLen (fromData data actualLen)

def stringSetNChars (str : StringT) (count : ℤ) (ch : UInt8) : Except MemoryFault StringT :=
  if count ≤ 0 ∨ ch = 0 then str.setLength 0
  else
    let count := if count > intMax - 1 then intMax - 1 else count
    spliceRange junk str 0 str.length count (nChars count ch)

def stringSetSubstring (str : StringT) (str2 : Option Source) (begin2 end2 : ℤ) :
    Except MemoryFault StringT :=
  match str2 with
  | none => str.setLength 0
  | some source =>
    if source.length str = 0 then str.setLength 0
    else
      let (b, e) := clampRange (source.length str) begin2 end2
      if b = e then str.setLength 0
      else spliceRange junk str 0 str.length (e - b) (source.read b (e - b) 0)

/-! ## Capacity -/

def stringReserve (str : StringT) (newCap : ℤ) : Except MemoryFault StringT :=
  if newCap < 0 then return str
  else
    let newCap := if newCap > intMax - 1 then intMax - 1 else newCap
    if newCap + 1 > str.capacity then stringEnsureCapacity junk str (newCap + 1) else return str

def stringShrinkToFit (str : StringT) : Except MemoryFault StringT := do
  let needed ← addInt str.length 1
  if needed ≤ stringInitialCapacity then
    if str.isHeapAllocated then stringNormalizeCapacity junk str stringInitialCapacity
    else return str
  else if str.capacity > needed then
    return { str with data := .heap (xrealloc junk str.buffer needed), capacity := needed }
  else return str

/-! ## Modifiers -/

def stringClear (str : StringT) : Except MemoryFault StringT := str.setLength 0

def stringInsert (str : StringT) (pos : ℤ) (other : Option Source) : Except MemoryFault StringT :=
  match other with
  | none => return str
  | some source =>
    let otherLen := source.length str
    if otherLen = 0 then return str
    else
      let pos := clampPos str pos
      spliceRange junk str pos 0 otherLen (source.read 0 otherLen pos)

def stringInsertNChars (str : StringT) (pos count : ℤ) (ch : UInt8) : Except MemoryFault StringT :=
  if count ≤ 0 then return str
  else if ch = 0 then str.setLength (clampPos str pos)
  else spliceRange junk str (clampPos str pos) 0 count (nChars count ch)

def stringInsertCstr (str : StringT) (pos : ℤ) (cstr : Option (List UInt8)) :
    Except MemoryFault StringT :=
  match cstr with
  | none => return str
  | some cstr =>
    if strlen cstr = 0 then return str
    else
      let cstrLen := intOfSize (strlen cstr)
      spliceRange junk str (clampPos str pos) 0 cstrLen (fromData cstr cstrLen)

def stringInsertData (str : StringT) (pos : ℤ) (data : Option (List UInt8)) (len : ℤ) :
    Except MemoryFault StringT :=
  match data with
  | none => return str
  | some data =>
    if len ≤ 0 then return str
    else do
      let actualLen ← nulFreeRun data len
      if actualLen = 0 then return str
      else spliceRange junk str (clampPos str pos) 0 actualLen (fromData data actualLen)

/-- `if (pos + len > str->length) len = str->length - pos`. -/
def clampLen (str : StringT) (pos len : ℤ) : Except MemoryFault ℤ := do
  let stop ← addInt pos len
  return if stop > str.length then str.length - pos else len

def stringErase (str : StringT) (pos len : ℤ) : Except MemoryFault StringT :=
  let pos := if pos < 0 then 0 else pos
  if pos ≥ str.length then return str
  else if len ≤ 0 then return str
  else do
    let len ← clampLen str pos len
    let str ← replaceRange str pos len 0 (str.length - len) (nChars 0 0)
    if str.isHeapAllocated ∧ str.capacity - str.length > stringReduceThreshold then
      stringShrinkToFit junk str
    else return str

def stringPushBack (str : StringT) (ch : UInt8) : Except MemoryFault StringT :=
  if ch = 0 then return str
  else if str.length ≥ intMax - 2 then return str
  else spliceRange junk str str.length 0 1 (nChars 1 ch)

def stringPopBack (str : StringT) : Except MemoryFault (UInt8 × StringT) :=
  if str.length ≤ 0 then return (0, str)
  else do
    let last ← checked (window str.buffer (str.length - 1) 1)
    let str ← str.setLength (str.length - 1)
    return (last.headD 0, str)

/-- The tail of the functions that append at most what keeps the length below `INT_MAX`. -/
def appendAtMost (str : StringT) (count : ℤ)
    (bytes : ℤ → StringT → Except MemoryFault (List UInt8)) : Except MemoryFault StringT :=
  let count := if count > intMax - 1 - str.length then intMax - 1 - str.length else count
  spliceRange junk str str.length 0 count (bytes count)

def stringAppend (str : StringT) (other : Option Source) : Except MemoryFault StringT :=
  match other with
  | none => return str
  | some source =>
    if source.length str = 0 then return str
    else appendAtMost junk str (source.length str) fun count => source.read 0 count str.length

def stringAppendSubstring (str : StringT) (other : Option Source) (first last : ℤ) :
    Except MemoryFault StringT :=
  match other with
  | none => return str
  | some source =>
    if source.length str = 0 then return str
    else
      let (b, e) := clampRange (source.length str) first last
      if b = e then return str
      else spliceRange junk str str.length 0 (e - b) (source.read b (e - b) str.length)

def stringAppendCstr (str : StringT) (cstr : Option (List UInt8)) : Except MemoryFault StringT :=
  match cstr with
  | none => return str
  | some cstr =>
    if strlen cstr = 0 then return str
    else appendAtMost junk str (intOfSize (strlen cstr)) (fromData cstr)

def stringAppendNChars (str : StringT) (count : ℤ) (ch : UInt8) : Except MemoryFault StringT :=
  if count ≤ 0 ∨ ch = 0 then return str
  else appendAtMost junk str count fun count => nChars count ch

def stringAppendData (str : StringT) (data : Option (List UInt8)) (len : ℤ) :
    Except MemoryFault StringT :=
  match data with
  | none => return str
  | some data =>
    if len ≤ 0 then return str
    else do
      let actualLen ← nulFreeRun data len
      if actualLen = 0 then return str
      else appendAtMost junk str actualLen (fromData data)

/-- A byte of a code point's encoding: its mark and some bits of the code point. -/
def utf8Byte (mark bits : UInt32) : UInt8 := (mark ||| bits).toUInt8

/-- The bytes of a code point in `string_append_utf8`, none for one that is not valid. -/
def utf8Bytes (cp : UInt32) : List UInt8 :=
  if cp ≤ 0x7F then [cp.toUInt8]
  else if cp ≤ 0x7FF then [utf8Byte 0xC0 (cp >>> 6), utf8Byte 0x80 (cp &&& 0x3F)]
  else if 0xD800 ≤ cp ∧ cp ≤ 0xDFFF then []
  else if cp ≤ 0xFFFF then
    [utf8Byte 0xE0 (cp >>> 12), utf8Byte 0x80 ((cp >>> 6) &&& 0x3F), utf8Byte 0x80 (cp &&& 0x3F)]
  else if cp ≤ 0x10FFFF then
    [utf8Byte 0xF0 (cp >>> 18), utf8Byte 0x80 ((cp >>> 12) &&& 0x3F),
      utf8Byte 0x80 ((cp >>> 6) &&& 0x3F), utf8Byte 0x80 (cp &&& 0x3F)]
  else []

def stringAppendUtf8 (str : StringT) (cp : UInt32) : Except MemoryFault (ℤ × StringT) :=
  let buf := utf8Bytes cp
  if buf = [] then return (0, str)
  else do
    let str ← stringAppendData junk str (some buf) buf.length
    return (buf.length, str)

/-- `if (i > 0 && separator) string_append_cstr(result, separator)`. -/
def appendSeparator (result : StringT) (separator : Option (List UInt8)) (i : ℕ) :
    Except MemoryFault StringT :=
  if i > 0 then stringAppendCstr junk result separator else return result

def stringCreateFromCstrList (strv : List (List UInt8)) (separator : Option (List UInt8)) :
    Except MemoryFault StringT :=
  strv.zipIdx.foldlM (fun result (s, i) => do
    let result ← appendSeparator junk result separator i
    stringAppendCstr junk result (some s)) stringCreate

/-- The head that the functions of the `string_replace` family share. -/
def replaceIn (str : StringT) (pos len : ℤ)
    (body : ℤ → ℤ → Except MemoryFault StringT) : Except MemoryFault StringT :=
  let pos := if pos < 0 then 0 else pos
  if pos ≥ str.length then return str
  else if len ≤ 0 then return str
  else do
    let len ← clampLen str pos len
    body pos len

/-- The bytes a replacement copies, if there are any. -/
def ifAny (count : ℤ) (bytes : StringT → Except MemoryFault (List UInt8)) (str : StringT) :
    Except MemoryFault (List UInt8) := if count > 0 then bytes str else .ok []

def stringReplace (str : StringT) (pos len : ℤ) (other : Option Source) :
    Except MemoryFault StringT :=
  replaceIn str pos len fun pos len =>
    let otherLen := other.elim 0 (·.length str)
    spliceRange junk str pos len otherLen
      (ifAny otherLen fun str => other.elim (.ok []) (·.read 0 otherLen pos str))

def stringReplaceSubstring (str : StringT) (pos len : ℤ) (other : Option Source)
    (begin2 end2 : ℤ) : Except MemoryFault StringT :=
  replaceIn str pos len fun pos len =>
    let (b, e) :=
      match other with
      | some source =>
        if source.length str > 0 then clampRange (source.length str) begin2 end2 else (0, 0)
      | none => (0, 0)
    spliceRange junk str pos len (e - b)
      (ifAny (e - b) fun str => other.elim (.ok []) (·.read b (e - b) pos str))

def stringReplaceCstr (str : StringT) (pos len : ℤ) (cstr : Option (List UInt8)) :
    Except MemoryFault StringT :=
  replaceIn str pos len fun pos len =>
    let cstrLen := intOfSize (cstr.elim 0 strlen)
    spliceRange junk str pos len cstrLen (ifAny cstrLen (fromData (cstr.getD []) cstrLen))

def stringReplaceNChars (str : StringT) (pos len count : ℤ) (ch : UInt8) :
    Except MemoryFault StringT :=
  if ch = 0 then return str
  else replaceIn str pos len fun pos len =>
    let replacementLen := if count ≤ 0 then 0 else count
    spliceRange junk str pos len replacementLen (ifAny replacementLen (nChars replacementLen ch))

def stringReplaceData (str : StringT) (pos len : ℤ) (data : Option (List UInt8)) (dataLen : ℤ) :
    Except MemoryFault StringT :=
  match data with
  | none => return str
  | some data =>
    replaceIn str pos len fun pos len => do
      let actualDataLen ← if dataLen > 0 then nulFreeRun data dataLen else pure 0
      spliceRange junk str pos len actualDataLen (ifAny actualDataLen (fromData data actualDataLen))

def stringResize (str : StringT) (newSize : ℤ) : Except MemoryFault StringT :=
  let newSize := if newSize < 0 then 0 else newSize
  if newSize ≥ str.length then return str else str.setLength newSize

def stringResizeWithChar (str : StringT) (newSize : ℤ) (ch : UInt8) : Except MemoryFault StringT :=
  let newSize := if newSize < 0 then 0 else newSize
  if newSize ≤ str.length then str.setLength newSize
  else
    spliceRange junk str str.length 0 (newSize - str.length) (nChars (newSize - str.length) ch)

end

end Migash.Strings
