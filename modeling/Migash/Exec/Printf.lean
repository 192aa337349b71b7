import Migash.Exec.Basename
import Migash.Numeric

/-! # The printf builtin

`printf` walks through its format and hands one argument to each conversion that
it meets, and it starts again while a walk has taken arguments and left some.
The same loop, copied, is the one of `miga_printfvar`: it is modelled once here, and
yields what is to be written without saying where it goes.
-/

namespace Migash.Exec.Printf

open Library

/-! ## Conversion specifications -/

/-- The cases of the switch over the conversion specifier. -/
inductive Kind
  | escaped
  | character
  | signed
  | unsigned (base : ℕ) (upper : Bool)
  | string
  | percent
  | unknown
  deriving DecidableEq, Repr

/-- The case of a specifier, `b c d i u o x X s %`. -/
def kindOf : UInt8 → Kind
  | 98 => .escaped
  | 99 => .character
  | 100 => .signed
  | 105 => .signed
  | 117 => .unsigned 10 false
  | 111 => .unsigned 8 false
  | 120 => .unsigned 16 false
  | 88 => .unsigned 16 true
  | 115 => .string
  | 37 => .percent
  | _ => .unknown

/-- A conversion specification; `spec` is zero at the end of the format, and `precision` is
there if `has_precision` is set. -/
structure Conversion where
  leftJustify : Bool := false
  zeroPad : Bool := false
  width : ℕ := 0
  precision : Option ℕ := none
  spec : UInt8
  deriving DecidableEq, Repr

def Conversion.kind (c : Conversion) : Kind := kindOf c.spec

/-- The flags `-`, `0`, blank, `+` and `#`; the last three change nothing. -/
def isFlag (c : UInt8) : Bool := [45, 48, 32, 43, 35].contains c

def isDigit (c : UInt8) : Bool := 48 ≤ c && c ≤ 57

/-- The loop over the flags. -/
def parseFlags (leftJustify zeroPad : Bool) : List UInt8 → Bool × Bool × List UInt8
  | [] => (leftJustify, zeroPad, [])
  | c :: f =>
    if isFlag c then parseFlags (leftJustify || c == 45) (zeroPad || c == 48) f
    else (leftJustify, zeroPad, c :: f)

/-- `printf_parse_number`. There is no result where the `int` overflows, which C leaves
undefined. -/
def printfParseNumber (num : ℕ) : List UInt8 → Option (ℕ × List UInt8)
  | [] => some (num, [])
  | c :: f =>
    if isDigit c then
      let num := num * 10 + (c - 48).toNat
      if (num : ℤ) ≤ Strings.intMax then printfParseNumber num f else none
    else some (num, c :: f)

/-- The precision, if a dot is there. -/
def parsePrecision : List UInt8 → Option (Option ℕ × List UInt8)
  | 46 :: f => do
    let (precision, f) ← printfParseNumber 0 f
    return (some precision, f)
  | f => some (none, f)

/-- What `printf_process_format` and `printfvar_process_format` read after the percent sign. -/
def parseConversion (f : List UInt8) : Option (Conversion × List UInt8) := do
  let (leftJustify, zeroPad, f) := parseFlags false false f
  let (width, f) ← printfParseNumber 0 f
  let (precision, f) ← parsePrecision f
  return (⟨leftJustify, zeroPad, width, precision, f.headD 0⟩, f.tail)

/-! ## Escapes -/

/-- An octal digit. -/
def isOctal (c : UInt8) : Bool := 48 ≤ c && c ≤ 55

/-- The value of at most `n` octal digits, and what follows them. -/
def octal : ℕ → ℕ → List UInt8 → ℕ × List UInt8
  | n + 1, val, c :: f => if isOctal c then octal n (val * 8 + (c - 48).toNat) f else (val, c :: f)
  | _, val, f => (val, f)

/-- The escapes `a b e f n r t v \` for one byte. -/
def letterEscape : UInt8 → Option UInt8
  | 97 => some 7
  | 98 => some 8
  | 101 => some 27
  | 102 => some 12
  | 110 => some 10
  | 114 => some 13
  | 116 => some 9
  | 118 => some 11
  | 92 => some 92
  | _ => none

/-- `string_push_back`, which leaves out the NUL. -/
def pushBack (c : UInt8) : List UInt8 := if c = 0 then [] else [c]

/-- The loop of `printf_process_escapes`, with at most `n` turns left: the result and
`stop_output`. -/
def processEscapesLoop : ℕ → List UInt8 → List UInt8 × Bool
  | 0, _ => ([], false)
  | _, [] => ([], false)
  | n + 1, 92 :: c :: p =>
    if c = 99 then ([], true)
    else
      let (bytes, p) :=
        if isOctal c then
          let (val, p) := octal 3 0 (c :: p)
          (pushBack val.toUInt8, p)
        else if c = 69 then ([27], p)
        else match letterEscape c with
          | some b => ([b], p)
          | none => ([92, c], p)
      let (result, stop) := processEscapesLoop n p
      (bytes ++ result, stop)
  | n + 1, c :: p =>
    let (result, stop) := processEscapesLoop n p
    (c :: result, stop)

/-- `printf_process_escapes`. -/
def printfProcessEscapes (str : List UInt8) : List UInt8 × Bool :=
  processEscapesLoop str.length str

/-- An escape of the format, after the backslash: the byte that is written, none for `\c`. -/
def formatEscape : List UInt8 → Option UInt8 × List UInt8
  | [] => (none, [])
  | c :: f =>
    if c = 99 then (none, f)
    else if c = 48 then
      let (val, f) := octal 3 0 f
      (some val.toUInt8, f)
    else (some ((letterEscape c).getD c), f)

/-! ## Numbers -/

def isspace (c : UInt8) : Bool := c = 32 || (9 ≤ c && c ≤ 13)

/-- The value of a digit; sixteen if it is none. -/
def digitValue (c : UInt8) : ℕ :=
  if isDigit c then (c - 48).toNat
  else if 97 ≤ c ∧ c ≤ 102 then (c - 87).toNat
  else if 65 ≤ c ∧ c ≤ 70 then (c - 55).toNat
  else 16

/-- The base that base zero stands for, and the digits; C23 has the binary constants as well. -/
def baseOf (text : List UInt8) : ℕ × List UInt8 :=
  match text with
  | 48 :: x :: d :: more =>
    if (x = 120 ∨ x = 88) ∧ digitValue d < 16 then (16, d :: more)
    else if (x = 98 ∨ x = 66) ∧ digitValue d < 2 then (2, d :: more)
    else (8, text)
  | 48 :: _ => (8, text)
  | _ => (10, text)

/-- A number as `strtol` and `strtoul` read it with base zero: is there a minus, and the
digits' value. -/
def readNumber (text : List UInt8) : Bool × ℕ :=
  let text := text.dropWhile isspace
  let (negative, text) := match text with
    | 45 :: text => (true, text)
    | 43 :: text => (false, text)
    | text => (false, text)
  let (base, text) := baseOf text
  (negative, ((text.map digitValue).takeWhile (· < base)).foldl (· * base + ·) 0)

/-- `strtol` with base zero. -/
def strtol (text : List UInt8) : ℤ :=
  let (negative, magnitude) := readNumber text
  if negative then max (-(magnitude : ℤ)) longMin else min (magnitude : ℤ) longMax

def ulongMax : ℕ := 2 ^ 64 - 1

/-- `strtoul` with base zero; a minus is taken modulo the word. -/
def strtoul (text : List UInt8) : ℕ :=
  let (negative, magnitude) := readNumber text
  if magnitude > ulongMax then ulongMax
  else if negative then (ulongMax + 1 - magnitude) % (ulongMax + 1) else magnitude

/-- A number to be written: its sign and its digits in a base. -/
structure Numeral where
  negative : Bool := false
  magnitude : ℕ
  base : ℕ
  upper : Bool := false

/-- The digits that a number has without a precision. -/
def Numeral.digits (n : Numeral) : List UInt8 :=
  (Nat.toDigits n.base n.magnitude).map fun d => (if n.upper then d.toUpper else d).toNat.toUInt8

def Numeral.sign (n : Numeral) : List UInt8 := if n.negative then [45] else []

/-- At least `precision` digits; none for a zero if that is zero. -/
def Numeral.withPrecision (n : Numeral) (precision : ℕ) : List UInt8 :=
  n.sign ++
    if precision = 0 ∧ n.magnitude = 0 then []
    else List.replicate (precision - n.digits.length) 48 ++ n.digits

/-- The flag `0` of the C function: zeros between the sign and the digits. -/
def Numeral.zeroPadded (n : Numeral) (width : ℕ) : List UInt8 :=
  n.sign ++ List.replicate (width - (n.sign ++ n.digits).length) 48 ++ n.digits

/-! ## One conversion -/

/-- A text in a field, blanks before it or after it. -/
def justify (leftJustify : Bool) (width : ℕ) (text : List UInt8) : List UInt8 :=
  let pad := List.replicate (width - text.length) 32
  if leftJustify then text ++ pad else pad ++ text

/-- The `long` of `%d` and `%i`. -/
def signedNumeral (arg : List UInt8) : Numeral :=
  let val := if arg = [] then 0 else strtol arg
  { negative := val < 0, magnitude := val.natAbs, base := 10 }

/-- The `unsigned long` of `%u`, `%o`, `%x` and `%X`. -/
def unsignedNumeral (base : ℕ) (upper : Bool) (arg : List UInt8) : Numeral :=
  { magnitude := if arg = [] then 0 else strtoul arg, base := base, upper := upper }

/-- What the C function makes of a number with the format that the builtins choose for it. -/
def integerText (c : Conversion) (n : Numeral) : List UInt8 :=
  match c.precision with
  | some precision => justify c.leftJustify c.width (n.withPrecision precision)
  | none =>
    if c.zeroPad ∧ c.leftJustify = false ∧ 0 < c.width then n.zeroPadded c.width
    else justify c.leftJustify c.width (n.sign ++ n.digits)

/-- `%b`. -/
def escapedText (c : Conversion) (arg : List UInt8) : List UInt8 :=
  justify c.leftJustify c.width (printfProcessEscapes arg).1

/-- `%s`, cut at the precision. -/
def stringText (c : Conversion) (arg : List UInt8) : List UInt8 :=
  justify c.leftJustify c.width (arg.take (c.precision.getD arg.length))

/-- The field of `%c`; the character of an empty argument is the NUL. -/
def characterText (c : Conversion) (arg : List UInt8) : List UInt8 :=
  justify c.leftJustify c.width [arg.headD 0]

/-- A conversion that there is none of, as it stands. -/
def unknownText (c : Conversion) : List UInt8 := 37 :: if c.spec = 0 then [] else [c.spec]

/-- What `printf_process_format` prints. -/
def printfText (c : Conversion) (arg : List UInt8) : List UInt8 :=
  match c.kind with
  | .escaped => escapedText c arg
  | .character => characterText c arg
  | .signed => integerText c (signedNumeral arg)
  | .unsigned base upper => integerText c (unsignedNumeral base upper arg)
  | .string => stringText c arg
  | .percent => [37]
  | .unknown => unknownText c

/-- `stop_output` after a conversion. -/
def stops (c : Conversion) (arg : List UInt8) : Bool :=
  c.kind = .escaped && (printfProcessEscapes arg).2

/-! ## The loops -/

/-- Something that is written: a byte, or a conversion with the argument it has taken. -/
inductive Event
  | put (b : UInt8)
  | convert (c : Conversion) (arg : Option (List UInt8))
  deriving DecidableEq, Repr

/-- What the loops of the builtins do not get past. -/
inductive Halt
  /-- The return with status one, after what has been written. -/
  | invalid (events : List Event)
  /-- The overflow of an `int`. -/
  | overflow
  /-- The model has run out of turns. -/
  | fuel
  deriving DecidableEq, Repr

/-- The variables of the loops: the rest of the format, the arguments from `arg_index` on, the
flags `format_used` and `stop_output`, and what has been written. -/
structure Loop where
  f : List UInt8
  args : List (List UInt8)
  formatUsed : Bool := false
  stopOutput : Bool := false
  events : List Event := []

/-- The turn at a percent sign: the next argument is taken, then the conversion is read. -/
def turnConversion (s : Loop) (f : List UInt8) : Except Halt Loop :=
  let arg := s.args.head?
  match parseConversion f with
  | none => .error .overflow
  | some (c, rest) =>
    let events := s.events ++ [.convert c arg]
    if c.kind = .unknown then .error (.invalid events)
    else .ok {
      f := rest, args := s.args.tail, formatUsed := s.formatUsed || arg.isSome,
      stopOutput := stops c (arg.getD []), events := events }

/-- The turn at a backslash. -/
def turnEscape (s : Loop) (f : List UInt8) : Loop :=
  match formatEscape f with
  | (none, rest) => { s with f := rest, stopOutput := true }
  | (some b, rest) => { s with f := rest, events := s.events ++ [.put b] }

/-- A turn of the inner loop at the byte `c`. -/
def turn (s : Loop) (c : UInt8) (f : List UInt8) : Except Halt Loop :=
  if c = 37 ∧ f ≠ [] then turnConversion s f
  else if c = 92 ∧ f ≠ [] then .ok (turnEscape s f)
  else .ok { s with f := f, events := s.events ++ [.put c] }

/-- The inner loop, with at most `n` turns left. -/
def passLoop : ℕ → Loop → Except Halt Loop
  | 0, _ => .error .fuel
  | n + 1, s =>
    if s.stopOutput then .ok s
    else match s.f with
      | [] => .ok s
      | c :: f => turn s c f >>= passLoop n

/-- The outer loop, with at most `n` turns left. -/
def formatLoop (format : List UInt8) : ℕ → Loop → Except Halt Loop
  | 0, _ => .error .fuel
  | n + 1, s =>
    if s.stopOutput then .ok s
    else do
      let s ← passLoop (format.length + 1) { s with f := format, formatUsed := false }
      if s.formatUsed ∧ s.args ≠ [] then formatLoop format n s else return s

/-- Both loops from the start. -/
def processFormat (format : List UInt8) (args : List (List UInt8)) : Except Halt Loop :=
  formatLoop format (args.length + 2) ⟨format, args, false, false, []⟩

/-- The bytes up to the NUL. -/
def cstr (l : List UInt8) : List UInt8 := l.takeWhile (· ≠ 0)

/-- What `printf` and `putchar` print. -/
def printfBytes : Event → List UInt8
  | .put b => [b]
  | .convert c arg => printfText c (arg.getD [])

/-- The answer of `printf`, and the events that its output comes from. -/
structure Answer extends Printed where
  events : List Event := []
  deriving DecidableEq, Repr

/-- `builtin_printf`; there is no answer where C leaves it undefined. -/
def builtinPrintf (args : List (List UInt8)) : Except Halt Answer :=
  match args.map cstr with
  | _ :: format :: args =>
    match processFormat format args with
    | .ok s => .ok { out := s.events.flatMap printfBytes, events := s.events }
    | .error (.invalid events) => .ok
      { out := events.flatMap printfBytes, status := 1,
        complaint := some "printf: invalid format", events := events }
    | .error halt => .error halt
  | _ => .ok { out := [], status := 2,
               complaint := some "printf: usage: printf format [arguments...]" }

/-! ## The items of a format -/

/-- What a format is made of. -/
inductive Item
  | literal (b : UInt8)
  | stop
  | convert (c : Conversion)
  | invalid (c : Conversion)
  | overflow
  deriving DecidableEq, Repr

/-- A format and its items, up to the first that is not well formed. -/
inductive Reads : List UInt8 → List Item → Prop
  | nil : Reads [] []
  | literal {c : UInt8} {f : List UInt8} {items : List Item} (hpercent : ¬(c = 37 ∧ f ≠ []))
      (hback : ¬(c = 92 ∧ f ≠ [])) (h : Reads f items) : Reads (c :: f) (.literal c :: items)
  | stop {f rest : List UInt8} {items : List Item} (hsome : f ≠ [])
      (hescape : formatEscape f = (none, rest)) (h : Reads rest items) :
      Reads (92 :: f) (.stop :: items)
  | escape {f rest : List UInt8} {items : List Item} {b : UInt8} (hsome : f ≠ [])
      (hescape : formatEscape f = (some b, rest)) (h : Reads rest items) :
      Reads (92 :: f) (.literal b :: items)
  | convert {f rest : List UInt8} {items : List Item} {c : Conversion} (hsome : f ≠ [])
      (hparse : parseConversion f = some (c, rest)) (hknown : c.kind ≠ .unknown)
      (h : Reads rest items) : Reads (37 :: f) (.convert c :: items)
  | invalid {f rest : List UInt8} {c : Conversion} (hsome : f ≠ [])
      (hparse : parseConversion f = some (c, rest)) (hunknown : c.kind = .unknown) :
      Reads (37 :: f) [.invalid c]
  | overflow {f : List UInt8} (hsome : f ≠ []) (hparse : parseConversion f = none) :
      Reads (37 :: f) [.overflow]

theorem length_octal (n val : ℕ) (f : List UInt8) : (octal n val f).2.length ≤ f.length := by
  induction n generalizing val f with
  | zero => cases f <;> exact Nat.le_refl _
  | succ n ih =>
    cases f with
    | nil => exact Nat.le_refl _
    | cons c f =>
      rw [octal]
      split_ifs
      · exact Nat.le_succ_of_le (ih _ f)
      · exact Nat.le_refl _

theorem length_formatEscape (f : List UInt8) : (formatEscape f).2.length ≤ f.length := by
  cases f with
  | nil => exact Nat.le_refl _
  | cons c f =>
    rw [formatEscape]
    split_ifs
    · exact Nat.le_succ _
    · exact Nat.le_succ_of_le (length_octal 3 0 f)
    · exact Nat.le_succ _

theorem length_parseFlags (left zero : Bool) (f : List UInt8) :
    (parseFlags left zero f).2.2.length ≤ f.length := by
  induction f generalizing left zero with
  | nil => exact Nat.le_refl _
  | cons c f ih =>
    rw [parseFlags]
    split_ifs
    · exact Nat.le_succ_of_le (ih _ _)
    · exact Nat.le_refl _

theorem length_printfParseNumber {f rest : List UInt8} {num val : ℕ}
    (h : printfParseNumber num f = some (val, rest)) : rest.length ≤ f.length := by
  induction f generalizing num with
  | nil =>
    cases h
    exact Nat.le_refl _
  | cons c f ih =>
    rw [printfParseNumber] at h
    split_ifs at h with hdigit
    · dsimp only at h
      split_ifs at h
      exact Nat.le_succ_of_le (ih h)
    · cases h
      exact Nat.le_refl _

theorem length_parsePrecision {f rest : List UInt8} {precision : Option ℕ}
    (h : parsePrecision f = some (precision, rest)) : rest.length ≤ f.length := by
  unfold parsePrecision at h
  split at h
  · obtain ⟨⟨val, f⟩, hnum, heq⟩ := Option.bind_eq_some_iff.mp h
    cases heq
    exact Nat.le_succ_of_le (length_printfParseNumber hnum)
  · cases h
    exact Nat.le_refl _

theorem length_parseConversion {f rest : List UInt8} {c : Conversion}
    (h : parseConversion f = some (c, rest)) : rest.length ≤ f.length := by
  unfold parseConversion at h
  obtain ⟨⟨width, f₁⟩, hwidth, h⟩ := Option.bind_eq_some_iff.mp h
  obtain ⟨⟨precision, f₂⟩, hprecision, h⟩ := Option.bind_eq_some_iff.mp h
  cases h
  have hflags := length_parseFlags false false f
  have hnum := length_printfParseNumber hwidth
  have hdot := length_parsePrecision hprecision
  exact (List.length_tail ▸ Nat.sub_le _ _).trans (hdot.trans (hnum.trans hflags))

/-- Every format has items. -/
theorem exists_reads (f : List UInt8) : ∃ items, Reads f items := by
  induction hlen : f.length using Nat.strong_induction_on generalizing f with
  | _ n ih =>
    subst hlen
    cases f with
    | nil => exact ⟨_, .nil⟩
    | cons c f =>
      have hrest {rest : List UInt8} (h : rest.length ≤ f.length) : ∃ items, Reads rest items :=
        ih _ (Nat.lt_succ_of_le h) rest rfl
      by_cases hpercent : c = 37 ∧ f ≠ []
      · obtain ⟨rfl, hsome⟩ := hpercent
        cases hparse : parseConversion f with
        | none => exact ⟨_, .overflow hsome hparse⟩
        | some read =>
          by_cases hunknown : read.1.kind = .unknown
          · exact ⟨_, .invalid hsome hparse hunknown⟩
          · obtain ⟨items, hitems⟩ := hrest (length_parseConversion hparse)
            exact ⟨_, .convert hsome hparse hunknown hitems⟩
      · by_cases hback : c = 92 ∧ f ≠ []
        · obtain ⟨rfl, hsome⟩ := hback
          obtain ⟨items, hitems⟩ := hrest (length_formatEscape f)
          cases hescape : formatEscape f with
          | mk b rest =>
            rw [hescape] at hitems
            cases b with
            | none => exact ⟨_, .stop hsome hescape hitems⟩
            | some b => exact ⟨_, .escape hsome hescape hitems⟩
        · obtain ⟨items, hitems⟩ := hrest (Nat.le_refl _)
          exact ⟨_, .literal hpercent hback hitems⟩

/-! ## What the items write -/

/-- The ways the items of a format can be cut short. -/
inductive Ending
  | stop
  | invalid
  | overflow
  deriving DecidableEq, Repr

/-- What is written, the arguments that are left, and how it was cut short. -/
structure Trace where
  events : List Event
  args : List (List UInt8)
  ending : Option Ending := none
  deriving DecidableEq, Repr

/-- One trace after another, unless the first is cut short. -/
def Trace.andThen (t : Trace) (next : List (List UInt8) → Trace) : Trace :=
  match t.ending with
  | some _ => t
  | none => { next t.args with events := t.events ++ (next t.args).events }

theorem Trace.andThen_of_ending {t : Trace} (h : t.ending ≠ none)
    (next : List (List UInt8) → Trace) : t.andThen next = t := by
  unfold Trace.andThen
  split
  · rfl
  · exact absurd (by assumption) h

theorem Trace.andThen_of_none {t : Trace} (h : t.ending = none)
    (next : List (List UInt8) → Trace) :
    t.andThen next = { next t.args with events := t.events ++ (next t.args).events } := by
  unfold Trace.andThen
  rw [h]

theorem Trace.andThen_assoc (t : Trace) (g k : List (List UInt8) → Trace) :
    (t.andThen g).andThen k = t.andThen fun args => (g args).andThen k := by
  by_cases h : t.ending = none
  · rw [t.andThen_of_none h, t.andThen_of_none h]
    by_cases hg : (g t.args).ending = none
    · rw [Trace.andThen_of_none hg, Trace.andThen_of_none (by exact hg)]
      simp only [List.append_assoc]
    · rw [Trace.andThen_of_ending hg, Trace.andThen_of_ending (by exact hg)]
  · rw [t.andThen_of_ending h, t.andThen_of_ending h, t.andThen_of_ending h]

section Perform

variable (takes : Conversion → Bool)

/-- What an item writes, where the conversions in `takes` take an argument. -/
def performItem (args : List (List UInt8)) : Item → Trace
  | .literal b => ⟨[.put b], args, none⟩
  | .stop => ⟨[], args, some .stop⟩
  | .convert c =>
    let arg := if takes c then args.head? else none
    ⟨[.convert c arg], if takes c then args.tail else args,
      if stops c (arg.getD []) then some .stop else none⟩
  | .invalid c => ⟨[.convert c args.head?], args.tail, some .invalid⟩
  | .overflow => ⟨[], args, some .overflow⟩

/-- What the items write one after the other. -/
def perform : List Item → List (List UInt8) → Trace
  | [], args => ⟨[], args, none⟩
  | item :: items, args => (performItem takes args item).andThen (perform items)

theorem perform_append (items more : List Item) (args : List (List UInt8)) :
    perform takes (items ++ more) args = (perform takes items args).andThen (perform takes more) := by
  induction items generalizing args with
  | nil => rfl
  | cons item items ih =>
    have hrest : perform takes (items ++ more) =
        fun args => (perform takes items args).andThen (perform takes more) := funext ih
    rw [List.cons_append, perform, perform, hrest, Trace.andThen_assoc]

/-- A conversion that takes an argument. -/
def takesArgument : Item → Bool
  | .convert c => takes c
  | _ => false

/-- The number of conversions that take an argument. -/
def conversions (items : List Item) : ℕ := items.countP (takesArgument takes)

/-- How often a format with `k` conversions is applied to `n` arguments. -/
def applications (k n : ℕ) : ℕ := if k = 0 then 1 else max 1 ((n + k - 1) / k)

/-- The format applied as often as its conversions and the arguments ask for. -/
def applied (items : List Item) (args : List (List UInt8)) : Trace :=
  perform takes
    (List.replicate (applications (conversions takes items) args.length) items).flatten args

end Perform

/-! ## The loops follow the items -/

/-- All conversions, `%%` too: what the loops do. -/
def takesAlways (_ : Conversion) : Bool := true

/-- A loop that had `before` written, and a pass that began with `n` arguments, ends as the
trace says. -/
def Comes (before : List Event) (n : ℕ) (t : Trace) (r : Except Halt Loop) : Prop :=
  match t.ending with
  | none => ∃ s, r = .ok s ∧ s.stopOutput = false ∧ s.args = t.args ∧
      (s.formatUsed = true ↔ s.args.length < n) ∧ s.events = before ++ t.events
  | some .stop => ∃ s, r = .ok s ∧ s.stopOutput = true ∧ s.events = before ++ t.events
  | some .invalid => r = .error (.invalid (before ++ t.events))
  | some .overflow => r = .error .overflow

theorem Comes.andThen {before : List Event} {n : ℕ} {t : Trace} {r : Except Halt Loop}
    {next : List (List UInt8) → Trace} (hnone : t.ending = none)
    (h : Comes (before ++ t.events) n (next t.args) r) : Comes before n (t.andThen next) r := by
  rw [t.andThen_of_none hnone]
  unfold Comes at h ⊢
  rw [List.append_assoc] at h
  exact h

theorem passLoop_of_stop {n : ℕ} {s : Loop} (h : s.stopOutput = true) :
    passLoop (n + 1) s = .ok s := by
  rw [passLoop, if_pos h]

theorem passLoop_of_turn {n : ℕ} {s s' : Loop} {c : UInt8} {f : List UInt8}
    (h : s.stopOutput = false) (hf : s.f = c :: f) (hturn : turn s c f = .ok s') :
    passLoop (n + 1) s = passLoop n s' := by
  rw [passLoop, if_neg (by rw [h]; exact Bool.false_ne_true), hf]
  dsimp only
  rw [hturn]
  rfl

theorem passLoop_of_error {n : ℕ} {s : Loop} {halt : Halt} {c : UInt8} {f : List UInt8}
    (h : s.stopOutput = false) (hf : s.f = c :: f) (hturn : turn s c f = .error halt) :
    passLoop (n + 1) s = .error halt := by
  rw [passLoop, if_neg (by rw [h]; exact Bool.false_ne_true), hf]
  dsimp only
  rw [hturn]
  rfl

/-- One turn writes what one item does. -/
theorem Reads.passLoop_comes {f : List UInt8} {items : List Item} (h : Reads f items) {n m : ℕ}
    {s : Loop} (hn : f.length ≤ n) (hf : s.f = f) (hstop : s.stopOutput = false)
    (hm : s.args.length ≤ m) (hused : s.formatUsed = true ↔ s.args.length < m) :
    Comes s.events m (perform takesAlways items s.args) (passLoop (n + 1) s) := by
  induction h generalizing n s with
  | nil =>
    refine ⟨s, ?_, hstop, rfl, hused, (List.append_nil _).symm⟩
    rw [passLoop, if_neg (by rw [hstop]; exact Bool.false_ne_true), hf]
  | @literal c f items hpercent hback _ ih =>
    obtain ⟨n, rfl⟩ := Nat.exists_eq_add_of_le' (Nat.lt_of_lt_of_le (Nat.succ_pos _) hn)
    have hturn : turn s c f = .ok { s with f := f, events := s.events ++ [.put c] } := by
      rw [turn, if_neg hpercent, if_neg hback]
    rw [passLoop_of_turn hstop hf hturn]
    exact .andThen rfl (ih (s := { s with f := f, events := s.events ++ [.put c] })
      (Nat.le_of_succ_le_succ hn) rfl hstop hm hused)
  | @stop f rest items hsome hescape _ _ =>
    obtain ⟨n, rfl⟩ := Nat.exists_eq_add_of_le' (Nat.lt_of_lt_of_le (Nat.succ_pos _) hn)
    have hturn : turn s 92 f = .ok { s with f := rest, stopOutput := true } := by
      rw [turn, if_neg (by simp), if_pos ⟨rfl, hsome⟩, turnEscape, hescape]
    rw [passLoop_of_turn hstop hf hturn]
    exact ⟨_, passLoop_of_stop rfl, rfl, (List.append_nil _).symm⟩
  | @escape f rest items b hsome hescape _ ih =>
    obtain ⟨n, rfl⟩ := Nat.exists_eq_add_of_le' (Nat.lt_of_lt_of_le (Nat.succ_pos _) hn)
    have hturn : turn s 92 f = .ok { s with f := rest, events := s.events ++ [.put b] } := by
      rw [turn, if_neg (by simp), if_pos ⟨rfl, hsome⟩, turnEscape, hescape]
    have hrest : rest.length ≤ f.length := by
      have hlen := length_formatEscape f
      rw [hescape] at hlen
      exact hlen
    rw [passLoop_of_turn hstop hf hturn]
    exact .andThen rfl (ih (s := { s with f := rest, events := s.events ++ [.put b] })
      (hrest.trans (Nat.le_of_succ_le_succ hn)) rfl hstop hm hused)
  | @convert f rest items c hsome hparse hknown _ ih =>
    obtain ⟨n, rfl⟩ := Nat.exists_eq_add_of_le' (Nat.lt_of_lt_of_le (Nat.succ_pos _) hn)
    have hturn : turn s 37 f = .ok ⟨rest, s.args.tail, s.formatUsed || s.args.head?.isSome,
        stops c (s.args.head?.getD []), s.events ++ [.convert c s.args.head?]⟩ := by
      rw [turn, if_pos ⟨rfl, hsome⟩, turnConversion, hparse]
      exact if_neg hknown
    rw [passLoop_of_turn hstop hf hturn]
    have hargs : (if takesAlways c = true then s.args.head? else none) = s.args.head? := if_pos rfl
    cases hstops : stops c (s.args.head?.getD []) with
    | true =>
      have hending : (performItem takesAlways s.args (.convert c)).ending = some .stop := by
        rw [performItem, hargs]
        exact if_pos hstops
      rw [perform, Trace.andThen_of_ending (by rw [hending]; exact Option.some_ne_none _), Comes,
        hending]
      exact ⟨_, passLoop_of_stop rfl, rfl, rfl⟩
    | false =>
      have hending : (performItem takesAlways s.args (.convert c)).ending = none := by
        rw [performItem, hargs]
        exact if_neg (by rw [hstops]; exact Bool.false_ne_true)
      refine .andThen hending (ih (s := ⟨rest, s.args.tail, _, false, _⟩)
        ((length_parseConversion hparse).trans (Nat.le_of_succ_le_succ hn)) rfl rfl ?_ ?_)
      · exact (List.length_tail ▸ Nat.sub_le _ _).trans hm
      · cases hlist : s.args with
        | nil =>
          rw [hlist] at hused
          simpa using hused
        | cons arg args =>
          rw [hlist, List.length_cons] at hm
          simpa using Nat.lt_of_succ_le hm
  | @invalid f rest c hsome hparse hunknown =>
    have hturn : turn s 37 f = .error (.invalid (s.events ++ [.convert c s.args.head?])) := by
      rw [turn, if_pos ⟨rfl, hsome⟩, turnConversion, hparse]
      exact if_pos hunknown
    rw [passLoop_of_error hstop hf hturn]
    rfl
  | @overflow f hsome hparse =>
    have hturn : turn s 37 f = .error .overflow := by
      rw [turn, if_pos ⟨rfl, hsome⟩, turnConversion, hparse]
    rw [passLoop_of_error hstop hf hturn]
    rfl

/-- Items that are not cut short leave the arguments that their conversions do not take. -/
theorem perform_args {takes : Conversion → Bool} {items : List Item} {args : List (List UInt8)}
    (h : (perform takes items args).ending = none) :
    (perform takes items args).args = args.drop (conversions takes items) := by
  induction items generalizing args with
  | nil => rfl
  | cons item items ih =>
    rw [perform] at h ⊢
    by_cases hfirst : (performItem takes args item).ending = none
    · rw [Trace.andThen_of_none hfirst] at h ⊢
      rw [show Trace.args _ = _ from rfl, ih h]
      cases item with
      | literal b => rfl
      | stop => cases hfirst
      | convert c =>
        cases hc : takes c with
        | true =>
          have hargs : (performItem takes args (.convert c)).args = args.tail := if_pos hc
          have htakes : takesArgument takes (.convert c) = true := hc
          rw [hargs, conversions, conversions, List.countP_cons_of_pos htakes, ← List.drop_one,
            List.drop_drop, Nat.add_comm]
        | false =>
          have hfalse : ¬takes c = true := by rw [hc]; exact Bool.false_ne_true
          have hargs : (performItem takes args (.convert c)).args = args := if_neg hfalse
          have htakes : ¬takesArgument takes (.convert c) = true := hfalse
          rw [hargs, conversions, conversions, List.countP_cons_of_neg htakes]
      | invalid c => cases hfirst
      | overflow => cases hfirst
    · rw [Trace.andThen_of_ending hfirst] at h
      exact absurd h hfirst

theorem applications_of_used {k n : ℕ} (h : k = 0 ∨ n ≤ k) : applications k n = 1 := by
  unfold applications
  split_ifs with hk
  · rfl
  · have hle : n ≤ k := h.resolve_left hk
    have hdiv : (n + k - 1) / k ≤ 1 := Nat.lt_succ_iff.mp (Nat.div_lt_of_lt_mul (by omega))
    omega

theorem applications_of_lt {k n : ℕ} (hk : k ≠ 0) (h : k < n) :
    applications k n = applications k (n - k) + 1 := by
  have hpos : 0 < k := Nat.pos_of_ne_zero hk
  have hsplit : n + k - 1 = (n - k + k - 1) + k := by omega
  have hone : 1 ≤ (n - k + k - 1) / k := (Nat.one_le_div_iff hpos).mpr (by omega)
  rw [applications, applications, if_neg hk, if_neg hk, hsplit, Nat.add_div_right _ hpos]
  omega

theorem exists_applications (k n : ℕ) : ∃ m, applications k n = m + 1 := by
  unfold applications
  split_ifs
  · exact ⟨0, rfl⟩
  · exact ⟨max 1 ((n + k - 1) / k) - 1, by omega⟩

section Applied

variable {takes : Conversion → Bool} {items : List Item} {args : List (List UInt8)}

/-- A format that is cut short is not applied again. -/
theorem applied_of_ending (h : (perform takes items args).ending ≠ none) :
    applied takes items args = perform takes items args := by
  obtain ⟨m, hm⟩ := exists_applications (conversions takes items) args.length
  rw [applied, hm, List.replicate_succ, List.flatten_cons, perform_append,
    Trace.andThen_of_ending h]

theorem applied_of_one (h : applications (conversions takes items) args.length = 1) :
    applied takes items args = perform takes items args := by
  rw [applied, h, List.replicate_one, List.flatten_singleton]

/-- The format is applied again to the arguments that are left. -/
theorem applied_of_more (hnone : (perform takes items args).ending = none)
    (hk : conversions takes items ≠ 0) (hmore : conversions takes items < args.length) :
    applied takes items args =
      (perform takes items args).andThen (applied takes items) := by
  rw [applied, applications_of_lt hk hmore, List.replicate_succ, List.flatten_cons, perform_append,
    Trace.andThen_of_none hnone, Trace.andThen_of_none hnone, perform_args hnone, applied,
    List.length_drop]

end Applied

/-- Both loops end as the trace says. -/
def Ends (before : List Event) (t : Trace) (r : Except Halt Loop) : Prop :=
  match t.ending with
  | some .invalid => r = .error (.invalid (before ++ t.events))
  | some .overflow => r = .error .overflow
  | _ => ∃ s, r = .ok s ∧ s.events = before ++ t.events

theorem Ends.andThen {before : List Event} {t : Trace} {r : Except Halt Loop}
    {next : List (List UInt8) → Trace} (hnone : t.ending = none)
    (h : Ends (before ++ t.events) (next t.args) r) : Ends before (t.andThen next) r := by
  rw [t.andThen_of_none hnone]
  unfold Ends at h ⊢
  rw [List.append_assoc] at h
  exact h

section Loops

variable {format : List UInt8} {n : ℕ} {s t : Loop}

theorem formatLoop_of_stop (h : s.stopOutput = true) : formatLoop format (n + 1) s = .ok s := by
  rw [formatLoop, if_pos h]

theorem formatLoop_of_pass (hstop : s.stopOutput = false)
    (hpass : passLoop (format.length + 1) { s with f := format, formatUsed := false } = .ok t) :
    formatLoop format (n + 1) s =
      if t.formatUsed ∧ t.args ≠ [] then formatLoop format n t else .ok t := by
  rw [formatLoop, if_neg (by rw [hstop]; exact Bool.false_ne_true), hpass]
  rfl

theorem formatLoop_of_error {halt : Halt} (hstop : s.stopOutput = false)
    (hpass : passLoop (format.length + 1) { s with f := format, formatUsed := false } =
      .error halt) : formatLoop format (n + 1) s = .error halt := by
  rw [formatLoop, if_neg (by rw [hstop]; exact Bool.false_ne_true), hpass]
  rfl

/-- The outer loop applies the format until the arguments are used up. -/
theorem Reads.formatLoop_ends {items : List Item} (h : Reads format items)
    (hn : s.args.length + 2 ≤ n) (hstop : s.stopOutput = false) :
    Ends s.events (applied takesAlways items s.args) (formatLoop format n s) := by
  induction n generalizing s with
  | zero => omega
  | succ n ih =>
    have hpass := h.passLoop_comes (s := { s with f := format, formatUsed := false }) (Nat.le_refl _)
      rfl hstop (Nat.le_refl _) (by simp)
    dsimp only at hpass
    cases hending : (perform takesAlways items s.args).ending with
    | none =>
      rw [Comes, hending] at hpass
      obtain ⟨t, hrun, htstop, htargs, htused, htevents⟩ := hpass
      have hlen : t.args.length = s.args.length - conversions takesAlways items := by
        rw [htargs, perform_args hending, List.length_drop]
      rw [formatLoop_of_pass hstop hrun]
      by_cases hmore : t.formatUsed = true ∧ t.args ≠ []
      · have hshort := htused.mp hmore.1
        have hpos : 0 < t.args.length := List.length_pos_iff.mpr hmore.2
        have hrest := ih (s := t) (by omega) htstop
        rw [if_pos hmore, applied_of_more hending (by omega) (by omega)]
        rw [htargs, htevents] at hrest
        exact .andThen hending hrest
      · have hone : applications (conversions takesAlways items) s.args.length = 1 := by
          refine applications_of_used ?_
          by_contra hnot
          obtain ⟨hk, hlt⟩ := not_or.mp hnot
          refine hmore ⟨htused.mpr (by omega), fun hnil => ?_⟩
          rw [hnil, List.length_nil] at hlen
          omega
        rw [if_neg hmore, applied_of_one hone, Ends, hending]
        exact ⟨t, rfl, htevents⟩
    | some ending =>
      rw [applied_of_ending (by rw [hending]; exact Option.some_ne_none _), Ends, hending]
      rw [Comes, hending] at hpass
      cases ending with
      | stop =>
        obtain ⟨t, hrun, htstop, htevents⟩ := hpass
        refine ⟨t, ?_, htevents⟩
        obtain ⟨n, rfl⟩ := Nat.exists_eq_add_of_le' (show 1 ≤ n by omega)
        rw [formatLoop_of_pass hstop hrun]
        split_ifs
        · exact formatLoop_of_stop htstop
        · rfl
      | invalid => exact formatLoop_of_error hstop hpass
      | overflow => exact formatLoop_of_error hstop hpass

end Loops

/-- The loops on any format: they never run out of turns. -/
theorem Reads.processFormat_ends {format : List UInt8} {items : List Item} (h : Reads format items)
    (args : List (List UInt8)) :
    Ends [] (applied takesAlways items args) (processFormat format args) :=
  h.formatLoop_ends (s := ⟨format, args, false, false, []⟩) (Nat.le_refl _) rfl

/-- What `printf` has written, and its status, when it comes to its end. -/
def written (t : Trace) : Answer := { out := t.events.flatMap printfBytes, events := t.events }

/-- What `printf` answers where its loops end as a trace says. -/
def answer (t : Trace) : Except Halt Answer :=
  match t.ending with
  | some .invalid => .ok
    { written t with status := 1, complaint := some "printf: invalid format" }
  | some .overflow => .error .overflow
  | _ => .ok (written t)

theorem builtinPrintf_eq {cmd format : List UInt8} {items : List Item}
    (h : Reads (cstr format) items) (args : List (List UInt8)) :
    builtinPrintf (cmd :: format :: args) = answer (applied takesAlways items (args.map cstr)) := by
  have hends := h.processFormat_ends (args.map cstr)
  rw [builtinPrintf, List.map_cons, List.map_cons]
  dsimp only
  unfold Ends at hends
  unfold answer
  cases hending : (applied takesAlways items (args.map cstr)).ending with
  | none =>
    rw [hending] at hends
    obtain ⟨s, hrun, hevents⟩ := hends
    rw [hrun, written, ← List.nil_append (Trace.events _), ← hevents]
  | some ending =>
    rw [hending] at hends
    cases ending with
    | stop =>
      obtain ⟨s, hrun, hevents⟩ := hends
      rw [hrun, written, ← List.nil_append (Trace.events _), ← hevents]
    | invalid =>
      rw [show processFormat (cstr format) (args.map cstr) = _ from hends]
      rfl
    | overflow => rw [show processFormat (cstr format) (args.map cstr) = _ from hends]

/-- `printf` ends, whatever its arguments are. -/
theorem builtinPrintf_ne_fuel (args : List (List UInt8)) : builtinPrintf args ≠ .error .fuel := by
  match args with
  | [] => exact nofun
  | [_] => exact nofun
  | cmd :: format :: args =>
    obtain ⟨items, hitems⟩ := exists_reads (cstr format)
    rw [builtinPrintf_eq hitems, answer]
    split <;> exact nofun

/-! ## What it should write -/

/-- Every conversion but `%%` takes an argument. -/
def consumes (c : Conversion) : Bool := c.kind ≠ .percent

/-- An item of a format without mistakes. -/
def isValid : Item → Bool
  | .invalid _ => false
  | .overflow => false
  | _ => true

/-- The argument that was handed to a conversion. -/
def taken? : Event → Option (List UInt8)
  | .put _ => none
  | .convert _ arg => arg

/-- No `%%` is met while there are arguments left. -/
def PercentHarmless : List Item → List (List UInt8) → Prop
  | .convert c :: items, args =>
    (c.kind = .percent → args = []) ∧
      (stops c (args.head?.getD []) = false → PercentHarmless items args.tail)
  | .literal _ :: items, args => PercentHarmless items args
  | _, _ => True

/-- The answer to a format: what the format writes when it is applied to all arguments in turn,
each of them handed to one conversion. -/
structure AppliesFormat (items : List Item) (args : List (List UInt8)) (r : Except Halt Answer) :
    Prop where
  answers : r = .ok (written (applied consumes items args))
  inTurn : conversions consumes items ≠ 0 → (applied consumes items args).ending = none →
    ∀ a, r = .ok a → a.events.filterMap taken? = args

section Reference

variable {items : List Item} {args : List (List UInt8)}

/-- The arguments that were handed out, in order. -/
theorem perform_taken {takes : Conversion → Bool} (h : (perform takes items args).ending = none) :
    (perform takes items args).events.filterMap taken? = args.take (conversions takes items) := by
  induction items generalizing args with
  | nil => rfl
  | cons item items ih =>
    rw [perform] at h ⊢
    by_cases hfirst : (performItem takes args item).ending = none
    · rw [Trace.andThen_of_none hfirst] at h ⊢
      rw [show Trace.events _ = _ from rfl, List.filterMap_append, ih h]
      cases item with
      | literal b => rfl
      | stop => cases hfirst
      | convert c =>
        cases hc : takes c with
        | true =>
          have htakes : takesArgument takes (.convert c) = true := hc
          rw [performItem, hc, conversions, conversions, List.countP_cons_of_pos htakes]
          cases args with
          | nil =>
            rw [List.take_nil]
            exact List.take_nil
          | cons arg args => rfl
        | false =>
          have htakes : ¬takesArgument takes (.convert c) = true := by
            rw [takesArgument, hc]
            exact Bool.false_ne_true
          rw [performItem, hc, conversions, conversions, List.countP_cons_of_neg htakes]
          rfl
      | invalid c => cases hfirst
      | overflow => cases hfirst
    · rw [Trace.andThen_of_ending hfirst] at h
      exact absurd h hfirst

theorem le_applications_mul {k n : ℕ} (hk : k ≠ 0) : n ≤ applications k n * k := by
  have hpos : 0 < k := Nat.pos_of_ne_zero hk
  have hceil : n ≤ (n + k - 1) / k * k := by
    have hmod := Nat.div_add_mod (n + k - 1) k
    have hlt := Nat.mod_lt (n + k - 1) hpos
    rw [Nat.mul_comm] at hmod
    omega
  rw [applications, if_neg hk]
  exact hceil.trans (Nat.mul_le_mul_right k (Nat.le_max_right _ _))

theorem conversions_flatten (takes : Conversion → Bool) (m : ℕ) :
    conversions takes (List.replicate m items).flatten = m * conversions takes items := by
  induction m with
  | zero => exact (Nat.zero_mul _).symm
  | succ m ih =>
    rw [List.replicate_succ, List.flatten_cons, conversions, List.countP_append, ← conversions,
      ← conversions, ih, Nat.succ_mul, Nat.add_comm]

/-- Each argument is handed out once. -/
theorem applied_taken (hk : conversions consumes items ≠ 0)
    (h : (applied consumes items args).ending = none) :
    (applied consumes items args).events.filterMap taken? = args := by
  rw [applied, perform_taken h, conversions_flatten]
  exact List.take_of_length_le (le_applications_mul hk)

theorem isValid_of_forall {item : Item} (h : ∀ i ∈ item :: items, isValid i = true) :
    isValid item = true ∧ ∀ i ∈ items, isValid i = true :=
  ⟨h item List.mem_cons_self, fun i hi => h i (List.mem_cons_of_mem _ hi)⟩

/-- A format without mistakes is cut short by `\c` only. -/
theorem perform_ending {takes : Conversion → Bool} (hvalid : ∀ i ∈ items, isValid i = true) :
    (perform takes items args).ending = none ∨ (perform takes items args).ending = some .stop := by
  induction items generalizing args with
  | nil => exact .inl rfl
  | cons item items ih =>
    obtain ⟨hitem, hrest⟩ := isValid_of_forall hvalid
    rw [perform]
    by_cases hfirst : (performItem takes args item).ending = none
    · rw [Trace.andThen_of_none hfirst]
      exact ih hrest
    · rw [Trace.andThen_of_ending hfirst]
      cases item with
      | literal b => exact .inl rfl
      | stop => exact .inr rfl
      | convert c =>
        refine .inr (if_pos ?_)
        by_contra hno
        exact hfirst (if_neg hno)
      | invalid c => cases hitem
      | overflow => cases hitem

theorem flatten_valid (hvalid : ∀ i ∈ items, isValid i = true) (m : ℕ) :
    ∀ i ∈ (List.replicate m items).flatten, isValid i = true := by
  intro i hi
  obtain ⟨l, hl, hmem⟩ := List.mem_flatten.mp hi
  exact hvalid i (List.eq_of_mem_replicate hl ▸ hmem)

theorem applied_ending {takes : Conversion → Bool} (hvalid : ∀ i ∈ items, isValid i = true) :
    (applied takes items args).ending = none ∨ (applied takes items args).ending = some .stop := by
  exact perform_ending (flatten_valid hvalid _)

theorem answer_of_valid {takes : Conversion → Bool} (hvalid : ∀ i ∈ items, isValid i = true) :
    answer (applied takes items args) = .ok (written (applied takes items args)) := by
  rw [answer]
  rcases applied_ending hvalid with h | h <;> rw [h]

/-- In the reference no `%%` has an argument. -/
theorem perform_percent (hvalid : ∀ i ∈ items, isValid i = true) {c : Conversion}
    {arg : Option (List UInt8)} (hc : c.kind = .percent)
    (h : .convert c arg ∈ (perform consumes items args).events) : arg = none := by
  induction items generalizing args with
  | nil => cases h
  | cons item items ih =>
    obtain ⟨hitem, hrest⟩ := isValid_of_forall hvalid
    have hhead (hmem : .convert c arg ∈ (performItem consumes args item).events) : arg = none := by
      cases item with
      | literal b => cases List.mem_singleton.mp hmem
      | stop => cases hmem
      | convert d =>
        cases List.mem_singleton.mp hmem
        exact if_neg (by rw [consumes, hc]; decide)
      | invalid d => cases hitem
      | overflow => cases hitem
    rw [perform] at h
    by_cases hfirst : (performItem consumes args item).ending = none
    · rw [Trace.andThen_of_none hfirst] at h
      exact (List.mem_append.mp h).elim hhead (ih hrest)
    · rw [Trace.andThen_of_ending hfirst] at h
      exact hhead h

/-- An item that is not a `%%`, or comes after the last argument. -/
theorem performItem_eq {item : Item}
    (h : ∀ c, item = .convert c → c.kind = .percent → args = []) :
    performItem takesAlways args item = performItem consumes args item := by
  cases item with
  | convert c =>
    by_cases hc : c.kind = .percent
    · rw [h c rfl hc, performItem, performItem]
      simp only [List.head?_nil, List.tail_nil, ite_self]
    · have hconsumes : consumes c = true := decide_eq_true hc
      rw [performItem, performItem, hconsumes]
      rfl
  | _ => rfl

theorem PercentHarmless.head {item : Item} (h : PercentHarmless (item :: items) args) {c : Conversion}
    (hitem : item = .convert c) (hc : c.kind = .percent) : args = [] := by
  subst hitem
  exact h.1 hc

theorem PercentHarmless.tail {item : Item} (h : PercentHarmless (item :: items) args)
    (hnone : (performItem consumes args item).ending = none) :
    PercentHarmless items (performItem consumes args item).args := by
  cases item with
  | literal b => exact h
  | stop => cases hnone
  | convert c =>
    obtain ⟨hpercent, hrest⟩ := h
    have hstops : stops c ((if consumes c = true then args.head? else none).getD []) = false := by
      by_contra hno
      exact absurd ((if_pos (Bool.not_eq_false _ ▸ hno)).symm.trans hnone)
        (Option.some_ne_none _)
    by_cases hc : c.kind = .percent
    · rw [hpercent hc] at hrest ⊢
      have hnil : (performItem consumes [] (.convert c)).args = [] := ite_self _
      rw [hnil]
      exact hrest (by simpa [hpercent hc] using hstops)
    · have hconsumes : consumes c = true := decide_eq_true hc
      have htail : (performItem consumes args (.convert c)).args = args.tail := if_pos hconsumes
      rw [htail]
      refine hrest ?_
      rw [if_pos hconsumes] at hstops
      exact hstops
  | invalid c => cases hnone
  | overflow => cases hnone

/-- Where `%%` takes nothing away, a pass over the format is as it should be. -/
theorem PercentHarmless.perform_eq (h : PercentHarmless items args) :
    perform takesAlways items args = perform consumes items args := by
  induction items generalizing args with
  | nil => rfl
  | cons item items ih =>
    rw [perform, perform, performItem_eq fun c => h.head]
    by_cases hfirst : (performItem consumes args item).ending = none
    · rw [Trace.andThen_of_none hfirst, Trace.andThen_of_none hfirst, ih (h.tail hfirst)]
    · rw [Trace.andThen_of_ending hfirst, Trace.andThen_of_ending hfirst]

/-- A pass that comes past a `%%` has no arguments left. -/
theorem PercentHarmless.args_eq_nil (h : PercentHarmless items args)
    (hnone : (perform consumes items args).ending = none) {c : Conversion}
    (hmem : .convert c ∈ items) (hc : c.kind = .percent) :
    (perform consumes items args).args = [] := by
  induction items generalizing args with
  | nil => cases hmem
  | cons item items ih =>
    rw [perform] at hnone ⊢
    by_cases hfirst : (performItem consumes args item).ending = none
    · rw [Trace.andThen_of_none hfirst] at hnone ⊢
      rcases List.mem_cons.mp hmem with heq | hmem
      · have hnil : args = [] := h.head heq.symm hc
        have hargs : (performItem consumes args item).args = [] := by
          rw [← heq, hnil]
          exact ite_self _
        rw [show Trace.args _ = _ from rfl, perform_args hnone, hargs]
        exact List.drop_nil
      · exact ih (h.tail hfirst) hnone hmem
    · rw [Trace.andThen_of_ending hfirst] at hnone
      exact absurd hnone hfirst

theorem perform_eq_of_no_percent (h : ∀ c, .convert c ∈ items → c.kind ≠ .percent)
    (args : List (List UInt8)) : perform takesAlways items args = perform consumes items args := by
  induction items generalizing args with
  | nil => rfl
  | cons item items ih =>
    have hitem : performItem takesAlways args item = performItem consumes args item :=
      performItem_eq fun c heq hc => absurd hc (h c (heq ▸ List.mem_cons_self))
    have hrest : perform takesAlways items = perform consumes items :=
      funext (ih fun c hc => h c (List.mem_cons_of_mem _ hc))
    rw [perform, perform, hitem, hrest]

theorem conversions_eq_of_no_percent (h : ∀ c, .convert c ∈ items → c.kind ≠ .percent) :
    conversions takesAlways items = conversions consumes items := by
  refine List.countP_congr fun item hmem => ?_
  cases item with
  | convert c => exact iff_of_true rfl (decide_eq_true (h c hmem))
  | _ => exact Iff.rfl

theorem PercentHarmless.applied_eq (h : PercentHarmless items args) :
    applied takesAlways items args = applied consumes items args := by
  have heq := h.perform_eq
  by_cases hnone : (perform consumes items args).ending = none
  · by_cases hpercent : ∀ c, .convert c ∈ items → c.kind ≠ .percent
    · rw [applied, applied, conversions_eq_of_no_percent hpercent]
      refine perform_eq_of_no_percent (fun c hc => ?_) args
      obtain ⟨l, hl, hmem⟩ := List.mem_flatten.mp hc
      exact hpercent c (List.eq_of_mem_replicate hl ▸ hmem)
    · obtain ⟨c, hnot⟩ := not_forall.mp hpercent
      obtain ⟨hmem, hc⟩ := Classical.not_imp.mp hnot
      replace hc : c.kind = .percent := not_not.mp hc
      have hnil := h.args_eq_nil hnone hmem hc
      have hone {takes : Conversion → Bool} (hperform : (perform takes items args).ending = none)
          (hargs : (perform takes items args).args = []) :
          applied takes items args = perform takes items args := by
        rw [perform_args hperform, List.drop_eq_nil_iff] at hargs
        exact applied_of_one (applications_of_used (.inr hargs))
      rw [hone (heq ▸ hnone) (heq ▸ hnil), hone hnone hnil, heq]
  · rw [applied_of_ending hnone, applied_of_ending (heq ▸ hnone), heq]

/-- The first pass is part of what is written. -/
theorem mem_events_applied {takes : Conversion → Bool} {e : Event}
    (h : e ∈ (perform takes items args).events) : e ∈ (applied takes items args).events := by
  obtain ⟨m, hm⟩ := exists_applications (conversions takes items) args.length
  rw [applied, hm, List.replicate_succ, List.flatten_cons, perform_append]
  by_cases hnone : (perform takes items args).ending = none
  · rw [Trace.andThen_of_none hnone]
    exact List.mem_append_left _ h
  · rw [Trace.andThen_of_ending hnone]
    exact h

/-- A `%%` that is met while there are arguments left takes one of them. -/
theorem exists_percent_of_not_harmless (h : ¬PercentHarmless items args) :
    ∃ c arg, c.kind = .percent ∧
      .convert c (some arg) ∈ (perform takesAlways items args).events := by
  induction items generalizing args with
  | nil => exact absurd trivial h
  | cons item items ih =>
    rw [perform]
    have hrest (hfirst : (performItem takesAlways args item).ending = none)
        (hnot : ¬PercentHarmless items (performItem takesAlways args item).args) :
        ∃ c arg, c.kind = .percent ∧ .convert c (some arg) ∈
          ((performItem takesAlways args item).andThen (perform takesAlways items)).events := by
      obtain ⟨c, arg, hc, hmem⟩ := ih hnot
      rw [Trace.andThen_of_none hfirst]
      exact ⟨c, arg, hc, List.mem_append_right _ hmem⟩
    cases item with
    | literal b => exact hrest rfl h
    | stop => exact absurd trivial h
    | convert c =>
      by_cases hpercent : c.kind = .percent → args = []
      · obtain ⟨hstops, hnot⟩ := Classical.not_imp.mp fun himp => h ⟨hpercent, himp⟩
        refine hrest (if_neg ?_) hnot
        rw [takesAlways, if_pos rfl, hstops]
        exact Bool.false_ne_true
      · obtain ⟨hc, hargs⟩ := Classical.not_imp.mp hpercent
        obtain ⟨arg, args, rfl⟩ := List.exists_cons_of_ne_nil hargs
        have hstops : stops c arg = false := by
          rw [stops, hc]
          rfl
        refine ⟨c, arg, hc, ?_⟩
        rw [Trace.andThen_of_none (if_neg (by simp [takesAlways, hstops]))]
        exact List.mem_append_left _ (List.mem_singleton.mpr rfl)
    | invalid c => exact absurd trivial h
    | overflow => exact absurd trivial h

end Reference

/-- `printf` applies its format to the arguments, unless a `%%` takes one of them away. -/
theorem builtinPrintf_applies_iff {cmd format : List UInt8} {items : List Item}
    (h : Reads (cstr format) items) (hvalid : ∀ i ∈ items, isValid i = true)
    (args : List (List UInt8)) :
    AppliesFormat items (args.map cstr) (builtinPrintf (cmd :: format :: args)) ↔
      PercentHarmless items (args.map cstr) := by
  rw [builtinPrintf_eq h, answer_of_valid hvalid]
  refine ⟨fun happlies => ?_, fun hharmless => ?_⟩
  · by_contra hnot
    obtain ⟨c, arg, hc, hmem⟩ := exists_percent_of_not_harmless hnot
    have hevents : (applied takesAlways items (args.map cstr)).events =
        (applied consumes items (args.map cstr)).events :=
      congrArg Answer.events (Except.ok.inj happlies.answers)
    have hnone := perform_percent (flatten_valid hvalid _) hc (hevents ▸ mem_events_applied hmem)
    cases hnone
  · rw [hharmless.applied_eq]
    refine ⟨rfl, fun hk hnone a ha => ?_⟩
    cases ha
    exact applied_taken hk hnone

/-- `printf '%d%%' 7`. -/
theorem builtinPrintf_applies_iff_seven :
    AppliesFormat [.convert { spec := 100 }, .convert { spec := 37 }] [[55]]
      (builtinPrintf [[], [37, 100, 37, 37], [55]]) := by
  have hreads : Reads (cstr [37, 100, 37, 37])
      [.convert { spec := 100 }, .convert { spec := 37 }] := by
    have hnumber : parseConversion [100, 37, 37] = some ({ spec := 100 }, [37, 37]) := by decide
    have hpercent : parseConversion [37] = some ({ spec := 37 }, []) := by decide
    exact .convert (by decide) hnumber (by decide) (.convert (by decide) hpercent (by decide) .nil)
  exact (builtinPrintf_applies_iff hreads (by decide) [[55]]).mpr
    ⟨nofun, fun _ => ⟨fun _ => rfl, fun _ => trivial⟩⟩

/-- `printf '%%%s' a` prints a percent sign only. -/
theorem percent_not_appliesFormat :
    Reads (cstr [37, 37, 37, 115]) [.convert { spec := 37 }, .convert { spec := 115 }] ∧
      ¬AppliesFormat [.convert { spec := 37 }, .convert { spec := 115 }] [[97]]
        (builtinPrintf [[], [37, 37, 37, 115], [97]]) := by
  have hpercent : parseConversion [37, 37, 115] = some ({ spec := 37 }, [37, 115]) := by decide
  have hstring : parseConversion [115] = some ({ spec := 115 }, []) := by decide
  refine ⟨.convert (by decide) hpercent (by decide)
    (.convert (by decide) hstring (by decide) .nil), fun h => ?_⟩
  have hprinted : (builtinPrintf [[], [37, 37, 37, 115], [97]]).map (·.out) = .ok [37] := by decide
  rw [h.answers] at hprinted
  exact absurd hprinted (by decide)

end Migash.Exec.Printf
