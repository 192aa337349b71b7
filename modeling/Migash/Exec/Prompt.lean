import Migash.StringT.Operations
import Mathlib.Algebra.Group.Nat.Defs
import Mathlib.Data.List.Basic

/-! # Rendering the prompt

`render_ps1` scans the value of `PS1` by positions that the search functions
return. What the comment on the function promises is a list of tokens, each of
which has a text of its own.
-/

namespace Migash.Exec.Prompt

open Strings

/-! ## The function -/

/-- `Expects` does not hold, and the shell ends. -/
inductive ContractViolation where
  | emptyName
  | nameAtEnd
  deriving DecidableEq, Repr

/-- The values in a variable store. -/
structure Variables where
  get : List UInt8 → Option (List UInt8)
  nulFree : ∀ name value, get name = some value → 0 ∉ value

/-- What `render_ps1` reads of the executor and its current frame. -/
structure Shell where
  topFrameInitialized : Bool
  localVariables : Option Variables
  variables_ : Option Variables
  lastExitStatus : ℤ
  shellPid : ℤ
  shellPidValid : Bool

/-- The name `PS1`. -/
def ps1 : List UInt8 := [80, 83, 49]

/-- The prompt `"$ "`. -/
def defaultPrompt : List UInt8 := [36, 32]

/-- The value of a variable, from the local store if it has one. -/
def Shell.lookup (shell : Shell) (name : List UInt8) : Option (List UInt8) :=
  (shell.localVariables.bind (·.get name)).or (shell.variables_.bind (·.get name))

/-- `exec_frame_get_variable`. -/
def execFrameGetVariable (shell : Shell) (name : List UInt8) :
    Except ContractViolation (Option (List UInt8)) :=
  if name.length > 0 then .ok (shell.lookup name) else .error .emptyName

/-- `is_valid_ps1_variable_char`. -/
def isValidPs1VariableChar (c : UInt8) : Bool := (65 ≤ c && c ≤ 90) || (48 ≤ c && c ≤ 57) || c = 95

/-- `is_xdigit`. -/
def isXdigit (c : UInt8) : Bool := (48 ≤ c && c ≤ 57) || (97 ≤ c && c ≤ 102) || (65 ≤ c && c ≤ 70)

/-- `isalpha`, in the locales whose letters of one byte are those of ASCII. -/
def isalpha (c : UInt8) : Bool := (65 ≤ c && c ≤ 90) || (97 ≤ c && c ≤ 122)

/-- `string_at`. -/
def stringAt (raw : List UInt8) (i : ℤ) : UInt8 :=
  if i < 0 ∨ i ≥ raw.length then 0 else raw.getD i.toNat 0

/-- The loop of `string_find_first_of_cstr_at` and `string_find_first_not_of_predicate_at`. -/
def findAt (test : UInt8 → Bool) (raw : List UInt8) (pos : ℤ) : ℤ :=
  match (raw.drop pos.toNat).findIdx? test with
  | some k => pos.toNat + k
  | none => -1

/-- The value of a hexadecimal digit. -/
def xdigitValue (c : UInt8) : ℕ :=
  if c ≤ 57 then c.toNat - 48 else if c ≤ 70 then c.toNat - 55 else c.toNat - 87

/-- `strtoul` of hexadecimal digits. -/
def strtoul16 (digits : List UInt8) : ℕ := digits.foldl (fun n c => 16 * n + xdigitValue c) 0

/-- `string_append_utf8`; a NUL is not appended. -/
def stringAppendUtf8 (out : List UInt8) (cp : UInt32) : List UInt8 :=
  out ++ (utf8Bytes cp).takeWhile (· ≠ 0)

/-- `string_from_int`. -/
def stringFromInt (value : ℤ) : List UInt8 := (toString value).toList.map Char.toUInt8

/-- `\x`, `\u` and `\U`: the letter and its number of digits; `i` is behind the letter. -/
def renderHex (raw : List UInt8) (letter : UInt8) (width : ℕ) (i : ℤ) (out : List UInt8) :
    ℤ × List UInt8 :=
  let last := findAt (!isXdigit ·) raw i
  if last = -1 ∨ last - i < width then (i, out ++ [92, letter])
  else (i + width, stringAppendUtf8 out (UInt32.ofNat (strtoul16 (slice raw i (i + width)))))

/-- What stands behind a backslash; `i` is behind the backslash. -/
def renderEscape (raw : List UInt8) (i : ℤ) (out : List UInt8) : ℤ × List UInt8 :=
  if i ≥ raw.length then (i, out ++ [92])
  else
    let c2 := stringAt raw i
    if c2 = 110 then (i + 1, out ++ [10])
    else if c2 = 114 then (i + 1, out ++ [13])
    else if c2 = 116 then (i + 1, out ++ [9])
    else if c2 = 92 then (i + 1, out ++ [92])
    else if c2 = 120 then renderHex raw 120 2 (i + 1) out
    else if c2 = 117 then renderHex raw 117 4 (i + 1) out
    else if c2 = 85 then renderHex raw 85 6 (i + 1) out
    else (i + 1, out ++ [92] ++ [c2])

/-- `${`; `i` is behind the brace. -/
def renderBraced (shell : Shell) (raw : List UInt8) (i : ℤ) (out : List UInt8) :
    Except ContractViolation (ℤ × List UInt8) :=
  let last := findAt (· = 125) raw i
  if last = -1 then return (i, out ++ [36, 123])
  else
    let name := slice raw i last
    return match ← execFrameGetVariable shell name with
      | some value => (last + 1, out ++ value)
      | none => (last + 1, out ++ [36, 123] ++ name ++ [125])

/-- `$name`; `i` is at the name. -/
def renderName (shell : Shell) (raw : List UInt8) (i : ℤ) (out : List UInt8) :
    Except ContractViolation (ℤ × List UInt8) :=
  let last := findAt (!isValidPs1VariableChar ·) raw i
  if last = -1 then .error .nameAtEnd
  else
    let name := slice raw i last
    return match ← execFrameGetVariable shell name with
      | some value => (last, out ++ value)
      | none => (last, out ++ [36] ++ name)

/-- What stands behind a `$`; `i` is behind the `$`. -/
def renderParameter (shell : Shell) (raw : List UInt8) (i : ℤ) (out : List UInt8) :
    Except ContractViolation (ℤ × List UInt8) :=
  let c := stringAt raw i
  if c = 123 then renderBraced shell raw (i + 1) out
  else if c = 63 then return (i + 1, out ++ stringFromInt shell.lastExitStatus)
  else if c = 36 then
    return (i + 1, out ++ if shell.shellPidValid then stringFromInt shell.shellPid else [36, 36])
  else if c = 95 ∨ isalpha c then renderName shell raw i out
  else return (i, out ++ [36])

/-- One turn of the loop of `render_ps1`. -/
def renderTurn (shell : Shell) (raw : List UInt8) (i : ℤ) (out : List UInt8) :
    Except ContractViolation (ℤ × List UInt8) :=
  let c := stringAt raw i
  if c = 92 then return renderEscape raw (i + 1) out
  else if c ≠ 36 then return (i + 1, out ++ [c])
  else renderParameter shell raw (i + 1) out

/-- The loop, for `n` turns. -/
def renderLoop (shell : Shell) (raw : List UInt8) :
    ℕ → ℤ → List UInt8 → Except ContractViolation (Option (List UInt8))
  | 0, i, out => return if i < raw.length then none else some out
  | n + 1, i, out => do
    if i < raw.length then
      let (i, out) ← renderTurn shell raw i out
      renderLoop shell raw n i out
    else return some out

/-- `render_ps1`, for `n` turns of the loop. -/
def renderPs1 (n : ℕ) (shell : Shell) : Except ContractViolation (Option (List UInt8)) := do
  if shell.topFrameInitialized then
    match ← execFrameGetVariable shell ps1 with
    | none => return some defaultPrompt
    | some raw => renderLoop shell raw n 0 []
  else return some defaultPrompt

/-! ## What the comment promises -/

/-- A piece of the value of `PS1`. -/
inductive Token where
  /-- characters that stand for these -/
  | text (bytes : List UInt8)
  /-- an escape with the number of a code point -/
  | codePoint (n : ℕ)
  /-- `$name`, or `${name}` -/
  | variable_ (name : List UInt8) (braced : Bool)
  /-- `$?` -/
  | status
  /-- `$$` -/
  | pid
  deriving DecidableEq, Repr

/-- A character of a name. -/
def isNameChar (c : UInt8) : Bool := isalpha c || (48 ≤ c && c ≤ 57) || c = 95

/-- The escapes that stand for one character. -/
def plainEscape (c : UInt8) : Option UInt8 :=
  if c = 110 then some 10
  else if c = 114 then some 13
  else if c = 116 then some 9
  else if c = 92 then some 92
  else none

/-- The escapes that are followed by hexadecimal digits, and by how many. -/
def hexWidth (c : UInt8) : Option ℕ :=
  if c = 120 then some 2 else if c = 117 then some 4 else if c = 85 then some 6 else none

/-- The escape behind a backslash, and what follows it. -/
def readEscape : List UInt8 → Token × List UInt8
  | [] => (.text [92], [])
  | c :: rest =>
    match plainEscape c, hexWidth c with
    | some byte, _ => (.text [byte], rest)
    | none, some width =>
      if width ≤ (rest.takeWhile isXdigit).length then
        (.codePoint (strtoul16 (rest.take width)), rest.drop width)
      else (.text [92, c], rest)
    | none, none => (.text [92, c], rest)

/-- The parameter behind a `$`, and what follows it. -/
def readParameter : List UInt8 → Token × List UInt8
  | [] => (.text [36], [])
  | c :: rest =>
    if c = 123 then
      if rest.contains 125 then
        (.variable_ (rest.takeWhile (· ≠ 125)) true, (rest.dropWhile (· ≠ 125)).tail)
      else (.text [36, 123], rest)
    else if c = 63 then (.status, rest)
    else if c = 36 then (.pid, rest)
    else if c = 95 ∨ isalpha c then
      (.variable_ ((c :: rest).takeWhile isNameChar) false, (c :: rest).dropWhile isNameChar)
    else (.text [36], c :: rest)

/-- The first piece of a text that is not empty. -/
def readToken (c : UInt8) (rest : List UInt8) : Token × List UInt8 :=
  if c = 92 then readEscape rest
  else if c = 36 then readParameter rest
  else (.text [c], rest)

/-- The first `n` pieces of a text, each with what follows it. -/
def scanFrom : ℕ → List UInt8 → List (Token × List UInt8)
  | 0, _ => []
  | _, [] => []
  | n + 1, c :: rest => readToken c rest :: scanFrom n (readToken c rest).2

/-- All pieces of a text. -/
def scan (text : List UInt8) : List (Token × List UInt8) := scanFrom text.length text

/-- UTF-8. What is no character has no encoding. -/
def encode (n : ℕ) : List UInt8 :=
  if n.isValidChar then String.utf8EncodeChar (Char.ofNat n) else []

/-- The text of a piece: what is not set stands for itself. -/
def Token.render (shell : Shell) : Token → List UInt8
  | .text bytes => bytes
  | .codePoint n => encode n
  | .variable_ name true =>
    (if name = [] then none else shell.lookup name).getD ([36, 123] ++ name ++ [125])
  | .variable_ name false => (shell.lookup name).getD (36 :: name)
  | .status => stringFromInt shell.lastExitStatus
  | .pid => if shell.shellPidValid then stringFromInt shell.shellPid else [36, 36]

/-- The rendering of a prompt. -/
def rendering (shell : Shell) (text : List UInt8) : List UInt8 :=
  (scan text).flatMap fun piece => piece.1.render shell

/-- The value of `PS1` is rendered as the comment promises, in every shell that has it. -/
def RendersRight (prompt : List UInt8) : Prop :=
  ∀ shell, shell.topFrameInitialized = true → shell.lookup ps1 = some prompt →
    ∀ n ≥ prompt.length, renderPs1 n shell = .ok (some (rendering shell prompt))

/-- The function deals with the piece as it should. A number must be followed by something that is
no digit, a name in braces must not be empty, and one without braces must be of the characters that
the function knows and must not end the prompt. -/
def Token.Safe (rest : List UInt8) : Token → Prop
  | .codePoint n => n ≠ 0 ∧ rest.all isXdigit = false
  | .variable_ name true => name ≠ []
  | .variable_ name false => name.all isValidPs1VariableChar = true ∧ rest ≠ []
  | .text _ | .status | .pid => True

/-- All pieces of the prompt are safe. -/
def SafePrompt (prompt : List UInt8) : Prop := ∀ piece ∈ scan prompt, piece.1.Safe piece.2

/-! ## UTF-8 -/

theorem utf8Byte_eq {mark bits : UInt32} {m b : ℕ} (hmark : mark.toNat = m) (hbits : bits.toNat = b)
    (hor : m ||| b = b + m) : utf8Byte mark bits = UInt8.ofNat (b + m) := by
  rw [← UInt8.toNat_inj, utf8Byte, UInt32.toNat_toUInt8, UInt32.toNat_or, hmark, hbits, hor,
    UInt8.toNat_ofNat']

theorem or_mark : ∀ b < 64, 0x80 ||| b = b + 0x80 := by decide
theorem or_lead : ∀ b < 32, 0xC0 ||| b = b + 0xC0 ∧ (b < 16 → 0xE0 ||| b = b + 0xE0) ∧
    (b < 8 → 0xF0 ||| b = b + 0xF0) := by decide

theorem toNat_shift (cp : UInt32) {k : UInt32} {j : ℕ} (hk : k.toNat = j) (hj : j < 32) :
    (cp >>> k).toNat = cp.toNat / 2 ^ j := by
  rw [UInt32.toNat_shiftRight, hk, Nat.mod_eq_of_lt hj, Nat.shiftRight_eq_div_pow]

/-- A byte that is not the first of its character. -/
theorem utf8Byte_low {bits : UInt32} {b : ℕ} (hbits : bits.toNat = b) :
    utf8Byte 0x80 (bits &&& 0x3F) = UInt8.ofNat (b % 64 + 0x80) := by
  have hand : (bits &&& 0x3F).toNat = b % 64 := by
    rw [UInt32.toNat_and, hbits]
    exact Nat.and_two_pow_sub_one_eq_mod b 6
  exact utf8Byte_eq rfl hand (or_mark _ (Nat.mod_lt _ (by decide)))

theorem val_ofNat {n : ℕ} (h : n.isValidChar) : (Char.ofNat n).val.toNat = n := by
  rw [Char.ofNat, dif_pos h]
  rfl

/-- The bytes are those of UTF-8. -/
theorem utf8Bytes_eq (cp : UInt32) : utf8Bytes cp = encode cp.toNat := by
  have h6 : (cp >>> 6).toNat = cp.toNat / 64 := toNat_shift cp (j := 6) rfl (by decide)
  have h12 : (cp >>> 12).toNat = cp.toNat / 4096 := toNat_shift cp (j := 12) rfl (by decide)
  have h18 : (cp >>> 18).toNat = cp.toNat / 262144 := toNat_shift cp (j := 18) rfl (by decide)
  have hlow : utf8Byte 0x80 (cp &&& 0x3F) = UInt8.ofNat (cp.toNat % 64 + 0x80) := utf8Byte_low rfl
  have hlow6 : utf8Byte 0x80 ((cp >>> 6) &&& 0x3F) = UInt8.ofNat (cp.toNat / 64 % 64 + 0x80) :=
    utf8Byte_low h6
  have hle : ∀ m : UInt32, cp ≤ m ↔ cp.toNat ≤ m.toNat := fun _ => UInt32.le_iff_toNat_le
  have hge : (0xD800 : UInt32) ≤ cp ↔ 0xD800 ≤ cp.toNat := UInt32.le_iff_toNat_le
  have hvalid : cp.toNat.isValidChar ↔
      cp.toNat < 0xD800 ∨ 0xDFFF < cp.toNat ∧ cp.toNat < 0x110000 := Iff.rfl
  rw [encode, utf8Bytes]
  simp only [hle, hge, hvalid]
  have h1 : UInt32.toNat 0x7F = 0x7F := rfl
  have h2 : UInt32.toNat 0x7FF = 0x7FF := rfl
  have h3 : UInt32.toNat 0xDFFF = 0xDFFF := rfl
  have h4 : UInt32.toNat 0xFFFF = 0xFFFF := rfl
  have h5 : UInt32.toNat 0x10FFFF = 0x10FFFF := rfl
  rw [h1, h2, h3, h4, h5]
  by_cases hv : cp.toNat < 0xD800 ∨ 0xDFFF < cp.toNat ∧ cp.toNat < 0x110000
  · rw [if_pos hv, String.utf8EncodeChar]
    simp only [val_ofNat (hvalid.mpr hv)]
    by_cases hone : cp.toNat ≤ 0x7F
    · rw [if_pos hone, if_pos hone]
      rfl
    rw [if_neg hone, if_neg hone]
    by_cases htwo : cp.toNat ≤ 0x7FF
    · have hlead : utf8Byte 0xC0 (cp >>> 6) = UInt8.ofNat (cp.toNat / 64 + 0xC0) :=
        utf8Byte_eq rfl h6 (or_lead _ (by omega)).1
      rw [if_pos htwo, if_pos htwo, hlead, hlow, Nat.mod_eq_of_lt (by omega : cp.toNat / 64 < 32)]
    rw [if_neg htwo, if_neg htwo, if_neg (by omega)]
    by_cases hthree : cp.toNat ≤ 0xFFFF
    · have hlead : utf8Byte 0xE0 (cp >>> 12) = UInt8.ofNat (cp.toNat / 4096 + 0xE0) :=
        utf8Byte_eq rfl h12 ((or_lead _ (by omega)).2.1 (by omega))
      rw [if_pos hthree, if_pos hthree, hlead, hlow6, hlow,
        Nat.mod_eq_of_lt (by omega : cp.toNat / 4096 < 16)]
    · have hlead : utf8Byte 0xF0 (cp >>> 18) = UInt8.ofNat (cp.toNat / 262144 + 0xF0) :=
        utf8Byte_eq rfl h18 ((or_lead _ (by omega)).2.2 (by omega))
      have hlow12 : utf8Byte 0x80 ((cp >>> 12) &&& 0x3F) =
          UInt8.ofNat (cp.toNat / 4096 % 64 + 0x80) := utf8Byte_low h12
      rw [if_neg hthree, if_neg hthree, if_pos (by omega), hlead, hlow12, hlow6, hlow,
        Nat.mod_eq_of_lt (by omega : cp.toNat / 262144 < 8)]
  · rw [if_neg hv, if_neg (by omega), if_neg (by omega)]
    split_ifs with hsurrogate hthree hfour
    · rfl
    · omega
    · omega
    · rfl
/-- A character that is not NUL is appended with all its bytes. -/
theorem stringAppendUtf8_nil {n : ℕ} (hsome : n ≠ 0) (hlt : n < 2 ^ 32) :
    stringAppendUtf8 [] (UInt32.ofNat n) = encode n := by
  have hto : (UInt32.ofNat n).toNat = n := UInt32.toNat_ofNat_of_lt' hlt
  have hne : UInt32.ofNat n ≠ 0 := fun heq => hsome (by rw [← hto, heq]; rfl)
  have hall : ∀ b ∈ utf8Bytes (UInt32.ofNat n), decide (b ≠ 0) = true := fun b hb =>
    decide_eq_true fun heq => utf8Bytes_nulFree hne (heq ▸ hb)
  rw [stringAppendUtf8, List.nil_append, List.takeWhile_eq_self_iff.mpr hall, utf8Bytes_eq, hto]

/-! ## The loop on what is left of the prompt -/

section Suffixes

variable {shell : Shell} {raw s rest : List UInt8} {c : UInt8}

/-- What a turn appends for `\x`, `\u` or `\U`, and what it leaves. -/
def emitHex (letter : UInt8) (width : ℕ) (rest : List UInt8) : List UInt8 × List UInt8 :=
  if rest.all isXdigit = true ∨ (rest.takeWhile isXdigit).length < width then ([92, letter], rest)
  else (stringAppendUtf8 [] (UInt32.ofNat (strtoul16 (rest.take width))), rest.drop width)

/-- What a turn appends behind a backslash. -/
def emitEscape : List UInt8 → List UInt8 × List UInt8
  | [] => ([92], [])
  | c :: rest =>
    match plainEscape c, hexWidth c with
    | some byte, _ => ([byte], rest)
    | none, some width => emitHex c width rest
    | none, none => ([92, c], rest)

/-- What a turn appends for a name that was cut off from what is left. -/
def emitVariable (shell : Shell) (name literal rest : List UInt8) :
    Except ContractViolation (List UInt8 × List UInt8) := do
  return ((← execFrameGetVariable shell name).getD literal, rest)

/-- What a turn appends behind a `$`. -/
def emitParameter (shell : Shell) : List UInt8 → Except ContractViolation (List UInt8 × List UInt8)
  | [] => return ([36], [])
  | c :: rest =>
    if c = 123 then
      if rest.contains 125 then
        emitVariable shell (rest.takeWhile (· ≠ 125))
          ([36, 123] ++ rest.takeWhile (· ≠ 125) ++ [125]) (rest.dropWhile (· ≠ 125)).tail
      else return ([36, 123], rest)
    else if c = 63 then return (stringFromInt shell.lastExitStatus, rest)
    else if c = 36 then
      return (if shell.shellPidValid then stringFromInt shell.shellPid else [36, 36], rest)
    else if c = 95 ∨ isalpha c then
      if (c :: rest).all isValidPs1VariableChar then .error .nameAtEnd
      else
        emitVariable shell ((c :: rest).takeWhile isValidPs1VariableChar)
          (36 :: (c :: rest).takeWhile isValidPs1VariableChar)
          ((c :: rest).dropWhile isValidPs1VariableChar)
    else return ([36], c :: rest)

/-- What a turn appends, and what it leaves. -/
def emitTurn (shell : Shell) (c : UInt8) (rest : List UInt8) :
    Except ContractViolation (List UInt8 × List UInt8) :=
  if c = 92 then return emitEscape rest
  else if c = 36 then emitParameter shell rest
  else return ([c], rest)

/-- The position at which the end of a text starts. -/
def pos (raw s : List UInt8) : ℤ := raw.length - s.length

theorem pos_cons (raw : List UInt8) (c : UInt8) (rest : List UInt8) :
    pos raw (c :: rest) + 1 = pos raw rest := by
  rw [pos, pos, List.length_cons]
  omega

theorem pos_toNat (h : s <:+ raw) : (pos raw s).toNat = raw.length - s.length ∧ 0 ≤ pos raw s := by
  have := h.length_le
  rw [pos]
  omega

theorem drop_pos (h : s <:+ raw) : raw.drop (pos raw s).toNat = s := by
  rw [(pos_toNat h).1]
  exact (List.suffix_iff_eq_drop.mp h).symm

theorem stringAt_pos (h : c :: rest <:+ raw) : stringAt raw (pos raw (c :: rest)) = c := by
  have hlen := h.length_le
  obtain ⟨hnat, hpos⟩ := pos_toNat h
  have hlt : pos raw (c :: rest) < raw.length := by
    rw [pos, List.length_cons]
    omega
  have hget := congrArg List.head? (drop_pos h)
  rw [List.head?_drop, List.head?_cons] at hget
  rw [stringAt, if_neg (by omega), List.getD_eq_getElem?_getD, hget]
  rfl

theorem stringAt_end (raw : List UInt8) : stringAt raw (pos raw []) = 0 := by
  rw [stringAt, pos, if_pos (.inr (by simp))]

theorem findIdx?_not (p : UInt8 → Bool) (s : List UInt8) :
    s.findIdx? (!p ·) = if s.all p then none else some (s.takeWhile p).length := by
  induction s with
  | nil => rfl
  | cons c s ih =>
    rw [List.findIdx?_cons, ih, List.takeWhile_cons, List.all_cons]
    cases hc : p c with
    | false => rfl
    | true =>
      cases hall : s.all p with
      | false => rfl
      | true => rfl

/-- The search for a character that fails the test finds the end of a run. -/
theorem findAt_pos (h : s <:+ raw) (p : UInt8 → Bool) :
    findAt (!p ·) raw (pos raw s) = if s.all p then -1 else pos raw (s.dropWhile p) := by
  rw [findAt, drop_pos h, findIdx?_not]
  cases hall : s.all p with
  | true => rfl
  | false =>
    have hsplit := congrArg List.length (List.takeWhile_append_dropWhile (p := p) (l := s))
    rw [List.length_append] at hsplit
    have := (pos_toNat h).2
    simp only [Bool.false_eq_true, if_false, pos] at *
    omega

theorem slice_pos (h : s <:+ raw) {k : ℕ} (hk : k ≤ s.length) :
    slice raw (pos raw s) (pos raw (s.drop k)) = s.take k := by
  have hlen := h.length_le
  have hdrop := drop_pos h
  obtain ⟨hnat, hpos⟩ := pos_toNat h
  have hto : (pos raw (s.drop k)).toNat = (raw.length - s.length) + k := by
    rw [pos, List.length_drop]
    omega
  have hne : pos raw (s.drop k) ≠ -1 := by
    rw [pos, List.length_drop]
    omega
  rw [slice, if_neg hne, hto, hnat, List.drop_take, Nat.add_sub_cancel_left, ← hnat, hdrop]

theorem drop_length_takeWhile (p : UInt8 → Bool) (s : List UInt8) :
    s.drop (s.takeWhile p).length = s.dropWhile p := by
  calc s.drop (s.takeWhile p).length
      = (s.takeWhile p ++ s.dropWhile p).drop (s.takeWhile p).length := by
        rw [List.takeWhile_append_dropWhile]
    _ = s.dropWhile p := List.drop_left

theorem take_length_takeWhile (p : UInt8 → Bool) (s : List UInt8) :
    s.take (s.takeWhile p).length = s.takeWhile p := by
  calc s.take (s.takeWhile p).length
      = (s.takeWhile p ++ s.dropWhile p).take (s.takeWhile p).length := by
        rw [List.takeWhile_append_dropWhile]
    _ = s.takeWhile p := List.take_left

theorem slice_run (h : s <:+ raw) (p : UInt8 → Bool) :
    slice raw (pos raw s) (pos raw (s.dropWhile p)) = s.takeWhile p := by
  have hrun := slice_pos h (List.takeWhile_prefix p (l := s)).length_le
  rwa [drop_length_takeWhile, take_length_takeWhile] at hrun

theorem renderHex_pos (h : s <:+ raw) (letter : UInt8) (width : ℕ) (out : List UInt8) :
    renderHex raw letter width (pos raw s) out =
      (pos raw (emitHex letter width s).2, out ++ (emitHex letter width s).1) := by
  have hsplit := congrArg List.length (List.takeWhile_append_dropWhile (p := isXdigit) (l := s))
  rw [List.length_append] at hsplit
  have hpos := (pos_toNat h).2
  have hpos' : pos raw (s.dropWhile isXdigit) = pos raw s + (s.takeWhile isXdigit).length := by
    rw [pos, pos]
    omega
  have hfew : ((if s.all isXdigit then -1 else pos raw (s.dropWhile isXdigit)) = -1 ∨
      (if s.all isXdigit then -1 else pos raw (s.dropWhile isXdigit)) - pos raw s < width) ↔
      s.all isXdigit = true ∨ (s.takeWhile isXdigit).length < width := by
    split_ifs with hall
    · exact iff_of_true (.inl rfl) (.inl hall)
    · rw [hpos']
      constructor
      · intro hless
        exact .inr (by omega)
      · intro hless
        exact .inr (by have := hless.resolve_left hall; omega)
  rw [renderHex, findAt_pos h]
  by_cases hemit : s.all isXdigit = true ∨ (s.takeWhile isXdigit).length < width
  · rw [emitHex, if_pos hemit]
    exact if_pos (hfew.mpr hemit)
  · have hwidth : width ≤ s.length := by
      rw [not_or] at hemit
      omega
    have hend : pos raw (s.drop width) = pos raw s + width := by
      rw [pos, pos, List.length_drop]
      omega
    rw [emitHex, if_neg hemit, ← hend]
    refine (if_neg (hfew.not.mpr hemit)).trans ?_
    rw [slice_pos h hwidth]
    rfl

theorem renderEscape_pos (h : s <:+ raw) (out : List UInt8) :
    renderEscape raw (pos raw s) out = (pos raw (emitEscape s).2, out ++ (emitEscape s).1) := by
  cases s with
  | nil =>
    rw [renderEscape, if_pos (by rw [pos]; simp)]
    rfl
  | cons c rest =>
    have hlen := h.length_le
    have hrest : rest <:+ raw := (List.suffix_cons c rest).trans h
    have hlt : ¬ pos raw (c :: rest) ≥ raw.length := by
      rw [pos, List.length_cons]
      omega
    rw [renderEscape, if_neg hlt]
    dsimp only
    rw [stringAt_pos h, pos_cons]
    by_cases hn : c = 110
    · subst hn
      rfl
    by_cases hr : c = 114
    · subst hr
      rfl
    by_cases ht : c = 116
    · subst ht
      rfl
    by_cases hb : c = 92
    · subst hb
      rfl
    by_cases hx : c = 120
    · subst hx
      exact renderHex_pos hrest 120 2 out
    by_cases hu : c = 117
    · subst hu
      exact renderHex_pos hrest 117 4 out
    by_cases hU : c = 85
    · subst hU
      exact renderHex_pos hrest 85 6 out
    have hplain : plainEscape c = none := by
      rw [plainEscape, if_neg hn, if_neg hr, if_neg ht, if_neg hb]
    have hwidth : hexWidth c = none := by
      rw [hexWidth, if_neg hx, if_neg hu, if_neg hU]
    rw [if_neg hn, if_neg hr, if_neg ht, if_neg hb, if_neg hx, if_neg hu, if_neg hU, emitEscape,
      hplain, hwidth, List.append_assoc]
    rfl

/-- The end of `${name}` and `$name`. -/
theorem variable_pos {name literal : List UInt8} (shell : Shell) (out : List UInt8) :
    (do
      return match ← execFrameGetVariable shell name with
        | some value => (pos raw s, out ++ value)
        | none => (pos raw s, out ++ literal)) =
      (fun r : List UInt8 × List UInt8 => (pos raw r.2, out ++ r.1)) <$>
        emitVariable shell name literal s := by
  rw [emitVariable]
  cases execFrameGetVariable shell name with
  | error e => rfl
  | ok value => cases value <;> rfl

theorem renderBraced_pos (h : rest <:+ raw) (shell : Shell) (out : List UInt8) :
    renderBraced shell raw (pos raw rest) out =
      (fun r : List UInt8 × List UInt8 => (pos raw r.2, out ++ r.1)) <$>
        if rest.contains 125 then
          emitVariable shell (rest.takeWhile (· ≠ 125))
            ([36, 123] ++ rest.takeWhile (· ≠ 125) ++ [125]) (rest.dropWhile (· ≠ 125)).tail
        else return ([36, 123], rest) := by
  have htest : (fun c : UInt8 => decide (c = 125)) = fun c => !decide (c ≠ 125) := by
    funext c
    simp
  have hfind := findAt_pos h (fun c => decide (c ≠ 125))
  rw [← htest] at hfind
  have hall : rest.all (fun c => decide (c ≠ 125)) = true ↔ 125 ∉ rest := by
    rw [List.all_eq_true]
    exact ⟨fun hne hmem => by simpa using hne 125 hmem,
      fun hnot c hc => decide_eq_true fun heq => hnot (heq ▸ hc)⟩
  by_cases hsome : 125 ∈ rest
  · have hne : rest.dropWhile (fun c => decide (c ≠ 125)) ≠ [] := fun hnil =>
      hall.mp (List.all_eq_true.mpr (List.dropWhile_eq_nil_iff.mp hnil)) hsome
    obtain ⟨b, after, hafter⟩ := List.exists_cons_of_ne_nil hne
    have hsuffix : rest.dropWhile (fun c => decide (c ≠ 125)) <:+ raw :=
      (List.dropWhile_suffix _).trans h
    have hlast : ¬ pos raw (rest.dropWhile (fun c => decide (c ≠ 125))) = -1 := by
      have := (pos_toNat hsuffix).2
      omega
    have hend : pos raw (rest.dropWhile (fun c => decide (c ≠ 125))) + 1 = pos raw after := by
      rw [hafter, pos_cons]
    rw [if_neg (fun hno => hall.mp hno hsome)] at hfind
    rw [renderBraced, hfind, if_neg hlast, slice_run h, hend,
      if_pos (List.contains_iff_mem.mpr hsome), hafter, List.tail_cons, ← variable_pos]
    simp only [List.append_assoc]
  · rw [if_pos (hall.mpr hsome)] at hfind
    rw [renderBraced, hfind, if_pos rfl, if_neg (List.contains_iff_mem.not.mpr hsome)]
    rfl

theorem renderName_pos (h : c :: rest <:+ raw) (shell : Shell) (out : List UInt8) :
    renderName shell raw (pos raw (c :: rest)) out =
      (fun r : List UInt8 × List UInt8 => (pos raw r.2, out ++ r.1)) <$>
        if (c :: rest).all isValidPs1VariableChar then .error .nameAtEnd
        else
          emitVariable shell ((c :: rest).takeWhile isValidPs1VariableChar)
            (36 :: (c :: rest).takeWhile isValidPs1VariableChar)
            ((c :: rest).dropWhile isValidPs1VariableChar) := by
  have hsuffix : (c :: rest).dropWhile isValidPs1VariableChar <:+ raw :=
    (List.dropWhile_suffix _).trans h
  have hlast : ¬ pos raw ((c :: rest).dropWhile isValidPs1VariableChar) = -1 := by
    have := (pos_toNat hsuffix).2
    omega
  rw [renderName, findAt_pos h]
  by_cases hall : (c :: rest).all isValidPs1VariableChar = true
  · rw [if_pos hall, if_pos hall]
    rfl
  · rw [if_neg hall, if_neg hall, if_neg hlast, slice_run h, ← variable_pos]
    simp only [List.append_assoc]
    rfl

theorem renderParameter_pos (h : s <:+ raw) (shell : Shell) (out : List UInt8) :
    renderParameter shell raw (pos raw s) out =
      (fun r : List UInt8 × List UInt8 => (pos raw r.2, out ++ r.1)) <$>
        emitParameter shell s := by
  cases s with
  | nil =>
    rw [renderParameter, stringAt_end]
    rfl
  | cons c rest =>
    have hrest : rest <:+ raw := (List.suffix_cons c rest).trans h
    rw [renderParameter, stringAt_pos h, pos_cons, emitParameter]
    by_cases hbrace : c = 123
    · rw [if_pos hbrace, if_pos hbrace]
      exact renderBraced_pos hrest shell out
    rw [if_neg hbrace, if_neg hbrace]
    by_cases hstatus : c = 63
    · rw [if_pos hstatus, if_pos hstatus]
      rfl
    rw [if_neg hstatus, if_neg hstatus]
    by_cases hpid : c = 36
    · rw [if_pos hpid, if_pos hpid]
      rfl
    rw [if_neg hpid, if_neg hpid]
    by_cases hname : c = 95 ∨ isalpha c = true
    · rw [if_pos hname, if_pos hname]
      exact renderName_pos h shell out
    · rw [if_neg hname, if_neg hname]
      rfl

theorem renderTurn_pos (h : c :: rest <:+ raw) (shell : Shell) (out : List UInt8) :
    renderTurn shell raw (pos raw (c :: rest)) out =
      (fun r : List UInt8 × List UInt8 => (pos raw r.2, out ++ r.1)) <$>
        emitTurn shell c rest := by
  have hrest : rest <:+ raw := (List.suffix_cons c rest).trans h
  rw [renderTurn, stringAt_pos h, pos_cons, emitTurn]
  by_cases hescape : c = 92
  · rw [if_pos hescape, if_pos hescape, renderEscape_pos hrest]
    rfl
  · rw [if_neg hescape, if_neg hescape]
    by_cases hdollar : c = 36
    · rw [if_neg (not_not.mpr hdollar), if_pos hdollar]
      exact renderParameter_pos hrest shell out
    · rw [if_pos hdollar, if_neg hdollar]
      rfl

/-- What the loop makes of the end of a prompt. -/
inductive Renders (shell : Shell) : List UInt8 → List UInt8 → Prop
  | done : Renders shell [] []
  | turn {c : UInt8} {rest out : List UInt8} {r : List UInt8 × List UInt8}
      (hturn : emitTurn shell c rest = .ok r) (hrest : Renders shell r.2 out) :
      Renders shell (c :: rest) (r.1 ++ out)

theorem emitHex_suffix (letter : UInt8) (width : ℕ) (s : List UInt8) :
    (emitHex letter width s).2 <:+ s := by
  rw [emitHex]
  split
  · exact List.suffix_rfl
  · exact List.drop_suffix _ _

theorem emitEscape_suffix (s : List UInt8) : (emitEscape s).2 <:+ s := by
  cases s with
  | nil => exact List.suffix_rfl
  | cons c rest =>
    rw [emitEscape]
    split
    · exact List.suffix_cons c rest
    · exact (emitHex_suffix _ _ _).trans (List.suffix_cons c rest)
    · exact List.suffix_cons c rest

theorem emitVariable_rest {name literal : List UInt8} {r : List UInt8 × List UInt8}
    (h : emitVariable shell name literal s = .ok r) : r.2 = s := by
  unfold emitVariable at h
  cases hget : execFrameGetVariable shell name with
  | error e =>
    rw [hget] at h
    cases h
  | ok value =>
    rw [hget] at h
    cases h
    rfl

theorem emitParameter_suffix {r : List UInt8 × List UInt8}
    (h : emitParameter shell s = .ok r) : r.2 <:+ s := by
  cases s with
  | nil =>
    cases h
    exact List.suffix_rfl
  | cons c rest =>
    rw [emitParameter] at h
    split_ifs at h
    · rw [emitVariable_rest h]
      exact ((List.tail_suffix _).trans (List.dropWhile_suffix _)).trans (List.suffix_cons c rest)
    · cases h
      exact List.suffix_cons c rest
    · cases h
      exact List.suffix_cons c rest
    · cases h
      exact List.suffix_cons c rest
    · cases h
      exact List.suffix_cons c rest
    · rw [emitVariable_rest h]
      exact List.dropWhile_suffix _
    · cases h
      exact List.suffix_rfl

/-- A turn leaves an end of what it found. -/
theorem emitTurn_suffix {r : List UInt8 × List UInt8} (h : emitTurn shell c rest = .ok r) :
    r.2 <:+ rest := by
  rw [emitTurn] at h
  split_ifs at h
  · cases h
    exact emitEscape_suffix rest
  · exact emitParameter_suffix h
  · cases h
    exact List.suffix_rfl

/-- The loop comes to its end, with a turn for every character at most. -/
theorem Renders.renderLoop_eq {out : List UInt8} (h : Renders shell s out) (hs : s <:+ raw) {n : ℕ}
    (hn : s.length ≤ n) (acc : List UInt8) :
    renderLoop shell raw n (pos raw s) acc = .ok (some (acc ++ out)) := by
  induction h generalizing n acc with
  | done =>
    have hend : ¬ pos raw [] < raw.length := by
      rw [pos]
      simp
    cases n with
    | zero => rw [renderLoop, if_neg hend, List.append_nil]; rfl
    | succ n => rw [renderLoop, if_neg hend, List.append_nil]; rfl
  | @turn c rest out r hturn _ ih =>
    have hlt : pos raw (c :: rest) < raw.length := by
      rw [pos, List.length_cons]
      omega
    have hsuffix := emitTurn_suffix hturn
    have hlen := hsuffix.length_le
    cases n with
    | zero => cases hn
    | succ n =>
      rw [renderLoop, if_pos hlt, renderTurn_pos hs, hturn]
      rw [List.length_cons] at hn
      have hloop := ih (hsuffix.trans ((List.suffix_cons c rest).trans hs)) (n := n) (by omega)
        (acc ++ r.1)
      rw [List.append_assoc] at hloop
      exact hloop

/-- An answer of the loop is what is rendered. -/
theorem renders_of_renderLoop {n : ℕ} {acc res : List UInt8} (hs : s <:+ raw)
    (h : renderLoop shell raw n (pos raw s) acc = .ok (some res)) :
    ∃ out, res = acc ++ out ∧ Renders shell s out := by
  have hdone : ∀ {acc res : List UInt8}, (some acc : Option (List UInt8)) = some res →
      ∃ out, res = acc ++ out ∧ Renders shell [] out := fun heq =>
    ⟨[], by rw [List.append_nil, Option.some.inj heq], .done⟩
  have hend : ¬ pos raw [] < raw.length := by
    rw [pos]
    simp
  have hlt : ∀ {c : UInt8} {rest : List UInt8}, pos raw (c :: rest) < raw.length := by
    intro c rest
    rw [pos, List.length_cons]
    omega
  induction n generalizing s acc with
  | zero =>
    cases s with
    | nil =>
      rw [renderLoop, if_neg hend] at h
      exact hdone (Except.ok.inj h)
    | cons c rest =>
      rw [renderLoop, if_pos hlt] at h
      cases h
  | succ n ih =>
    cases s with
    | nil =>
      rw [renderLoop, if_neg hend] at h
      exact hdone (Except.ok.inj h)
    | cons c rest =>
      rw [renderLoop, if_pos hlt, renderTurn_pos hs] at h
      cases hturn : emitTurn shell c rest with
      | error e =>
        rw [hturn] at h
        cases h
      | ok r =>
        rw [hturn] at h
        have hsuffix := (emitTurn_suffix hturn).trans ((List.suffix_cons c rest).trans hs)
        obtain ⟨out, rfl, hout⟩ := ih hsuffix h
        exact ⟨r.1 ++ out, List.append_assoc _ _ _, .turn hturn hout⟩

theorem renderPs1_eq (hframe : shell.topFrameInitialized = true)
    (hprompt : shell.lookup ps1 = some raw) (n : ℕ) :
    renderPs1 n shell = renderLoop shell raw n (pos raw raw) [] := by
  have hget : execFrameGetVariable shell ps1 = .ok (some raw) := by
    rw [execFrameGetVariable, if_pos (by decide), hprompt]
  have hstart : pos raw raw = 0 := Int.sub_self _
  rw [renderPs1, if_pos hframe, hget, hstart]
  rfl

/-- The prompt is rendered right if the turns of the loop make just that of it. -/
theorem rendersRight_of_renders
    (h : ∀ shell : Shell, shell.lookup ps1 = some raw → Renders shell raw (rendering shell raw)) :
    RendersRight raw := by
  intro shell hframe hprompt n hn
  rw [renderPs1_eq hframe hprompt]
  exact (h shell hprompt).renderLoop_eq List.suffix_rfl hn []

theorem RendersRight.renders (h : RendersRight raw) (hframe : shell.topFrameInitialized = true)
    (hprompt : shell.lookup ps1 = some raw) : Renders shell raw (rendering shell raw) := by
  have hrun := h shell hframe hprompt raw.length (Nat.le_refl _)
  rw [renderPs1_eq hframe hprompt] at hrun
  obtain ⟨out, heq, hout⟩ := renders_of_renderLoop List.suffix_rfl hrun
  rw [List.nil_append] at heq
  exact heq ▸ hout

end Suffixes

/-! ## The pieces of the prompt -/

section Scan

variable {shell : Shell} {s rest : List UInt8} {c : UInt8}

theorem readEscape_suffix (s : List UInt8) : (readEscape s).2 <:+ s := by
  cases s with
  | nil => exact List.suffix_rfl
  | cons c rest =>
    rw [readEscape]
    split
    · exact List.suffix_cons c rest
    · split
      · exact (List.drop_suffix _ _).trans (List.suffix_cons c rest)
      · exact List.suffix_cons c rest
    · exact List.suffix_cons c rest

theorem readParameter_suffix (s : List UInt8) : (readParameter s).2 <:+ s := by
  cases s with
  | nil => exact List.suffix_rfl
  | cons c rest =>
    have hcons := List.suffix_cons c rest
    rw [readParameter]
    split_ifs
    · exact ((List.tail_suffix _).trans (List.dropWhile_suffix _)).trans hcons
    · exact hcons
    · exact hcons
    · exact hcons
    · exact List.dropWhile_suffix _
    · exact List.suffix_rfl

theorem readToken_suffix (c : UInt8) (rest : List UInt8) : (readToken c rest).2 <:+ rest := by
  rw [readToken]
  split_ifs
  · exact readEscape_suffix rest
  · exact readParameter_suffix rest
  · exact List.suffix_rfl

theorem scanFrom_eq {n : ℕ} (h : s.length ≤ n) : scanFrom n s = scan s := by
  rw [scan]
  induction hlen : s.length using Nat.strong_induction_on generalizing s n with
  | _ k ih =>
    subst hlen
    cases s with
    | nil => cases n <;> rfl
    | cons c rest =>
      cases n with
      | zero => cases h
      | succ n =>
        have hle := (readToken_suffix c rest).length_le
        rw [List.length_cons] at h
        rw [List.length_cons, scanFrom, scanFrom,
          ih _ (by rw [List.length_cons]; omega) (by omega) rfl,
          ih _ (by rw [List.length_cons]; omega) hle rfl]

theorem scan_cons (c : UInt8) (rest : List UInt8) :
    scan (c :: rest) = readToken c rest :: scan (readToken c rest).2 := by
  rw [scan, List.length_cons, scanFrom, scanFrom_eq (readToken_suffix c rest).length_le]

theorem rendering_cons (shell : Shell) (c : UInt8) (rest : List UInt8) :
    rendering shell (c :: rest) =
      (readToken c rest).1.render shell ++ rendering shell (readToken c rest).2 := by
  rw [rendering, scan_cons, List.flatMap_cons]
  rfl

theorem hexWidth_mem {width : ℕ} (h : hexWidth c = some width) :
    width = 2 ∨ width = 4 ∨ width = 6 := by
  unfold hexWidth at h
  split_ifs at h
  · exact .inl (Option.some.inj h).symm
  · exact .inr (.inl (Option.some.inj h).symm)
  · exact .inr (.inr (Option.some.inj h).symm)

theorem xdigitValue_lt (h : isXdigit c = true) : xdigitValue c < 16 := by
  simp only [isXdigit, Bool.or_eq_true, Bool.and_eq_true, decide_eq_true_eq,
    UInt8.le_iff_toNat_le, UInt8.reduceToNat] at h
  simp only [xdigitValue, UInt8.le_iff_toNat_le, UInt8.reduceToNat]
  split_ifs <;> omega

theorem strtoul16_lt_pow {digits : List UInt8} (h : ∀ c ∈ digits, isXdigit c = true) :
    strtoul16 digits < 16 ^ digits.length := by
  have hfold : ∀ n : ℕ, digits.foldl (fun n c => 16 * n + xdigitValue c) n + 1 ≤
      (n + 1) * 16 ^ digits.length := by
    induction digits with
    | nil => intro n; simp
    | cons c digits ih =>
      intro n
      have hdigit := xdigitValue_lt (h c List.mem_cons_self)
      have hstep : 16 * n + xdigitValue c + 1 ≤ (n + 1) * 16 := by omega
      calc (c :: digits).foldl (fun n c => 16 * n + xdigitValue c) n + 1
          ≤ (16 * n + xdigitValue c + 1) * 16 ^ digits.length :=
            ih (fun c hc => h c (List.mem_cons_of_mem _ hc)) _
        _ ≤ (n + 1) * 16 * 16 ^ digits.length := Nat.mul_le_mul_right _ hstep
        _ = (n + 1) * 16 ^ (c :: digits).length := by
          rw [List.length_cons, Nat.pow_succ, Nat.mul_assoc, Nat.mul_comm 16]
  have hzero := hfold 0
  rw [Nat.zero_add, Nat.one_mul] at hzero
  exact hzero

theorem take_of_le_run {p : UInt8 → Bool} {width : ℕ} (h : width ≤ (s.takeWhile p).length) :
    s.take width = (s.takeWhile p).take width := by
  rw [← take_length_takeWhile p s, List.take_take, Nat.min_eq_left h]

/-- The number of an escape is below the power of its number of digits. -/
theorem strtoul16_take_lt {width : ℕ} (h : width ≤ (s.takeWhile isXdigit).length) :
    strtoul16 (s.take width) < 16 ^ width := by
  have hlen : width ≤ s.length := h.trans (List.takeWhile_prefix _).length_le
  have hall : ∀ c ∈ s.take width, isXdigit c = true := fun c hc => by
    rw [take_of_le_run h] at hc
    exact List.mem_takeWhile_imp (List.mem_of_mem_take hc)
  have hlt := strtoul16_lt_pow hall
  rwa [List.length_take, Nat.min_eq_left hlen] at hlt

theorem emitEscape_of_safe (shell : Shell) (h : (readEscape s).1.Safe (readEscape s).2) :
    emitEscape s = ((readEscape s).1.render shell, (readEscape s).2) := by
  cases s with
  | nil => rfl
  | cons c rest =>
    rw [readEscape] at h ⊢
    rw [emitEscape]
    cases hplain : plainEscape c with
    | some byte => rfl
    | none =>
      cases hhex : hexWidth c with
      | none => rfl
      | some width =>
        rw [hplain, hhex] at h
        dsimp only at h ⊢
        rw [emitHex]
        by_cases hmany : width ≤ (rest.takeWhile isXdigit).length
        · rw [if_pos hmany] at h ⊢
          have hpow : 16 ^ width ≤ 2 ^ 32 := by
            rcases hexWidth_mem hhex with rfl | rfl | rfl <;> decide
          have hsafe : strtoul16 (rest.take width) ≠ 0 ∧
              (rest.drop width).all isXdigit = false := h
          have hall : ¬ rest.all isXdigit = true := fun hall => by
            have hdrop : (rest.drop width).all isXdigit = true :=
              List.all_eq_true.mpr fun c hc =>
                List.all_eq_true.mp hall c (List.mem_of_mem_drop hc)
            rw [hsafe.2] at hdrop
            cases hdrop
          rw [if_neg (by rw [not_or]; exact ⟨hall, by omega⟩),
            stringAppendUtf8_nil hsafe.1 ((strtoul16_take_lt hmany).trans_le hpow)]
          rfl
        · rw [if_neg hmany, if_pos (.inr (by omega))]
          rfl

theorem emitVariable_eq {name : List UInt8} (hname : name ≠ []) (shell : Shell)
    (literal rest : List UInt8) :
    emitVariable shell name literal rest = .ok ((shell.lookup name).getD literal, rest) := by
  rw [emitVariable, execFrameGetVariable, if_pos (List.length_pos_of_ne_nil hname)]
  rfl

theorem isNameChar_of_valid (h : isValidPs1VariableChar c = true) : isNameChar c = true := by
  rw [isValidPs1VariableChar, Bool.or_eq_true, Bool.or_eq_true] at h
  rw [isNameChar, isalpha, Bool.or_eq_true, Bool.or_eq_true, Bool.or_eq_true]
  exact h.imp_left (Or.imp_left .inl)

theorem isNameChar_of_start (h : c = 95 ∨ isalpha c = true) : isNameChar c = true := by
  rw [isNameChar, Bool.or_eq_true, Bool.or_eq_true]
  exact h.symm.imp .inl decide_eq_true

/-- A name of characters that the function knows is cut off as a whole. -/
theorem takeWhile_valid {l : List UInt8} (h : (l.takeWhile isNameChar).all isValidPs1VariableChar) :
    l.takeWhile isValidPs1VariableChar = l.takeWhile isNameChar ∧
      l.dropWhile isValidPs1VariableChar = l.dropWhile isNameChar := by
  induction l with
  | nil => exact ⟨rfl, rfl⟩
  | cons c l ih =>
    rw [List.takeWhile_cons] at h
    cases hc : isNameChar c with
    | false =>
      have hnot : isValidPs1VariableChar c = false := Bool.eq_false_iff.mpr fun hvalid => by
        rw [isNameChar_of_valid hvalid] at hc
        cases hc
      simp only [List.takeWhile_cons, List.dropWhile_cons, hc, hnot]
      exact ⟨rfl, rfl⟩
    | true =>
      rw [hc, if_pos rfl, List.all_cons, Bool.and_eq_true] at h
      simp only [List.takeWhile_cons, List.dropWhile_cons, hc, h.1]
      exact ⟨congrArg _ (ih h.2).1, (ih h.2).2⟩

theorem emitParameter_of_safe (shell : Shell) (h : (readParameter s).1.Safe (readParameter s).2) :
    emitParameter shell s = .ok ((readParameter s).1.render shell, (readParameter s).2) := by
  cases s with
  | nil => rfl
  | cons c rest =>
    rw [readParameter] at h ⊢
    rw [emitParameter]
    by_cases hbrace : c = 123
    · rw [if_pos hbrace] at h ⊢
      rw [if_pos hbrace]
      by_cases hclosed : rest.contains 125 = true
      · rw [if_pos hclosed] at h ⊢
        have hname : rest.takeWhile (· ≠ 125) ≠ [] := h
        rw [if_pos hclosed, emitVariable_eq hname, Token.render, if_neg hname]
      · rw [if_neg hclosed, if_neg hclosed]
        rfl
    rw [if_neg hbrace] at h ⊢
    rw [if_neg hbrace]
    by_cases hstatus : c = 63
    · rw [if_pos hstatus, if_pos hstatus]
      rfl
    rw [if_neg hstatus] at h ⊢
    rw [if_neg hstatus]
    by_cases hpid : c = 36
    · rw [if_pos hpid, if_pos hpid]
      rfl
    rw [if_neg hpid] at h ⊢
    rw [if_neg hpid]
    by_cases hstart : c = 95 ∨ isalpha c = true
    · rw [if_pos hstart] at h ⊢
      obtain ⟨hvalid, hrest⟩ :
          ((c :: rest).takeWhile isNameChar).all isValidPs1VariableChar = true ∧
          (c :: rest).dropWhile isNameChar ≠ [] := h
      obtain ⟨htake, hdrop⟩ := takeWhile_valid hvalid
      have hname : (c :: rest).takeWhile isNameChar ≠ [] := by
        rw [List.takeWhile_cons, isNameChar_of_start hstart]
        exact List.cons_ne_nil _ _
      have hall : ¬ (c :: rest).all isValidPs1VariableChar = true := fun hall =>
        hrest (hdrop ▸ List.dropWhile_eq_nil_iff.mpr (List.all_eq_true.mp hall))
      rw [if_pos hstart, if_neg hall, htake, hdrop, emitVariable_eq hname]
      rfl
    · rw [if_neg hstart, if_neg hstart]
      rfl

theorem emitTurn_of_safe (shell : Shell) (h : (readToken c rest).1.Safe (readToken c rest).2) :
    emitTurn shell c rest =
      .ok ((readToken c rest).1.render shell, (readToken c rest).2) := by
  rw [readToken] at h ⊢
  rw [emitTurn]
  by_cases hescape : c = 92
  · rw [if_pos hescape] at h ⊢
    rw [if_pos hescape, emitEscape_of_safe shell h]
    rfl
  rw [if_neg hescape] at h ⊢
  rw [if_neg hescape]
  by_cases hdollar : c = 36
  · rw [if_pos hdollar] at h ⊢
    rw [if_pos hdollar]
    exact emitParameter_of_safe shell h
  · rw [if_neg hdollar, if_neg hdollar]
    rfl

/-- A prompt of safe pieces is rendered as promised. -/
theorem SafePrompt.renders (h : SafePrompt s) (shell : Shell) :
    Renders shell s (rendering shell s) := by
  induction hlen : s.length using Nat.strong_induction_on generalizing s with
  | _ k ih =>
    subst hlen
    cases s with
    | nil => exact .done
    | cons c rest =>
      have hpieces := h
      rw [SafePrompt, scan_cons, List.forall_mem_cons] at hpieces
      have hle := (readToken_suffix c rest).length_le
      have hrest := ih _ (by rw [List.length_cons]; omega) hpieces.2 rfl
      rw [rendering_cons]
      exact .turn (emitTurn_of_safe shell hpieces.1) hrest

end Scan

/-! ## What goes wrong -/

section Unsafe

variable {shell : Shell} {s rest out : List UInt8} {c : UInt8}

/-- A character that stands for itself wherever it is. -/
def IsPlain (c : UInt8) : Prop := c ≠ 92 ∧ c ≠ 36

theorem isPlain_of_name (h : isNameChar c = true) : IsPlain c := by
  constructor
  · rintro rfl
    cases h
  · rintro rfl
    cases h

theorem isPlain_of_xdigit (h : isXdigit c = true) : IsPlain c := by
  constructor
  · rintro rfl
    cases h
  · rintro rfl
    cases h

/-- Plain characters are copied. -/
theorem Renders.of_plain {l : List UInt8} (hl : ∀ c ∈ l, IsPlain c)
    (h : Renders shell (l ++ s) out) : ∃ out', out = l ++ out' ∧ Renders shell s out' := by
  induction l generalizing out with
  | nil => exact ⟨out, rfl, h⟩
  | cons c l ih =>
    obtain ⟨hescape, hdollar⟩ := hl c List.mem_cons_self
    cases h with
    | turn hturn hrest =>
      rw [emitTurn, if_neg hescape, if_neg hdollar] at hturn
      cases hturn
      obtain ⟨out', rfl, hout⟩ := ih (fun c hc => hl c (List.mem_cons_of_mem _ hc)) hrest
      exact ⟨out', rfl, hout⟩

theorem rendering_plain {l : List UInt8} (hl : ∀ c ∈ l, IsPlain c) (shell : Shell) :
    rendering shell l = l := by
  induction l with
  | nil => rfl
  | cons c l ih =>
    obtain ⟨hescape, hdollar⟩ := hl c List.mem_cons_self
    rw [rendering_cons, readToken, if_neg hescape, if_neg hdollar,
      ih fun c hc => hl c (List.mem_cons_of_mem _ hc)]
    rfl

/-! ### A shell whose values are long -/

/-- A shell with two variables: the prompt, and one whose value is longer than the prompt. -/
def shellFor (prompt : List UInt8) (hprompt : 0 ∉ prompt) (name : List UInt8) : Shell where
  topFrameInitialized := true
  localVariables := none
  variables_ := some {
    get := fun n =>
      if n = ps1 then some prompt
      else if n = name then some (List.replicate (prompt.length + 1) 97) else none
    nulFree := fun n value h => by
      split_ifs at h
      · exact Option.some.inj h ▸ hprompt
      · rw [← Option.some.inj h]
        exact fun hmem => absurd (List.eq_of_mem_replicate hmem) (by decide) }
  lastExitStatus := 0
  shellPid := 1
  shellPidValid := true

theorem lookup_shellFor (prompt : List UInt8) (hprompt : 0 ∉ prompt) (name n : List UInt8) :
    (shellFor prompt hprompt name).lookup n =
      if n = ps1 then some prompt
      else if n = name then some (List.replicate (prompt.length + 1) 97) else none := rfl

/-- The piece is one that the function does not deal with, and if it is a name, the part of it that
the function looks up is this one. -/
def Exposed (name : List UInt8) (piece : Token × List UInt8) : Prop :=
  ¬ piece.1.Safe piece.2 ∧
    ∀ n, piece.1 = .variable_ n false → n.takeWhile isValidPs1VariableChar = name

/-- The function makes more of the text than the comment promises, or fails. -/
structure Longer (shell : Shell) (name s out : List UInt8) : Prop where
  le : (rendering shell s).length ≤ out.length
  lt : (∃ piece ∈ scan s, Exposed name piece) → (rendering shell s).length < out.length

/-- Behind the piece, the loop still makes something of the rest; what it makes of the piece is not
shorter than what the comment promises. -/
def Covers (shell : Shell) (name : List UInt8) (piece : Token × List UInt8) (out : List UInt8) :
    Prop :=
  ∃ out', Renders shell piece.2 out' ∧
    (piece.1.render shell).length + out'.length ≤ out.length ∧
    (Exposed name piece → (piece.1.render shell).length + out'.length < out.length)

theorem covers_of_safe {name out' : List UInt8} {piece : Token × List UInt8}
    (hsafe : piece.1.Safe piece.2) (h : Renders shell piece.2 out') :
    Covers shell name piece (piece.1.render shell ++ out') :=
  ⟨out', h, (List.length_append).ge, fun hexposed => absurd hsafe hexposed.1⟩

theorem length_encode_le (n : ℕ) : (encode n).length ≤ 4 ∧ (n < 256 → (encode n).length ≤ 2) := by
  rw [encode]
  split
  · next hvalid =>
    rw [String.utf8EncodeChar]
    simp only [val_ofNat hvalid]
    split_ifs
    · exact ⟨by simp, fun _ => by simp⟩
    · exact ⟨by simp, fun _ => by simp⟩
    · exact ⟨by simp, fun hlt => by omega⟩
    · exact ⟨by simp, fun hlt => by omega⟩
  · exact ⟨Nat.zero_le _, fun _ => Nat.zero_le _⟩

/-- An escape at the end of the prompt is copied, which is longer than the character. -/
theorem emitEscape_covers {name : List UInt8} (hzero : (readEscape s).1 ≠ .codePoint 0)
    (h : Renders shell (emitEscape s).2 out) :
    Covers shell name (readEscape s) ((emitEscape s).1 ++ out) := by
  by_cases hsafe : (readEscape s).1.Safe (readEscape s).2
  · rw [emitEscape_of_safe shell hsafe] at h ⊢
    exact covers_of_safe hsafe h
  cases s with
  | nil => exact absurd trivial hsafe
  | cons c rest =>
    rw [readEscape] at hzero hsafe ⊢
    rw [emitEscape] at h ⊢
    cases hplain : plainEscape c with
    | some byte =>
      rw [hplain] at hsafe
      exact absurd trivial hsafe
    | none =>
      cases hhex : hexWidth c with
      | none =>
        rw [hplain, hhex] at hsafe
        exact absurd trivial hsafe
      | some width =>
        rw [hplain, hhex] at hzero hsafe h
        dsimp only at hzero hsafe h ⊢
        by_cases hmany : width ≤ (rest.takeWhile isXdigit).length
        · rw [if_pos hmany] at hzero hsafe ⊢
          have htake : ∀ c ∈ rest.take width, isXdigit c = true := fun c hc => by
            rw [take_of_le_run hmany] at hc
            exact List.mem_takeWhile_imp (List.mem_of_mem_take hc)
          have hdrop : (rest.drop width).all isXdigit = true := by
            by_contra hnot
            exact hsafe ⟨fun heq => hzero (congrArg _ heq), Bool.eq_false_iff.mpr hnot⟩
          have hall : rest.all isXdigit = true := by
            rw [← List.take_append_drop width rest, List.all_append, hdrop,
              List.all_eq_true.mpr htake]
            rfl
          rw [emitHex, if_pos (.inl hall)] at h ⊢
          rw [← List.take_append_drop width rest] at h
          obtain ⟨out', rfl, hout⟩ :=
            Renders.of_plain (fun c hc => isPlain_of_xdigit (htake c hc)) h
          have hshort : (encode (strtoul16 (rest.take width))).length < 2 + width := by
            obtain ⟨hfour, htwo⟩ := length_encode_le (strtoul16 (rest.take width))
            rcases hexWidth_mem hhex with rfl | rfl | rfl
            · have := htwo (strtoul16_take_lt hmany)
              omega
            · omega
            · omega
          have hlen : (rest.take width).length = width := by
            rw [List.length_take]
            exact Nat.min_eq_left (hmany.trans (List.takeWhile_prefix _).length_le)
          have hlt : (encode (strtoul16 (rest.take width))).length + out'.length <
              ([92, c] ++ (rest.take width ++ out')).length := by
            rw [List.length_append, List.length_append, hlen]
            exact Nat.lt_of_lt_of_eq (Nat.add_lt_add_right hshort _) (Nat.add_assoc _ _ _)
          exact ⟨out', hout, Nat.le_of_lt hlt, fun _ => hlt⟩
        · rw [if_neg hmany] at hsafe
          exact absurd trivial hsafe

/-- The characters of a name are those that the function knows up to the first other one. -/
theorem takeWhile_isNameChar (l : List UInt8) :
    l.takeWhile isNameChar = l.takeWhile isValidPs1VariableChar ++
        (l.dropWhile isValidPs1VariableChar).takeWhile isNameChar ∧
      (l.takeWhile isNameChar).takeWhile isValidPs1VariableChar =
        l.takeWhile isValidPs1VariableChar ∧
      l.dropWhile isNameChar = (l.dropWhile isValidPs1VariableChar).dropWhile isNameChar := by
  induction l with
  | nil => exact ⟨rfl, rfl, rfl⟩
  | cons c l ih =>
    cases hvalid : isValidPs1VariableChar c with
    | true =>
      have hc := isNameChar_of_valid hvalid
      simp only [List.takeWhile_cons, List.dropWhile_cons, hc, hvalid, if_true, List.cons_append]
      exact ⟨congrArg _ ih.1, congrArg _ ih.2.1, ih.2.2⟩
    | false =>
      cases hc : isNameChar c with
      | true => simp [hc, hvalid]
      | false => simp [hc, hvalid]

theorem emitVariable_ok {name literal : List UInt8} {r : List UInt8 × List UInt8}
    (h : emitVariable shell name literal s = .ok r) :
    name ≠ [] ∧ r = ((shell.lookup name).getD literal, s) := by
  have hname : name ≠ [] := by
    rintro rfl
    cases h
  rw [emitVariable_eq hname] at h
  exact ⟨hname, (Except.ok.inj h).symm⟩

/-- The value that is looked up for the first part of a name is longer than that part. -/
theorem length_lookup_shellFor {prompt name n : List UInt8} (hprompt : 0 ∉ prompt)
    (hlen : n.length + 1 < prompt.length) :
    n.length + 1 ≤ (((shellFor prompt hprompt name).lookup n).getD (36 :: n)).length ∧
      (n = name →
        n.length + 1 < (((shellFor prompt hprompt name).lookup n).getD (36 :: n)).length) := by
  rw [lookup_shellFor]
  split_ifs with hps1 hname
  · exact ⟨Nat.le_of_lt hlen, fun _ => hlen⟩
  · rw [Option.getD_some, List.length_replicate]
    exact ⟨by omega, fun _ => by omega⟩
  · exact ⟨Nat.le_refl _, fun heq => absurd heq hname⟩

theorem emitName_covers {prompt name l : List UInt8} {hprompt : 0 ∉ prompt}
    (hname : name.all isValidPs1VariableChar = true) (hlen : l.length < prompt.length)
    (hall : ¬ l.all isValidPs1VariableChar = true)
    (hrejected : ¬ ((l.takeWhile isNameChar).all isValidPs1VariableChar = true ∧
      l.dropWhile isNameChar ≠ [])) {r : List UInt8 × List UInt8}
    (hturn : emitVariable (shellFor prompt hprompt name) (l.takeWhile isValidPs1VariableChar)
      (36 :: l.takeWhile isValidPs1VariableChar) (l.dropWhile isValidPs1VariableChar) = .ok r)
    (h : Renders (shellFor prompt hprompt name) r.2 out) :
    Covers (shellFor prompt hprompt name) name
      (.variable_ (l.takeWhile isNameChar) false, l.dropWhile isNameChar) (r.1 ++ out) := by
  obtain ⟨hsplit, hagain, hdrop⟩ := takeWhile_isNameChar l
  have hother : (l.takeWhile isNameChar).all isValidPs1VariableChar = false := by
    refine Bool.eq_false_iff.mpr fun hvalid => hall ?_
    have hnil : l.dropWhile isNameChar = [] := by
      by_contra hne
      exact hrejected ⟨hvalid, hne⟩
    rw [← (takeWhile_valid hvalid).2] at hnil
    exact List.all_eq_true.mpr (List.dropWhile_eq_nil_iff.mp hnil)
  have hunset : (shellFor prompt hprompt name).lookup (l.takeWhile isNameChar) = none := by
    have hps1 : l.takeWhile isNameChar ≠ ps1 := fun heq => by
      rw [heq] at hother
      cases hother
    have hne : l.takeWhile isNameChar ≠ name := fun heq => by
      rw [heq, hname] at hother
      cases hother
    rw [lookup_shellFor, if_neg hps1, if_neg hne]
  obtain ⟨-, rfl⟩ := emitVariable_ok hturn
  have htail : (l.dropWhile isValidPs1VariableChar).takeWhile isNameChar ≠ [] := fun hnil => by
    rw [hnil, List.append_nil] at hsplit
    rw [hsplit, List.all_eq_true.mpr fun _ => List.mem_takeWhile_imp] at hother
    cases hother
  rw [← List.takeWhile_append_dropWhile (p := isNameChar)
    (l := l.dropWhile isValidPs1VariableChar)] at h
  obtain ⟨out', rfl, hout⟩ :=
    h.of_plain fun c hc => isPlain_of_name (List.mem_takeWhile_imp hc)
  rw [← hdrop] at hout
  have hshort : (l.takeWhile isNameChar).length ≤ l.length := (List.takeWhile_prefix _).length_le
  have hpos := List.length_pos_of_ne_nil htail
  rw [hsplit, List.length_append] at hshort
  obtain ⟨hle, hlt⟩ := @length_lookup_shellFor prompt name (l.takeWhile isValidPs1VariableChar)
    hprompt (by omega)
  have hrender : ((Token.variable_ (l.takeWhile isNameChar) false).render
      (shellFor prompt hprompt name)).length =
      (l.takeWhile isValidPs1VariableChar).length +
        ((l.dropWhile isValidPs1VariableChar).takeWhile isNameChar).length + 1 := by
    rw [Token.render, hunset, Option.getD_none, List.length_cons, hsplit, List.length_append]
  refine ⟨out', hout, ?_, fun hexposed => ?_⟩
  · dsimp only
    rw [hrender, List.length_append, List.length_append]
    omega
  · have hsame := hexposed.2 _ rfl
    rw [hagain] at hsame
    have hlonger := hlt hsame
    dsimp only
    rw [hrender, List.length_append, List.length_append]
    omega

/-- The name that the function looks up is a part of the one that stands there. -/
theorem emitParameter_covers {prompt name : List UInt8} {hprompt : 0 ∉ prompt}
    (hname : name.all isValidPs1VariableChar = true) (hlen : s.length < prompt.length)
    {r : List UInt8 × List UInt8} (hturn : emitParameter (shellFor prompt hprompt name) s = .ok r)
    (h : Renders (shellFor prompt hprompt name) r.2 out) :
    Covers (shellFor prompt hprompt name) name (readParameter s) (r.1 ++ out) := by
  by_cases hsafe : (readParameter s).1.Safe (readParameter s).2
  · rw [emitParameter_of_safe _ hsafe] at hturn
    cases hturn
    exact covers_of_safe hsafe h
  cases s with
  | nil => exact absurd trivial hsafe
  | cons c rest =>
    rw [readParameter] at hsafe ⊢
    rw [emitParameter] at hturn
    by_cases hbrace : c = 123
    · rw [if_pos hbrace] at hsafe hturn
      by_cases hclosed : rest.contains 125 = true
      · rw [if_pos hclosed] at hsafe hturn
        have hnone : rest.takeWhile (· ≠ 125) = [] := not_not.mp hsafe
        rw [hnone] at hturn
        cases hturn
      · rw [if_neg hclosed] at hsafe
        exact absurd trivial hsafe
    rw [if_neg hbrace] at hsafe hturn
    by_cases hstatus : c = 63
    · rw [if_pos hstatus] at hsafe
      exact absurd trivial hsafe
    rw [if_neg hstatus] at hsafe hturn
    by_cases hpid : c = 36
    · rw [if_pos hpid] at hsafe
      exact absurd trivial hsafe
    rw [if_neg hpid] at hsafe hturn
    by_cases hstart : c = 95 ∨ isalpha c = true
    · rw [if_pos hstart] at hsafe hturn
      rw [if_neg hbrace, if_neg hstatus, if_neg hpid, if_pos hstart]
      by_cases hall : (c :: rest).all isValidPs1VariableChar = true
      · rw [if_pos hall] at hturn
        cases hturn
      · rw [if_neg hall] at hturn
        exact emitName_covers hname hlen hall hsafe hturn h
    · rw [if_neg hstart] at hsafe
      exact absurd trivial hsafe

theorem emitTurn_covers {prompt name : List UInt8} {hprompt : 0 ∉ prompt}
    (hname : name.all isValidPs1VariableChar = true) (hlen : (c :: rest).length ≤ prompt.length)
    (hzero : (readToken c rest).1 ≠ .codePoint 0) {r : List UInt8 × List UInt8}
    (hturn : emitTurn (shellFor prompt hprompt name) c rest = .ok r)
    (h : Renders (shellFor prompt hprompt name) r.2 out) :
    Covers (shellFor prompt hprompt name) name (readToken c rest) (r.1 ++ out) := by
  rw [readToken] at hzero ⊢
  rw [emitTurn] at hturn
  by_cases hescape : c = 92
  · rw [if_pos hescape] at hzero hturn ⊢
    cases hturn
    exact emitEscape_covers hzero h
  rw [if_neg hescape] at hturn ⊢
  by_cases hdollar : c = 36
  · rw [if_pos hdollar] at hturn ⊢
    exact emitParameter_covers hname hlen hturn h
  · rw [if_neg hdollar] at hturn ⊢
    cases hturn
    exact covers_of_safe trivial h

/-- What the loop makes of a text without a NUL is longer, at the latest at an exposed piece. -/
theorem Renders.longer {prompt name : List UInt8} {hprompt : 0 ∉ prompt}
    (hname : name.all isValidPs1VariableChar = true)
    (h : Renders (shellFor prompt hprompt name) s out) (hlen : s.length ≤ prompt.length)
    (hzero : ∀ piece ∈ scan s, piece.1 ≠ .codePoint 0) :
    Longer (shellFor prompt hprompt name) name s out := by
  induction hsize : s.length using Nat.strong_induction_on generalizing s out with
  | _ k ih =>
    subst hsize
    cases h with
    | done => exact ⟨Nat.le_refl _, fun hpiece => by obtain ⟨_, hmem, -⟩ := hpiece; cases hmem⟩
    | @turn c rest out r hturn hrest =>
      rw [scan_cons, List.forall_mem_cons] at hzero
      obtain ⟨out', hout, hle, hlt⟩ := emitTurn_covers hname hlen hzero.1 hturn hrest
      have hshort := (readToken_suffix c rest).length_le
      rw [List.length_cons] at hlen
      have hlonger := ih _ (by rw [List.length_cons]; omega) hout (by omega) hzero.2 rfl
      have hle' := hlonger.le
      constructor
      · rw [rendering_cons, List.length_append]
        omega
      · rintro ⟨piece, hmem, hexposed⟩
        rw [rendering_cons, List.length_append]
        rw [scan_cons, List.mem_cons] at hmem
        rcases hmem with rfl | hmem
        · have := hlt hexposed
          omega
        · have := hlonger.lt ⟨piece, hmem, hexposed⟩
          omega

/-! ### NUL -/

/-- The numbers of a shell are printed without a NUL. -/
def PrintsNumbers (shell : Shell) : Prop :=
  0 ∉ stringFromInt shell.lastExitStatus ∧ 0 ∉ stringFromInt shell.shellPid

theorem Shell.lookup_nulFree {name value : List UInt8} (h : shell.lookup name = some value) :
    0 ∉ value := by
  rw [Shell.lookup, Option.or_eq_some_iff] at h
  rcases h with h | ⟨-, h⟩
  · obtain ⟨store, -, hget⟩ := Option.bind_eq_some_iff.mp h
    exact store.nulFree _ _ hget
  · obtain ⟨store, -, hget⟩ := Option.bind_eq_some_iff.mp h
    exact store.nulFree _ _ hget

theorem emitEscape_nulFree (h : 0 ∉ s) : 0 ∉ (emitEscape s).1 := by
  cases s with
  | nil => exact List.not_mem_cons_of_ne_of_not_mem (by decide) List.not_mem_nil
  | cons c rest =>
    have hc : (0 : UInt8) ≠ c := fun heq => h (heq ▸ List.mem_cons_self)
    have hliteral : (0 : UInt8) ∉ [92, c] :=
      List.not_mem_cons_of_ne_of_not_mem (by decide)
        (List.not_mem_cons_of_ne_of_not_mem hc List.not_mem_nil)
    rw [emitEscape]
    cases hplain : plainEscape c with
    | some byte =>
      have hbyte : (0 : UInt8) ≠ byte := by
        unfold plainEscape at hplain
        split_ifs at hplain <;> cases hplain <;> decide
      exact List.not_mem_cons_of_ne_of_not_mem hbyte List.not_mem_nil
    | none =>
      cases hexWidth c with
      | none => exact hliteral
      | some width =>
        dsimp only
        rw [emitHex]
        split
        · exact hliteral
        · intro hmem
          rw [stringAppendUtf8, List.nil_append] at hmem
          exact absurd (List.mem_takeWhile_imp hmem) (by decide)

theorem emitVariable_nulFree {name literal : List UInt8} (hliteral : 0 ∉ literal)
    {r : List UInt8 × List UInt8} (h : emitVariable shell name literal s = .ok r) : 0 ∉ r.1 := by
  obtain ⟨-, rfl⟩ := emitVariable_ok h
  cases hget : shell.lookup name with
  | none => exact hliteral
  | some value => exact Shell.lookup_nulFree hget

theorem emitParameter_nulFree (hshell : PrintsNumbers shell) (h : 0 ∉ s)
    {r : List UInt8 × List UInt8} (hturn : emitParameter shell s = .ok r) : 0 ∉ r.1 := by
  have hdollar : (0 : UInt8) ∉ [36] :=
    List.not_mem_cons_of_ne_of_not_mem (by decide) List.not_mem_nil
  cases s with
  | nil =>
    cases hturn
    exact hdollar
  | cons c rest =>
    have hrest : 0 ∉ rest := List.not_mem_of_not_mem_cons h
    rw [emitParameter] at hturn
    split_ifs at hturn
    · refine emitVariable_nulFree ?_ hturn
      intro hmem
      rcases List.mem_append.mp hmem with hmem | hmem
      · rcases List.mem_append.mp hmem with hmem | hmem
        · exact absurd hmem (by decide)
        · exact hrest ((List.takeWhile_sublist _).mem hmem)
      · exact absurd hmem (by decide)
    · cases hturn
      exact (by decide : (0 : UInt8) ∉ [36, 123])
    · cases hturn
      exact hshell.1
    · cases hturn
      exact hshell.2
    · cases hturn
      exact (by decide : (0 : UInt8) ∉ [36, 36])
    · refine emitVariable_nulFree ?_ hturn
      exact List.not_mem_cons_of_ne_of_not_mem (by decide)
        fun hmem => h ((List.takeWhile_sublist _).mem hmem)
    · cases hturn
      exact hdollar

theorem emitTurn_nulFree (hshell : PrintsNumbers shell) (h : 0 ∉ c :: rest)
    {r : List UInt8 × List UInt8} (hturn : emitTurn shell c rest = .ok r) : 0 ∉ r.1 := by
  have hc : (0 : UInt8) ≠ c := fun heq => h (heq ▸ List.mem_cons_self)
  have hrest : 0 ∉ rest := List.not_mem_of_not_mem_cons h
  rw [emitTurn] at hturn
  split_ifs at hturn
  · cases hturn
    exact emitEscape_nulFree hrest
  · exact emitParameter_nulFree hshell hrest hturn
  · cases hturn
    exact List.not_mem_cons_of_ne_of_not_mem hc List.not_mem_nil

theorem Renders.nulFree (hshell : PrintsNumbers shell) (h : Renders shell s out) (hs : 0 ∉ s) :
    0 ∉ out := by
  induction h with
  | done => exact List.not_mem_nil
  | @turn c rest out r hturn _ ih =>
    rw [List.mem_append, not_or]
    refine ⟨emitTurn_nulFree hshell hs hturn, ih fun hmem => hs ?_⟩
    exact List.mem_cons_of_mem _ ((emitTurn_suffix hturn).mem hmem)

end Unsafe

/-! ## The prompts that are rendered right -/

/-- The value of `PS1` is rendered as promised in every shell exactly if its pieces are safe. -/
theorem rendersRight_iff {prompt : List UInt8} (hprompt : 0 ∉ prompt) :
    RendersRight prompt ↔ SafePrompt prompt := by
  refine ⟨fun h => ?_, fun h => rendersRight_of_renders fun shell _ => h.renders shell⟩
  by_contra hrejected
  have hright : ∀ name, Renders (shellFor prompt hprompt name) prompt
      (rendering (shellFor prompt hprompt name) prompt) := fun name => by
    refine h.renders rfl ?_
    rw [lookup_shellFor, if_pos rfl]
  by_cases hzero : ∃ piece ∈ scan prompt, piece.1 = .codePoint 0
  · -- the comment promises a NUL, which no string holds
    obtain ⟨piece, hmem, hpiece⟩ := hzero
    have hnumbers : PrintsNumbers (shellFor prompt hprompt []) :=
      ⟨(by decide : 0 ∉ stringFromInt 0), (by decide : 0 ∉ stringFromInt 1)⟩
    refine (hright []).nulFree hnumbers hprompt (List.mem_flatMap.mpr ⟨piece, hmem, ?_⟩)
    rw [hpiece]
    exact (by decide : (0 : UInt8) ∈ encode 0)
  · obtain ⟨piece, hmem, hpiece⟩ : ∃ piece ∈ scan prompt, ¬ piece.1.Safe piece.2 := by
      by_contra hnone
      exact hrejected fun piece hmem => not_not.mp fun hnot => hnone ⟨piece, hmem, hnot⟩
    obtain ⟨name, hname, hexposed⟩ : ∃ name : List UInt8,
        name.all isValidPs1VariableChar = true ∧ Exposed name piece := by
      by_cases hvariable : ∃ n, piece.1 = .variable_ n false
      · obtain ⟨n, hn⟩ := hvariable
        refine ⟨n.takeWhile isValidPs1VariableChar,
          List.all_eq_true.mpr fun _ => List.mem_takeWhile_imp, hpiece, fun n' hn' => ?_⟩
        rw [hn, Token.variable_.injEq] at hn'
        rw [hn'.1]
      · exact ⟨[], rfl, hpiece, fun n hn => absurd ⟨n, hn⟩ hvariable⟩
    have hlonger := (hright name).longer hname (Nat.le_refl _)
      fun piece hmem heq => hzero ⟨piece, hmem, heq⟩
    exact Nat.lt_irrefl _ (hlonger.lt ⟨piece, hmem, hexposed⟩)

/-- The prompt `$HOME: ` is rendered right. -/
theorem rendersRight_iff_home :
    RendersRight [36, 72, 79, 77, 69, 58, 32] ↔ SafePrompt [36, 72, 79, 77, 69, 58, 32] :=
  rendersRight_iff (by decide)

/-- The prompt `$HOME` ends the shell. -/
theorem home_not_rendersRight : ¬ RendersRight [36, 72, 79, 77, 69] := by
  intro h
  have hprompt : 0 ∉ ([36, 72, 79, 77, 69] : List UInt8) := by decide
  have hrun := h (shellFor _ hprompt []) rfl rfl 5 (Nat.le_refl _)
  have hfail : renderPs1 5 (shellFor [36, 72, 79, 77, 69] hprompt []) = .error .nameAtEnd := rfl
  rw [hfail] at hrun
  cases hrun

end Migash.Exec.Prompt
