import Mathlib.Data.List.Induction
import Migash.Arithmetic.Exact
import Migash.Expander.Words

/-! # Constants in variables

A constant that stands in an expression is read by `get_token`, one that is the
value of a variable by `string_atol`. The first takes the base from the text
and wraps around; the second reads decimal digits and saturates.
-/

namespace Migash.Arithmetic

open Exec (Shell)
open Expander (execFrameGetVariable)
open Library

variable {δ W : Type}

/-! ## Constants -/

/-- The sign of a constant. -/
inductive Sign where
  | none | plus | minus
  deriving DecidableEq, Repr

namespace Sign

def text : Sign → List Char
  | none => []
  | plus => ['+']
  | minus => ['-']

/-- The integer with the sign and the magnitude. -/
def apply (sign : Sign) (magnitude : ℕ) : ℤ := if sign = minus then -magnitude else magnitude

/-- The magnitude at which `strtol` saturates. -/
def limit (sign : Sign) : ℕ := if sign = minus then 2 ^ 63 else 2 ^ 63 - 1

end Sign

/-- The value of the digits. -/
def Literal.magnitude (l : Literal) : ℕ := digitsValue l.radix.base l.digits

/-- An integer constant of the arithmetic grammar. -/
structure Constant where
  sign : Sign
  literal : Literal

namespace Constant

def text (c : Constant) : List Char := c.sign.text ++ c.literal.text

/-- The value of the constant where it is written in an expression. -/
def value (c : Constant) : ℤ := wrapLong (c.sign.apply c.literal.magnitude)

/-- The constants that both routines read alike. A decimal one does not exceed the range of its
sign, an octal one has nothing but zeros before its last digit, and a hexadecimal one is zero. Out
of range they agree where the value wraps around to the one `strtol` saturates at. -/
def ReadsAlike (c : Constant) : Prop :=
  let limit := c.sign.limit
  let magnitude := c.literal.magnitude
  match c.literal.radix with
  | .decimal => magnitude ≤ limit ∨ magnitude % 2 ^ 64 = limit
  | .octal =>
    if decimalValue c.literal.digits ≤ limit then ∀ d ∈ c.literal.digits.dropLast, d = '0'
    else magnitude % 2 ^ 64 = limit
  | .hex | .hexUpper => magnitude % 2 ^ 64 = 0

end Constant

/-! ## The constant in the text -/

section

variable {n : ℕ} {m : ℤ} {rest : List Char} {s : Shell δ W}

theorem parseExpression_constant (c : Constant) (h : EndsWord rest) :
    parseExpression (n + 3) m ⟨c.text ++ rest, s⟩ =
      parseOperators (n + 2) m c.value ⟨rest, s⟩ := by
  have hunary : ∀ op : UnaryOp,
      parseExpression (n + 3) m ⟨op.type.spelling ++ c.literal.text ++ rest, s⟩ =
        parseOperators (n + 2) m (applyUnary op.type (wrapLong c.literal.value)) ⟨rest, s⟩ := by
    intro op
    have hprec : nextPrecedence rest < 14 :=
      lt_of_le_of_lt (getPrecedence_le (getToken rest).1.type) (by decide)
    have hstop : parseOperators (n + 1) 14 (wrapLong c.literal.value) ⟨rest, s⟩ =
        .ok (wrapLong c.literal.value) ⟨rest, s⟩ := parseOperators_stop (Nat.succ_pos n) hprec
    rw [List.append_assoc, parseExpression_unary op (c.literal.startsOperand.append rest),
      parseExpression_literal c.literal h, hstop, Reply.bind_ok]
  obtain ⟨sign, l⟩ := c
  cases sign with
  | none => exact parseExpression_literal l h
  | plus => exact hunary .plus
  | minus =>
    have hvalue : Constant.value ⟨.minus, l⟩ = applyUnary .minus (wrapLong l.value) :=
      Int.bmod_neg_bmod.symm
    rw [hvalue]
    exact hunary .minus

end

/-! ## The constant in the variable -/

/-- The digits that `strtol` reads. -/
def Literal.decimalDigits (l : Literal) : List Char := l.text.takeWhile Char.isDigit

theorem Literal.decimalDigits_ne_nil (l : Literal) : l.decimalDigits ≠ [] := by
  obtain ⟨d, ds, htext, hdigit⟩ := l.text_eq_cons
  rw [decimalDigits, htext, List.takeWhile_cons_of_pos hdigit]
  exact List.cons_ne_nil _ _

theorem strtol_digits {d : Char} {ds : List Char} (h : d.isDigit = true) :
    (strtol (d :: ds)).1 = min (decimalValue ((d :: ds).takeWhile Char.isDigit) : ℤ) longMax := by
  have hspace : isspace d = false :=
    isspace_of_isAlnumOrUnderscore (isAlnumOrUnderscore_of_digit .decimal h)
  have hne : (d :: ds).takeWhile Char.isDigit ≠ [] := by
    rw [List.takeWhile_cons_of_pos h]
    exact List.cons_ne_nil _ _
  unfold strtol
  rw [List.dropWhile_cons_of_neg (by simp [hspace])]
  dsimp only
  split
  · next heq =>
    cases heq
    exact absurd h (by decide)
  · next heq =>
    cases heq
    exact absurd h (by decide)
  · exact congrArg Prod.fst (if_neg hne)

theorem stringAtol_text (c : Constant) : stringAtol (String.ofList c.text) =
    c.sign.apply (min (decimalValue c.literal.decimalDigits) c.sign.limit) := by
  obtain ⟨sign, l⟩ := c
  have hne := l.decimalDigits_ne_nil
  have hlong : longMin = -2 ^ 63 ∧ longMax = 2 ^ 63 - 1 := ⟨rfl, rfl⟩
  rw [stringAtol, String.toList_ofList, Constant.text]
  cases sign with
  | none =>
    obtain ⟨d, ds, htext, hdigit⟩ := l.text_eq_cons
    have hread : (strtol l.text).1 = min (decimalValue l.decimalDigits : ℤ) longMax := by
      rw [Literal.decimalDigits, htext]
      exact strtol_digits hdigit
    refine hread.trans ?_
    simp only [Sign.apply, Sign.limit, if_false, reduceCtorEq]
    omega
  | plus =>
    have hread : (strtol ('+' :: l.text)).1 = min (decimalValue l.decimalDigits : ℤ) longMax :=
      congrArg Prod.fst (if_neg hne)
    refine hread.trans ?_
    simp only [Sign.apply, Sign.limit, if_false, reduceCtorEq]
    omega
  | minus =>
    have hread : (strtol ('-' :: l.text)).1 = max (-(decimalValue l.decimalDigits : ℤ)) longMin :=
      congrArg Prod.fst (if_neg hne)
    refine hread.trans ?_
    simp only [Sign.apply, Sign.limit, if_true]
    omega

/-- Both routines give the same value if the magnitude wraps around to the one that `strtol` reads,
which may be the limit. -/
theorem stringAtol_text_iff (c : Constant) : stringAtol (String.ofList c.text) = c.value ↔
    c.literal.magnitude % 2 ^ 64 = min (decimalValue c.literal.decimalDigits) c.sign.limit := by
  obtain ⟨sign, l⟩ := c
  rw [stringAtol_text, eq_comm, Constant.value, wrapLong, Int.bmod_eq_iff (by decide)]
  cases sign <;> simp only [Sign.apply, Sign.limit, if_true, if_false, reduceCtorEq] <;> omega

/-! ## The digits -/

theorem digitsValue_append (base : ℕ) (digits : List Char) (d : Char) :
    digitsValue base (digits ++ [d]) = digitsValue base digits * base + digitValue d := by
  simp [digitsValue]

theorem decimalValue_append (digits : List Char) (d : Char) :
    decimalValue (digits ++ [d]) = decimalValue digits * 10 + (d.toNat - '0'.toNat) := by
  simp [decimalValue]

theorem decimalValue_zero_cons (digits : List Char) :
    decimalValue ('0' :: digits) = decimalValue digits := rfl

theorem digitValue_of_isDigit {d : Char} (h : d.isDigit = true) :
    digitValue d = d.toNat - '0'.toNat := by
  have hd := isDigit_iff.mp h
  have hlower : ¬ 'a' ≤ d := fun hle => by
    have := char_le_iff.mp hle
    simp only [Char.reduceToNat] at this
    omega
  have hupper : ¬ 'A' ≤ d := fun hle => by
    have := char_le_iff.mp hle
    simp only [Char.reduceToNat] at this
    omega
  simp [digitValue, hlower, hupper]

theorem digitsValue_ten {digits : List Char} (h : ∀ d ∈ digits, d.isDigit = true) :
    digitsValue 10 digits = decimalValue digits := by
  induction digits using List.reverseRecOn with
  | nil => rfl
  | append_singleton digits d ih =>
    rw [digitsValue_append, decimalValue_append, digitValue_of_isDigit (h d (by simp)),
      ih fun c hc => h c (List.mem_append_left _ hc)]

theorem isDigit_of_isOctalDigit {d : Char} (h : isOctalDigit d = true) : d.isDigit = true := by
  simp only [isOctalDigit, Bool.and_eq_true, decide_eq_true_eq, char_le_iff, Char.reduceToNat] at h
  exact isDigit_iff.mpr (by omega)

theorem decimalDigits_decimal {l : Literal} (h : l.radix = .decimal) :
    decimalValue l.decimalDigits = l.magnitude := by
  have hvalid := l.valid
  rw [h] at hvalid
  have htext : l.text = l.digits := by rw [Literal.text, h]; rfl
  have htake : l.digits.takeWhile Char.isDigit = l.digits := List.takeWhile_eq_self_iff.mpr hvalid
  rw [Literal.decimalDigits, htext, htake, Literal.magnitude, h]
  exact (digitsValue_ten hvalid).symm

theorem decimalDigits_octal {l : Literal} (h : l.radix = .octal) :
    decimalValue l.decimalDigits = decimalValue l.digits := by
  have hvalid : ∀ d ∈ l.digits, d.isDigit = true := by
    have := l.valid
    rw [h] at this
    exact fun d hd => isDigit_of_isOctalDigit (this d hd)
  have htext : l.text = '0' :: l.digits := by rw [Literal.text, h]; rfl
  rw [Literal.decimalDigits, htext, List.takeWhile_cons_of_pos rfl,
    List.takeWhile_eq_self_iff.mpr hvalid, decimalValue_zero_cons]

theorem decimalDigits_hex {l : Literal} (h : l.radix = .hex ∨ l.radix = .hexUpper) :
    decimalValue l.decimalDigits = 0 := by
  rw [Literal.decimalDigits, Literal.text]
  rcases h with h | h <;> rw [h] <;> rfl

theorem decimalValue_eq_zero_iff {digits : List Char} (h : ∀ d ∈ digits, d.isDigit = true) :
    decimalValue digits = 0 ↔ ∀ d ∈ digits, d = '0' := by
  induction digits using List.reverseRecOn with
  | nil => simp [decimalValue]
  | append_singleton digits d ih =>
    have hd := isDigit_iff.mp (h d (by simp))
    have hzero : d.toNat - '0'.toNat = 0 ↔ d = '0' := by
      constructor
      · intro heq
        refine Char.toNat_inj.mp ?_
        simp only [Char.reduceToNat] at heq ⊢
        omega
      · rintro rfl
        rfl
    rw [decimalValue_append, Nat.add_eq_zero_iff, hzero, Nat.mul_eq_zero,
      ih fun c hc => h c (List.mem_append_left _ hc)]
    simp [or_imp, forall_and]

/-- The octal value of a text is smaller than the decimal one, unless only the last digit counts. -/
theorem octal_eq_decimal_iff {digits : List Char} (h : ∀ d ∈ digits, isOctalDigit d = true) :
    digitsValue 8 digits ≤ decimalValue digits ∧
      (digitsValue 8 digits = decimalValue digits ↔ ∀ d ∈ digits.dropLast, d = '0') := by
  induction digits using List.reverseRecOn with
  | nil => simp [digitsValue, decimalValue]
  | append_singleton digits d ih =>
    have hinit : ∀ c ∈ digits, isOctalDigit c = true := fun c hc => h c (List.mem_append_left _ hc)
    have hle := (ih hinit).1
    have hd := digitValue_of_isDigit (isDigit_of_isOctalDigit (h d (by simp)))
    rw [digitsValue_append, decimalValue_append, hd, List.dropLast_concat,
      ← decimalValue_eq_zero_iff fun c hc => isDigit_of_isOctalDigit (hinit c hc)]
    omega

theorem readsAlike_iff (c : Constant) :
    stringAtol (String.ofList c.text) = c.value ↔ c.ReadsAlike := by
  have hlimit : c.sign.limit = 2 ^ 63 ∨ c.sign.limit = 2 ^ 63 - 1 := by
    unfold Sign.limit
    split <;> simp
  rw [stringAtol_text_iff]
  obtain ⟨sign, l⟩ := c
  have hvalid := l.valid
  dsimp only at hlimit ⊢
  cases hradix : l.radix with
  | decimal =>
    rw [decimalDigits_decimal hradix, Constant.ReadsAlike]
    simp only [hradix]
    omega
  | octal =>
    rw [hradix] at hvalid
    obtain ⟨hle, hiff⟩ := octal_eq_decimal_iff hvalid
    rw [decimalDigits_octal hradix, Constant.ReadsAlike]
    simp only [hradix]
    have hmagnitude : l.magnitude = digitsValue 8 l.digits := by rw [Literal.magnitude, hradix]; rfl
    split_ifs with hsmall
    · rw [← hiff, ← hmagnitude]
      omega
    · rw [min_eq_right (by omega)]
  | hex =>
    rw [decimalDigits_hex (.inl hradix), Constant.ReadsAlike]
    simp only [hradix]
    omega
  | hexUpper =>
    rw [decimalDigits_hex (.inr hradix), Constant.ReadsAlike]
    simp only [hradix]
    omega

/-! ## The same value -/

theorem readVariable_eq {s : Shell δ W} {name text : String}
    (h : execFrameGetVariable s name = some text) : readVariable s name = stringAtol text := by
  unfold execFrameGetVariable at h
  unfold readVariable
  cases hlocal : s.frame.localVariables.bind fun store => store.getValue name with
  | some value =>
    simp only [hlocal, Option.some.injEq] at h
    rw [← h]
  | none =>
    simp only [hlocal] at h
    simp only [h, Option.map_some, Option.getD_some]

/-- Wherever an operand is read, behind blanks and before anything that neither goes on with the
name nor assigns to it, the variable gives what the constant in its place gives. -/
def SameOperand (s : Shell δ W) (x : Name) (c : Constant) : Prop :=
  ∀ (n : ℕ) (m : ℤ) (gap rest : List Char), (∀ d ∈ gap, isspace d = true) → EndsWord rest →
    isAssignment (getToken rest).1.type = false →
      parseExpression (n + 3) m ⟨gap ++ (x.text ++ rest), s⟩ =
        parseExpression (n + 3) m ⟨gap ++ (c.text ++ rest), s⟩

theorem parseExpression_gap {n : ℕ} {m : ℤ} {gap text : List Char} {s : Shell δ W}
    (h : ∀ d ∈ gap, isspace d = true) :
    parseExpression (n + 1) m ⟨gap ++ text, s⟩ = parseExpression (n + 1) m ⟨text, s⟩ := by
  have htoken : getToken (gap ++ text) = getToken text := by
    rw [getToken, getToken, List.dropWhile_append_of_pos h]
  have hnext : (⟨gap ++ text, s⟩ : MathParser δ W).next = (⟨text, s⟩ : MathParser δ W).next := by
    simp only [MathParser.next, htoken]
  have hprimary : ∀ k, parsePrimary k (⟨gap ++ text, s⟩ : MathParser δ W) =
      parsePrimary k ⟨text, s⟩ := by
    intro k
    cases k with
    | zero => rw [parsePrimary, parsePrimary]
    | succ k => rw [parsePrimary, parsePrimary, hnext]
  rw [parseExpression, parseExpression, hnext, hprimary]

theorem SameOperand.readVariable_eq {s : Shell δ W} {x : Name} {c : Constant}
    (h : SameOperand s x c) : readVariable s x.toString = c.value := by
  have hempty : EndsWord [] := fun c hc => by cases hc
  have hend : nextPrecedence [] < 0 := by decide
  have hstop : ∀ k left, parseOperators (k + 1) 0 left (⟨[], s⟩ : MathParser δ W) =
      .ok left ⟨[], s⟩ := fun k left => parseOperators_stop (Nat.succ_pos k) hend
  have hrun := h 0 0 [] [] (fun d hd => by cases hd) hempty rfl
  rw [List.nil_append, List.nil_append, parseExpression_var x hempty rfl,
    parseExpression_constant c hempty, hstop, hstop] at hrun
  exact (Reply.ok.inj hrun).1

/-- A variable whose value is a constant is the constant if and only if both routines read it
alike. -/
theorem sameOperand_iff {s : Shell δ W} {x : Name} {c : Constant}
    (h : execFrameGetVariable s x.toString = some (String.ofList c.text)) :
    SameOperand s x c ↔ c.ReadsAlike := by
  have hvalue := readVariable_eq h
  rw [← readsAlike_iff, ← hvalue]
  constructor
  · exact SameOperand.readVariable_eq
  · intro heq n m gap rest hgap hrest hassign
    rw [parseExpression_gap hgap, parseExpression_gap hgap, parseExpression_var x hrest hassign,
      parseExpression_constant c hrest, heq]

/-- The name `x`. -/
def nameX : Name where
  first := 'x'
  others := []
  start := rfl
  valid := fun _ hc => absurd hc List.not_mem_nil

/-- A shell whose variable `x` has this value. -/
def shellWithX (value : String) : Shell Unit Unit :=
  (Shell.initial ()).writeVar { name := "x", value, arithmetic := false }

/-- The constant `-7`. -/
def minusSeven : Constant where
  sign := .minus
  literal :=
    { radix := .decimal
      digits := ['7']
      nonempty := List.cons_ne_nil _ _
      valid := List.all_eq_true.mp rfl
      decimal := fun _ => .inr (by decide) }

theorem sameOperand_iff_minusSeven :
    SameOperand (shellWithX "-7") nameX minusSeven ↔ minusSeven.ReadsAlike :=
  sameOperand_iff rfl

/-- The constant `010`. -/
def octalTen : Constant where
  sign := .none
  literal :=
    { radix := .octal
      digits := ['1', '0']
      nonempty := List.cons_ne_nil _ _
      valid := List.all_eq_true.mp rfl
      decimal := nofun }

/-- `010` is eight in an expression and ten in a variable. -/
theorem octalTen_not_sameOperand :
    execFrameGetVariable (shellWithX "010") nameX.toString = some (String.ofList octalTen.text) ∧
      octalTen.value = 8 ∧ readVariable (shellWithX "010") nameX.toString = 10 ∧
        ¬ SameOperand (shellWithX "010") nameX octalTen := by
  have hvalue : octalTen.value = 8 := by decide
  have hread : readVariable (shellWithX "010") nameX.toString = 10 := by decide +kernel
  refine ⟨rfl, hvalue, hread, fun hsame => ?_⟩
  have heq := hsame.readVariable_eq
  rw [hread, hvalue] at heq
  exact absurd heq (by decide)

end Migash.Arithmetic
