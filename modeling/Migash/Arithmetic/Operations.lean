import Migash.Arithmetic.Parse

/-! # The operations of an evaluation

Every operation of C on two `long`s that the evaluator performs and that C does
not define everywhere, in the order in which they are performed. The tokens
count too: the value of a number is computed each time it is read.
-/

namespace Migash.Arithmetic

open Exec (Shell)
open Library

/-- An operation of C on `long`s. -/
inductive Primitive where
  | neg (a : ℤ)
  | add (a b : ℤ)
  | sub (a b : ℤ)
  | mul (a b : ℤ)
  | div (a b : ℤ)
  | rem (a b : ℤ)
  | shl (a b : ℤ)
  | shr (a b : ℤ)
  deriving DecidableEq, Repr

/-- An integer in the range of `long`. -/
def IsLong (v : ℤ) : Prop := longMin ≤ v ∧ v ≤ longMax

instance (v : ℤ) : Decidable (IsLong v) := inferInstanceAs (Decidable (_ ∧ _))

/-- C defines the operation. -/
def Primitive.Defined : Primitive → Prop
  | neg a => IsLong (-a)
  | add a b => IsLong (a + b)
  | sub a b => IsLong (a - b)
  | mul a b => IsLong (a * b)
  | div a b | rem a b => b ≠ 0 ∧ ¬ (a = longMin ∧ b = -1)
  | shl a b => (0 ≤ b ∧ b ≤ 63) ∧ 0 ≤ a ∧ a * 2 ^ b.toNat ≤ longMax
  | shr _ b => 0 ≤ b ∧ b ≤ 63

/-- Every operation of the list is defined. -/
def AllDefined (operations : List Primitive) : Prop := ∀ p ∈ operations, p.Defined

/-! ## Tokens -/

/-- `value = value * base + digit`, for every digit. -/
def digitOperations (base : ℕ) : ℤ → List Char → List Primitive
  | _, [] => []
  | value, d :: digits =>
    .mul value base :: .add (wrapLong (value * base)) (digitValue d) ::
      digitOperations base (wrapLong (wrapLong (value * base) + digitValue d)) digits

/-- The base and the digits of a number, as `get_token` reads it. -/
def numeral : List Char → ℕ × List Char
  | '0' :: rest =>
    match rest with
    | next :: digits =>
      if next = 'x' ∨ next = 'X' then (16, digits.takeWhile isHexDigit)
      else if isOctalDigit next then (8, rest.takeWhile isOctalDigit)
      else (10, [])
    | [] => (10, [])
  | text => (10, text.takeWhile Char.isDigit)

/-- The number at the start of the text. -/
def numeral? (text : List Char) : Option (ℕ × List Char) :=
  let text := text.dropWhile isspace
  if text.head?.any Char.isDigit then some (numeral text) else none

/-- The operations of `get_token`. -/
def tokenOperations (text : List Char) : List Primitive :=
  match numeral? text with
  | some (base, digits) => digitOperations base 0 digits
  | none => []

/-! ## Operators -/

/-- The unary operators of `parse_expression`. -/
def unaryOperations (op : MathTokenType) (a : ℤ) : List Primitive :=
  if op = .minus then [.neg a] else []

/-- The binary operators of `parse_expression`, with their test for a zero divisor. -/
def binaryOperations (op : MathTokenType) (a b : ℤ) : List Primitive :=
  match op with
  | .multiply => [.mul a b]
  | .divide => if b = 0 then [] else [.div a b]
  | .modulo => if b = 0 then [] else [.rem a b]
  | .plus => [.add a b]
  | .minus => [.sub a b]
  | .leftShift => [.shl a b]
  | .rightShift => [.shr a b]
  | _ => []

/-- The compound assignments of `parse_primary`. -/
def assignOperations (op : MathTokenType) (old value : ℤ) : List Primitive :=
  match op with
  | .multiplyAssign => [.mul old value]
  | .divideAssign => if value = 0 then [] else [.div old value]
  | .moduloAssign => if value = 0 then [] else [.rem old value]
  | .plusAssign => [.add old value]
  | .minusAssign => [.sub old value]
  | .leftShiftAssign => [.shl old value]
  | .rightShiftAssign => [.shr old value]
  | _ => []

/-! ## Expressions -/

variable {δ W : Type}

/-- What is performed after a success. -/
def Result.after (r : Result δ W) (f : ℤ → MathParser δ W → List Primitive) : List Primitive :=
  match r with
  | .ok v s => f v s
  | _ => []

mutual

/-- The operations of `parse_expression`. -/
def expressionOperations : ℕ → ℤ → MathParser δ W → List Primitive
  | 0, _, _ => []
  | n + 1, minPrecedence, s =>
    let (token, rest) := s.next
    tokenOperations s.text ++
      if isUnary token.type then
        expressionOperations n 14 rest ++ (parseExpression n 14 rest).after fun value t =>
          unaryOperations token.type value ++
            operatorsOperations n minPrecedence (applyUnary token.type value) t
      else
        primaryOperations n s ++ (parsePrimary n s).after fun left t =>
          operatorsOperations n minPrecedence left t

/-- The operations of the loop of `parse_expression`. -/
def operatorsOperations : ℕ → ℤ → ℤ → MathParser δ W → List Primitive
  | 0, _, _, _ => []
  | n + 1, minPrecedence, left, s =>
    let (token, rest) := s.next
    let prec := getPrecedence token.type
    let nextMinPrec := if isRightAssociative token.type then prec else prec + 1
    tokenOperations s.text ++
      if prec < minPrecedence then []
      else if token.type = .comma then
        expressionOperations n nextMinPrec rest ++
          (parseExpression n nextMinPrec rest).after fun _ t =>
            operatorsOperations n minPrecedence left t
      else if token.type = .question then
        expressionOperations n 0 rest ++ (parseExpression n 0 rest).after fun trueValue s =>
          tokenOperations s.text ++
            if s.next.1.type ≠ .colon then []
            else
              expressionOperations n prec s.next.2 ++
                (parseExpression n prec s.next.2).after fun falseValue t =>
                  operatorsOperations n minPrecedence (if left ≠ 0 then trueValue else falseValue) t
      else if token.type = .logicalOr ∧ left ≠ 0 then []
      else if token.type = .logicalAnd ∧ left = 0 then []
      else
        expressionOperations n nextMinPrec rest ++
          (parseExpression n nextMinPrec rest).after fun right t =>
            binaryOperations token.type left right ++
              ((applyBinary token.type left right).reply t).after fun value u =>
                operatorsOperations n minPrecedence value u

/-- The operations of `parse_primary`. -/
def primaryOperations : ℕ → MathParser δ W → List Primitive
  | 0, _ => []
  | n + 1, s =>
    let (token, rest) := s.next
    tokenOperations s.text ++
      match token.type with
      | .variable =>
        let name := String.ofList token.name
        tokenOperations rest.text ++
          if isAssignment rest.next.1.type then
            expressionOperations n 0 rest.next.2 ++
              (parseExpression n 0 rest.next.2).after fun right t =>
                assignOperations rest.next.1.type (readVariable t.frame name) right
          else []
      | .lparen =>
        expressionOperations n 0 rest ++ (parseExpression n 0 rest).after fun _ t =>
          tokenOperations t.text
      | _ => []

end

/-- The operations of `arithmetic_evaluate`, which reads a token behind the expression also where
the expression has failed. -/
def textOperations (n : ℕ) (s : MathParser δ W) : List Primitive :=
  expressionOperations n 0 s ++
    match parseExpression n 0 s with
    | .ok _ t | .fail _ t => tokenOperations t.text
    | .fault _ => []

end Migash.Arithmetic
