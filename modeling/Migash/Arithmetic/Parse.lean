import Migash.Arithmetic.Token
import Migash.Exec.State

/-! # The evaluator of arithmetic expressions

`parse_expression` parses and evaluates at once, by precedence climbing over a
text it only moves forward in. Variables are those of the frame.
-/

namespace Migash.Arithmetic

open Exec (Shell)
open Library

variable {δ W : Type}

/-- `math_parser_t`: the text that is left, and the frame. -/
structure MathParser (δ W : Type) where
  text : List Char
  frame : Shell δ W

/-- `ArithmeticResult`, with the parser it leaves behind. -/
abbrev Result (δ W : Type) := Reply (MathParser δ W) String ℤ

/-- `get_token`, on the parser. -/
def MathParser.next (s : MathParser δ W) : MathToken × MathParser δ W :=
  ((getToken s.text).1, { s with text := (getToken s.text).2 })

/-- What an operator does: it gives a value or an error, or a signal ends the shell. -/
inductive Outcome where
  | value (value : ℤ)
  | error (message : String)
  | signal
  deriving DecidableEq, Repr

def Outcome.reply (o : Outcome) (s : MathParser δ W) : Result δ W :=
  match o with
  | .value v => .ok v s
  | .error message => .fail message s
  | .signal => .fault (.contract "SIGFPE")

/-- The value of a comparison. -/
def truth (p : Bool) : ℤ := if p then 1 else 0

/-- A bitwise operator on two `long`s. -/
def bitwise (op : BitVec 64 → BitVec 64 → BitVec 64) (a b : ℤ) : ℤ :=
  (op (BitVec.ofInt 64 a) (BitVec.ofInt 64 b)).toInt

/-- `a << b`. The machine uses the low six bits of the count. -/
def shiftLeft (a b : ℤ) : ℤ := wrapLong (a * 2 ^ (b % 64).toNat)

/-- `a >> b`. -/
def shiftRight (a b : ℤ) : ℤ := a / 2 ^ (b % 64).toNat

/-- A division or a remainder. The quotient of the least `long` and -1 is no `long`. -/
def divided (message : String) (op : ℤ → ℤ → ℤ) (a b : ℤ) : Outcome :=
  if b = 0 then .error message
  else if a = longMin ∧ b = -1 then .signal
  else .value (op a b)

/-- The unary operators of `parse_expression`. -/
def applyUnary (op : MathTokenType) (a : ℤ) : ℤ :=
  match op with
  | .minus => wrapLong (-a)
  | .bitNot => -a - 1
  | .logicalNot => truth (a = 0)
  | _ => a

/-- The binary operators of `parse_expression`. -/
def applyBinary (op : MathTokenType) (a b : ℤ) : Outcome :=
  match op with
  | .multiply => .value (wrapLong (a * b))
  | .divide => divided "Division by zero" Int.tdiv a b
  | .modulo => divided "Modulo by zero" Int.tmod a b
  | .plus => .value (wrapLong (a + b))
  | .minus => .value (wrapLong (a - b))
  | .leftShift => .value (shiftLeft a b)
  | .rightShift => .value (shiftRight a b)
  | .less => .value (truth (a < b))
  | .greater => .value (truth (a > b))
  | .lessEqual => .value (truth (a ≤ b))
  | .greaterEqual => .value (truth (a ≥ b))
  | .equal => .value (truth (a = b))
  | .notEqual => .value (truth (a ≠ b))
  | .bitAnd => .value (bitwise (· &&& ·) a b)
  | .bitXor => .value (bitwise (· ^^^ ·) a b)
  | .bitOr => .value (bitwise (· ||| ·) a b)
  | .logicalAnd => .value (truth (a ≠ 0 ∧ b ≠ 0))
  | .logicalOr => .value (truth (a ≠ 0 ∨ b ≠ 0))
  | _ => .error "Unknown binary operator"

/-- What an assignment of `parse_primary` stores, from the value the variable has. -/
def assignedValue (op : MathTokenType) (old value : ℤ) : Outcome :=
  match op with
  | .multiplyAssign => .value (wrapLong (old * value))
  | .divideAssign => divided "Division by zero in assignment" Int.tdiv old value
  | .moduloAssign => divided "Modulo by zero in assignment" Int.tmod old value
  | .plusAssign => .value (wrapLong (old + value))
  | .minusAssign => .value (wrapLong (old - value))
  | .leftShiftAssign => .value (shiftLeft old value)
  | .rightShiftAssign => .value (shiftRight old value)
  | .andAssign => .value (bitwise (· &&& ·) old value)
  | .xorAssign => .value (bitwise (· ^^^ ·) old value)
  | .orAssign => .value (bitwise (· ||| ·) old value)
  | _ => .value value

/-- The value of a variable, 0 if it is not set: `frame_has_variable` and
`frame_get_variable_value`. -/
def readVariable (s : Shell δ W) (name : String) : ℤ :=
  match s.frame.localVariables.bind fun store => store.getValue name with
  | some value => stringAtol value
  | none => ((s.variables_.getValue name).map stringAtol).getD 0

/-- `frame_set_variable`, whose result the source ignores. -/
def setVariable (s : Shell δ W) (name : String) (value : ℤ) : Shell δ W :=
  s.writeVar { name, value := stringFromLong value, arithmetic := true }

theorem history_setVariable (s : Shell δ W) (name : String) (v : ℤ) :
    (setVariable s name v).history.length = s.history.length + 1 := by
  unfold setVariable Shell.writeVar
  split <;> simp [Shell.assign, Shell.emit]

/-- Does the token start an operand as a unary operator? -/
def isUnary (type : MathTokenType) : Bool :=
  [.plus, .minus, .bitNot, .logicalNot].contains type

mutual

/-- `parse_expression`, to the depth of its fuel. -/
def parseExpression : ℕ → ℤ → MathParser δ W → Result δ W
  | 0, _, _ => .fault .fuel
  | n + 1, minPrecedence, s =>
    let (token, rest) := s.next
    let left :=
      if isUnary token.type then
        (parseExpression n 14 rest).bind fun value s => .ok (applyUnary token.type value) s
      else parsePrimary n s
    left.bind fun left s => parseOperators n minPrecedence left s

/-- The loop of `parse_expression` over binary operators and `?:`. Where `&&` or `||` need no right
operand, the source returns without having read it. -/
def parseOperators : ℕ → ℤ → ℤ → MathParser δ W → Result δ W
  | 0, _, _, _ => .fault .fuel
  | n + 1, minPrecedence, left, s =>
    let (token, rest) := s.next
    let prec := getPrecedence token.type
    let nextMinPrec := if isRightAssociative token.type then prec else prec + 1
    if prec < minPrecedence then .ok left s
    else if token.type = .comma then
      (parseExpression n nextMinPrec rest).bind fun _ s => parseOperators n minPrecedence left s
    else if token.type = .question then
      (parseExpression n 0 rest).bind fun trueValue s =>
        if s.next.1.type ≠ .colon then .fail "Expected ':' in ternary expression" s.next.2
        else
          (parseExpression n prec s.next.2).bind fun falseValue s =>
            parseOperators n minPrecedence (if left ≠ 0 then trueValue else falseValue) s
    else if token.type = .logicalOr ∧ left ≠ 0 then .ok left rest
    else if token.type = .logicalAnd ∧ left = 0 then .ok left rest
    else
      (parseExpression n nextMinPrec rest).bind fun right s =>
        ((applyBinary token.type left right).reply s).bind fun value s =>
          parseOperators n minPrecedence value s

/-- `parse_primary`. -/
def parsePrimary : ℕ → MathParser δ W → Result δ W
  | 0, _ => .fault .fuel
  | n + 1, s =>
    let (token, rest) := s.next
    match token.type with
    | .number => .ok token.number rest
    | .variable =>
      let name := String.ofList token.name
      if isAssignment rest.next.1.type then
        (parseExpression n 0 rest.next.2).bind fun right s =>
          ((assignedValue rest.next.1.type (readVariable s.frame name) right).reply s).bind
            fun value s => .ok value { s with frame := setVariable s.frame name value }
      else .ok (readVariable rest.frame name) rest
    | .lparen =>
      (parseExpression n 0 rest).bind fun value s =>
        if s.next.1.type ≠ .rparen then .fail "Expected ')'" s.next.2 else .ok value s.next.2
    | _ => .fail "Expected number, variable, or '('" rest

end

/-- The evaluation of an expanded text by `arithmetic_evaluate`: `parse_expression` and the check
for trailing tokens. -/
def evaluateText (n : ℕ) (s : MathParser δ W) : Result δ W :=
  (parseExpression n 0 s).bind fun value s =>
    if s.next.1.type ≠ .eof then .fail "Unexpected tokens after expression" s.next.2
    else .ok value s

end Migash.Arithmetic
