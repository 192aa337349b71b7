import Migash.Arithmetic.Parse

/-! # Expression trees

What an arithmetic expression says: trees, the text with no more parentheses
than the precedences of C need, and two ways to run them. `eval` is C; `exec` is
what is left of C when every operand is evaluated.
-/

namespace Migash.Arithmetic

open Exec (Shell)

/-! ## Trees -/

/-- How a number is written. -/
inductive Radix where
  | decimal | octal | hex | hexUpper
  deriving DecidableEq, Repr

namespace Radix

def lead : Radix → List Char
  | decimal => []
  | octal => ['0']
  | hex => ['0', 'x']
  | hexUpper => ['0', 'X']

def base : Radix → ℕ
  | decimal => 10
  | octal => 8
  | hex | hexUpper => 16

def digit : Radix → Char → Bool
  | decimal => Char.isDigit
  | octal => isOctalDigit
  | hex | hexUpper => isHexDigit

end Radix

/-- An integer literal. -/
structure Literal where
  radix : Radix
  digits : List Char
  nonempty : digits ≠ []
  valid : ∀ c ∈ digits, radix.digit c = true
  decimal : radix = .decimal → digits = ['0'] ∨ digits.head? ≠ some '0'

def Literal.text (l : Literal) : List Char := l.radix.lead ++ l.digits

def Literal.value (l : Literal) : ℤ := digitsValue l.radix.base l.digits

/-- The name of a variable. -/
structure Name where
  first : Char
  others : List Char
  start : isAlphaOrUnderscore first = true
  valid : ∀ c ∈ others, isAlnumOrUnderscore c = true

def Name.text (x : Name) : List Char := x.first :: x.others

def Name.toString (x : Name) : String := String.ofList x.text

/-- The unary operators. -/
inductive UnaryOp where
  | plus | minus | bitNot | logicalNot
  deriving DecidableEq, Repr

def UnaryOp.type : UnaryOp → MathTokenType
  | plus => .plus
  | minus => .minus
  | bitNot => .bitNot
  | logicalNot => .logicalNot

/-- The binary operators that evaluate both operands. -/
inductive BinaryOp where
  | multiply | divide | modulo | plus | minus | leftShift | rightShift
  | less | lessEqual | greater | greaterEqual | equal | notEqual | bitAnd | bitXor | bitOr
  deriving DecidableEq, Repr

def BinaryOp.type : BinaryOp → MathTokenType
  | multiply => .multiply
  | divide => .divide
  | modulo => .modulo
  | plus => .plus
  | minus => .minus
  | leftShift => .leftShift
  | rightShift => .rightShift
  | less => .less
  | lessEqual => .lessEqual
  | greater => .greater
  | greaterEqual => .greaterEqual
  | equal => .equal
  | notEqual => .notEqual
  | bitAnd => .bitAnd
  | bitXor => .bitXor
  | bitOr => .bitOr

/-- The assignment operators. -/
inductive AssignOp where
  | assign | multiply | divide | modulo | plus | minus | leftShift | rightShift | and | xor | or
  deriving DecidableEq, Repr

def AssignOp.type : AssignOp → MathTokenType
  | assign => .assign
  | multiply => .multiplyAssign
  | divide => .divideAssign
  | modulo => .moduloAssign
  | plus => .plusAssign
  | minus => .minusAssign
  | leftShift => .leftShiftAssign
  | rightShift => .rightShiftAssign
  | and => .andAssign
  | xor => .xorAssign
  | or => .orAssign

/-- An arithmetic expression. -/
inductive Expr where
  | literal (l : Literal)
  | var (x : Name)
  | paren (e : Expr)
  | unary (op : UnaryOp) (e : Expr)
  | binary (op : BinaryOp) (a b : Expr)
  | and (a b : Expr)
  | or (a b : Expr)
  | cond (c a b : Expr)
  | assign (x : Name) (op : AssignOp) (e : Expr)

/-! ## Texts -/

/-- How an operator is written. -/
def MathTokenType.spelling : MathTokenType → List Char
  | .lparen => ['(']
  | .rparen => [')']
  | .plus => ['+']
  | .minus => ['-']
  | .multiply => ['*']
  | .divide => ['/']
  | .modulo => ['%']
  | .bitNot => ['~']
  | .logicalNot => ['!']
  | .leftShift => ['<', '<']
  | .rightShift => ['>', '>']
  | .less => ['<']
  | .greater => ['>']
  | .lessEqual => ['<', '=']
  | .greaterEqual => ['>', '=']
  | .equal => ['=', '=']
  | .notEqual => ['!', '=']
  | .bitAnd => ['&']
  | .bitXor => ['^']
  | .bitOr => ['|']
  | .logicalAnd => ['&', '&']
  | .logicalOr => ['|', '|']
  | .question => ['?']
  | .colon => [':']
  | .assign => ['=']
  | .multiplyAssign => ['*', '=']
  | .divideAssign => ['/', '=']
  | .moduloAssign => ['%', '=']
  | .plusAssign => ['+', '=']
  | .minusAssign => ['-', '=']
  | .leftShiftAssign => ['<', '<', '=']
  | .rightShiftAssign => ['>', '>', '=']
  | .andAssign => ['&', '=']
  | .xorAssign => ['^', '=']
  | .orAssign => ['|', '=']
  | .comma => [',']
  | .number | .variable | .eof => []

namespace Expr

/-- How tightly the outermost operator binds. -/
def level : Expr → ℤ
  | literal _ | var _ | paren _ => 15
  | unary _ _ => 14
  | binary op _ _ => getPrecedence op.type
  | and _ _ => getPrecedence .logicalAnd
  | or _ _ => getPrecedence .logicalOr
  | cond _ _ _ => getPrecedence .question
  | assign _ _ _ => 2

/-- A text of the given level where an operand of level `p` must stand. -/
def wrap (p level : ℤ) (text : List Char) : List Char :=
  if level < p then '(' :: (text ++ [')']) else text

/-- The expression in C, with the parentheses its precedences require. All binary operators are
left-associative; an assignment and `?:` group to the right. -/
def text : Expr → List Char
  | literal l => l.text
  | var x => x.text
  | paren e => '(' :: (e.text ++ [')'])
  | unary op e => op.type.spelling ++ wrap 14 e.level e.text
  | binary op a b =>
    let q := getPrecedence op.type
    wrap q a.level a.text ++ (op.type.spelling ++ wrap (q + 1) b.level b.text)
  | and a b =>
    wrap 5 a.level a.text ++ (MathTokenType.logicalAnd.spelling ++ wrap 6 b.level b.text)
  | or a b => wrap 4 a.level a.text ++ (MathTokenType.logicalOr.spelling ++ wrap 5 b.level b.text)
  | cond c a b =>
    wrap 4 c.level c.text ++ ('?' :: (a.text ++ (':' :: wrap 3 b.level b.text)))
  | assign x op e => x.text ++ (op.type.spelling ++ e.text)

end Expr

/-! ## Evaluation -/

def Outcome.value? : Outcome → Option ℤ
  | .value v => some v
  | _ => none

namespace Expr

variable {δ W : Type}

/-- The value of the expression and the state behind it under C: `&&`, `||` and `?:` leave an
operand out. There is none where an operand that is evaluated has an error. -/
def eval : Expr → Shell δ W → Option (ℤ × Shell δ W)
  | literal l, s => some (wrapLong l.value, s)
  | var x, s => some (readVariable s x.toString, s)
  | paren e, s => e.eval s
  | unary op e, s => (e.eval s).map fun (v, s) => (applyUnary op.type v, s)
  | binary op a b, s => do
    let (left, s) ← a.eval s
    let (right, s) ← b.eval s
    let v ← (applyBinary op.type left right).value?
    return (v, s)
  | and a b, s => do
    let (left, s) ← a.eval s
    if left = 0 then return (0, s)
    let (right, s) ← b.eval s
    return (truth (right ≠ 0), s)
  | or a b, s => do
    let (left, s) ← a.eval s
    if left ≠ 0 then return (1, s)
    let (right, s) ← b.eval s
    return (truth (right ≠ 0), s)
  | cond c a b, s => do
    let (v, s) ← c.eval s
    if v ≠ 0 then a.eval s else b.eval s
  | assign x op e, s => do
    let (right, s) ← e.eval s
    let v ← (assignedValue op.type (readVariable s x.toString) right).value?
    return (v, setVariable s x.toString v)

/-- The same where every operand is evaluated. There is nothing where `&&` or `||` would leave out
its right operand. -/
def exec : Expr → Shell δ W → Option (ℤ × Shell δ W)
  | literal l, s => some (wrapLong l.value, s)
  | var x, s => some (readVariable s x.toString, s)
  | paren e, s => e.exec s
  | unary op e, s => (e.exec s).map fun (v, s) => (applyUnary op.type v, s)
  | binary op a b, s => do
    let (left, s) ← a.exec s
    let (right, s) ← b.exec s
    let v ← (applyBinary op.type left right).value?
    return (v, s)
  | and a b, s => do
    let (left, s) ← a.exec s
    if left = 0 then none
    let (right, s) ← b.exec s
    return (truth (right ≠ 0), s)
  | or a b, s => do
    let (left, s) ← a.exec s
    if left ≠ 0 then none
    let (right, s) ← b.exec s
    return (truth (right ≠ 0), s)
  | cond c a b, s => do
    let (v, s) ← c.exec s
    let (trueValue, s) ← a.exec s
    let (falseValue, s) ← b.exec s
    return (if v ≠ 0 then trueValue else falseValue, s)
  | assign x op e, s => do
    let (right, s) ← e.exec s
    let v ← (assignedValue op.type (readVariable s x.toString) right).value?
    return (v, setVariable s x.toString v)

/-- The assignments in an expression. -/
def assignments : Expr → ℕ
  | literal _ | var _ => 0
  | paren e | unary _ e => e.assignments
  | binary _ a b | and a b | or a b => a.assignments + b.assignments
  | cond c a b => c.assignments + a.assignments + b.assignments
  | assign _ _ e => e.assignments + 1

end Expr

end Migash.Arithmetic
