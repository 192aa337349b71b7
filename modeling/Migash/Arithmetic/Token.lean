import Migash.Numeric

/-! # The tokens of arithmetic expressions

`get_token`, on the text that is left. A name that ends the text leaves the
source at position -1, where it reads the end of the text just as well.
-/

namespace Migash.Arithmetic

/-- `math_token_type_t`. -/
inductive MathTokenType where
  | number | variable | lparen | rparen
  | plus | minus | multiply | divide | modulo | bitNot | logicalNot | leftShift | rightShift
  | less | greater | lessEqual | greaterEqual | equal | notEqual | bitAnd | bitXor | bitOr
  | logicalAnd | logicalOr | question | colon
  | assign | multiplyAssign | divideAssign | moduloAssign | plusAssign | minusAssign
  | leftShiftAssign | rightShiftAssign | andAssign | xorAssign | orAssign
  | comma | eof
  deriving DecidableEq, Repr

/-- `math_token_t`. -/
structure MathToken where
  type : MathTokenType
  number : ℤ := 0
  name : List Char := []
  deriving DecidableEq, Repr

/-- The value that a `long` has after an overflow, which C leaves undefined. -/
def wrapLong (value : ℤ) : ℤ := Int.bmod value (2 ^ 64)

def isAlphaOrUnderscore (c : Char) : Bool := c.isAlpha || c = '_'

def isAlnumOrUnderscore (c : Char) : Bool := c.isAlphanum || c = '_'

def isOctalDigit (c : Char) : Bool := '0' ≤ c && c ≤ '7'

def isHexDigit (c : Char) : Bool := c.isDigit || 'a' ≤ c && c ≤ 'f' || 'A' ≤ c && c ≤ 'F'

/-- The value of a digit. -/
def digitValue (c : Char) : ℕ :=
  if 'a' ≤ c && c ≤ 'f' then c.toNat - 'a'.toNat + 10
  else if 'A' ≤ c && c ≤ 'F' then c.toNat - 'A'.toNat + 10
  else c.toNat - '0'.toNat

/-- The value of digits in the given base. -/
def digitsValue (base : ℕ) (digits : List Char) : ℕ :=
  digits.foldl (fun n d => n * base + digitValue d) 0

/-- A number token made of the longest run of digits. -/
def numberToken (base : ℕ) (isBaseDigit : Char → Bool) (text : List Char) :
    MathToken × List Char :=
  ({ type := .number, number := wrapLong (digitsValue base (text.takeWhile isBaseDigit)) },
    text.dropWhile isBaseDigit)

/-- The numbers of `get_token`. -/
def getNumber : List Char → MathToken × List Char
  | '0' :: rest =>
    match rest with
    | next :: digits =>
      if next = 'x' ∨ next = 'X' then numberToken 16 isHexDigit digits
      else if isOctalDigit next then numberToken 8 isOctalDigit rest
      else ({ type := .number }, rest)
    | [] => ({ type := .number }, [])
  | text => numberToken 10 Char.isDigit text

/-- The operators of `get_token`. Any other character ends the expression. -/
def getOperator (c : Char) (rest : List Char) : MathTokenType × List Char :=
  let orAssign (long short : MathTokenType) :=
    if rest.head? = some '=' then (long, rest.tail) else (short, rest)
  match c with
  | '(' => (.lparen, rest)
  | ')' => (.rparen, rest)
  | '+' => orAssign .plusAssign .plus
  | '-' => orAssign .minusAssign .minus
  | '*' => orAssign .multiplyAssign .multiply
  | '/' => orAssign .divideAssign .divide
  | '%' => orAssign .moduloAssign .modulo
  | '~' => (.bitNot, rest)
  | '!' => orAssign .notEqual .logicalNot
  | '<' =>
    if rest.head? = some '<' then
      if rest.tail.head? = some '=' then (.leftShiftAssign, rest.tail.tail)
      else (.leftShift, rest.tail)
    else orAssign .lessEqual .less
  | '>' =>
    if rest.head? = some '>' then
      if rest.tail.head? = some '=' then (.rightShiftAssign, rest.tail.tail)
      else (.rightShift, rest.tail)
    else orAssign .greaterEqual .greater
  | '=' => orAssign .equal .assign
  | '&' => if rest.head? = some '&' then (.logicalAnd, rest.tail) else orAssign .andAssign .bitAnd
  | '^' => orAssign .xorAssign .bitXor
  | '|' => if rest.head? = some '|' then (.logicalOr, rest.tail) else orAssign .orAssign .bitOr
  | '?' => (.question, rest)
  | ':' => (.colon, rest)
  | ',' => (.comma, rest)
  | _ => (.eof, rest)

/-- `get_token`. -/
def getToken (text : List Char) : MathToken × List Char :=
  match text.dropWhile isspace with
  | [] => ({ type := .eof }, [])
  | c :: rest =>
    if c.isDigit then getNumber (c :: rest)
    else if isAlphaOrUnderscore c then
      ({ type := .variable, name := (c :: rest).takeWhile isAlnumOrUnderscore },
        (c :: rest).dropWhile isAlnumOrUnderscore)
    else
      let (type, rest) := getOperator c rest
      ({ type }, rest)

/-- `get_precedence`. -/
def getPrecedence : MathTokenType → ℤ
  | .comma => 1
  | .question => 3
  | .logicalOr => 4
  | .logicalAnd => 5
  | .bitOr => 6
  | .bitXor => 7
  | .bitAnd => 8
  | .equal | .notEqual => 9
  | .less | .greater | .lessEqual | .greaterEqual => 10
  | .leftShift | .rightShift => 11
  | .plus | .minus => 12
  | .multiply | .divide | .modulo => 13
  | _ => -1

/-- `is_right_associative`. -/
def isRightAssociative (type : MathTokenType) : Bool := type = .question

/-- The tokens after which `parse_primary` assigns. -/
def isAssignment (type : MathTokenType) : Bool :=
  [.assign, .multiplyAssign, .divideAssign, .moduloAssign, .plusAssign, .minusAssign,
    .leftShiftAssign, .rightShiftAssign, .andAssign, .xorAssign, .orAssign].contains type

end Migash.Arithmetic
