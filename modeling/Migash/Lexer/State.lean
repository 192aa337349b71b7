import Migash.Library.While
import Migash.Token

/-! # The state of the lexer

`lexer_t`, the access to its input and the construction of words and tokens.
The contracts of the source are faults here.
-/

namespace Migash

open Library

namespace Lexer

/-- The byte the source reads beyond the end of its input. -/
def nul : Char := Char.ofNat 0

/-- A single quote. -/
def squote : Char := Char.ofNat 39

/-- A double quote. -/
def dquote : Char := Char.ofNat 34

def backslash : Char := Char.ofNat 92

def backtick : Char := Char.ofNat 96

/-- An opening brace. -/
def lbrace : Char := Char.ofNat 123

/-- A closing brace. -/
def rbrace : Char := Char.ofNat 125

def newline : Char := Char.ofNat 10

def tab : Char := Char.ofNat 9

/-- `lex_status_t`. -/
inductive LexStatus where
  | ok | error | incomplete | needHeredoc | internalError
  deriving DecidableEq, Repr

/-- `lex_mode_t`. -/
inductive LexMode where
  | normal | singleQuote | doubleQuote | paramExpBraced | paramExpUnbraced | cmdSubstParen
  | cmdSubstBacktick | arithExp | heredocBody
  deriving DecidableEq, Repr

/-- `heredoc_entry_t`. -/
structure HeredocEntry where
  delimiter : List Char
  tokenIndex : ℕ
  stripTabs : Bool
  delimiterQuoted : Bool
  deriving DecidableEq, Repr

end Lexer

open Lexer in
/-- `lexer_t`. The top of the mode stack is its head. The operator buffer, which only the
arithmetic expansions use and which they clear on entry and on exit, is a variable of their loop. -/
structure Lexer where
  input : List Char
  pos : ℕ := 0
  lineNo : ℕ := 1
  colNo : ℕ := 1
  tokStartLine : ℕ := 1
  tokStartCol : ℕ := 1
  modeStack : List LexMode := []
  currentToken : Option Token := none
  inWord : Bool := false
  tokens : List Token := []
  heredocQueue : List HeredocEntry := []
  heredocIndex : ℕ := 0
  readingHeredoc : Bool := false
  atCommandStart : Bool := true
  errorMsg : Option String := none
  errorLine : ℕ := 0
  errorCol : ℕ := 0
  deriving DecidableEq, Repr

namespace Lexer

/-! ## Modes -/

/-- `lexer_push_mode`. -/
def lexerPushMode (lx : Lexer) (mode : LexMode) : Lexer :=
  { lx with modeStack := mode :: lx.modeStack }

/-- `lexer_pop_mode`, without the mode it returns. -/
def lexerPopMode (lx : Lexer) : Lexer := { lx with modeStack := lx.modeStack.tail }

/-- `lexer_current_mode`. -/
def lexerCurrentMode (lx : Lexer) : LexMode := lx.modeStack.headD .normal

/-- `lexer_in_mode`. -/
def lexerInMode (lx : Lexer) (mode : LexMode) : Bool := lx.modeStack.contains mode

/-! ## Input -/

/-- The input from the current position on. -/
def rest (lx : Lexer) : List Char := lx.input.drop lx.pos

/-- `lexer_peek_ahead`. -/
def lexerPeekAhead (lx : Lexer) (offset : ℕ) : Char := lx.input.getD (lx.pos + offset) nul

/-- `lexer_peek`. -/
def lexerPeek (lx : Lexer) : Char := lx.lexerPeekAhead 0

/-- `lexer_at_end`. -/
def lexerAtEnd (lx : Lexer) : Bool := lx.input.length ≤ lx.pos

/-- `lexer_input_starts_with`. -/
def lexerInputStartsWith (lx : Lexer) (text : List Char) : Bool := text.isPrefixOf lx.rest

/-- `lexer_peek_integer`: the value and the number of digits, up to the first one with which the
value would leave the range of an `int`. -/
def lexerPeekInteger (lx : Lexer) : ℕ × ℕ := go 0 0 lx.rest
where
  /-- The digits of `cs`, after `count` digits with the given value. -/
  go (value count : ℕ) : List Char → ℕ × ℕ
    | [] => (value, count)
    | c :: cs =>
      let digit := c.toNat - 48
      if !c.isDigit ∨ value > (2147483647 - digit) / 10 then (value, count)
      else go (value * 10 + digit) (count + 1) cs

/-- One character further, with its line and column. -/
def advanced (lx : Lexer) : Lexer :=
  if lx.lexerPeek = newline then { lx with pos := lx.pos + 1, lineNo := lx.lineNo + 1, colNo := 1 }
  else { lx with pos := lx.pos + 1, colNo := lx.colNo + 1 }

/-- `n` characters further. -/
def advancedBy : ℕ → Lexer → Lexer
  | 0, lx => lx
  | n + 1, lx => advancedBy n lx.advanced

/-- `lexer_advance`, without the character it returns. -/
def lexerAdvance (lx : Lexer) : Except Fault Lexer :=
  if lx.pos < lx.input.length then .ok lx.advanced
  else .error (.contract "lx->pos < string_length(lx->input)")

/-- `lexer_advance_n_chars`. -/
def lexerAdvanceNChars (lx : Lexer) (n : ℕ) : Except Fault Lexer :=
  if lx.pos + n ≤ lx.input.length then .ok (lx.advancedBy n)
  else .error (.contract "lx->pos + n <= string_length(lx->input)")

/-- The loops that advance while the next character satisfies `p`. -/
def advancedWhile (lx : Lexer) (p : Char → Bool) : Lexer :=
  lx.advancedBy (lx.rest.takeWhile p).length

/-- `lexer_skip_whitespace`. -/
def lexerSkipWhitespace (lx : Lexer) : Lexer := lx.advancedWhile fun c => c = ' ' ∨ c = tab

/-- `lexer_set_error`. -/
def lexerSetError (lx : Lexer) (text : String) : Lexer :=
  { lx with errorMsg := some text, errorLine := lx.lineNo, errorCol := lx.colNo }

/-- `lexer_is_metachar`. -/
def lexerIsMetachar (c : Char) : Bool := ['|', '&', ';', '(', ')', '<', '>'].contains c

end Lexer

/-! ## Words -/

namespace Token

/-- `lexer_append_literal_char_to_word` and its single- and double-quoted forms: the character
goes into the last part, if that is a literal with the same quoting, or into a new one. -/
def appendChar (tok : Token) (singleQuoted doubleQuoted : Bool) (c : Char) : Token :=
  let fresh : Part :=
    { type := .literal, text := some (String.ofList [c]), wasSingleQuoted := singleQuoted,
      wasDoubleQuoted := doubleQuoted }
  match tok.parts.getLast? with
  | some last =>
    if last.type = .literal ∧ last.wasSingleQuoted = singleQuoted ∧
        last.wasDoubleQuoted = doubleQuoted then
      { tok with parts := tok.parts.dropLast ++
          [{ last with text := last.text.map fun text => text.push c }] }
    else { tok with parts := tok.parts ++ [fresh] }
  | none => { tok with parts := [fresh] }

/-- `token_add_part`, with one of the flags its callers set: the others are set anew when the word
ends. -/
def addPart (tok : Token) (part : Part) : Token :=
  { tok with parts := tok.parts ++ [part], needsExpansion := true }

/-- The content of a here-document grows. -/
def appendContent (tok : Token) (text : List Char) : Token :=
  { tok with heredocContent := tok.heredocContent.map fun content => content ++ String.ofList text }

/-- `try_promote_to_assignment`. A token that is not promoted is the word it was created as. -/
def tryPromoteToAssignment (tok : Token) : Token :=
  match tok.hasEqualsBeforeQuote, tok.parts with
  | true, first :: others =>
    let text := (first.text.getD "").toList
    let name := text.takeWhile (· ≠ '=')
    let value := text.drop (name.length + 1)
    if first.type ≠ .literal ∨ name = [] ∨ name.length = text.length ∨
        value = [] ∧ others = [] then { tok with type := .word }
    else
      { tok with
        type := .assignmentWord
        parts := []
        assignmentName := some (String.ofList name)
        assignmentValue :=
          if value = [] then others
          else { type := .literal, text := some (String.ofList value) } :: others }
  | _, _ => { tok with type := .word }

/-- `token_recompute_expansion_flags`. -/
def recomputeExpansionFlags (tok : Token) : Token :=
  let parts := if tok.type = .word then tok.parts else []
  let expansions := parts.filter fun part => part.type ≠ .literal
  let unquoted (part : Part) := !part.wasSingleQuoted && !part.wasDoubleQuoted
  { tok with
    needsExpansion := expansions ≠ []
    needsFieldSplitting := expansions.any fun part => part.type ≠ .tilde && unquoted part
    needsPathnameExpansion := parts.any fun part => part.type = .literal && unquoted part &&
      (part.text.getD "").toList.any fun c => c = '*' ∨ c = '?' ∨ c = '[' }

end Token

namespace Lexer

/-- `lexer_start_word`. -/
def lexerStartWord (lx : Lexer) : Except Fault Lexer :=
  if lx.currentToken ≠ none then .error (.contract "lx->current_token == NULL")
  else if lx.inWord then .error (.contract "!lx->in_word")
  else .ok { lx with
    currentToken := some { type := .word }
    tokStartLine := lx.lineNo
    tokStartCol := lx.colNo
    inWord := true }

/-- The start of the functions that need a word to build on. -/
def ensureWord (lx : Lexer) : Except Fault Lexer :=
  if lx.inWord then .ok lx else lx.lexerStartWord

/-- A change of the word under construction. -/
def onWord (lx : Lexer) (f : Token → Token) : Except Fault Lexer :=
  match lx.currentToken with
  | some tok => .ok { lx with currentToken := some (f tok) }
  | none => .error (.contract "lx->current_token != NULL")

/-- `lexer_append_literal_char_to_word`. -/
def lexerAppendLiteralCharToWord (lx : Lexer) (c : Char) : Except Fault Lexer :=
  lx.onWord fun tok => tok.appendChar false false c

/-- `lexer_append_literal_cstr_to_word`. -/
def lexerAppendLiteralCstrToWord (lx : Lexer) (text : List Char) : Except Fault Lexer :=
  if text = [] then .error (.contract "strlen(str) > 0")
  else lx.onWord fun tok => text.foldl (fun tok c => tok.appendChar false false c) tok

/-- The token that `lexer_finalize_word` makes of the word under construction. -/
def finalized (lx : Lexer) (tok : Token) : Token :=
  { tok.tryPromoteToAssignment.recomputeExpansionFlags with
    firstLine := lx.tokStartLine, firstColumn := lx.tokStartCol }

/-- `lexer_finalize_word`. -/
def lexerFinalizeWord (lx : Lexer) : Except Fault Lexer :=
  match lx.currentToken with
  | some tok =>
    .ok { lx with
      tokens := lx.tokens ++ [lx.finalized tok]
      currentToken := none
      inWord := false
      atCommandStart := false }
  | none => .error (.contract "lx->current_token != NULL")

/-- The token is put at the end of the list. -/
def append (lx : Lexer) (tok : Token) : Lexer := { lx with tokens := lx.tokens ++ [tok] }

/-- A token of the given type at the current position. -/
def tokenHere (lx : Lexer) (type : TokenType) : Token :=
  { type, firstLine := lx.lineNo, firstColumn := lx.colNo }

/-- `lexer_emit_token`. No caller passes `TOKEN_WORD` or `TOKEN_IO_NUMBER`. -/
def lexerEmitToken (lx : Lexer) (type : TokenType) : Except Fault Lexer :=
  if lx.currentToken ≠ none then .error (.contract "lx->current_token == NULL")
  else .ok { lx.append (lx.tokenHere type) with
    atCommandStart := [.semi, .newline, .andIf, .orIf, .pipe].contains type }

/-- `lexer_emit_io_number_token`. -/
def lexerEmitIoNumberToken (lx : Lexer) (ioNumber : ℕ) : Except Fault Lexer :=
  if lx.currentToken ≠ none then .error (.contract "lx->current_token == NULL")
  else .ok (lx.append { lx.tokenHere .ioNumber with ioNumber })

/-- `lexer_emit_io_location_token`, which has no contract on the word under construction. -/
def lexerEmitIoLocationToken (lx : Lexer) (ioLocation : List Char) : Lexer :=
  lx.append { lx.tokenHere .ioLocation with ioLocation := some (String.ofList ioLocation) }

/-- `lexer_queue_heredoc`. -/
def lexerQueueHeredoc (lx : Lexer) (delimiter : List Char) (stripTabs delimiterQuoted : Bool) :
    Lexer :=
  { lx with heredocQueue := lx.heredocQueue ++
      [{ delimiter, tokenIndex := lx.tokens.length, stripTabs, delimiterQuoted }] }

end Lexer

end Migash
