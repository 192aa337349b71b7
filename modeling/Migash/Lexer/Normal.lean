import Migash.Lexer.Modes

/-! # The normal mode of the lexer

`lexer_process_one_normal_token` with the operators, the numbers and locations
of redirections and the delimiters of here-documents.
-/

namespace Migash.Lexer

open Library

/-- `is_delimiter_char`. -/
def isDelimiterChar (c : Char) : Bool :=
  [' ', tab, newline, ';', '&', '|', '<', '>', '(', ')'].contains c

/-- `is_word_char`. -/
def isWordChar (c : Char) : Bool := !(isDelimiterChar c || c = nul)

/-- `normal_mode_operators`, the longest first. -/
def normalModeOperators : List (List Char × TokenType) :=
  [(['<', '<', '-'], .dlessdash),
   (['&', '&'], .andIf), (['|', '|'], .orIf), ([';', ';'], .dsemi), (['<', '<'], .dless),
   (['>', '>'], .dgreat), (['<', '&'], .lessand), (['>', '&'], .greatand),
   (['<', '>'], .lessgreat), (['>', '|'], .clobber),
   (['|'], .pipe), ([';'], .semi), (['&'], .amper), (['('], .lparen), ([')'], .rparen),
   (['>'], .greater), (['<'], .less)]

/-- `match_operator`, with the operator's text. -/
def matchOperator? (lx : Lexer) : Option (List Char × TokenType) :=
  normalModeOperators.find? fun op => lx.lexerInputStartsWith op.1

/-- `is_redirection_start_char`. -/
def isRedirectionStartChar (c : Char) : Bool := c = '<' ∨ c = '>'

/-- `previous_token_allows_io_number`. -/
def previousTokenAllowsIoNumber (lx : Lexer) : Bool :=
  match lx.tokens.getLast? with
  | some last =>
    [TokenType.newline, .semi, .amper, .pipe, .lparen, .andIf, .orIf, .eof].contains last.type
  | none => true

/-- `heredoc_previous_token_allows_io_number`. -/
def heredocPreviousTokenAllowsIoNumber (lx : Lexer) : Bool :=
  match lx.tokens.getLast? with
  | some last => [TokenType.newline, .semi, .amper, .pipe, .lparen, .eof].contains last.type
  | none => true

/-- The number that stands directly before a redirection operator: its value and the number of its
digits. -/
def integerBeforeRedirection? (lx : Lexer) : Option (ℕ × ℕ) :=
  let (value, digits) := lx.lexerPeekInteger
  if lx.lexerPeek.isDigit ∧ isRedirectionStartChar (lx.lexerPeekAhead digits) then
    some (value, digits)
  else none

/-- The number that `try_emit_io_number` makes a token of. -/
def ioNumber? (lx : Lexer) : Option (ℕ × ℕ) :=
  if lx.previousTokenAllowsIoNumber then lx.integerBeforeRedirection? else none

/-- The text that `try_emit_braced_io_location` makes a token of. -/
def bracedIoLocation? (lx : Lexer) : Option (List Char) :=
  match lx.rest with
  | opening :: cs =>
    let name := cs.takeWhile isNameChar
    match cs.drop name.length with
    | closing :: next :: _ =>
      if opening = lbrace ∧ name ≠ [] ∧ closing = rbrace ∧ isRedirectionStartChar next then
        some (opening :: name ++ [closing])
      else none
    | _ => none
  | [] => none

/-! ## Here-document delimiters -/

/-- What `get_heredoc_delimiter` has read: the delimiter, whether it was quoted, the number of
characters consumed, and the error it ends with. -/
structure DelimiterScan where
  text : List Char := []
  quoted : Bool := false
  consumed : ℕ := 0
  error : Option String := none
  deriving DecidableEq, Repr

/-- `n` characters before what is read next, which `cs` are the text of. -/
def DelimiterScan.before (s : DelimiterScan) (cs : List Char) (n : ℕ) (quoted : Bool) :
    DelimiterScan :=
  { s with text := cs ++ s.text, consumed := n + s.consumed, quoted := quoted || s.quoted }

/-- The end of a quoted delimiter, with the blanks the source skips after it. -/
def DelimiterScan.close (cs : List Char) : DelimiterScan :=
  { consumed := 1 + (cs.takeWhile fun c => c = ' ' ∨ c = tab).length }

/-- The inside of a single-quoted delimiter. -/
def scanSquotedDelimiter : List Char → DelimiterScan
  | [] => { error := some "unterminated single-quoted heredoc delimiter" }
  | c :: cs =>
    if c = squote then .close cs
    else if c = newline then { error := some "unterminated single-quoted heredoc delimiter" }
    else (scanSquotedDelimiter cs).before [c] 1 true

/-- The inside of a double-quoted delimiter. -/
def scanDquotedDelimiter : List Char → DelimiterScan
  | [] => { error := some "unterminated double-quoted heredoc delimiter" }
  | c :: cs =>
    if c = dquote then .close cs
    else if c = newline then { error := some "unterminated double-quoted heredoc delimiter" }
    else
      match cs with
      | next :: cs' =>
        if c = backslash ∧ next = newline then (scanDquotedDelimiter cs').before [] 2 true
        else (scanDquotedDelimiter (next :: cs')).before [c] 1 true
      | [] => (scanDquotedDelimiter []).before [c] 1 true

/-- An unquoted delimiter. -/
def scanPlainDelimiter : List Char → DelimiterScan
  | [] => {}
  | c :: cs =>
    if c = ' ' ∨ c = tab ∨ c = newline ∨ lexerIsMetachar c then {}
    else
      match cs with
      | next :: cs' =>
        if c = backslash then
          if next = newline then (scanPlainDelimiter cs').before [] 2 false
          else (scanPlainDelimiter cs').before [next] 2 true
        else (scanPlainDelimiter (next :: cs')).before [c] 1 false
      | [] => { text := [c], consumed := 1 }

/-- `get_heredoc_delimiter` on the text at which the delimiter starts, without the blanks it
skips before. -/
def getHeredocDelimiter : List Char → DelimiterScan
  | [] => { error := some "heredoc delimiter cannot be empty" }
  | c :: cs =>
    if c = newline then { error := some "heredoc delimiter cannot be empty" }
    else if c = squote then (scanSquotedDelimiter cs).before [] 1 true
    else if c = dquote then (scanDquotedDelimiter cs).before [] 1 true
    else
      let s := scanPlainDelimiter (c :: cs)
      if s.text = [] then { s with error := some "heredoc delimiter cannot be empty" } else s

/-- `heredoc_process_result_t`, with the lexer afterwards. -/
inductive HeredocResult where
  | notHeredoc (lx : Lexer)
  | success (lx : Lexer)
  | error (lx : Lexer)

/-- The part of `try_process_heredoc` that reads the delimiter and emits it as a word. -/
def processDelimiter (lx : Lexer) (stripTabs : Bool) : Except Fault HeredocResult := do
  let scan := getHeredocDelimiter lx.rest
  let lx := lx.advancedBy scan.consumed
  match scan.error with
  | some text => return .error (lx.lexerSetError text)
  | none =>
    let lx ← lx.lexerStartWord
    let lx ← lx.lexerAppendLiteralCstrToWord scan.text
    let lx ← lx.lexerFinalizeWord
    return .success (lx.lexerQueueHeredoc scan.text stripTabs scan.quoted)

/-- The part of `try_process_heredoc` that follows the number it may find. -/
def processOperator (lx : Lexer) : Except Fault HeredocResult := do
  if !lx.lexerInputStartsWith ['<', '<'] then return .notHeredoc lx
  let lx ← lx.lexerAdvanceNChars 2
  if lx.lexerPeek = '-' then
    let lx ← lx.lexerAdvance
    (← lx.lexerEmitToken .dlessdash).lexerSkipWhitespace.processDelimiter true
  else
    (← lx.lexerEmitToken .dless).lexerSkipWhitespace.processDelimiter false

/-- `try_process_heredoc`. Its number was tried before, on weaker terms. -/
def tryProcessHeredoc (lx : Lexer) : Except Fault HeredocResult := do
  match if lx.heredocPreviousTokenAllowsIoNumber then lx.integerBeforeRedirection? else none with
  | some (value, digits) =>
    let lx ← lx.lexerEmitIoNumberToken value
    (← lx.lexerAdvanceNChars digits).processOperator
  | none => lx.processOperator

/-! ## The loop -/

/-- The word under construction ends here, if there is one. -/
def endWord (lx : Lexer) : Except Fault Lexer :=
  if lx.inWord then lx.lexerFinalizeWord else pure lx

/-- The branch for the end of the input. -/
def endOfInput (lx : Lexer) : Except Fault (Next Lexer Answer) := do
  if !lx.inWord ∧ lx.currentToken ≠ none then
    return .done (.error, lx.lexerSetError "Unexpected end of input")
  let lx ← lx.endWord
  return .done (.ok, ← lx.lexerEmitToken .eof)

/-- The branch for a newline. -/
def newlineTurn (lx : Lexer) : Except Fault (Next Lexer Answer) := do
  let lx ← lx.endWord
  let lx ← lx.lexerAdvance
  let lx ← lx.lexerEmitToken .newline
  if lx.heredocQueue ≠ [] ∧ !lx.readingHeredoc then
    return .done (.incomplete,
      lexerPushMode { lx with readingHeredoc := true, heredocIndex := 0 } .heredocBody)
  return .again lx

/-- The character goes into the word, which is started for it if there is none. -/
def wordTurn (lx : Lexer) (c : Char) : Except Fault (Next Lexer Answer) := do
  let lx ← lx.ensureWord
  let lx ← lx.lexerAppendLiteralCharToWord c
  return .again (← lx.lexerAdvance)

/-- The branches for the characters that are neither blanks nor parts of an operator. -/
def characterTurn (lx : Lexer) : Except Fault (Next Lexer Answer) := do
  let c := lx.lexerPeek
  let next := lx.lexerPeekAhead 1
  if c = backslash then
    -- Nothing is consumed, so the next call finds the same backslash.
    if next = nul then return .done (.incomplete, lx)
    let lx ← lx.ensureWord
    let lx ← lx.lexerAdvance
    let lx ← lx.onWord fun tok => { tok.appendChar false false next with wasQuoted := true }
    return .again (← lx.lexerAdvance)
  if c = backtick then return ← lx.enter .cmdSubstBacktick 1
  if c = squote then return ← lx.enter .singleQuote 1
  if c = dquote then return ← lx.enter .doubleQuote 1
  if c = '$' then
    if next = nul then return .done (.incomplete, lx)
    if let some (mode, n) := lx.expansionAt? fun c => isWordChar c || isSpecialParamChar c then
      return ← lx.enter mode n
    return ← lx.wordTurn c
  if c = '#' then
    if !lx.inWord then return .again (lx.advancedWhile (· ≠ newline))
    -- The word that is to be started is already there.
    let lx ← lx.lexerStartWord
    return ← lx.wordTurn c
  if isWordChar c then
    let lx ← lx.ensureWord
    let lx ← lx.onWord fun tok =>
      { tok with hasEqualsBeforeQuote := tok.hasEqualsBeforeQuote || c = '=' && !tok.wasQuoted }
    return ← lx.wordTurn c
  return .done (.error, lx.lexerSetError s!"Unexpected character '{c}'")

/-- The branches for here-document operators, operators and characters. -/
def operatorTurn (lx : Lexer) : Except Fault (Next Lexer Answer) := do
  match ← lx.tryProcessHeredoc with
  | .success lx => return .again lx
  | .error lx => return .done (.error, lx)
  | .notHeredoc lx =>
    match lx.matchOperator? with
    | some (text, type) =>
      let lx ← lx.endWord
      let lx ← lx.lexerAdvanceNChars text.length
      return .done (.ok, ← lx.lexerEmitToken type)
    | none => lx.characterTurn

/-- The branches that `try_emit_io_number` and `try_emit_braced_io_location` come before. -/
def redirectionTurn (lx : Lexer) : Except Fault (Next Lexer Answer) := do
  match lx.ioNumber? with
  | some (value, digits) =>
    let lx ← lx.lexerEmitIoNumberToken value
    return .again (← lx.lexerAdvanceNChars digits)
  | none =>
    match lx.bracedIoLocation? with
    | some text =>
      return .again (← (lx.lexerEmitIoLocationToken text).lexerAdvanceNChars text.length)
    | none => lx.operatorTurn

/-- A turn of the loop of `lexer_process_one_normal_token`. -/
def normalTurn (lx : Lexer) : Except Fault (Next Lexer Answer) := do
  if lx.lexerAtEnd then return ← lx.endOfInput
  let c := lx.lexerPeek
  if c = backslash ∧ lx.lexerPeekAhead 1 = newline then
    let lx ← lx.lexerAdvance
    let lx ← lx.lexerAdvance
    if lx.lexerAtEnd then return .done (.incomplete, lx)
    return .again lx
  if c = ' ' ∨ c = tab then
    let lx ← lx.endWord
    return .again lx.lexerSkipWhitespace
  if c = newline then return ← lx.newlineTurn
  lx.redirectionTurn

/-- `lexer_process_one_normal_token`. -/
def lexerProcessOneNormalToken (lx : Lexer) : Except Fault Answer :=
  iterate normalTurn lx.turns lx

end Migash.Lexer
