import Migash.Lexer.State

/-! # The modes of the lexer

The functions that read the inside of quotes, expansions and here-documents.
Each loop is one turn, iterated: the number of turns is bounded by the input
that is left, since every turn advances.
-/

namespace Migash.Lexer

open Library

/-- The answer of a function of the lexer. -/
abbrev Answer := LexStatus × Lexer

/-- Enough turns for any loop over the input. -/
def turns (lx : Lexer) : ℕ := lx.input.length + 1

/-! ## Characters -/

/-- `is_name_start_char`. -/
def isNameStartChar (c : Char) : Bool := c.isAlpha || c = '_'

/-- `is_name_char`. -/
def isNameChar (c : Char) : Bool := c.isAlphanum || c = '_'

/-- `is_special_param_char` of the parameter expansions. -/
def isSpecialParamChar (c : Char) : Bool :=
  ['@', '*', '#', '?', '-', '$', '!'].contains c || c.isDigit

/-- `is_dquote_escapable`. -/
def isDquoteEscapable (c : Char) : Bool := ['$', backtick, dquote, backslash, newline].contains c

/-- `is_heredoc_escapable`. -/
def isHeredocEscapable (c : Char) : Bool := ['$', backtick, backslash, newline].contains c

/-- The part is quoted like the double quotes it is in, if any. -/
def quotedIn (lx : Lexer) (part : Part) : Part :=
  if lx.lexerInMode .doubleQuote then
    { part with wasSingleQuoted := false, wasDoubleQuoted := true }
  else part

/-! ## Quotes -/

/-- A turn of the loop of `lexer_process_squote`. -/
def squoteTurn (lx : Lexer) : Except Fault (Next Lexer Answer) := do
  if lx.lexerAtEnd then return .done (.incomplete, lx)
  let c := lx.lexerPeek
  if c = squote then
    let lx ← lx.lexerAdvance
    return .done (.ok, lx.lexerPopMode)
  let lx ← lx.onWord fun tok => tok.appendChar true false c
  return .again (← lx.lexerAdvance)

/-- The start of the functions for quotes. -/
def startQuoted (lx : Lexer) : Except Fault Lexer := do
  let lx ← lx.ensureWord
  lx.onWord fun tok => { tok with wasQuoted := true }

/-- `lexer_process_squote`. -/
def lexerProcessSquote (lx : Lexer) : Except Fault Answer := do
  let lx ← lx.startQuoted
  iterate squoteTurn lx.turns lx

/-- `lexer_append_dquote_char_to_word`. -/
def lexerAppendDquoteCharToWord (lx : Lexer) (c : Char) : Except Fault Lexer :=
  lx.onWord fun tok => tok.appendChar false true c

/-- The mode is entered and `n` characters are left behind. -/
def enter (lx : Lexer) (mode : LexMode) (n : ℕ) : Except Fault (Next Lexer Answer) := do
  return .done (.incomplete, ← (lx.lexerPushMode mode).lexerAdvanceNChars n)

/-- The expansion that starts with a `$`, if one does: its mode and the length of what opens it.
`canStart` are the characters an unbraced parameter can start with. -/
def expansionAt? (lx : Lexer) (canStart : Char → Bool) : Option (LexMode × ℕ) :=
  let c2 := lx.lexerPeekAhead 1
  if c2 = lbrace then some (.paramExpBraced, 2)
  else if c2 = '(' ∧ lx.lexerPeekAhead 2 = '(' then some (.arithExp, 3)
  else if c2 = '(' then some (.cmdSubstParen, 2)
  else if canStart c2 then some (.paramExpUnbraced, 1)
  else none

/-- A turn of the loop of `lexer_process_dquote`. -/
def dquoteTurn (lx : Lexer) : Except Fault (Next Lexer Answer) := do
  if lx.lexerAtEnd then return .done (.incomplete, lx)
  let c := lx.lexerPeek
  let next := lx.lexerPeekAhead 1
  if c = dquote then
    let lx ← lx.lexerAdvance
    return .done (.ok, lx.lexerPopMode)
  if c = backslash then
    -- Nothing is consumed, so the next call finds the same backslash.
    if next = nul then return .done (.incomplete, lx)
    let lx ← lx.lexerAdvance
    if isDquoteEscapable next then
      if next = newline then
        let lx ← lx.lexerAdvance
        if lx.lexerAtEnd then return .done (.incomplete, lx)
        return .again lx
      let lx ← lx.lexerAppendDquoteCharToWord next
      return .again (← lx.lexerAdvance)
    let lx ← lx.lexerAppendDquoteCharToWord backslash
    let lx ← lx.lexerAppendDquoteCharToWord next
    return .again (← lx.lexerAdvance)
  if c = backtick then return ← lx.enter .cmdSubstBacktick 1
  if c = '$' then
    if next = nul then return .done (.incomplete, lx)
    if let some (mode, n) := lx.expansionAt? fun c => isNameStartChar c || isSpecialParamChar c then
      return ← lx.enter mode n
  let lx ← lx.lexerAppendDquoteCharToWord c
  return .again (← lx.lexerAdvance)

/-- `lexer_process_dquote`. -/
def lexerProcessDquote (lx : Lexer) : Except Fault Answer := do
  let lx ← lx.startQuoted
  iterate dquoteTurn lx.turns lx

/-! ## Parameter expansions -/

/-- `lexer_add_param_part`. No caller passes an empty name. -/
def lexerAddParamPart (lx : Lexer) (name : List Char) (kind : ParamSubtype) (hasColon : Bool)
    (word : Option (List Char)) : Except Fault Lexer :=
  lx.onWord fun tok => tok.addPart <| lx.quotedIn
    { type := .parameter, paramName := some (String.ofList name), paramKind := kind, hasColon,
      word := word.map String.ofList }

/-- `lexer_process_param_exp_unbraced`. -/
def lexerProcessParamExpUnbraced (lx : Lexer) : Except Fault Answer := do
  let lx ← lx.ensureWord
  if lx.lexerAtEnd then return (.incomplete, lx)
  let c := lx.lexerPeek
  let name :=
    if isSpecialParamChar c then [c]
    else if isNameStartChar c then lx.rest.takeWhile isNameChar
    else []
  if name = [] then return (.error, lx.lexerSetError "Invalid parameter expansion")
  let lx ← lx.lexerAdvanceNChars name.length
  let lx ← lx.lexerAddParamPart name .plain false none
  return (.ok, lx.lexerPopMode)

/-- The operator of a braced expansion, without its colon: the kind of the expansion and the
operator's length. -/
def operatorAt? (lx : Lexer) (hasColon : Bool) : Option (ParamSubtype × ℕ) :=
  let c := lx.lexerPeek
  let doubled := lx.lexerPeekAhead 1 = c
  if c = '-' then some (.useDefault, 1)
  else if c = '=' then some (.assignDefault, 1)
  else if c = '?' then some (.errorIfUnset, 1)
  else if c = '+' then some (.useAlternate, 1)
  else if c = '%' ∧ !hasColon then
    if doubled then some (.removeLargeSuffix, 2) else some (.removeSmallSuffix, 1)
  else if c = '#' ∧ !hasColon then
    if doubled then some (.removeLargePrefix, 2) else some (.removeSmallPrefix, 1)
  else none

/-- The error text for a character that is no operator. -/
def operatorError (hasColon : Bool) (c : Char) : String :=
  if hasColon then
    if c = '%' then "bad substitution: invalid operator :%"
    else if c = '#' then "bad substitution: invalid operator :#"
    else "bad substitution: invalid operator after ':'"
  else s!"bad substitution: unexpected character '{c}'"

/-- The length of the word of a braced expansion, if the brace that closes it is in the text.
`inside` is the quote the text is in, `depth` the number of nested openings. -/
def wordLength? (inside : Option Char) (depth : ℕ) : List Char → Option ℕ
  | [] => none
  | c :: cs =>
    match inside with
    | some quote =>
      if c = quote then (wordLength? none depth cs).map (· + 1)
      else if c = backslash ∧ quote = dquote then
        match cs with
        | [] => none
        | _ :: cs => (wordLength? inside depth cs).map (· + 2)
      else (wordLength? inside depth cs).map (· + 1)
    | none =>
      if c = rbrace then
        match depth with
        | 0 => some 0
        | depth + 1 => (wordLength? none depth cs).map (· + 1)
      else if c = '$' then
        match cs with
        | [] => none
        | c2 :: cs' =>
          if c2 = lbrace ∨ c2 = '(' then (wordLength? none (depth + 1) cs').map (· + 2)
          else (wordLength? none depth (c2 :: cs')).map (· + 1)
      else if c = '(' then (wordLength? none (depth + 1) cs).map (· + 1)
      else if c = ')' then (wordLength? none (depth - 1) cs).map (· + 1)
      else if c = backslash then
        match cs with
        | [] => none
        | _ :: cs => (wordLength? none depth cs).map (· + 2)
      else if c = squote ∨ c = dquote then (wordLength? (some c) depth cs).map (· + 1)
      else (wordLength? none depth cs).map (· + 1)

/-- The part of `lexer_process_param_exp_braced` that follows the colon of the operator. -/
def bracedOperator (lx : Lexer) (hasColon : Bool) (name : List Char) : Except Fault Answer := do
  if lx.lexerAtEnd then return (.incomplete, lx)
  match lx.operatorAt? hasColon with
  | none => return (.error, lx.lexerSetError (operatorError hasColon lx.lexerPeek))
  | some (kind, n) =>
    let lx ← lx.lexerAdvanceNChars n
    match wordLength? none 0 lx.rest with
    | none => return (.incomplete, lx.advancedBy lx.rest.length)
    | some length =>
      let word := lx.rest.take length
      let lx ← lx.lexerAdvanceNChars (length + 1)
      let lx ← lx.lexerAddParamPart name kind hasColon (if word = [] then none else some word)
      return (.ok, lx.lexerPopMode)

/-- The part of `lexer_process_param_exp_braced` that follows the name. -/
def bracedTail (lx : Lexer) (isLength : Bool) (name : List Char) : Except Fault Answer := do
  if lx.lexerAtEnd then return (.incomplete, lx)
  if isLength then
    if lx.lexerPeek ≠ rbrace then
      return (.error, lx.lexerSetError
        ("bad substitution: expected '" ++ String.ofList [rbrace] ++ "' after $" ++
          String.ofList [lbrace] ++ "#name" ++ String.ofList [rbrace]))
    let lx ← lx.lexerAddParamPart name .length false none
    let lx ← lx.lexerAdvance
    return (.ok, lx.lexerPopMode)
  if lx.lexerPeek = rbrace then
    let lx ← lx.lexerAdvance
    let lx ← lx.lexerAddParamPart name .plain false none
    return (.ok, lx.lexerPopMode)
  if lx.lexerPeek = ':' then (← lx.lexerAdvance).bracedOperator true name
  else lx.bracedOperator false name

/-- The part of `lexer_process_param_exp_braced` that reads the name. The source's second check of
the parameter of a length never fails after the first. -/
def bracedName (lx : Lexer) (isLength : Bool) : Except Fault Answer := do
  if lx.lexerAtEnd then return (.incomplete, lx)
  let c := lx.lexerPeek
  if isSpecialParamChar c then
    (← lx.lexerAdvance).bracedTail isLength [c]
  else if isNameStartChar c then
    let name := lx.rest.takeWhile isNameChar
    (← lx.lexerAdvanceNChars name.length).bracedTail isLength name
  else if c = rbrace then
    return (.error, lx.lexerSetError
      ("bad substitution: empty parameter name in $" ++ String.ofList [lbrace, rbrace]))
  else
    return (.error, lx.lexerSetError
      s!"bad substitution: invalid character '{c}' in parameter name")

/-- `lexer_process_param_exp_braced`. The name it finds when it is called again is the rest of the
text, whatever it had read before. -/
def lexerProcessParamExpBraced (lx : Lexer) : Except Fault Answer := do
  let lx ← lx.ensureWord
  if lx.lexerAtEnd then return (.incomplete, lx)
  let c2 := lx.lexerPeekAhead 1
  if lx.lexerPeek = '#' ∧ (isNameStartChar c2 || c2.isDigit || c2 = '@' || c2 = '*') then
    (← lx.lexerAdvance).bracedName true
  else lx.bracedName false

/-! ## Command substitutions -/

/-- The state of the loop of `lexer_process_cmd_subst_paren`. -/
structure ParenScan where
  lx : Lexer
  startPos : ℕ
  parenDepth : ℕ := 1

/-- The part of a substitution is added to the word and its mode is left. -/
def closeExpansion (lx : Lexer) (type : PartType) (text : List Char) : Except Fault Lexer := do
  let lx ← lx.onWord fun tok =>
    tok.addPart (lx.quotedIn { type, text := some (String.ofList text) })
  return lx.lexerPopMode

/-- The line count of the branches for a backslash and a newline, which `lexer_advance` has
already changed. -/
def countLine (lx : Lexer) : Lexer := { lx with lineNo := lx.lineNo + 1, colNo := 1 }

/-- A turn of the loop of `lexer_process_cmd_subst_paren`. -/
def parenTurn (s : ParenScan) : Except Fault (Next ParenScan Answer) := do
  let lx := s.lx
  if lx.lexerAtEnd then return .done (.incomplete, lx)
  let c := lx.lexerPeek
  if c = ')' ∧ s.parenDepth = 1 then
    let lx ← lx.lexerAdvance
    let text := (lx.input.take (lx.pos - 1)).drop s.startPos
    return .done (.ok, ← lx.closeExpansion .commandSubst text)
  if c = backslash then
    let next := lx.lexerPeekAhead 1
    -- Nothing is consumed, so the next call finds the same backslash.
    if next = nul then return .done (.incomplete, lx)
    let lx ← lx.lexerAdvance
    let lx ← lx.lexerAdvance
    if next = newline then
      let lx := lx.countLine
      if lx.lexerAtEnd then return .done (.incomplete, lx)
      return .again { s with lx }
    return .again { s with lx }
  let lx ← lx.lexerAdvance
  let parenDepth :=
    if c = ')' then s.parenDepth - 1 else if c = '(' then s.parenDepth + 1 else s.parenDepth
  return .again { s with lx, parenDepth }

/-- `lexer_process_cmd_subst_paren`. -/
def lexerProcessCmdSubstParen (lx : Lexer) : Except Fault Answer := do
  let lx ← lx.ensureWord
  iterate parenTurn lx.turns { lx, startPos := lx.pos }

/-- The state of the loops that collect a text. -/
structure TextScan where
  lx : Lexer
  text : List Char := []

/-- A turn of the loop of `lexer_process_cmd_subst_backtick`. -/
def backtickTurn (s : TextScan) : Except Fault (Next TextScan Answer) := do
  let lx := s.lx
  if lx.lexerAtEnd then return .done (.incomplete, lx)
  let c := lx.lexerPeek
  if c = backtick then
    let lx ← lx.lexerAdvance
    return .done (.ok, ← lx.closeExpansion .commandSubst s.text)
  if c = backslash then
    let next := lx.lexerPeekAhead 1
    -- Nothing is consumed, so the next call finds the same backslash.
    if next = nul then return .done (.incomplete, lx)
    let lx ← lx.lexerAdvance
    let lx ← lx.lexerAdvance
    if next = newline then
      let lx := lx.countLine
      if lx.lexerAtEnd then return .done (.incomplete, lx)
      return .again { s with lx }
    if next = '$' ∨ next = backtick ∨ next = backslash ∨
        next = dquote ∧ !lx.lexerInMode .doubleQuote then
      return .again { lx, text := s.text ++ [next] }
    return .again { lx, text := s.text ++ [backslash, next] }
  return .again { lx := ← lx.lexerAdvance, text := s.text ++ [c] }

/-- `lexer_process_cmd_subst_backtick`. -/
def lexerProcessCmdSubstBacktick (lx : Lexer) : Except Fault Answer := do
  let lx ← lx.ensureWord
  iterate backtickTurn lx.turns { lx }

/-! ## Arithmetic expansions -/

/-- The state of the loop of `lexer_process_arith_exp`: the stack of openings is the operator
buffer. -/
structure ArithScan extends TextScan where
  stack : List Char := []

/-- A turn of the loop of `lexer_process_arith_exp`. -/
def arithTurn (s : ArithScan) : Except Fault (Next ArithScan Answer) := do
  let lx := s.lx
  if lx.lexerAtEnd then return .done (.incomplete, lx)
  let c := lx.lexerPeek
  let next := lx.lexerPeekAhead 1
  let failed (text : String) : Next ArithScan Answer := .done (.error, lx.lexerSetError text)
  if c = ')' ∧ s.stack = [] then
    if next = ')' then
      let lx ← lx.lexerAdvance
      let lx ← lx.lexerAdvance
      return .done (.ok, ← lx.closeExpansion .arithmetic s.text)
    if next = nul then
      return failed "Missing closing parentheses in arithmetic expansion"
    return failed "Unbalanced parentheses in arithmetic expansion"
  if c = '(' ∨ c = lbrace then
    return .again { lx := ← lx.lexerAdvance, text := s.text ++ [c], stack := c :: s.stack }
  if c = ')' ∨ c = rbrace then
    match s.stack with
    | [] =>
      return failed s!"Unbalanced delimiter '{c}' in arithmetic expansion"
    | opening :: stack =>
      if opening = '(' ∧ c ≠ ')' ∨ opening = lbrace ∧ c ≠ rbrace then
        return failed s!"Unbalanced delimiters in arithmetic expansion: '{opening}' vs '{c}'"
      return .again { lx := ← lx.lexerAdvance, text := s.text ++ [c], stack }
  if c = backslash ∧ (next = '$' ∨ next = backtick ∨ next = backslash) then
    let lx ← lx.lexerAdvance
    return .again { s with lx := ← lx.lexerAdvance, text := s.text ++ [next] }
  if c = backslash ∧ next = newline then
    let lx ← lx.lexerAdvance
    return .again { s with lx := ← lx.lexerAdvance }
  if c = '$' ∧ (next = '(' ∨ next = lbrace) then
    let lx ← lx.lexerAdvance
    return .again { lx := ← lx.lexerAdvance, text := s.text ++ [c, next], stack := next :: s.stack }
  return .again { s with lx := ← lx.lexerAdvance, text := s.text ++ [c] }

/-- `lexer_process_arith_exp`. -/
def lexerProcessArithExp (lx : Lexer) : Except Fault Answer := do
  let lx ← lx.ensureWord
  iterate arithTurn lx.turns { lx }

/-! ## Here-documents -/

/-- The end of the delimiter, if it stands at the current position. -/
def delimiterEnd? (lx : Lexer) (entry : HeredocEntry) : Option ℕ :=
  let tabs := (lx.rest.takeWhile (· = tab)).length
  let pos := if entry.stripTabs ∧ lx.pos + tabs < lx.input.length then lx.pos + tabs else lx.pos
  if entry.delimiter.isPrefixOf (lx.input.drop pos) then some (pos + entry.delimiter.length)
  else none

/-- `lexer_check_heredoc_delimiter`. At the end of the input the delimiter is consumed and not
reported. -/
def lexerCheckHeredocDelimiter (lx : Lexer) (entry : HeredocEntry) :
    Except Fault (Bool × Lexer) := do
  match lx.delimiterEnd? entry with
  | none => return (false, lx)
  | some pos =>
    if pos = lx.input.length then
      return (false, ← lx.lexerAdvanceNChars (pos - lx.pos))
    else if lx.input.getD pos nul = newline then
      return (true, ← lx.lexerAdvanceNChars (pos - lx.pos + 1))
    else return (false, lx)

/-- The content of a here-document goes to the temporary token. -/
def appendContent (lx : Lexer) (text : List Char) : Except Fault Lexer :=
  lx.onWord fun tok => tok.appendContent text

/-- The token at the end of a here-document takes the place of the temporary one, and the next
here-document, or the mode below, goes on. -/
def finishHeredoc (lx : Lexer) (entry : HeredocEntry) : Lexer :=
  let content := lx.currentToken.bind Token.heredocContent
  let lx : Lexer := { lx.append
      { type := .endOfHeredoc, heredocDelimiter := some (String.ofList entry.delimiter),
        heredocContent := content, heredocDelimQuoted := entry.delimiterQuoted,
        needsExpansion := !entry.delimiterQuoted } with
    currentToken := none, inWord := false, heredocIndex := lx.heredocIndex + 1 }
  if lx.heredocQueue.length ≤ lx.heredocIndex then
    lexerPopMode { lx with readingHeredoc := false, heredocQueue := [] }
  else lx

/-- The tabs at the start of a line of a `<<-` document. -/
def skipTabs (lx : Lexer) (entry : HeredocEntry) : Lexer :=
  if entry.stripTabs ∧ lx.colNo = 1 then lx.advancedWhile (· = tab) else lx

/-- The part of the loop of `lexer_process_heredoc_body` for what is not the delimiter. The
delimiter or the tabs may have brought the lexer to the end, where this still advances. -/
def readLine (entry : HeredocEntry) (s : TextScan) : Except Fault (Next TextScan Answer) := do
  let lx := s.lx
  let c := lx.lexerPeek
  let next := lx.lexerPeekAhead 1
  if c = newline then
    return .again { lx := (← lx.lexerAdvance).countLine, text := s.text ++ [c] }
  if !entry.delimiterQuoted ∧ c = backslash ∧ next = newline then
    let lx ← lx.lexerAdvance
    return .again { s with lx := (← lx.lexerAdvance).countLine }
  if !entry.delimiterQuoted ∧ c = backslash ∧ isHeredocEscapable next then
    let lx ← lx.lexerAdvance
    return .again { lx := ← lx.lexerAdvance, text := s.text ++ [next] }
  return .again { lx := ← lx.lexerAdvance, text := s.text ++ [c] }

/-- A turn of the loop of `lexer_process_heredoc_body`. -/
def heredocTurn (entry : HeredocEntry) (s : TextScan) : Except Fault (Next TextScan Answer) := do
  if s.lx.lexerAtEnd then return .done (.incomplete, ← s.lx.appendContent s.text)
  let (found, lx) ← (s.lx.skipTabs entry).lexerCheckHeredocDelimiter entry
  if found then
    return .done (.ok, (← lx.appendContent s.text).finishHeredoc entry)
  readLine entry { s with lx }

/-- The temporary token that holds the content of a here-document. -/
def startDocument (lx : Lexer) : Lexer :=
  if lx.currentToken = none then
    { lx with currentToken := some { type := .word, heredocContent := some "" } }
  else lx

/-- `lexer_process_heredoc_body`. -/
def lexerProcessHeredocBody (lx : Lexer) : Except Fault Answer := do
  match lx.heredocQueue[lx.heredocIndex]? with
  | none => return (.ok, lx)
  | some entry => iterate (heredocTurn entry) lx.turns { lx := lx.startDocument }

end Migash.Lexer
