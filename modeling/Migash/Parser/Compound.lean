import Migash.Parser.Simple

/-! # Compound commands

The compound commands, parameterised by `gparse_compound_list`, through which
all recursion of the grammar passes. Keywords are promoted where the source
promotes them.
-/

namespace Migash.Parser

open Library Forward

variable (gparseCompoundList : Production Gnode)

def gparseSubshell : Production Gnode := do
  require .lparen
  let lparen ← takeLeaf .wordNode
  let list ← gparseCompoundList
  expect .rparen "Expected ')' to close subshell"
  let rparen ← takeLeaf .wordNode
  return .ofMulti .subshell (some lparen) (some list) (some rparen) none

def gparseDoGroup : Production Gnode := do
  parserTokenTryPromoteToDo 0
  expect .do_ "Expected 'do' keyword"
  let doTok ← takeLeaf .wordNode
  let list ← gparseCompoundList
  parserTokenTryPromoteToDone 0
  expectOrIncomplete .done "Expected 'done' to close do group"
  let doneTok ← takeLeaf .wordNode
  return .ofMulti .doGroup (some doTok) (some list) (some doneTok) none

/-! ## For clauses -/

/-- One turn of the loop of `gparse_wordlist`. -/
def wordlistStep (nodes : List Gnode) : Production (Option (List Gnode)) := do
  if (← tokenType) = .word then
    let word ← takeLeaf .wordNode
    return some (nodes ++ [word])
  else return none

def gparseWordlist : Production Gnode := do
  expect .word "Expected word in wordlist"
  let nodes ← loop wordlistStep []
  return .ofList .wordlist nodes

def gparseInClause : Production Gnode := do
  parserSkipNewlines
  parserTokenTryPromoteToIn 0
  expect .in_ "Expected 'in' keyword"
  let (tok, origin) ← cloneToken
  let node := Gnode.token .inNode .token tok origin
  parserAdvance
  match ← attempt gparseWordlist with
  | .ok words => return .multi .inNode .multi (some node) (some words) none none
  | .error _ => return node

/-- The separator before `do`, which only a clause with an `in` part may leave out. -/
def sequentialSep (inClause : Except ParseFailure Gnode) : Production Unit := do
  let t ← tokenType
  if t = .semi then
    parserAdvance
    parserSkipNewlines
  else if t = .newline then parserSkipNewlines
  else
    match inClause with
    | .ok _ => return ()
    | .error _ => errorWith "Expected ';' or newline in for clause"

def gparseForClause : Production Gnode := do
  require .for_
  let forTok ← takeLeaf .wordNode
  expect .word "Expected name after 'for'"
  let name ← takeLeaf .nameNode
  let inClause ← attempt gparseInClause
  sequentialSep inClause
  let doGrp ← gparseDoGroup gparseCompoundList
  return .ofMulti .forClause (some forTok) (some name) inClause.toOption (some doGrp)

/-! ## Case clauses -/

/-- One turn of the loop of `gparse_pattern_list`. -/
def patternListStep (nodes : List Gnode) : Production (Option (List Gnode)) := do
  if (← tokenType) = .pipe then
    let pipe ← takeLeaf .wordNode
    expect .word "Expected word after '|' in pattern"
    let word ← takeLeaf .wordNode
    return some (nodes ++ [pipe, word])
  else return none

def gparsePatternList : Production Gnode := do
  require .word
  let word ← takeLeaf .wordNode
  let nodes ← loop patternListStep [word]
  return .ofList .patternList nodes

/-- The optional `(` of a case item. -/
def optionalLparen : Production (Option Gnode) := do
  if (← tokenType) = .lparen then some <$> takeLeaf .wordNode else return none

/-- The body of a case item that is ended by `;;`. -/
def compoundListOrNewlines : Production (Option Gnode) := do
  match ← attempt gparseCompoundList with
  | .ok list => return some list
  | .error _ =>
    parserSkipNewlines
    return none

def gparseCaseItem : Production Gnode := do
  let lparen ← optionalLparen
  let patterns ← gparsePatternList
  expect .rparen "Expected ')' after pattern list"
  let rparen ← takeLeaf .wordNode
  let list ← compoundListOrNewlines gparseCompoundList
  expect .dsemi "Expected ';;' after case item"
  let dsemi ← takeLeaf .wordNode
  parserSkipNewlines
  let node := Gnode.ofMulti .caseItem lparen (some patterns) (some rparen) list
  return .ofMulti .caseItem (some node) (some dsemi) none none

def gparseCaseItemNs : Production Gnode := do
  let lparen ← optionalLparen
  let patterns ← gparsePatternList
  expect .rparen "Expected ')' after pattern list"
  let rparen ← takeLeaf .wordNode
  let list ← attempt gparseCompoundList
  parserSkipNewlines
  return .ofMulti .caseItemNs lparen (some patterns) (some rparen) list.toOption

/-- The current token is `esac`, promoted or not. -/
def atEsac (s : Parser) : Bool :=
  match s.currentToken? with
  | some tok => tok.type = .esac || (tok.type = .word && tok.bareLiteral? = some "esac")
  | none => false

/-- One turn of the loop of `gparse_case_list`. -/
def caseListStep (nodes : List Gnode) : Production (Option (List Gnode)) := do
  if ← inspect atEsac then return none
  else
    match ← attempt (gparseCaseItem gparseCompoundList) with
    | .ok next => return some (nodes ++ [next])
    | .error _ => return none

def gparseCaseList : Production Gnode := do
  let item ← gparseCaseItem gparseCompoundList
  let nodes ← loop (caseListStep gparseCompoundList) [item]
  return .ofList .caseList nodes

def gparseCaseListNs : Production Gnode := do
  let list ← attempt (gparseCaseList gparseCompoundList)
  let item ← gparseCaseItemNs gparseCompoundList
  return .ofList .caseListNs (list.toOption.toList ++ [item])

/-- A case_list, or else a case_list_ns, or nothing. -/
def caseItems : Production (Option Gnode) := do
  match ← attempt (gparseCaseList gparseCompoundList) with
  | .ok list => return some list
  | .error _ => Except.toOption <$> attempt (gparseCaseListNs gparseCompoundList)

def gparseCaseClause : Production Gnode := do
  require .case_
  let caseTok ← takeLeaf .wordNode
  expect .word "Expected word after 'case'"
  let word ← takeLeaf .wordNode
  parserSkipNewlines
  parserTokenTryPromoteToIn 0
  expect .in_ "Expected 'in' in case statement"
  let inTok ← takeLeaf .wordNode
  parserSkipNewlines
  let list ← caseItems gparseCompoundList
  parserTokenTryPromoteToEsac 0
  expect .esac "Expected 'esac' to close case statement"
  let esacTok ← takeLeaf .wordNode
  let node := Gnode.ofMulti .caseClause (some caseTok) (some word) (some inTok) (some esacTok)
  match list with
  | some list => return .ofMulti .caseClause (some node) (some list) none none
  | none => return node

/-! ## If, while and until clauses -/

/-- `gparse_else_part`, at most `n` nested `elif` deep. -/
def gparseElsePartFor : ℕ → Production Gnode
  | 0 => stop .fuel
  | n + 1 => do
    parserTokenTryPromoteToElif 0
    parserTokenTryPromoteToElse 0
    let t ← tokenType
    if t = .elif then
      let _elifTok ← takeLeaf .wordNode
      let cond ← gparseCompoundList
      parserTokenTryPromoteToThen 0
      expect .then_ "Expected 'then' after elif condition"
      let _thenTok ← takeLeaf .wordNode
      let thenBody ← gparseCompoundList
      let elsePart ← attempt (gparseElsePartFor n)
      return .ofMulti .elsePart (some cond) (some thenBody) elsePart.toOption none
    else if t = .else_ then
      let _elseTok ← takeLeaf .wordNode
      let body ← gparseCompoundList
      return .ofMulti .elsePart (some body) none none none
    else failure .error

def gparseElsePart : Production Gnode where
  run s := (gparseElsePartFor gparseCompoundList (remaining s + 1)).run s
  forward s := (gparseElsePartFor gparseCompoundList (remaining s + 1)).forward s

def gparseIfClause : Production Gnode := do
  require .if_
  let ifTok ← takeLeaf .wordNode
  let cond ← gparseCompoundList
  parserTokenTryPromoteToThen 0
  expectOrIncomplete .then_ "Expected 'then' after if condition"
  let thenTok ← takeLeaf .wordNode
  let thenBody ← gparseCompoundList
  let elsePart ← attempt (gparseElsePart gparseCompoundList)
  parserTokenTryPromoteToFi 0
  expectOrIncomplete .fi "Expected 'fi' to close if statement"
  let fiTok ← takeLeaf .wordNode
  let node := Gnode.ofMulti .ifClause (some ifTok) (some cond) (some thenTok) (some thenBody)
  return .ofMulti .ifClause (some node) elsePart.toOption (some fiTok) none

def gparseWhileClause : Production Gnode := do
  expect .while_ "Expected 'while' keyword"
  let whileTok ← takeLeaf .wordNode
  let cond ← gparseCompoundList
  let doGrp ← gparseDoGroup gparseCompoundList
  return .ofMulti .whileClause (some whileTok) (some cond) (some doGrp) none

def gparseUntilClause : Production Gnode := do
  expect .until_ "Expected 'until' keyword"
  let untilTok ← takeLeaf .wordNode
  let cond ← gparseCompoundList
  let doGrp ← gparseDoGroup gparseCompoundList
  return .ofMulti .untilClause (some untilTok) (some cond) (some doGrp) none

/-! ## Brace groups -/

/-- The scan of `gparse_brace_group` for the next `}`, promoted or not. -/
def findClosingBrace : List Token → ℕ → Option ℕ
  | [], _ => none
  | tok :: toks, offset =>
    if tok.type = .eof then none
    else if (tok.tryPromote "\x7d" .rbrace).isSome ∨ tok.type = .rbrace then some offset
    else findClosingBrace toks (offset + 1)

/-- Promote the next `}`; without one the group is incomplete. -/
def promoteClosingBrace : Production Unit := do
  match ← inspect fun s => findClosingBrace (s.tokens.drop (s.position + 1)) 1 with
  | none => failure .incomplete
  | some offset => parserTokenTryPromoteToRbrace offset

/-- The body of a brace group, which may be empty where it stops at the closing brace. -/
def compoundListOrRbrace : Production (Option Gnode) := do
  match ← attempt gparseCompoundList with
  | .ok list => return some list
  | .error status => if (← tokenType) = .rbrace then return none else failure status

def gparseBraceGroup : Production Gnode := do
  expect .lbrace "Expected '\x7b' to start brace group"
  promoteClosingBrace
  let lbrace ← takeLeaf .wordNode
  let list ← compoundListOrRbrace gparseCompoundList
  expectOrIncomplete .rbrace "Expected '\x7d' to close brace group"
  let rbrace ← takeLeaf .wordNode
  return .ofMulti .braceGroup (some lbrace) list (some rbrace) none

/-! ## Compound commands and function definitions -/

/-- The promotions at the start of `gparse_compound_command`, of which at most one succeeds. -/
def promoteOpener : Production Unit := do
  parserTokenTryPromoteToLbrace 0
  parserTokenTryPromoteToIf 0
  parserTokenTryPromoteToWhile 0
  parserTokenTryPromoteToUntil 0
  parserTokenTryPromoteToFor 0
  parserTokenTryPromoteToCase 0

/-- The switch of `gparse_compound_command`. -/
def compoundCommandOf : TokenType → Production Gnode
  | .lbrace => gparseBraceGroup gparseCompoundList
  | .lparen => gparseSubshell gparseCompoundList
  | .for_ => gparseForClause gparseCompoundList
  | .case_ => gparseCaseClause gparseCompoundList
  | .if_ => gparseIfClause gparseCompoundList
  | .while_ => gparseWhileClause gparseCompoundList
  | .until_ => gparseUntilClause gparseCompoundList
  | _ => errorWith "Expected compound command (if/while/for/case/\x7b/())"

/-- `Expects(info.valid)`. -/
def expectsValid : Production Unit := do
  if ← inspect atEnd then stop (.contract "info.valid")

def gparseCompoundCommand : Production Gnode := do
  expectsValid
  promoteOpener
  let child ← compoundCommandOf gparseCompoundList (← tokenType)
  return .ofChild .compoundCommand child

/-- The name check of `gparse_function_definition`. -/
def rejectReservedName : Production Unit := do
  match ← inspect fun s => s.currentToken?.bind Token.bareLiteral? with
  | some word =>
    if Token.isReservedWord word then
      errorWith s!"Cannot use reserved word '{word}' as function name"
  | none => pure ()

/-- The token after the current one is a `(`. -/
def atFunctionParen (s : Parser) : Bool :=
  match s.peekToken? 1 with
  | some tok => tok.type = .lparen
  | none => false

/-- Without a `(` after the name this is no function definition. -/
def requireFunctionParen : Production Unit := do
  if !(← inspect atFunctionParen) then failure .error

/-- At the end of the input the body of the function is still to come. -/
def requireFunctionBody : Production Unit := do
  if ← inspect atEnd then
    parserSetError "Expected compound command (e.g., \x7b ... \x7d) after function declaration"
    failure .incomplete

/-- The body of a function definition: a compound command that is reported by its own message. -/
def gparseFunctionBody : Production Gnode := do
  match ← attempt (gparseCompoundCommand gparseCompoundList) with
  | .ok compound =>
    match ← attempt gparseRedirectList with
    | .ok redirects => return .ofMulti .functionBody (some compound) (some redirects) none none
    | .error _ => return compound
  | .error .error =>
    errorWith "Expected compound command (e.g., \x7b ... \x7d) after function declaration"
  | .error status => failure status

def gparseFunctionDefinition : Production Gnode := do
  require .word
  rejectReservedName
  requireFunctionParen
  let fname ← takeLeaf .fname
  let lparen ← takeLeaf .wordNode
  expect .rparen "Expected ')' after '(' in function definition"
  let rparen ← takeLeaf .wordNode
  parserSkipNewlines
  requireFunctionBody
  let body ← gparseFunctionBody gparseCompoundList
  return .ofMulti .functionDefinition (some fname) (some lparen) (some rparen) (some body)

end Migash.Parser
