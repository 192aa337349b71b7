import Migash.Parser.State

/-! # Simple commands

The primitive productions and `gparse_simple_command` with the redirections,
separators and here-documents it is built from. Productions are written in the
order of their statements in `parser.c`; none of them rewinds when it fails.
-/

namespace Migash

open Library

/-- A grammar production: `parse_status_t gparse_*(parser_t *, gnode_t **)`. -/
abbrev Production := Forward Parser ParseFailure

namespace Parser

open Forward

/-! ## Primitives -/

def tokenType : Production TokenType := inspect currentTokenType

def parserAdvance : Production Unit := update advance le_advance

def parserSkipNewlines : Production Unit :=
  update skipNewlines fun s => le_skipNewlinesFor _ s

def parserSetError (text : String) : Production Unit :=
  update (·.setError text) fun s => le_setError s text

/-- `parser_set_error` followed by `return PARSE_ERROR`. -/
def errorWith {α : Type} (text : String) : Production α := do
  parserSetError text
  failure .error

def tryPromoteTo (offset : ℕ) (word : String) (type : TokenType)
    (h : type.IsReserved := by decide) : Production Unit :=
  update (·.tryPromote offset word type) fun s => le_tryPromote s offset word h

def parserTokenTryPromoteToLbrace (offset : ℕ) := tryPromoteTo offset "\x7b" .lbrace
def parserTokenTryPromoteToRbrace (offset : ℕ) := tryPromoteTo offset "\x7d" .rbrace
def parserTokenTryPromoteToBang (offset : ℕ) := tryPromoteTo offset "!" .bang
def parserTokenTryPromoteToIf (offset : ℕ) := tryPromoteTo offset "if" .if_
def parserTokenTryPromoteToWhile (offset : ℕ) := tryPromoteTo offset "while" .while_
def parserTokenTryPromoteToUntil (offset : ℕ) := tryPromoteTo offset "until" .until_
def parserTokenTryPromoteToFor (offset : ℕ) := tryPromoteTo offset "for" .for_
def parserTokenTryPromoteToCase (offset : ℕ) := tryPromoteTo offset "case" .case_
def parserTokenTryPromoteToThen (offset : ℕ) := tryPromoteTo offset "then" .then_
def parserTokenTryPromoteToFi (offset : ℕ) := tryPromoteTo offset "fi" .fi
def parserTokenTryPromoteToElif (offset : ℕ) := tryPromoteTo offset "elif" .elif
def parserTokenTryPromoteToElse (offset : ℕ) := tryPromoteTo offset "else" .else_
def parserTokenTryPromoteToDo (offset : ℕ) := tryPromoteTo offset "do" .do_
def parserTokenTryPromoteToDone (offset : ℕ) := tryPromoteTo offset "done" .done
def parserTokenTryPromoteToEsac (offset : ℕ) := tryPromoteTo offset "esac" .esac
def parserTokenTryPromoteToIn (offset : ℕ) := tryPromoteTo offset "in" .in_

/-- `token_clone(parser_current_token(parser))` with the index of the token. Every production
tests the token's type first, so the NULL token at the end of the list is never cloned. -/
def cloneToken : Production (Token × ℕ) where
  run s := match s.currentToken? with
    | some tok => .ok (tok, s.position) s
    | none => .fault (.contract "token_clone(NULL)")
  forward s := by
    cases s.currentToken? with
    | some tok => exact le_refl s
    | none => trivial

/-- A leaf for the current token, which is consumed. -/
def takeLeaf (type : GnodeType) : Production Gnode := do
  let (tok, origin) ← cloneToken
  parserAdvance
  return .ofToken type tok origin

/-- Fail without a message unless the current token has one of the given types. -/
def requireOneOf (types : List TokenType) : Production Unit := do
  if (← tokenType) ∉ types then failure .error

/-- Fail without a message unless the current token has the given type. -/
def require (type : TokenType) : Production Unit := requireOneOf [type]

/-- Fail with a message unless the current token has the given type. -/
def expect (type : TokenType) (text : String) : Production Unit := do
  if (← tokenType) ≠ type then errorWith text

/-- As `expect`, but at the end of the input the construct is incomplete. -/
def expectOrIncomplete (type : TokenType) (text : String) : Production Unit := do
  if (← tokenType) ≠ type then
    if (← tokenType) = .eof then failure .incomplete else errorWith text

/-! ## Redirections -/

/-- `is_redirect_token`. -/
def isRedirectToken (type : TokenType) : Bool :=
  type ∈ [.ioNumber, .ioLocation, .less, .lessand, .greater, .greatand, .dgreat, .lessgreat,
    .clobber, .dless, .dlessdash]

def gparseFilename : Production Gnode := do
  require .word
  takeLeaf .filename

def gparseIoFile : Production Gnode := do
  requireOneOf [.less, .lessand, .greater, .greatand, .dgreat, .lessgreat, .clobber]
  let op ← takeLeaf .wordNode
  let fname ← gparseFilename
  return .ofMulti .ioFile (some op) (some fname) none none

/-- The content of the here-document is matched later, when the whole command is read. -/
def gparseIoHere : Production Gnode := do
  requireOneOf [.dless, .dlessdash]
  let op ← tokenType
  let origin ← inspect position
  parserAdvance
  require .word
  let (hereEndTok, _) ← cloneToken
  parserAdvance
  return .ioHere .ioHere (gnodeGetPayloadType .ioHere) op hereEndTok.getAllText none origin

/-- The optional IO_NUMBER or IO_LOCATION of a redirection. -/
def optionalIoNumber : Production (Option Gnode × Option Gnode) := do
  let t ← tokenType
  if t = .ioNumber then
    let ioNumber ← takeLeaf .ioNumberNode
    return (some ioNumber, none)
  else if t = .ioLocation then
    let ioLocation ← takeLeaf .ioLocationNode
    return (none, some ioLocation)
  else return (none, none)

/-- An io_file, or else an io_here. -/
def ioFileOrHere : Production Gnode := do
  match ← attempt gparseIoFile with
  | .ok file => return file
  | .error _ =>
    match ← attempt gparseIoHere with
    | .ok here => return here
    | .error _ => failure .error

def gparseIoRedirect : Production Gnode := do
  let (ioNumber, ioLocation) ← optionalIoNumber
  let target ← ioFileOrHere
  return .ofMulti .ioRedirect ioNumber ioLocation (some target) none

/-- Give an unmatched here-document redirection the next `TOKEN_END_OF_HEREDOC`. -/
def matchHeredoc : Gnode → Production Gnode
  | .multi .ioRedirect payload a b (some (.ioHere .ioHere payload' op hereEnd none origin)) d => do
    parserSkipNewlines
    expect .endOfHeredoc s!"Expected heredoc content for delimiter '{hereEnd}'"
    let (tok, _) ← cloneToken
    parserAdvance
    return .multi .ioRedirect payload a b
      (some (.ioHere .ioHere payload' op hereEnd (some tok) origin)) d
  | node => pure node

/-- `match_heredocs_in_simple_command`, on one item of the command. -/
def matchHeredocsInItem : Gnode → Production Gnode
  | .child .cmdPrefix payload (some redirect) => do
    return .child .cmdPrefix payload (some (← matchHeredoc redirect))
  | .list .cmdSuffix payload nodes => do
    return .list .cmdSuffix payload (← forEach matchHeredoc nodes)
  | node => pure node

/-- One turn of the loop of `gparse_redirect_list`. -/
def redirectListStep (nodes : List Gnode) : Production (Option (List Gnode)) := do
  match ← attempt gparseIoRedirect with
  | .ok next => return some (nodes ++ [next])
  | .error _ => return none

def gparseRedirectList : Production Gnode := do
  let redir ← gparseIoRedirect
  let nodes ← loop redirectListStep [redir]
  return .ofList .redirectList (← forEach matchHeredoc nodes)

/-! ## Simple commands -/

/-- A `TOKEN_WORD` that is not a reserved word ending the command. -/
def atCommandWord (s : Parser) : Bool :=
  match s.currentToken? with
  | some tok => tok.type = .word && !tok.isTerminatingReservedWord
  | none => false

/-- One turn of the cmd_prefix loop: a redirection or an assignment. -/
def cmdPrefixStep (nodes : List Gnode) : Production (Option (List Gnode)) := do
  let t ← tokenType
  if isRedirectToken t then
    match ← attempt gparseIoRedirect with
    | .ok redir => return some (nodes ++ [.ofChild .cmdPrefix redir])
    | .error _ => return none
  else if t = .assignmentWord then
    let assign ← takeLeaf .assignmentWord
    return some (nodes ++ [.ofChild .cmdPrefix assign])
  else return none

/-- The optional cmd_name. -/
def gparseCmdName : Production (Option Gnode) := do
  if ← inspect atCommandWord then some <$> takeLeaf .cmdName else return none

/-- One turn of the cmd_suffix loop: a redirection or a word. -/
def cmdSuffixStep (nodes : List Gnode) : Production (Option (List Gnode)) := do
  if isRedirectToken (← tokenType) then
    match ← attempt gparseIoRedirect with
    | .ok redir => return some (nodes ++ [redir])
    | .error _ => return none
  else if ← inspect atCommandWord then
    let word ← takeLeaf .cmdWord
    return some (nodes ++ [word])
  else return none

def gparseSimpleCommand : Production Gnode := do
  let heads ← loop cmdPrefixStep []
  let name ← gparseCmdName
  let suffixes ← loop cmdSuffixStep []
  let suffix := if suffixes.isEmpty then [] else [Gnode.ofList .cmdSuffix suffixes]
  -- There must be at least a cmd_prefix or a cmd_name.
  if heads.isEmpty && name.isNone then
    if (← tokenType) = .eof then failure .incomplete else failure .error
  else
    return .ofList .simpleCommand
      (← forEach matchHeredocsInItem (heads ++ name.toList ++ suffix))

/-! ## Separators -/

def gparseSeparatorOp : Production Gnode := do
  requireOneOf [.amper, .semi]
  takeLeaf .separatorOp

/-- One turn of the newline_list loop of `gparse_separator`. -/
def newlineListStep (nodes : List Gnode) : Production (Option (List Gnode)) := do
  if (← tokenType) = .newline then
    let tok ← takeLeaf .wordNode
    return some (nodes ++ [tok])
  else return none

def gparseSeparator : Production Gnode := do
  let t ← tokenType
  if t = .amper ∨ t = .semi then
    let op ← takeLeaf .separatorOp
    parserSkipNewlines
    return .ofChild .separator op
  else if t = .newline then
    let nodes ← loop newlineListStep []
    return .ofChild .separator (.ofList .newlineList nodes)
  else failure .error

end Parser

end Migash
