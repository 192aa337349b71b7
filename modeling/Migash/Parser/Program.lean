import Migash.Parser.Compound

/-! # Commands, lists and programs

The productions from `gparse_command` up to `gparse_program`, and the recursion
through `gparse_compound_list` that ties the grammar together.
-/

namespace Migash.Parser

open Library Forward

section Productions

variable (gparseCompoundList : Production Gnode)

/-- The wrapper of `gparse_command` around what was parsed. -/
def commandNode (node : Gnode) : Gnode := .child .command .child (some node)

/-- `compound_command` and the optional redirect_list after it. -/
def gparseRedirectedCompound : Production Gnode := do
  let compound ← gparseCompoundCommand gparseCompoundList
  match ← attempt gparseRedirectList with
  | .ok redirects =>
    return commandNode (.multi .command .multi (some compound) (some redirects) none none)
  | .error _ => return commandNode compound

/-- A function definition, a compound command or a simple command, tried in this order without
rewinding in between. -/
def gparseCommand : Production Gnode := do
  match ← attempt (gparseFunctionDefinition gparseCompoundList) with
  | .ok func => return commandNode func
  | .error .incomplete => failure .incomplete
  | .error _ =>
    match ← attempt (gparseRedirectedCompound gparseCompoundList) with
    | .ok node => return node
    | .error .incomplete => failure .incomplete
    | .error _ => commandNode <$> gparseSimpleCommand

/-- What `gparse_command` tries where no function definition stands. -/
def gparseCompoundOrSimple : Production Gnode := do
  match ← attempt (gparseRedirectedCompound gparseCompoundList) with
  | .ok node => return node
  | .error .incomplete => failure .incomplete
  | .error _ => commandNode <$> gparseSimpleCommand

/-- One turn of the loop of `gparse_pipe_sequence`. -/
def pipeSequenceStep (nodes : List Gnode) : Production (Option (List Gnode)) := do
  if (← tokenType) = .pipe then
    let pipe ← takeLeaf .wordNode
    parserSkipNewlines
    let next ← gparseCommand gparseCompoundList
    return some (nodes ++ [pipe, next])
  else return none

def gparsePipeSequence : Production Gnode := do
  let cmd ← gparseCommand gparseCompoundList
  let nodes ← loop (pipeSequenceStep gparseCompoundList) [cmd]
  return .ofList .pipeSequence nodes

/-- A pipeline at the end of the input is empty. -/
def rejectEof : Production Unit := do
  if (← tokenType) = .eof then failure .empty

/-- The optional `!`. -/
def optionalBang : Production (List Gnode) := do
  if (← tokenType) = .bang then
    let bang ← takeLeaf .wordNode
    return [bang]
  else return []

def gparsePipeline : Production Gnode := do
  parserTokenTryPromoteToBang 0
  rejectEof
  let bang ← optionalBang
  let seq ← gparsePipeSequence gparseCompoundList
  return .ofList .pipeline (bang ++ [seq])

/-- Record the position, and rewind to it if the production fails. -/
def orRewind {α : Type} (m : Production α) : Production (Option α) :=
  orBack (fun s t => t.rewindToPosition s.position) le_rewindToPosition m

/-- An operator and the pipeline after it. -/
def gparseAndOrTail : Production (Gnode × Gnode) := do
  let (tok, origin) ← cloneToken
  let op := Gnode.ofToken .andOr tok origin
  parserAdvance
  parserSkipNewlines
  let right ← gparsePipeline gparseCompoundList
  return (op, right)

/-- One turn of the loop of `gparse_and_or`. -/
def andOrStep (left : Gnode) : Production (Option Gnode) := do
  let t ← tokenType
  if t ≠ .andIf ∧ t ≠ .orIf then return none
  else
    match ← orRewind (gparseAndOrTail gparseCompoundList) with
    | some (op, right) => return some (.ofMulti .andOr (some left) (some op) (some right) none)
    | none => return none

def gparseAndOr : Production Gnode := do
  let left ← gparsePipeline gparseCompoundList
  loop (andOrStep gparseCompoundList) left

/-- One turn of the loop of `gparse_list`. A separator without an and_or after it is given
back; where there is no separator the position has not moved. -/
def listStep (nodes : List Gnode) : Production (Option (List Gnode)) := do
  match ← orRewind (do
      let sep ← gparseSeparatorOp
      let next ← gparseAndOr gparseCompoundList
      return [sep, next]) with
  | some more => return some (nodes ++ more)
  | none => return none

def gparseList : Production Gnode := do
  let first ← gparseAndOr gparseCompoundList
  let nodes ← loop (listStep gparseCompoundList) [first]
  return .ofList .list nodes

/-- One turn of the loop of `gparse_term`. -/
def termStep (nodes : List Gnode) : Production (Option (List Gnode)) := do
  match ← orRewind (do
      let sep ← gparseSeparator
      let next ← gparseAndOr gparseCompoundList
      return [sep, next]) with
  | some more => return some (nodes ++ more)
  | none => return none

def gparseTerm : Production Gnode := do
  let first ← gparseAndOr gparseCompoundList
  let nodes ← loop (termStep gparseCompoundList) [first]
  return .ofList .term nodes

/-- The body of `gparse_compound_list`, whose recursive calls go to the parameter. -/
def compoundListBody : Production Gnode := do
  parserSkipNewlines
  let term ← gparseTerm gparseCompoundList
  let sep ← attempt gparseSeparator
  return .ofPair .compoundList (some term) sep.toOption

def gparseCompleteCommand : Production Gnode := do
  let list ← gparseList gparseCompoundList
  let sep ← attempt gparseSeparatorOp
  return .ofMulti .completeCommand (some list) sep.toOption none none

/-- One turn of the loop of `gparse_complete_commands`. -/
def completeCommandsStep (nodes : List Gnode) : Production (Option (List Gnode)) := do
  if (← tokenType) ≠ .newline then return none
  else
    parserSkipNewlines
    match ← attempt (gparseCompleteCommand gparseCompoundList) with
    | .ok next => return some (nodes ++ [next])
    | .error .empty => return none
    | .error status => failure status

/-- No commands are left. -/
def rejectAtEnd : Production Unit := do
  if ← inspect atEnd then failure .empty

def gparseCompleteCommands : Production Gnode := do
  rejectAtEnd
  let cmd ← gparseCompleteCommand gparseCompoundList
  let nodes ← loop (completeCommandsStep gparseCompoundList) [cmd]
  return .ofList .completeCommands nodes

/-- The program node for the answer of `gparse_complete_commands`. -/
def programNode : Production Gnode := do
  match ← attempt (gparseCompleteCommands gparseCompoundList) with
  | .ok commands => return .ofChild .program commands
  | .error .empty => return .child .program .none none
  | .error status => failure status

/-- `gparse_program`. It does not look for the end of the token list. -/
def gparseProgram : Production Gnode := do
  parserSkipNewlines
  let program ← programNode gparseCompoundList
  parserSkipNewlines
  return program

end Productions

/-- `gparse_compound_list`, at most `n` levels deep. -/
def gparseCompoundListFor : ℕ → Production Gnode
  | 0 => stop .fuel
  | n + 1 => compoundListBody (gparseCompoundListFor n)

/-- `gparse_compound_list`: each level consumes a token, so the tokens left bound its depth. -/
def gparseCompoundList : Production Gnode where
  run s := (gparseCompoundListFor (remaining s + 1)).run s
  forward s := (gparseCompoundListFor (remaining s + 1)).forward s

/-- `parser_create_with_tokens_move`. -/
def create (tokens : List Token) : Parser := { tokens }

/-- `parser_parse_program`. -/
def parserParseProgram (tokens : List Token) : Reply Parser ParseFailure Gnode :=
  if tokens.isEmpty then .fail .empty (create tokens)
  else (gparseProgram gparseCompoundList).run (create tokens)

end Migash.Parser
