import Mathlib.Algebra.Group.Int.Defs
import Mathlib.Algebra.Group.Nat.Defs
import Migash.Ast
import Migash.Gnode

/-! # Lowering

`ast_lower`, from the parse tree to the syntax tree. The recursive functions
take the lowerers of the nodes below them as an argument and are tied together
at the end, one level of the tree at a time.
-/

namespace Migash

/-- How a lowering function ends without a node: it returned NULL, it read a pointer the node
does not hold or broke a contract, or the model ran out of levels. -/
inductive LowerStop where
  | null | crash | fuel
  deriving DecidableEq, Repr

abbrev Lowering := Except LowerStop

/-- The four pointers of `data.multi`. -/
structure Gnode.Multi where
  a : Option Gnode
  b : Option Gnode
  c : Option Gnode
  d : Option Gnode

/-- The pointers of a node. The members of the union overlap: the children of a pair and of a
child node are its first pointers, and a fresh node's other pointers are NULL. -/
def Gnode.multi? : Gnode → Lowering Gnode.Multi
  | .multi _ _ a b c d => .ok ⟨a, b, c, d⟩
  | .pair _ _ left right => .ok ⟨left, right, none, none⟩
  | .child _ _ node => .ok ⟨node, none, none, none⟩
  | _ => .error .crash

/-- `node->data.list`. -/
def Gnode.nodes? : Gnode → Lowering (List Gnode)
  | .list _ _ nodes => .ok nodes
  | _ => .error .crash

/-- `node->data.token`. -/
def Gnode.token? : Gnode → Lowering Token
  | .token _ _ tok _ => .ok tok
  | _ => .error .crash

/-- `token_clone(node->data.token)`. -/
def Gnode.tokenClone? (g : Gnode) : Lowering Token := Token.clone <$> g.token?

/-- `node->payload_type`. -/
def Gnode.payload : Gnode → GnodePayload
  | .list _ p .. | .token _ p .. | .pair _ p .. | .child _ p .. | .multi _ p ..
  | .ioHere _ p .. => p

namespace Lower

/-- Reading through a NULL pointer. -/
def deref {α : Type} : Option α → Lowering α
  | some a => .ok a
  | none => .error .crash

/-- A missing pointer makes the function return NULL. -/
def orNull {α : Type} : Option α → Lowering α
  | some a => .ok a
  | none => .error .null

/-- `Expects_eq(node->type, type)` on a pointer that may be NULL. -/
def expectsEq (node : Option Gnode) (type : GnodeType) : Lowering Gnode :=
  match node with
  | some g => if g.type = type then .ok g else .error .crash
  | none => .error .crash

/-- `EXPECT_TYPE(node, type)`. -/
def expectType (node : Option Gnode) (type : GnodeType) : Lowering Gnode :=
  match node with
  | some g => if g.type = type then .ok g else .error .null
  | none => .error .null

/-! ## Words and redirections -/

/-- `token_list_from_wordlist`, which returns NULL on anything but a word. -/
def tokenListFromWordlist (g : Gnode) : Lowering (Option (List Token)) := do
  let g ← expectsEq (some g) .wordlist
  let nodes ← g.nodes?
  if nodes.all (·.type = .wordNode) then
    return some (← nodes.mapM Gnode.tokenClone?)
  else return none

/-- `token_list_from_pattern_list`: the words of the list without the `|` between them. -/
def tokenListFromPatternList (g : Gnode) : Lowering (List Token) := do
  let g ← expectsEq (some g) .patternList
  let nodes ← g.nodes?
  let toks ← (nodes.filter (·.type = .wordNode)).mapM Gnode.tokenClone?
  return toks.filter (·.type ≠ .pipe)

/-- `map_redir_type_from_io_file`. -/
def mapRedirTypeFromIoFile : TokenType → RedirectionType
  | .less => .read
  | .greater => .write
  | .dgreat => .append
  | .lessand => .fdDupIn
  | .greatand => .fdDupOut
  | .lessgreat => .readwrite
  | .clobber => .writeForce
  | _ => .read

/-- `determine_target_kind`. -/
def determineTargetKind (opType : TokenType) (targetTok : Token) : RedirTargetKind :=
  match opType with
  | .dless | .dlessdash => .buffer
  | .lessand | .greatand =>
    if targetTok.getAllText = "-" then .close
    else if targetTok.getAllText ≠ "" ∧ !targetTok.getAllText.toList.all Char.isDigit then .file
    else .fd
  | _ => .file

/-- `string_atoi_at(str, 0, &endpos)` where it consumes the whole string: `strtol` skips blanks,
takes a sign and digits and saturates, and the cast keeps the low 32 bits. -/
def stringAtoiWhole (str : String) : Option Int :=
  let rest := str.toList.dropWhile Char.isWhitespace
  let (negative, digits) := match rest with
    | '-' :: ds => (true, ds)
    | '+' :: ds => (false, ds)
    | ds => (false, ds)
  if digits = [] ∨ !digits.all Char.isDigit then none
  else
    let magnitude : Int := digits.foldl (fun n d => n * 10 + (d.toNat - '0'.toNat)) 0
    let value := if negative then max (-magnitude) (-2 ^ 63) else min magnitude (2 ^ 63 - 1)
    some (Int.bmod value (2 ^ 32))

/-- The descriptor number of an io_location that is numeric as a whole. -/
def ioLocationNumber (fdString : String) : Int :=
  if fdString = "" then -1 else (stringAtoiWhole fdString).getD (-1)

/-- `lower_io_redirect`, the part before the target: the descriptor and the location. -/
def lowerIoSource (m : Gnode.Multi) : Lowering (Int × Option String) := do
  let ioNumber ← match m.a with
    | some _ => Token.ioNumber <$> (← expectType m.a .ioNumberNode).token?
    | none => pure (-1)
  match m.b with
  | none => return (ioNumber, none)
  | some _ =>
    let tok ← (← expectType m.b .ioLocationNode).token?
    let location ← deref tok.ioLocation
    return (if ioNumber = -1 then ioLocationNumber location else ioNumber, some location)

/-- `lower_io_redirect`, the `G_IO_FILE` branch. -/
def lowerIoFile (ioNumber : Int) (fdString : Option String) (g : Gnode) : Lowering Redirection := do
  let m ← g.multi?
  let opType := (← (← expectsEq m.a .wordNode).token?).type
  let target ← (← expectType m.b .filename).token?
  return { redirType := mapRedirTypeFromIoFile opType
           ioNumber
           operand := determineTargetKind opType target
           fdString
           target := some target.clone }

/-- `lower_io_redirect`, the `G_IO_HERE` branch. -/
def lowerIoHere (ioNumber : Int) (fdString : Option String) (op : TokenType) (hereTok : Option Token) :
    Redirection where
  redirType := if op = .dless then .fromBuffer else .fromBufferStrip
  ioNumber
  operand := .buffer
  fdString
  bufferNeedsExpansion := match hereTok with
    | some tok => tok.heredocContent.isSome && !tok.heredocDelimQuoted
    | none => false
  buffer := hereTok.bind Token.heredocContent

/-- `lower_io_redirect`. -/
def lowerIoRedirect (g : Gnode) : Lowering Redirection := do
  let g ← expectsEq (some g) .ioRedirect
  let m ← g.multi?
  let (ioNumber, fdString) ← lowerIoSource m
  let target ← deref m.c
  match target with
  | .ioHere .ioHere _ op _ tok _ => return lowerIoHere ioNumber fdString op tok
  | _ =>
    if target.type = .ioFile then lowerIoFile ioNumber fdString target
    else if target.type = .ioHere then .error .crash
    else .error .null

/-! ## Simple commands -/

/-- The three lists `lower_simple_command` fills. -/
structure SimpleParts where
  words : List Token := []
  redirections : List Redirection := []
  assignments : List Token := []

namespace SimpleParts

def addWord (p : SimpleParts) (tok : Token) : SimpleParts := { p with words := p.words ++ [tok] }

def addRedirection (p : SimpleParts) (r : Redirection) : SimpleParts :=
  { p with redirections := p.redirections ++ [r] }

def addAssignment (p : SimpleParts) (tok : Token) : SimpleParts :=
  { p with assignments := p.assignments ++ [tok] }

/-- One element of a `G_CMD_SUFFIX` list; anything but a word or a redirection is skipped. -/
def suffixElem (p : SimpleParts) (elem : Gnode) : Lowering SimpleParts :=
  if elem.type = .cmdWord ∨ elem.type = .wordNode then p.addWord <$> elem.tokenClone?
  else if elem.type = .ioRedirect then p.addRedirection <$> lowerIoRedirect elem
  else .ok p

/-- One element of a simple command that is not a wrapper. -/
def plainElem (p : SimpleParts) (elem : Gnode) : Lowering SimpleParts :=
  match elem.type with
  | .assignmentWord => p.addAssignment <$> elem.tokenClone?
  | .cmdName | .cmdWord | .wordNode => p.addWord <$> elem.tokenClone?
  | .ioRedirect => p.addRedirection <$> lowerIoRedirect elem
  | _ => .error .null

/-- One step of the loop of `lower_simple_command`. -/
def elem (p : SimpleParts) (elem : Gnode) : Lowering SimpleParts := do
  match elem.type with
  | .cmdPrefix =>
    match (← elem.multi?).a with
    | some inner => p.plainElem inner
    | none => return p
  | .cmdSuffix => (← elem.nodes?).foldlM suffixElem p
  | _ => p.plainElem elem

end SimpleParts

/-- `lower_simple_command`: none of the three lists is ever NULL. -/
def lowerSimpleCommand (g : Gnode) : Lowering Ast := do
  let g ← expectsEq (some g) .simpleCommand
  let parts ← (← g.nodes?).foldlM SimpleParts.elem {}
  return .simpleCommand (some parts.words) (some parts.redirections) (some parts.assignments)

/-! ## The recursive lowerers -/

/-- The lowerers of the nodes one level further down. -/
structure Lowerers where
  compoundList : Gnode → Lowering Ast
  andOr : Gnode → Lowering Ast
  command : Gnode → Lowering Ast
  compoundCommand : Gnode → Lowering Ast
  elsePart : Gnode → Lowering Ast

variable (below : Lowerers)

/-- `lower_pipe_sequence`. -/
def lowerPipeSequence (g : Gnode) (isNegated : Bool) : Lowering Ast := do
  let nodes ← g.nodes?
  let cmds ← (nodes.filter (·.type = .command)).mapM below.command
  match cmds with
  | [] => .error .null
  | [only] => return if isNegated then .pipeline cmds isNegated else only
  | _ => return .pipeline cmds isNegated

/-- The sequence of `lower_pipeline` and whether a `!` stands before it. -/
def pipelineParts : List Gnode → Lowering (Gnode × Bool)
  | [seq] => .ok (seq, false)
  | [first, second] => do
    if first.type = .wordNode then
      if (← first.token?).type = .bang then return (second, true) else return (first, false)
    else return (first, false)
  | _ => .error .null

/-- `lower_pipeline`. -/
def lowerPipeline (g : Gnode) : Lowering Ast := do
  let (seq, isNegated) ← pipelineParts (← g.nodes?)
  lowerPipeSequence below (← expectType (some seq) .pipeSequence) isNegated

/-- An operand of an and-or list or an element of a list: a pipeline or an and-or list. -/
def lowerAndOrOrPipeline (g : Gnode) : Lowering Ast :=
  match g.type with
  | .andOr => below.andOr g
  | .pipeline => lowerPipeline below g
  | _ => .error .null

/-- The operator of an and-or node. -/
def andorOperator : TokenType → Lowering AndorOperator
  | .andIf => .ok .and
  | .orIf => .ok .or
  | _ => .error .null

/-- `lower_and_or`. -/
def lowerAndOr (g : Gnode) : Lowering Ast := do
  match ← g.multi? with
  | ⟨some a, some b, some c, _⟩ =>
    let left ← lowerAndOrOrPipeline below a
    let tok ← (← expectType (some b) .andOr).token?
    let op ← andorOperator tok.type
    let right ← lowerAndOrOrPipeline below c
    return .andOrList left right op
  | ⟨some a, none, none, _⟩ =>
    if a.type = .pipeline then lowerPipeline below a else .error .null
  | _ => .error .null

/-! ### Lists -/

/-- The two lists of an `AST_COMMAND_LIST`. -/
structure CommandList where
  items : List Ast := []
  separators : List CmdSeparator := []

namespace CommandList

def ast (cl : CommandList) : Ast := .commandList cl.items cl.separators

/-- Put one item and its separator in front. -/
def cons (item : Ast) (sep : CmdSeparator) (cl : CommandList) : CommandList :=
  ⟨item :: cl.items, sep :: cl.separators⟩

/-- The update of the last separator in `lower_complete_command` and `lower_compound_list`. -/
def setFinalSeparator (cl : CommandList) (sep : CmdSeparator) : Lowering CommandList :=
  if cl.items = [] then .error .null
  else if cl.items.length = cl.separators.length + 1 then
    .ok { cl with separators := cl.separators ++ [sep] }
  else if cl.items.length = cl.separators.length then
    .ok { cl with separators := cl.separators.dropLast ++ [sep] }
  else .error .null

/-- The separator given by the source, if any, goes over the last one; without one the list is
only completed where a separator is missing. -/
def finish (cl : CommandList) (given : Option CmdSeparator) : Lowering CommandList :=
  match given with
  | some sep => cl.setFinalSeparator sep
  | none => if cl.separators.length < cl.items.length then cl.setFinalSeparator .end_ else .ok cl

end CommandList

/-- `separator_from_gseparator_op`. -/
def separatorFromGseparatorOp (g : Gnode) : Lowering CmdSeparator := do
  return if (← g.token?).type = .amper then .background else .sequential

/-- The separator of a node that `lower_complete_command` and `lower_compound_list` put last. -/
def finalSeparator (tok : Token) : Lowering CmdSeparator :=
  match tok.type with
  | .amper => .ok .background
  | .semi => .ok .sequential
  | _ => .error .null

/-- The loop of `lower_list` and `lower_term_as_command_list`: elements, each with the separator
node that may follow it. -/
def lowerItems (separatorType : GnodeType) (separatorOf : Gnode → Lowering CmdSeparator) :
    List Gnode → Lowering CommandList
  | [] => .ok {}
  | [elem] => do
    let node ← lowerAndOrOrPipeline below elem
    return CommandList.cons node .end_ {}
  | elem :: sepNode :: rest => do
    let node ← lowerAndOrOrPipeline below elem
    if sepNode.type = separatorType then
      let sep ← separatorOf sepNode
      return (← lowerItems separatorType separatorOf rest).cons node sep
    else
      return (← lowerItems separatorType separatorOf (sepNode :: rest)).cons node .end_

/-- `lower_list`. -/
def lowerList (g : Gnode) : Lowering CommandList := do
  let g ← expectsEq (some g) .list
  lowerItems below .separatorOp separatorFromGseparatorOp (← g.nodes?)

/-- `lower_term_as_command_list`: every separator inside a term is sequential. -/
def lowerTermAsCommandList (g : Gnode) : Lowering CommandList := do
  lowerItems below .separator (fun _ => .ok .sequential) (← g.nodes?)

/-- The separator that ends a compound list. -/
def compoundListSeparator (sep : Gnode) : Lowering CmdSeparator := do
  if sep.type = .separator then
    let inner ← deref (← sep.multi?).a
    match inner.type with
    | .separatorOp => finalSeparator (← inner.token?)
    | .newlineList => return .sequential
    | _ => .error .null
  else .error .null

/-- A term that cannot be lowered is a NULL list that `lower_compound_list` reads. -/
def nullCrash {α : Type} : Lowering α → Lowering α
  | .error .null => .error .crash
  | r => r

/-- `lower_compound_list`. -/
def lowerCompoundList (g : Gnode) : Lowering Ast := do
  let g ← expectsEq (some g) .compoundList
  let m ← g.multi?
  let term ← expectType m.a .term
  let list ← nullCrash (lowerTermAsCommandList below term)
  let given ← m.b.mapM compoundListSeparator
  return (← list.finish given).ast

/-! ### Compound commands -/

/-- A body whose pointer must not be NULL. -/
def lowerBody (g : Option Gnode) : Lowering Ast := do
  below.compoundList (← deref g)

def lowerSubshell (g : Gnode) : Lowering Ast := do
  return .subshell (← lowerBody below (← g.multi?).b)

/-- `lower_brace_group`: an empty group gets an empty list. -/
def lowerBraceGroup (g : Gnode) : Lowering Ast := do
  match (← g.multi?).b with
  | none => return .braceGroup (.commandList [] [])
  | some clist => return .braceGroup (← below.compoundList clist)

/-- `lower_do_group`. -/
def lowerDoGroup (g : Option Gnode) : Lowering Ast := do
  lowerBody below (← (← expectsEq g .doGroup).multi?).b

/-- `lower_else_part`: an `elif` becomes a nested `if` in the else branch. -/
def lowerElsePart (g : Gnode) : Lowering Ast := do
  let m ← (← expectsEq (some g) .elsePart).multi?
  match m.b, m.c with
  | none, none => lowerBody below m.a
  | _, _ =>
    let cond ← lowerBody below m.a
    let thenBody ← lowerBody below m.b
    let tail ← m.c.mapM below.elsePart
    return .ifClause cond thenBody none tail

/-- `lower_if_clause`. -/
def lowerIfClause (g : Gnode) : Lowering Ast := do
  let m ← g.multi?
  let inner ← (← expectType m.a .ifClause).multi?
  let cond ← lowerBody below inner.b
  let thenBody ← lowerBody below inner.d
  let elseBody ← m.b.mapM below.elsePart
  return .ifClause cond thenBody none elseBody

/-- `lower_while_clause` and `lower_until_clause`. -/
def lowerLoopClause (build : Ast → Ast → Ast) (g : Gnode) : Lowering Ast := do
  let m ← g.multi?
  let cond ← lowerBody below m.b
  let body ← lowerDoGroup below m.c
  return build cond body

def lowerWhileClause (g : Gnode) : Lowering Ast := lowerLoopClause below .whileClause g

def lowerUntilClause (g : Gnode) : Lowering Ast := lowerLoopClause below .untilClause g

/-- The words of a for clause: NULL without a word list. -/
def lowerInClause : Option Gnode → Lowering (Option (List Token))
  | none => .ok none
  | some inClause => do
    let inClause ← expectType (some inClause) .inNode
    if inClause.payload = .multi then
      match (← inClause.multi?).b with
      | some wlist => tokenListFromWordlist (← expectType (some wlist) .wordlist)
      | none => return none
    else return none

/-- `lower_for_clause`. -/
def lowerForClause (g : Gnode) : Lowering Ast := do
  let m ← g.multi?
  let var := (← (← expectType m.b .nameNode).token?).getAllText
  let words ← lowerInClause m.c
  let body ← lowerDoGroup below m.d
  return .forClause var words body

/-- The word and the list of items of `lower_case_clause`, whose node is wrapped once more when
it has items. -/
def caseParts (m : Gnode.Multi) : Lowering (Option Gnode × Option Gnode) :=
  match m.a with
  | some inner =>
    if inner.type = .caseClause then do return ((← inner.multi?).b, m.b)
    else if inner.type = .wordNode then
      match m.b with
      | some word => if word.type = .wordNode then .ok (some word, none) else .ok (some inner, none)
      | none => .ok (some inner, none)
    else .ok (m.b, none)
  | none => .ok (m.b, none)

/-- The action of the token that ends a case item. -/
def caseAction : Option Gnode → Lowering CaseAction
  | none => .ok .none
  | some dsemi =>
    if dsemi.type = .wordNode then do
      match (← dsemi.token?).type with
      | .dsemi => return .break_
      | .semiand => return .fallthrough
      | _ => return .none
    else .ok .none

/-- `lower_case_item`. -/
def lowerCaseItem (g : Gnode) : Lowering Ast := do
  let m ← g.multi?
  let inner ← (← expectType m.a .caseItem).multi?
  let patterns ← tokenListFromPatternList (← expectType inner.b .patternList)
  let body ← match inner.d with
    | some gbody =>
      if gbody.type = .compoundList then some <$> below.compoundList gbody else .ok none
    | none => .ok none
  return .caseItem patterns body (← caseAction m.b)

/-- `lower_case_item_ns`: a body that cannot be lowered is an absent one. -/
def lowerCaseItemNs (g : Gnode) : Lowering Ast := do
  let m ← g.multi?
  let patterns ← tokenListFromPatternList (← deref m.b)
  let body ← match m.d with
    | some gbody =>
      match below.compoundList gbody with
      | .error .null => .ok none
      | r => some <$> r
    | none => .ok none
  return .caseItem patterns body .none

/-- The switch on the kind of a case item. -/
def lowerCaseListItem (item : Gnode) : Lowering Ast :=
  match item.type with
  | .caseItem => lowerCaseItem below item
  | .caseItemNs => lowerCaseItemNs below item
  | _ => .error .null

/-- The items of a case clause. -/
def lowerCaseList : Option Gnode → Lowering (List Ast)
  | none => .ok []
  | some glist =>
    if glist.type = .caseList ∨ glist.type = .caseListNs then do
      (← glist.nodes?).mapM (lowerCaseListItem below)
    else .ok []

/-- `lower_case_clause`. -/
def lowerCaseClause (g : Gnode) : Lowering Ast := do
  let (gword, glist) ← caseParts (← g.multi?)
  let subject ← (← expectType gword .wordNode).tokenClone?
  return .caseClause subject (← lowerCaseList below glist)

/-- `lower_compound_command`. -/
def lowerCompoundCommand (g : Gnode) : Lowering Ast :=
  match g.type with
  | .subshell => lowerSubshell below g
  | .braceGroup => lowerBraceGroup below g
  | .forClause => lowerForClause below g
  | .caseClause => lowerCaseClause below g
  | .ifClause => lowerIfClause below g
  | .whileClause => lowerWhileClause below g
  | .untilClause => lowerUntilClause below g
  | .compoundCommand => do below.compoundCommand (← deref (← g.multi?).a)
  | _ => .error .null

/-- `lower_function_definition`. -/
def lowerFunctionDefinition (g : Gnode) : Lowering Ast := do
  let m ← g.multi?
  let name := (← (← expectType m.a .fname).token?).getAllText
  let gbody ← deref m.d
  if gbody.type = .functionBody then
    let inner ← gbody.multi?
    let cmd ← below.compoundCommand (← deref inner.a)
    let redirs ← inner.b.mapM fun gredirs => do (← gredirs.nodes?).mapM lowerIoRedirect
    return .functionDef name cmd redirs
  else return .functionDef name (← below.compoundCommand gbody) none

/-- The command inside a `G_COMMAND` wrapper. -/
def commandChild (g : Gnode) : Lowering Gnode :=
  match g.payload with
  | .child | .multi => do orNull (← g.multi?).a
  | _ => .error .null

/-- `lower_command`: the redirections of a compound command are not read. -/
def lowerCommand (g : Gnode) : Lowering Ast := do
  let child ← commandChild g
  match child.type with
  | .command => below.command child
  | .simpleCommand => lowerSimpleCommand child
  | .subshell | .braceGroup => below.compoundCommand (← deref (← child.multi?).b)
  | .forClause | .caseClause | .ifClause | .whileClause | .untilClause | .compoundCommand =>
    below.compoundCommand child
  | .functionDefinition => lowerFunctionDefinition below child
  | _ => .error .null

/-! ## Complete commands and programs -/

/-- The separator after the list of a complete command. -/
def completeCommandSeparator (sep : Gnode) : Lowering CmdSeparator := do
  if sep.type = .separatorOp then finalSeparator (← sep.token?) else .error .null

/-- `lower_complete_command`: a single command with no separator is not wrapped. -/
def lowerCompleteCommand (g : Gnode) : Lowering Ast := do
  let m ← (← expectsEq (some g) .completeCommand).multi?
  let list ← lowerList below (← deref m.a)
  let given ← m.b.mapM completeCommandSeparator
  let list ← list.finish given
  match list with
  | ⟨[item], [.end_]⟩ => return item
  | _ => return list.ast

theorem lowerCompleteCommand_ofMulti (nodes : List Gnode) (sep : Option Gnode) :
    lowerCompleteCommand below
        (.ofMulti .completeCommand (some (.ofList .list nodes)) sep none none) = (do
      let list ← lowerItems below .separatorOp separatorFromGseparatorOp nodes
      let given ← sep.mapM completeCommandSeparator
      let list ← list.finish given
      match list with
      | ⟨[item], [.end_]⟩ => return item
      | _ => return list.ast) :=
  rfl

/-- What one complete command adds to the program's list: the inner items of a command list, a
single command with the end separator. -/
def completeCommandItems : Ast → CommandList
  | .commandList items separators =>
    ⟨items, (List.range items.length).map fun j => separators.getD j .end_⟩
  | item => ⟨[item], [.end_]⟩

/-- The flattening loop of `lower_complete_commands`. -/
def lowerCompleteCommandItems : List Gnode → Lowering CommandList
  | [] => .ok {}
  | g :: rest => do
    let item := completeCommandItems (← lowerCompleteCommand below g)
    let cl ← lowerCompleteCommandItems rest
    return ⟨item.items ++ cl.items, item.separators ++ cl.separators⟩

/-- `lower_complete_commands`. -/
def lowerCompleteCommands (g : Gnode) : Lowering Ast := do
  match ← (← expectsEq (some g) .completeCommands).nodes? with
  | [gcmd] =>
    match ← lowerCompleteCommand below gcmd with
    | .commandList items separators => return .commandList items separators
    | result => return .commandList [result] [.end_]
  | nodes => return (← lowerCompleteCommandItems below nodes).ast

/-- `lower_program`: an empty program has no tree. -/
def lowerProgram (g : Gnode) : Lowering Ast := do
  lowerCompleteCommands below (← orNull (← g.multi?).a)

end Lower

open Lower

/-- The lowerers of trees at most `n` levels deep. -/
def lowerers : ℕ → Lowerers
  | 0 => ⟨fun _ => .error .fuel, fun _ => .error .fuel, fun _ => .error .fuel,
      fun _ => .error .fuel, fun _ => .error .fuel⟩
  | n + 1 =>
    { compoundList := lowerCompoundList (lowerers n)
      andOr := lowerAndOr (lowerers n)
      command := lowerCommand (lowerers n)
      compoundCommand := lowerCompoundCommand (lowerers n)
      elsePart := lowerElsePart (lowerers n) }

mutual

/-- The number of levels of a parse tree. -/
def Gnode.height : Gnode → ℕ
  | .list _ _ nodes => Gnode.heightAll nodes + 1
  | .token .. => 1
  | .pair _ _ left right => max (Gnode.heightOpt left) (Gnode.heightOpt right) + 1
  | .child _ _ node => Gnode.heightOpt node + 1
  | .multi _ _ a b c d =>
    max (max (Gnode.heightOpt a) (Gnode.heightOpt b)) (max (Gnode.heightOpt c) (Gnode.heightOpt d)) + 1
  | .ioHere .. => 1

/-- The number of levels of the highest of some trees. -/
def Gnode.heightAll : List Gnode → ℕ
  | [] => 0
  | node :: nodes => max node.height (Gnode.heightAll nodes)

/-- The number of levels of a child that may be absent. -/
def Gnode.heightOpt : Option Gnode → ℕ
  | none => 0
  | some node => node.height

end

/-- `ast_lower`. -/
def astLower (root : Gnode) : Lowering Ast := do
  lowerProgram (lowerers root.height) (← expectType (some root) .program)

end Migash
