import Migash.Token

/-! # The abstract syntax tree

What the lowering pass builds and the executor runs. A pointer the source may
leave NULL is an `Option`, so that an absent list and an empty one differ as
they do there.
-/

namespace Migash

/-- `redirection_type_t`. -/
inductive RedirectionType where
  | read | write | append | readwrite | writeForce | fdDupIn | fdDupOut | fromBuffer
  | fromBufferStrip
  deriving DecidableEq, Repr

/-- `redir_target_kind_t`. -/
inductive RedirTargetKind where
  | invalid | file | fd | close | fdString | buffer
  deriving DecidableEq, Repr

/-- `cmd_separator_t`. -/
inductive CmdSeparator where
  | sequential | background | end_
  deriving DecidableEq, Repr

/-- `andor_operator_t`. -/
inductive AndorOperator where
  | and | or
  deriving DecidableEq, Repr

/-- `case_action_t`. -/
inductive CaseAction where
  | none | break_ | fallthrough
  deriving DecidableEq, Repr

/-- The `redirection` member of an `AST_REDIRECTION` node. -/
structure Redirection where
  redirType : RedirectionType
  ioNumber : Int := -1
  operand : RedirTargetKind
  bufferNeedsExpansion : Bool := false
  fdString : Option String := none
  target : Option Token := none
  buffer : Option String := none
  deriving DecidableEq, Repr

/-- `ast_node_t`, one constructor for each node type. -/
inductive Ast where
  | simpleCommand (words : Option (List Token)) (redirections : Option (List Redirection))
      (assignments : Option (List Token))
  | pipeline (commands : List Ast) (isNegated : Bool)
  | andOrList (left right : Ast) (op : AndorOperator)
  | commandList (items : List Ast) (separators : List CmdSeparator)
  | subshell (body : Ast)
  | braceGroup (body : Ast)
  | ifClause (condition thenBody : Ast) (elifList : Option (List Ast)) (elseBody : Option Ast)
  | whileClause (condition body : Ast)
  | untilClause (condition body : Ast)
  | forClause (variable_ : String) (words : Option (List Token)) (body : Ast)
  | caseClause (word : Token) (caseItems : List Ast)
  | functionDef (name : String) (body : Ast) (redirections : Option (List Redirection))
  | redirectedCommand (command : Ast) (redirections : List Redirection)
  | redirection (data : Redirection)
  | caseItem (patterns : List Token) (body : Option Ast) (action : CaseAction)
  | functionStored
  deriving Repr

namespace Ast

/-- The simple command of unquoted words, as lowering builds it. -/
def ofWords (texts : List String) : Ast :=
  simpleCommand (some (texts.map Token.ofText)) (some []) (some [])

/-- `ast_node_type_t` as a number. -/
def typeNumber : Ast → Nat
  | simpleCommand .. => 0
  | pipeline .. => 1
  | andOrList .. => 2
  | commandList .. => 3
  | subshell .. => 4
  | braceGroup .. => 5
  | ifClause .. => 6
  | whileClause .. => 7
  | untilClause .. => 8
  | forClause .. => 9
  | caseClause .. => 10
  | functionDef .. => 11
  | redirectedCommand .. => 12
  | redirection .. => 13
  | caseItem .. => 14
  | functionStored => 15

/-- `ast_node_type_to_string`. -/
def typeToString : Ast → String
  | simpleCommand .. => "SIMPLE_COMMAND"
  | pipeline .. => "PIPELINE"
  | andOrList .. => "AND_OR_LIST"
  | commandList .. => "COMMAND_LIST"
  | subshell .. => "SUBSHELL"
  | braceGroup .. => "BRACE_GROUP"
  | ifClause .. => "IF_CLAUSE"
  | whileClause .. => "WHILE_CLAUSE"
  | untilClause .. => "UNTIL_CLAUSE"
  | forClause .. => "FOR_CLAUSE"
  | caseClause .. => "CASE_CLAUSE"
  | functionDef .. => "FUNCTION_DEF"
  | redirectedCommand .. => "REDIRECTED_COMMAND"
  | redirection .. => "REDIRECTION"
  | caseItem .. => "CASE_ITEM"
  | functionStored => "FUNCTION_STORED"

end Ast

end Migash
