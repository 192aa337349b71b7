import Migash.Token

/-! # Grammar nodes

The parse tree. Each constructor is one member of the `data` union; the node
type and the payload type are stored beside it, as in the source, because a
node's payload type need not name the member that was written.
-/

namespace Migash

/-- `gnode_type_t`. -/
inductive GnodeType where
  | unspecified | program | completeCommands | completeCommand | list | andOr | pipeline
  | pipeSequence | command
  | simpleCommand | cmdPrefix | cmdWord | cmdSuffix | cmdName | assignmentWord | wordNode
  | redirectList | ioRedirect | ioFile | ioHere | filename | hereEnd
  | compoundCommand | subshell | braceGroup | ifClause | elsePart | whileClause | untilClause
  | forClause | caseClause | caseList | caseListNs | caseItem | caseItemNs | patternList
  | doGroup | compoundList | term
  | functionDefinition | functionBody | fname
  | separatorOp | separator | sequentialSep | newlineList | linebreak
  | nameNode | inNode | wordlist | ioNumberNode | ioLocationNode
  deriving DecidableEq, Repr

/-- `gnode_payload_t`. -/
inductive GnodePayload where
  | none | list | token | string | pair | child | multi | ioHere | indeterminate
  deriving DecidableEq, Repr

/-- `gnode_get_payload_type`. -/
def gnodeGetPayloadType : GnodeType → GnodePayload
  | .wordNode | .assignmentWord | .nameNode | .ioNumberNode | .ioLocationNode | .separatorOp
  | .cmdName | .cmdWord | .filename => .token
  | .fname | .hereEnd => .string
  | .completeCommands | .list | .pipeline | .pipeSequence | .simpleCommand | .cmdSuffix
  | .redirectList | .caseList | .caseListNs | .patternList | .wordlist | .term
  | .newlineList => .list
  | .compoundList => .pair
  | .elsePart => .multi
  | .program | .cmdPrefix | .functionBody | .separator | .linebreak | .compoundCommand => .child
  | .andOr | .braceGroup | .completeCommand | .ifClause | .whileClause | .untilClause
  | .forClause | .caseClause | .caseItem | .caseItemNs | .functionDefinition | .ioRedirect
  | .ioFile | .subshell | .doGroup => .multi
  | .command | .inNode => .indeterminate
  | .ioHere => .ioHere
  | .unspecified | .sequentialSep => .none

/-- `gnode_t`. A token or here-document operator that was cloned out of the token list keeps
the index it was cloned from, so that a node can be traced back to the input. -/
inductive Gnode where
  | list (type : GnodeType) (payload : GnodePayload) (nodes : List Gnode)
  | token (type : GnodeType) (payload : GnodePayload) (tok : Token) (origin : Nat)
  | pair (type : GnodeType) (payload : GnodePayload) (left right : Option Gnode)
  | child (type : GnodeType) (payload : GnodePayload) (node : Option Gnode)
  | multi (type : GnodeType) (payload : GnodePayload) (a b c d : Option Gnode)
  | ioHere (type : GnodeType) (payload : GnodePayload) (op : TokenType) (hereEnd : String)
      (tok : Option Token) (origin : Nat)
  deriving Repr

namespace Gnode

/-- `node->type`. -/
def type : Gnode → GnodeType
  | .list type .. | .token type .. | .pair type .. | .child type .. | .multi type ..
  | .ioHere type .. => type

@[simp] theorem type_list (t : GnodeType) (p : GnodePayload) (nodes : List Gnode) :
    (Gnode.list t p nodes).type = t := rfl

@[simp] theorem type_child (t : GnodeType) (p : GnodePayload) (node : Option Gnode) :
    (Gnode.child t p node).type = t := rfl

@[simp] theorem type_multi (t : GnodeType) (p : GnodePayload) (a b c d : Option Gnode) :
    (Gnode.multi t p a b c d).type = t := rfl

/-- `g_node_create` followed by `data.list = ...`. -/
def ofList (type : GnodeType) (nodes : List Gnode) : Gnode :=
  .list type (gnodeGetPayloadType type) nodes

/-- `g_node_create` followed by `data.token = ...`. -/
def ofToken (type : GnodeType) (tok : Token) (origin : Nat) : Gnode :=
  .token type (gnodeGetPayloadType type) tok origin

/-- `g_node_create` followed by `data.pair = ...`. -/
def ofPair (type : GnodeType) (left right : Option Gnode) : Gnode :=
  .pair type (gnodeGetPayloadType type) left right

/-- `g_node_create` followed by `data.child = ...`. -/
def ofChild (type : GnodeType) (node : Gnode) : Gnode :=
  .child type (gnodeGetPayloadType type) (some node)

/-- `g_node_create` followed by `data.multi = ...`. -/
def ofMulti (type : GnodeType) (a b c d : Option Gnode) : Gnode :=
  .multi type (gnodeGetPayloadType type) a b c d

end Gnode

end Migash
