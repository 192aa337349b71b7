import Migash.Ast
import Migash.Library.Forward

/-! # Copies of syntax trees

`ast_node_clone` copies the members of a node through functions whose contracts
want a pointer that is not NULL. What a node owns is what `ast_node_destroy`
frees, and a pointer that is not copied is shared by both trees.
-/

namespace Migash

open Library

/-- `string_create_from`. -/
def stringCreateFrom : Option String → Except Fault String
  | some other => .ok other
  | none => .error (.contract "other")

/-- `token_list_clone`. -/
def tokenListClone : Option (List Token) → Except Fault (List Token)
  | some other => .ok (other.map Token.clone)
  | none => .error (.contract "other")

/-! ## Redirections -/

namespace Redirection

/-- The `AST_REDIRECTION` case of `ast_node_clone`; the other members are those of the node. -/
def clone (node : Redirection) : Except Fault Redirection :=
  match node.operand with
  | .file | .fd => .ok { node with target := node.target.map Token.clone }
  | .fdString => do return { node with fdString := some (← stringCreateFrom node.fdString) }
  | .buffer => do
    return { node with target := node.target.map Token.clone
                       buffer := some (← stringCreateFrom node.buffer) }
  | .close | .invalid => .ok node

/-- `ast_node_list_clone` of a list of redirections. -/
def listClone : Option (List Redirection) → Except Fault (List Redirection)
  | some other => other.mapM clone
  | none => .error (.contract "other")

/-- The members of a redirection that are pointers. -/
inductive Member where
  | fdString | target | buffer
  deriving DecidableEq, Repr

/-- The members that `ast_node_destroy` frees. -/
def owned (node : Redirection) : List Member :=
  match node.operand with
  | .file | .fd => [.target]
  | .fdString => [.fdString]
  | .buffer => [.target, .buffer]
  | .close | .invalid => []

/-- The members that `ast_node_clone` allocates anew. -/
def copied (node : Redirection) : List Member :=
  match node.operand with
  | .file | .fd => [.target]
  | .fdString => [.fdString]
  | .buffer => [.target, .buffer]
  | .close | .invalid => []

/-- No member that the node frees is shared with the copy. -/
def SharesNothing (node : Redirection) : Prop := ∀ m ∈ node.owned, m ∈ node.copied

end Redirection

/-! ## Nodes -/

mutual

/-- `ast_node_clone`. -/
def Ast.clone : Ast → Except Fault Ast
  | .simpleCommand words redirections assignments => do
    return .simpleCommand (some (← tokenListClone words))
      (some (← Redirection.listClone redirections)) (some (← tokenListClone assignments))
  | .pipeline commands isNegated => do return .pipeline (← Ast.listClone commands) isNegated
  | .andOrList left right op => do return .andOrList (← left.clone) (← right.clone) op
  | .commandList items separators => do return .commandList (← Ast.listClone items) separators
  | .subshell body => do return .subshell (← body.clone)
  | .braceGroup body => do return .braceGroup (← body.clone)
  | .ifClause condition thenBody elifList elseBody => do
    return .ifClause (← condition.clone) (← thenBody.clone)
      (← (match elifList with
        | some elifs => some <$> Ast.listClone elifs
        | none => .ok none))
      (← (match elseBody with
        | some body => some <$> body.clone
        | none => .ok none))
  | .whileClause condition body => do return .whileClause (← condition.clone) (← body.clone)
  | .untilClause condition body => do return .untilClause (← condition.clone) (← body.clone)
  | .forClause variable_ words body => do
    return .forClause variable_ (some (← tokenListClone words)) (← body.clone)
  | .caseClause word caseItems => do return .caseClause word.clone (← Ast.listClone caseItems)
  | .functionDef name body redirections => do
    return .functionDef name (← body.clone) (some (← Redirection.listClone redirections))
  | .redirectedCommand command redirections => do
    return .redirectedCommand (← command.clone) (← Redirection.listClone (some redirections))
  | .redirection data => do return .redirection (← data.clone)
  | .caseItem patterns body action =>
    match body with
    | some body => do
      return .caseItem (patterns.map Token.clone) (some (← body.clone)) action
    | none => .error (.contract "node")
  | .functionStored => .ok .functionStored

/-- `ast_node_list_clone`. -/
def Ast.listClone : List Ast → Except Fault (List Ast)
  | [] => .ok []
  | node :: nodes => do return (← node.clone) :: (← Ast.listClone nodes)

end

mutual

/-- The redirections of a tree. -/
def Ast.redirections : Ast → List Redirection
  | .simpleCommand _ redirections _ => redirections.getD []
  | .pipeline commands _ => Ast.listRedirections commands
  | .andOrList left right _ => left.redirections ++ right.redirections
  | .commandList items _ => Ast.listRedirections items
  | .subshell body | .braceGroup body => body.redirections
  | .ifClause condition thenBody elifList elseBody =>
    condition.redirections ++ thenBody.redirections ++
      (match elifList with
        | some elifs => Ast.listRedirections elifs
        | none => []) ++
      (match elseBody with
        | some body => body.redirections
        | none => [])
  | .whileClause condition body | .untilClause condition body =>
    condition.redirections ++ body.redirections
  | .forClause _ _ body => body.redirections
  | .caseClause _ caseItems => Ast.listRedirections caseItems
  | .functionDef _ body redirections => body.redirections ++ redirections.getD []
  | .redirectedCommand command redirections => command.redirections ++ redirections
  | .redirection data => [data]
  | .caseItem _ body _ =>
    match body with
    | some body => body.redirections
    | none => []
  | .functionStored => []

/-- The redirections of the trees of a list. -/
def Ast.listRedirections : List Ast → List Redirection
  | [] => []
  | node :: nodes => node.redirections ++ Ast.listRedirections nodes

end

/-! ## What a copy needs -/

/-- The text that the operand of a redirection is about is there. -/
def Redirection.isComplete (r : Redirection) : Bool :=
  match r.operand with
  | .fdString => r.fdString.isSome
  | .buffer => r.buffer.isSome
  | _ => true

mutual

/-- No list and no body that the parser may leave out is missing: every for clause has its words,
every case item its body, every function definition its redirections and every here-document its
text. -/
def Ast.isComplete : Ast → Bool
  | .simpleCommand words redirections assignments =>
    words.isSome && redirections.any (fun rs => rs.all Redirection.isComplete) && assignments.isSome
  | .pipeline commands _ => Ast.allComplete commands
  | .andOrList left right _ => left.isComplete && right.isComplete
  | .commandList items _ => Ast.allComplete items
  | .subshell body | .braceGroup body => body.isComplete
  | .ifClause condition thenBody elifList elseBody =>
    condition.isComplete && thenBody.isComplete &&
      (match elifList with
        | some elifs => Ast.allComplete elifs
        | none => true) &&
      (match elseBody with
        | some body => body.isComplete
        | none => true)
  | .whileClause condition body | .untilClause condition body => condition.isComplete && body.isComplete
  | .forClause _ words body => words.isSome && body.isComplete
  | .caseClause _ caseItems => Ast.allComplete caseItems
  | .functionDef _ body redirections =>
    body.isComplete && redirections.any (fun rs => rs.all Redirection.isComplete)
  | .redirectedCommand command redirections =>
    command.isComplete && redirections.all Redirection.isComplete
  | .redirection data => data.isComplete
  | .caseItem _ body _ =>
    match body with
    | some body => body.isComplete
    | none => false
  | .functionStored => true

/-- Nothing is missing in the trees of a list. -/
def Ast.allComplete : List Ast → Bool
  | [] => true
  | node :: nodes => node.isComplete && Ast.allComplete nodes

end

/-! ## Tokens that are copies -/

/-- No token of the list has a part that a copy changes. -/
def Token.AllCopied (toks : List Token) : Prop := toks.map clone = toks

/-- The target of a redirection is a copy. -/
def Redirection.Copied (node : Redirection) : Prop :=
  node.target.map Token.clone = node.target

theorem Token.AllCopied.nil : AllCopied [] := rfl

theorem Token.AllCopied.append {toks toks' : List Token} (h : AllCopied toks)
    (h' : AllCopied toks') : AllCopied (toks ++ toks') := by
  unfold AllCopied at *
  rw [List.map_append, h, h']

theorem Token.allCopied_of_forall {toks : List Token} (h : ∀ tok ∈ toks, tok.clone = tok) :
    AllCopied toks := by
  unfold AllCopied
  rw [List.map_congr_left h, List.map_id']

end Migash
