import Migash.AstClone
import Migash.Library.Gives
import Migash.Lower

/-! # The shape of lowered trees

What `ast_lower` can return: every body is a command list with one separator
for each item, every item of a list and every operand of an and-or list is a
pipeline, an and-or list or a command, the lists of a simple command are never
NULL, and every token is a copy.
-/

namespace Migash

open Library Lower

namespace Ast

/-- The node is an `AST_COMMAND_LIST`. -/
def isCommandList : Ast → Bool
  | commandList .. => true
  | _ => false

/-- The node is an `AST_IF_CLAUSE`. -/
def isIfClause : Ast → Bool
  | ifClause .. => true
  | _ => false

/-- The node is one command of a pipeline: a simple command, a compound command or a function
definition. -/
def isCommand : Ast → Bool
  | simpleCommand .. | subshell .. | braceGroup .. | ifClause .. | whileClause ..
  | untilClause .. | forClause .. | caseClause .. | functionDef .. => true
  | _ => false

/-- The node is an item of a list: an and-or list, a pipeline or a command. -/
def isListItem : Ast → Bool
  | andOrList .. | pipeline .. => true
  | t => t.isCommand

theorem isListItem_of_isCommand {t : Ast} (h : t.isCommand = true) : t.isListItem = true := by
  cases t <;> simp_all [isListItem, isCommand]

/-- The trees that lowering builds. -/
inductive Lowered : Ast → Prop where
  | simpleCommand (words : List Token) (redirections : List Redirection) (assignments : List Token)
      (wordsCopied : Token.AllCopied words) (assignmentsCopied : Token.AllCopied assignments)
      (targetsCopied : ∀ r ∈ redirections, r.Copied) :
      Lowered (.simpleCommand (some words) (some redirections) (some assignments))
  | pipeline {commands : List Ast} {isNegated : Bool} (nonempty : commands ≠ [])
      (kind : ∀ c ∈ commands, c.isCommand = true) (below : ∀ c ∈ commands, Lowered c) :
      Lowered (.pipeline commands isNegated)
  | andOrList {left right : Ast} {op : AndorOperator} (leftKind : left.isListItem = true)
      (rightKind : right.isListItem = true) (leftBelow : Lowered left)
      (rightBelow : Lowered right) :
      Lowered (.andOrList left right op)
  | commandList {items : List Ast} {separators : List CmdSeparator}
      (length : separators.length = items.length) (kind : ∀ c ∈ items, c.isListItem = true)
      (below : ∀ c ∈ items, Lowered c) : Lowered (.commandList items separators)
  | subshell {body : Ast} (kind : body.isCommandList = true ∨ body.isCommand = true)
      (below : Lowered body) : Lowered (.subshell body)
  | braceGroup {body : Ast} (kind : body.isCommandList = true) (below : Lowered body) :
      Lowered (.braceGroup body)
  | ifClause {condition thenBody : Ast} {elseBody : Option Ast}
      (conditionKind : condition.isCommandList = true) (thenKind : thenBody.isCommandList = true)
      (elseKind : ∀ e ∈ elseBody, e.isCommandList = true ∨ e.isIfClause = true)
      (conditionBelow : Lowered condition) (thenBelow : Lowered thenBody)
      (elseBelow : ∀ e ∈ elseBody, Lowered e) :
      Lowered (.ifClause condition thenBody none elseBody)
  | whileClause {condition body : Ast} (conditionKind : condition.isCommandList = true)
      (bodyKind : body.isCommandList = true) (conditionBelow : Lowered condition)
      (bodyBelow : Lowered body) : Lowered (.whileClause condition body)
  | untilClause {condition body : Ast} (conditionKind : condition.isCommandList = true)
      (bodyKind : body.isCommandList = true) (conditionBelow : Lowered condition)
      (bodyBelow : Lowered body) : Lowered (.untilClause condition body)
  | forClause {variable_ : String} {words : Option (List Token)} {body : Ast}
      (kind : body.isCommandList = true) (below : Lowered body)
      (wordsCopied : ∀ toks ∈ words, Token.AllCopied toks) :
      Lowered (.forClause variable_ words body)
  | caseClause {word : Token} {caseItems : List Ast}
      (items : ∀ c ∈ caseItems, ∃ patterns body action, c = .caseItem patterns body action)
      (kind : ∀ patterns body action, .caseItem patterns (some body) action ∈ caseItems →
        body.isCommandList = true)
      (below : ∀ patterns body action, .caseItem patterns (some body) action ∈ caseItems →
        Lowered body)
      (wordCopied : word.clone = word)
      (patternsCopied : ∀ patterns body action, .caseItem patterns body action ∈ caseItems →
        Token.AllCopied patterns) : Lowered (.caseClause word caseItems)
  | functionDef {name : String} {body : Ast} {redirections : Option (List Redirection)}
      (kind : body.isCommand = true) (below : Lowered body)
      (targetsCopied : ∀ rs ∈ redirections, ∀ r ∈ rs, r.Copied) :
      Lowered (.functionDef name body redirections)

end Ast

/-- A lowered body. -/
def Body (t : Ast) : Prop := t.isCommandList = true ∧ t.Lowered

/-- A lowered command of a pipeline. -/
def Command (t : Ast) : Prop := t.isCommand = true ∧ t.Lowered

/-- A lowered item of a list. -/
def ListItem (t : Ast) : Prop := t.isListItem = true ∧ t.Lowered

/-- A lowered else branch: a body or the `if` of an `elif`. -/
def ElseBody (t : Ast) : Prop := (t.isCommandList = true ∨ t.isIfClause = true) ∧ t.Lowered

theorem Command.listItem {t : Ast} (h : Command t) : ListItem t :=
  ⟨Ast.isListItem_of_isCommand h.1, h.2⟩

namespace Lower

/-- Every lowerer builds the kind of tree it is for. -/
structure Lowerers.Sound (below : Lowerers) : Prop where
  compoundList : ∀ g, Gives Body (below.compoundList g)
  andOr : ∀ g, Gives ListItem (below.andOr g)
  command : ∀ g, Gives Command (below.command g)
  compoundCommand : ∀ g, Gives Command (below.compoundCommand g)
  elsePart : ∀ g, Gives ElseBody (below.elsePart g)

variable {below : Lowerers}

theorem tokenClone?_gives (g : Gnode) : Gives (fun tok => tok.clone = tok) g.tokenClone? :=
  (Gives.any g.token?).map fun tok _ => tok.clone_clone

theorem tokenListFromWordlist_gives (g : Gnode) :
    Gives (fun toks => ∀ ws ∈ toks, Token.AllCopied ws) (tokenListFromWordlist g) := by
  apply Gives.andThen; intro g'
  apply Gives.andThen; intro nodes
  split
  · apply (Gives.list_mapM fun node _ => tokenClone?_gives node).bind; intro toks htoks
    exact Gives.pure (by simpa using Token.allCopied_of_forall htoks)
  · exact Gives.pure (by simp)

theorem tokenListFromPatternList_gives (g : Gnode) :
    Gives Token.AllCopied (tokenListFromPatternList g) := by
  apply Gives.andThen; intro g'
  apply Gives.andThen; intro nodes
  apply (Gives.list_mapM fun node _ => tokenClone?_gives node).bind; intro toks htoks
  exact Gives.pure (Token.allCopied_of_forall fun tok htok => htoks tok (List.mem_of_mem_filter htok))

theorem lowerIoRedirect_gives (g : Gnode) : Gives Redirection.Copied (lowerIoRedirect g) := by
  apply Gives.andThen; intro g'
  apply Gives.andThen; intro m
  apply Gives.andThen; rintro ⟨ioNumber, fdString⟩
  apply Gives.andThen; intro target
  split
  · exact Gives.pure rfl
  · split_ifs
    · apply Gives.andThen; intro m'
      apply Gives.andThen; intro opNode
      apply Gives.andThen; intro op
      apply Gives.andThen; intro nameNode
      apply Gives.andThen; intro name
      exact Gives.pure (congrArg some name.clone_clone)
    · exact Gives.error
    · exact Gives.error

/-- The lists of a simple command hold copies. -/
structure SimpleParts.Copied (p : SimpleParts) : Prop where
  words : Token.AllCopied p.words
  assignments : Token.AllCopied p.assignments
  redirections : ∀ r ∈ p.redirections, r.Copied

namespace SimpleParts.Copied

variable {p : SimpleParts} (h : p.Copied)
include h

theorem addWord {tok : Token} (htok : tok.clone = tok) : (p.addWord tok).Copied :=
  { h with words := h.words.append (by simpa [Token.AllCopied] using htok) }

theorem addAssignment {tok : Token} (htok : tok.clone = tok) : (p.addAssignment tok).Copied :=
  { h with assignments := h.assignments.append (by simpa [Token.AllCopied] using htok) }

theorem addRedirection {r : Redirection} (hr : r.Copied) : (p.addRedirection r).Copied := by
  refine { h with redirections := fun r' hr' => ?_ }
  rcases List.mem_append.mp hr' with hr' | hr'
  · exact h.redirections r' hr'
  · rw [List.mem_singleton.mp hr']
    exact hr

theorem suffixElem (elem : Gnode) : Gives SimpleParts.Copied (p.suffixElem elem) := by
  unfold SimpleParts.suffixElem
  split_ifs
  · exact (tokenClone?_gives elem).map fun _ => h.addWord
  · exact (lowerIoRedirect_gives elem).map fun _ => h.addRedirection
  · exact Gives.ok h

theorem plainElem (elem : Gnode) : Gives SimpleParts.Copied (p.plainElem elem) := by
  unfold SimpleParts.plainElem
  split
  · exact (tokenClone?_gives elem).map fun _ => h.addAssignment
  · exact (tokenClone?_gives elem).map fun _ => h.addWord
  · exact (tokenClone?_gives elem).map fun _ => h.addWord
  · exact (tokenClone?_gives elem).map fun _ => h.addWord
  · exact (lowerIoRedirect_gives elem).map fun _ => h.addRedirection
  · exact Gives.error

theorem elem (elem : Gnode) : Gives SimpleParts.Copied (p.elem elem) := by
  unfold SimpleParts.elem
  split
  · apply Gives.andThen; intro m
    split
    · exact h.plainElem _
    · exact Gives.pure h
  · apply Gives.andThen; intro nodes
    exact Gives.foldlM (fun q elem hq => suffixElem hq elem) h
  · exact h.plainElem elem

end SimpleParts.Copied

theorem lowerSimpleCommand_gives (g : Gnode) : Gives Command (lowerSimpleCommand g) := by
  apply Gives.andThen; intro g'
  apply Gives.andThen; intro nodes
  have hnone : SimpleParts.Copied {} := ⟨.nil, .nil, by simp⟩
  apply (Gives.foldlM (fun p elem (hp : p.Copied) => hp.elem elem) hnone).bind
  intro parts hparts
  exact Gives.pure ⟨rfl, .simpleCommand _ _ _ hparts.words hparts.assignments hparts.redirections⟩

theorem lowerPipeSequence_gives (h : below.Sound) (g : Gnode) (isNegated : Bool) :
    Gives ListItem (lowerPipeSequence below g isNegated) := by
  apply Gives.andThen; intro nodes
  apply (Gives.list_mapM fun c _ => h.command c).bind
  intro cmds hcmds
  have whole (hne : cmds ≠ []) : ListItem (.pipeline cmds isNegated) :=
    ⟨rfl, .pipeline hne (fun c hc => (hcmds c hc).1) fun c hc => (hcmds c hc).2⟩
  match cmds with
  | [] => exact Gives.error
  | [only] =>
    cases isNegated with
    | false => exact Gives.pure (hcmds only List.mem_cons_self).listItem
    | true => exact Gives.pure (whole (by simp))
  | _ :: _ :: _ => exact Gives.pure (whole (by simp))

theorem lowerPipeline_gives (h : below.Sound) (g : Gnode) :
    Gives ListItem (lowerPipeline below g) := by
  apply Gives.andThen; intro nodes
  apply Gives.andThen; intro parts
  apply Gives.andThen; intro seq
  exact lowerPipeSequence_gives h _ _

theorem lowerAndOrOrPipeline_gives (h : below.Sound) (g : Gnode) :
    Gives ListItem (lowerAndOrOrPipeline below g) := by
  unfold lowerAndOrOrPipeline
  split
  · exact h.andOr g
  · exact lowerPipeline_gives h g
  · exact Gives.error

theorem lowerAndOr_gives (h : below.Sound) (g : Gnode) : Gives ListItem (lowerAndOr below g) := by
  apply Gives.andThen; intro m
  split
  · apply (lowerAndOrOrPipeline_gives h _).bind; intro left hleft
    apply Gives.andThen; intro node
    apply Gives.andThen; intro tok
    apply Gives.andThen; intro op
    apply (lowerAndOrOrPipeline_gives h _).bind; intro right hright
    exact Gives.pure ⟨rfl, .andOrList hleft.1 hright.1 hleft.2 hright.2⟩
  · split
    · exact lowerPipeline_gives h _
    · exact Gives.error
  · exact Gives.error

/-! ## Lists -/

/-- As many separators as items, and items that are and-or lists, pipelines or commands. -/
structure CommandList.Sound (cl : CommandList) : Prop where
  length : cl.separators.length = cl.items.length
  items : ∀ t ∈ cl.items, ListItem t

theorem CommandList.Sound.body {cl : CommandList} (h : cl.Sound) : Body cl.ast :=
  ⟨rfl, .commandList h.length (fun c hc => (h.items c hc).1) fun c hc => (h.items c hc).2⟩

theorem CommandList.Sound.nil : CommandList.Sound {} := ⟨rfl, by simp⟩

theorem CommandList.Sound.cons {cl : CommandList} {item : Ast} (h : cl.Sound) (hitem : ListItem item)
    (sep : CmdSeparator) : (cl.cons item sep).Sound where
  length := by simpa [CommandList.cons] using h.length
  items := by simpa [CommandList.cons] using ⟨hitem, h.items⟩

theorem CommandList.Sound.append {cl cl' : CommandList} (h : cl.Sound) (h' : cl'.Sound) :
    CommandList.Sound ⟨cl.items ++ cl'.items, cl.separators ++ cl'.separators⟩ where
  length := by simp [h.length, h'.length]
  items := by
    intro t ht
    rcases List.mem_append.mp ht with ht | ht
    · exact h.items t ht
    · exact h'.items t ht

theorem lowerItems_gives (h : below.Sound) (sepType : GnodeType) (sepOf : Gnode → Lowering CmdSeparator)
    (nodes : List Gnode) : Gives CommandList.Sound (lowerItems below sepType sepOf nodes) := by
  fun_induction lowerItems below sepType sepOf nodes with
  | case1 => exact Gives.ok .nil
  | case2 elem =>
    apply (lowerAndOrOrPipeline_gives h elem).bind; intro node hnode
    exact Gives.pure (CommandList.Sound.nil.cons hnode _)
  | case3 elem sepNode rest ih ih' =>
    apply (lowerAndOrOrPipeline_gives h elem).bind; intro node hnode
    split
    · apply Gives.andThen; intro sep
      apply ih.bind; intro cl hcl
      exact Gives.pure (hcl.cons hnode _)
    · apply ih'.bind; intro cl hcl
      exact Gives.pure (hcl.cons hnode _)

/-- With as many separators as items the last separator is replaced. -/
theorem CommandList.setFinalSeparator_gives {cl : CommandList} (h : cl.Sound) (sep : CmdSeparator) :
    Gives CommandList.Sound (cl.setFinalSeparator sep) := by
  unfold CommandList.setFinalSeparator
  split_ifs with hnil hshort hsame
  · exact Gives.error
  · exact absurd hshort (by have := h.length; omega)
  · have hpos : 0 < cl.items.length := List.length_pos_iff.mpr hnil
    refine Gives.ok ⟨?_, h.items⟩
    have := h.length
    simp only [List.length_append, List.length_dropLast, List.length_singleton]
    omega
  · exact Gives.error

theorem CommandList.finish_gives {cl : CommandList} (h : cl.Sound) (given : Option CmdSeparator) :
    Gives CommandList.Sound (cl.finish given) := by
  cases given with
  | some sep => exact setFinalSeparator_gives h sep
  | none =>
    have hlen : ¬ cl.separators.length < cl.items.length := by rw [h.length]; omega
    simp only [finish, hlen, if_false]
    exact Gives.ok h

theorem nullCrash_gives {α : Type} {P : α → Prop} {r : Lowering α} (h : Gives P r) :
    Gives P (nullCrash r) := by
  unfold nullCrash
  split
  · exact Gives.error
  · exact h

theorem lowerCompoundList_gives (h : below.Sound) (g : Gnode) :
    Gives Body (lowerCompoundList below g) := by
  apply Gives.andThen; intro g'
  apply Gives.andThen; intro m
  apply Gives.andThen; intro term
  have hterm : Gives CommandList.Sound (lowerTermAsCommandList below term) :=
    Gives.andThen fun nodes => lowerItems_gives h _ _ nodes
  apply (nullCrash_gives hterm).bind; intro cl hcl
  apply Gives.andThen; intro given
  apply (CommandList.finish_gives hcl given).bind; intro cl' hcl'
  exact Gives.pure hcl'.body

/-! ## Compound commands -/

theorem lowerBody_gives (h : below.Sound) (g : Option Gnode) : Gives Body (lowerBody below g) :=
  Gives.andThen fun node => h.compoundList node

theorem lowerDoGroup_gives (h : below.Sound) (g : Option Gnode) :
    Gives Body (lowerDoGroup below g) := by
  apply Gives.andThen; intro node
  apply Gives.andThen; intro m
  exact lowerBody_gives h _

theorem lowerSubshell_gives (h : below.Sound) (g : Gnode) :
    Gives Command (lowerSubshell below g) := by
  apply Gives.andThen; intro m
  apply (lowerBody_gives h _).bind; intro body hbody
  exact Gives.pure ⟨rfl, .subshell (.inl hbody.1) hbody.2⟩

theorem lowerBraceGroup_gives (h : below.Sound) (g : Gnode) :
    Gives Command (lowerBraceGroup below g) := by
  apply Gives.andThen; intro m
  split
  · exact Gives.pure ⟨rfl, .braceGroup rfl CommandList.Sound.nil.body.2⟩
  · apply (h.compoundList _).bind; intro body hbody
    exact Gives.pure ⟨rfl, .braceGroup hbody.1 hbody.2⟩

theorem elsePart_gives (h : below.Sound) (g : Option Gnode) :
    Gives (fun e => ∀ t ∈ e, ElseBody t) (g.mapM below.elsePart) :=
  Gives.option_mapM fun part _ => h.elsePart part

theorem lowered_ifClause {cond thenBody : Ast} {elseBody : Option Ast} (hcond : Body cond)
    (hthen : Body thenBody) (helse : ∀ t ∈ elseBody, ElseBody t) :
    (Ast.ifClause cond thenBody none elseBody).Lowered :=
  .ifClause hcond.1 hthen.1 (fun e he => (helse e he).1) hcond.2 hthen.2 fun e he => (helse e he).2

theorem lowerElsePart_gives (h : below.Sound) (g : Gnode) :
    Gives ElseBody (lowerElsePart below g) := by
  apply Gives.andThen; intro node
  apply Gives.andThen; intro m
  split
  · exact (lowerBody_gives h _).mono fun t ht => ⟨.inl ht.1, ht.2⟩
  · apply (lowerBody_gives h _).bind; intro cond hcond
    apply (lowerBody_gives h _).bind; intro thenBody hthen
    apply (elsePart_gives h _).bind; intro tail htail
    exact Gives.pure ⟨.inr rfl, lowered_ifClause hcond hthen htail⟩

theorem lowerIfClause_gives (h : below.Sound) (g : Gnode) :
    Gives Command (lowerIfClause below g) := by
  apply Gives.andThen; intro m
  apply Gives.andThen; intro innerNode
  apply Gives.andThen; intro inner
  apply (lowerBody_gives h _).bind; intro cond hcond
  apply (lowerBody_gives h _).bind; intro thenBody hthen
  apply (elsePart_gives h _).bind; intro elseBody helse
  exact Gives.pure ⟨rfl, lowered_ifClause hcond hthen helse⟩

theorem lowerLoopClause_gives (h : below.Sound) {build : Ast → Ast → Ast}
    (hbuild : ∀ cond body, Body cond → Body body → Command (build cond body)) (g : Gnode) :
    Gives Command (lowerLoopClause below build g) := by
  apply Gives.andThen; intro m
  apply (lowerBody_gives h _).bind; intro cond hcond
  apply (lowerDoGroup_gives h _).bind; intro body hbody
  exact Gives.pure (hbuild cond body hcond hbody)

theorem lowerInClause_gives (g : Option Gnode) :
    Gives (fun words => ∀ toks ∈ words, Token.AllCopied toks) (lowerInClause g) := by
  unfold lowerInClause
  split
  · exact Gives.ok (by simp)
  · apply Gives.andThen; intro inClause
    split_ifs
    · apply Gives.andThen; intro m
      split
      · exact Gives.andThen fun wlist => tokenListFromWordlist_gives wlist
      · exact Gives.pure (by simp)
    · exact Gives.pure (by simp)

theorem lowerForClause_gives (h : below.Sound) (g : Gnode) :
    Gives Command (lowerForClause below g) := by
  apply Gives.andThen; intro m
  apply Gives.andThen; intro nameNode
  apply Gives.andThen; intro name
  apply (lowerInClause_gives m.c).bind; intro words hwords
  apply (lowerDoGroup_gives h _).bind; intro body hbody
  exact Gives.pure ⟨rfl, .forClause hbody.1 hbody.2 hwords⟩

/-- A case item with copied patterns whose body, if it has one, is a lowered list. -/
def CaseItem (t : Ast) : Prop :=
  ∃ patterns body action, t = .caseItem patterns body action ∧ Token.AllCopied patterns ∧
    ∀ b ∈ body, Body b

theorem lowerCaseItem_gives (h : below.Sound) (g : Gnode) :
    Gives CaseItem (lowerCaseItem below g) := by
  apply Gives.andThen; intro m
  apply Gives.andThen; intro innerNode
  apply Gives.andThen; intro inner
  apply Gives.andThen; intro patternNode
  apply (tokenListFromPatternList_gives _).bind; intro patterns hpatterns
  have finish {body : Option Ast} (hbody : ∀ b ∈ body, Body b) :
      Gives CaseItem (do return Ast.caseItem patterns body (← caseAction m.b)) :=
    Gives.andThen fun action => Gives.pure ⟨patterns, body, action, rfl, hpatterns, hbody⟩
  split
  · split
    · apply ((h.compoundList _).map (Q := fun b => ∀ t ∈ b, Body t) (by simp)).bind
      intro body hbody
      exact finish hbody
    · exact finish (by simp)
  · exact finish (by simp)

theorem lowerCaseItemNs_gives (h : below.Sound) (g : Gnode) :
    Gives CaseItem (lowerCaseItemNs below g) := by
  apply Gives.andThen; intro m
  apply Gives.andThen; intro patternNode
  apply (tokenListFromPatternList_gives _).bind; intro patterns hpatterns
  have finish {body : Option Ast} (hbody : ∀ b ∈ body, Body b) :
      Gives CaseItem (pure (Ast.caseItem patterns body .none) : Lowering Ast) :=
    Gives.pure ⟨patterns, body, .none, rfl, hpatterns, hbody⟩
  split
  · split
    · exact finish (by simp)
    · apply ((h.compoundList _).map (Q := fun b => ∀ t ∈ b, Body t) (by simp)).bind
      intro body hbody
      exact finish hbody
  · exact finish (by simp)

theorem lowerCaseList_gives (h : below.Sound) (g : Option Gnode) :
    Gives (fun items => ∀ t ∈ items, CaseItem t) (lowerCaseList below g) := by
  unfold lowerCaseList
  split
  · exact Gives.ok (by simp)
  · split
    · apply Gives.andThen; intro nodes
      apply Gives.list_mapM
      intro item _
      unfold lowerCaseListItem
      split
      · exact lowerCaseItem_gives h item
      · exact lowerCaseItemNs_gives h item
      · exact Gives.error
    · exact Gives.ok (by simp)

theorem lowerCaseClause_gives (h : below.Sound) (g : Gnode) :
    Gives Command (lowerCaseClause below g) := by
  apply Gives.andThen; intro m
  apply Gives.andThen; intro parts
  apply Gives.andThen; intro wordNode
  apply (tokenClone?_gives wordNode).bind; intro subject hsubject
  apply (lowerCaseList_gives h _).bind; intro items hitems
  have bodies {patterns body action} (hmem : Ast.caseItem patterns (some body) action ∈ items) :
      Body body := by
    obtain ⟨_, _, _, heq, -, hbody⟩ := hitems _ hmem
    cases heq
    exact hbody body rfl
  refine Gives.pure ⟨rfl, .caseClause (fun c hc => ?_) (fun _ _ _ hmem => (bodies hmem).1)
    (fun _ _ _ hmem => (bodies hmem).2) hsubject fun patterns body action hmem => ?_⟩
  · obtain ⟨patterns, body, action, rfl, -⟩ := hitems c hc
    exact ⟨patterns, body, action, rfl⟩
  · obtain ⟨_, _, _, heq, hpatterns, -⟩ := hitems _ hmem
    cases heq
    exact hpatterns

theorem lowerCompoundCommand_gives (h : below.Sound) (g : Gnode) :
    Gives Command (lowerCompoundCommand below g) := by
  unfold lowerCompoundCommand
  split
  · exact lowerSubshell_gives h g
  · exact lowerBraceGroup_gives h g
  · exact lowerForClause_gives h g
  · exact lowerCaseClause_gives h g
  · exact lowerIfClause_gives h g
  · exact lowerLoopClause_gives h
      (fun _ _ hc hb => ⟨rfl, .whileClause hc.1 hb.1 hc.2 hb.2⟩) g
  · exact lowerLoopClause_gives h
      (fun _ _ hc hb => ⟨rfl, .untilClause hc.1 hb.1 hc.2 hb.2⟩) g
  · exact Gives.andThen fun m => Gives.andThen fun child => h.compoundCommand child
  · exact Gives.error

theorem lowerFunctionDefinition_gives (h : below.Sound) (g : Gnode) :
    Gives Command (lowerFunctionDefinition below g) := by
  apply Gives.andThen; intro m
  apply Gives.andThen; intro nameNode
  apply Gives.andThen; intro name
  apply Gives.andThen; intro gbody
  split
  · apply Gives.andThen; intro inner
    apply Gives.andThen; intro compound
    apply (h.compoundCommand compound).bind; intro cmd hcmd
    have hlist (gredirs : Gnode) : Gives (fun rs => ∀ r ∈ rs, Redirection.Copied r)
        (do (← gredirs.nodes?).mapM lowerIoRedirect) :=
      Gives.andThen fun nodes => Gives.list_mapM fun node _ => lowerIoRedirect_gives node
    apply (Gives.option_mapM fun gredirs _ => hlist gredirs).bind; intro redirs hredirs
    exact Gives.pure ⟨rfl, .functionDef hcmd.1 hcmd.2 hredirs⟩
  · apply (h.compoundCommand gbody).bind; intro cmd hcmd
    exact Gives.pure ⟨rfl, .functionDef hcmd.1 hcmd.2 (by simp)⟩

theorem lowerCommand_gives (h : below.Sound) (g : Gnode) : Gives Command (lowerCommand below g) := by
  apply Gives.andThen; intro child
  split
  · exact h.command child
  · exact lowerSimpleCommand_gives child
  · exact Gives.andThen fun m => Gives.andThen fun inner => h.compoundCommand inner
  · exact Gives.andThen fun m => Gives.andThen fun inner => h.compoundCommand inner
  · exact h.compoundCommand child
  · exact h.compoundCommand child
  · exact h.compoundCommand child
  · exact h.compoundCommand child
  · exact h.compoundCommand child
  · exact h.compoundCommand child
  · exact lowerFunctionDefinition_gives h child
  · exact Gives.error

/-! ## Programs -/

/-- A complete command is a body or a single item. -/
theorem lowerCompleteCommand_gives (h : below.Sound) (g : Gnode) :
    Gives (fun t => Body t ∨ ListItem t) (lowerCompleteCommand below g) := by
  apply Gives.andThen; intro node
  apply Gives.andThen; intro m
  apply Gives.andThen; intro list
  have hlist : Gives CommandList.Sound (lowerList below list) :=
    Gives.andThen fun g' => Gives.andThen fun nodes => lowerItems_gives h _ _ nodes
  apply hlist.bind; intro cl hcl
  apply Gives.andThen; intro given
  apply (CommandList.finish_gives hcl given).bind; intro cl' hcl'
  split
  · exact Gives.pure (.inr (hcl'.items _ List.mem_cons_self))
  · exact Gives.pure (.inl hcl'.body)

theorem completeCommandItems_sound {t : Ast} (h : Body t ∨ ListItem t) :
    (completeCommandItems t).Sound := by
  rcases h with ⟨hkind, hlow⟩ | ⟨hkind, hlow⟩
  · cases hlow with
    | commandList hlen hitems hbelow =>
      exact ⟨by simp [completeCommandItems], fun t ht => ⟨hitems t ht, hbelow t ht⟩⟩
    | _ => simp [Ast.isCommandList] at hkind
  · have hone : CommandList.Sound ⟨[t], [.end_]⟩ := ⟨rfl, by simpa using ⟨hkind, hlow⟩⟩
    cases hlow with
    | commandList => simp [Ast.isListItem, Ast.isCommand] at hkind
    | _ => exact hone

theorem lowerCompleteCommandItems_gives (h : below.Sound) (nodes : List Gnode) :
    Gives CommandList.Sound (lowerCompleteCommandItems below nodes) := by
  induction nodes with
  | nil => exact Gives.ok .nil
  | cons g rest ih =>
    apply (lowerCompleteCommand_gives h g).bind; intro t ht
    apply ih.bind; intro cl hcl
    exact Gives.pure ((completeCommandItems_sound ht).append hcl)

theorem lowerCompleteCommands_gives (h : below.Sound) (g : Gnode) :
    Gives Body (lowerCompleteCommands below g) := by
  apply Gives.andThen; intro node
  apply Gives.andThen; intro nodes
  split
  · apply (lowerCompleteCommand_gives h _).bind; intro t ht
    split
    · rcases ht with ht | ht
      · exact Gives.pure ht
      · exact absurd ht.1 (by simp [Ast.isListItem, Ast.isCommand])
    · rename_i hne
      rcases ht with ⟨hkind, hlow⟩ | ht
      · cases hlow <;> simp_all [Ast.isCommandList]
      · exact Gives.pure (CommandList.Sound.nil.cons ht .end_).body
  · apply (lowerCompleteCommandItems_gives h _).bind; intro cl hcl
    exact Gives.pure hcl.body

end Lower

theorem lowerers_sound (n : ℕ) : (lowerers n).Sound := by
  induction n with
  | zero => exact ⟨fun _ => Gives.error, fun _ => Gives.error, fun _ => Gives.error,
      fun _ => Gives.error, fun _ => Gives.error⟩
  | succ n ih =>
    exact
      { compoundList := lowerCompoundList_gives ih
        andOr := lowerAndOr_gives ih
        command := lowerCommand_gives ih
        compoundCommand := lowerCompoundCommand_gives ih
        elsePart := lowerElsePart_gives ih }

/-- What `ast_lower` returns is a command list of the lowered shape. -/
theorem astLower_gives (root : Gnode) : Gives Body (astLower root) := by
  apply Gives.andThen; intro node
  apply Gives.andThen; intro m
  apply Gives.andThen; intro child
  exact lowerCompleteCommands_gives (lowerers_sound _) child

end Migash
