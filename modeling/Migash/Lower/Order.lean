import Migash.Lower.Redirections

/-! # The order of lowered trees

Complete commands, lists, terms and compound lists keep their and-or lists in
different places, with separators between them or without. Whichever of them a
command list is built from, its items are the and-or lists in their order, and
the parts of a simple command are the elements of the source in theirs.
-/

namespace Migash

open Library Forward Lower Migash.Parser

/-! ## What stands in the source -/

namespace Gnode

/-- A pipeline stands for the and-or list that it is alone. -/
def isAndOrList (g : Gnode) : Bool := g.type = .andOr || g.type = .pipeline

/-- The and-or lists of a list or a term. -/
def listElements (g : Gnode) : List Gnode :=
  match g.nodes? with
  | .ok nodes => nodes.filter isAndOrList
  | .error _ => []

/-- The and-or lists of a complete command or a compound list, whose first pointer is their list. -/
def firstElements (g : Gnode) : List Gnode :=
  match g.multi? with
  | .ok ⟨some inner, _, _, _⟩ => inner.listElements
  | _ => []

/-- The and-or lists of some complete commands. -/
def programElements (g : Gnode) : List Gnode :=
  match g.nodes? with
  | .ok commands => commands.flatMap firstElements
  | .error _ => []

def isWord (g : Gnode) : Bool := g.type = .cmdName || g.type = .cmdWord || g.type = .wordNode

def isRedirect (g : Gnode) : Bool := g.type = .ioRedirect

def isAssignment (g : Gnode) : Bool := g.type = .assignmentWord

/-- The elements that a node of a simple command stands for. The grammar has nothing but words and
redirections in a suffix. -/
def commandElements (g : Gnode) : List Gnode :=
  match g.type with
  | .cmdPrefix =>
    match g.multi? with
    | .ok m => m.a.toList
    | .error _ => []
  | .cmdSuffix =>
    match g.nodes? with
    | .ok nodes => nodes.filter fun e => e.type = .cmdWord || e.type = .wordNode || e.isRedirect
    | .error _ => []
  | _ => [g]

/-- The items of a case clause. -/
def caseElements : Option Gnode → List Gnode
  | some g =>
    if g.type = .caseList ∨ g.type = .caseListNs then
      match g.nodes? with
      | .ok nodes => nodes
      | .error _ => []
    else []
  | none => []

theorem firstElements_eq {g first : Gnode} {m : Gnode.Multi} {nodes : List Gnode}
    (hm : g.multi? = .ok m) (ha : m.a = some first) (hnodes : first.nodes? = .ok nodes) :
    g.firstElements = nodes.filter isAndOrList := by
  obtain ⟨a, b, c, d⟩ := m
  cases ha
  simp [firstElements, listElements, hm, hnodes]

end Gnode

mutual

/-- The items and the separators of every command list in a tree. -/
def Ast.commandLists : Ast → List (List Ast × List CmdSeparator)
  | .commandList items separators => (items, separators) :: Ast.listCommandLists items
  | .pipeline commands _ => Ast.listCommandLists commands
  | .subshell body | .braceGroup body | .forClause _ _ body | .functionDef _ body _
  | .redirectedCommand body _ => body.commandLists
  | .andOrList left right _ | .whileClause left right | .untilClause left right =>
    left.commandLists ++ right.commandLists
  | .ifClause condition thenBody elifList elseBody =>
    condition.commandLists ++ thenBody.commandLists ++
      (match elifList with
        | some elifs => Ast.listCommandLists elifs
        | none => []) ++
      (match elseBody with
        | some body => body.commandLists
        | none => [])
  | .caseClause _ caseItems => Ast.listCommandLists caseItems
  | .caseItem _ body _ =>
    match body with
    | some body => body.commandLists
    | none => []
  | .simpleCommand .. | .redirection _ | .functionStored => []

/-- The command lists in the trees of a list. -/
def Ast.listCommandLists : List Ast → List (List Ast × List CmdSeparator)
  | [] => []
  | node :: nodes => node.commandLists ++ Ast.listCommandLists nodes

end

/-- The parts of a simple command are its elements in their order, and every element is one of
them. -/
structure InOrder (elements : List Gnode) (p : SimpleParts) : Prop where
  words : (elements.filter Gnode.isWord).mapM Gnode.tokenClone? = .ok p.words
  redirections : (elements.filter Gnode.isRedirect).mapM lowerIoRedirect = .ok p.redirections
  assignments : (elements.filter Gnode.isAssignment).mapM Gnode.tokenClone? = .ok p.assignments
  complete : ∀ e ∈ elements, (e.isWord || e.isRedirect || e.isAssignment) = true

/-- The syntax tree stands for the parse tree: the items of every command list are the and-or lists
of the source in order, one separator each, and the parts of every simple command are those of the
source in order. -/
inductive Renders : Gnode → Ast → Prop where
  | simpleCommand {g : Gnode} {nodes : List Gnode} {p : SimpleParts}
      (type : g.type = .simpleCommand) (source : g.nodes? = .ok nodes)
      (parts : InOrder (nodes.flatMap Gnode.commandElements) p) :
      Renders g (.simpleCommand (some p.words) (some p.redirections) (some p.assignments))
  | pipeline {g seq : Gnode} {nodes cmds : List Gnode} {isNegated : Bool} {items : List Ast}
      (type : g.type = .pipeline) (source : g.nodes? = .ok nodes)
      (parts : pipelineParts nodes = .ok (seq, isNegated)) (sequence : seq.nodes? = .ok cmds)
      (commands : List.Forall₂ Renders (cmds.filter (·.type = .command)) items) :
      Renders g (.pipeline items isNegated)
  | onePipeline {g seq cmd : Gnode} {nodes cmds : List Gnode} {t : Ast}
      (type : g.type = .pipeline) (source : g.nodes? = .ok nodes)
      (parts : pipelineParts nodes = .ok (seq, false)) (sequence : seq.nodes? = .ok cmds) (one : cmds.filter (·.type = .command) = [cmd])
      (command : Renders cmd t) : Renders g t
  | andOrList {g a b c : Gnode} {d : Option Gnode} {tok : Token} {op : AndorOperator}
      {left right : Ast} (type : g.type = .andOr)
      (source : g.multi? = .ok ⟨some a, some b, some c, d⟩) (operator : b.token? = .ok tok) (op_eq : andorOperator tok.type = .ok op)
      (leftBelow : Renders a left) (rightBelow : Renders c right) :
      Renders g (.andOrList left right op)
  | oneAndOr {g a : Gnode} {d : Option Gnode} {t : Ast} (type : g.type = .andOr)
      (source : g.multi? = .ok ⟨some a, none, none, d⟩) (below : Renders a t) : Renders g t
  | compoundList {g : Gnode} {items : List Ast} {separators : List CmdSeparator}
      (type : g.type = .compoundList) (length : separators.length = items.length)
      (below : List.Forall₂ Renders g.firstElements items) :
      Renders g (.commandList items separators)
  | completeCommands {g : Gnode} {items : List Ast} {separators : List CmdSeparator}
      (type : g.type = .completeCommands) (length : separators.length = items.length)
      (below : List.Forall₂ Renders g.programElements items) :
      Renders g (.commandList items separators)
  | program {g inner : Gnode} {b c d : Option Gnode} {t : Ast} (type : g.type = .program)
      (source : g.multi? = .ok ⟨some inner, b, c, d⟩) (below : Renders inner t) : Renders g t
  | command {g inner : Gnode} {t : Ast} (type : g.type = .command)
      (source : commandChild g = .ok inner) (below : Renders inner t) : Renders g t
  | unwrapped {g inner : Gnode} {a c d : Option Gnode} {t : Ast}
      (type : g.type = .subshell ∨ g.type = .braceGroup)
      (source : g.multi? = .ok ⟨a, some inner, c, d⟩) (below : Renders inner t) : Renders g t
  | compoundCommand {g inner : Gnode} {b c d : Option Gnode} {t : Ast}
      (type : g.type = .compoundCommand) (source : g.multi? = .ok ⟨some inner, b, c, d⟩)
      (below : Renders inner t) : Renders g t
  | subshell {g inner : Gnode} {a c d : Option Gnode} {body : Ast} (type : g.type = .subshell)
      (source : g.multi? = .ok ⟨a, some inner, c, d⟩) (below : Renders inner body) :
      Renders g (.subshell body)
  | braceGroup {g inner : Gnode} {a c d : Option Gnode} {body : Ast} (type : g.type = .braceGroup)
      (source : g.multi? = .ok ⟨a, some inner, c, d⟩) (below : Renders inner body) :
      Renders g (.braceGroup body)
  | emptyBraceGroup {g : Gnode} {a c d : Option Gnode} (type : g.type = .braceGroup)
      (source : g.multi? = .ok ⟨a, none, c, d⟩) : Renders g (.braceGroup (.commandList [] []))
  | doGroup {g inner : Gnode} {a c d : Option Gnode} {body : Ast} (type : g.type = .doGroup)
      (source : g.multi? = .ok ⟨a, some inner, c, d⟩) (below : Renders inner body) :
      Renders g body
  | ifClause {g inner condition thenBody : Gnode} {a b c c' d : Option Gnode} {cond body : Ast}
      {elseBody : Option Ast} (type : g.type = .ifClause)
      (source : g.multi? = .ok ⟨some inner, b, c, d⟩)
      (inner_eq : inner.multi? = .ok ⟨a, some condition, c', some thenBody⟩)
      (conditionBelow : Renders condition cond) (thenBelow : Renders thenBody body)
      (elseBelow : Option.Rel Renders b elseBody) : Renders g (.ifClause cond body none elseBody)
  | elsePart {g inner : Gnode} {d : Option Gnode} {body : Ast} (type : g.type = .elsePart)
      (source : g.multi? = .ok ⟨some inner, none, none, d⟩) (below : Renders inner body) :
      Renders g body
  | elif {g condition thenBody : Gnode} {c d : Option Gnode} {cond body : Ast}
      {elseBody : Option Ast} (type : g.type = .elsePart)
      (source : g.multi? = .ok ⟨some condition, some thenBody, c, d⟩)
      (conditionBelow : Renders condition cond) (thenBelow : Renders thenBody body)
      (elseBelow : Option.Rel Renders c elseBody) : Renders g (.ifClause cond body none elseBody)
  | whileClause {g condition group : Gnode} {a d : Option Gnode} {cond body : Ast}
      (type : g.type = .whileClause) (source : g.multi? = .ok ⟨a, some condition, some group, d⟩)
      (conditionBelow : Renders condition cond) (bodyBelow : Renders group body) :
      Renders g (.whileClause cond body)
  | untilClause {g condition group : Gnode} {a d : Option Gnode} {cond body : Ast}
      (type : g.type = .untilClause) (source : g.multi? = .ok ⟨a, some condition, some group, d⟩)
      (conditionBelow : Renders condition cond) (bodyBelow : Renders group body) :
      Renders g (.untilClause cond body)
  | forClause {g group : Gnode} {a b c : Option Gnode} {name : String}
      {words : Option (List Token)} {body : Ast} (type : g.type = .forClause)
      (source : g.multi? = .ok ⟨a, b, c, some group⟩) (words_eq : lowerInClause c = .ok words)
      (bodyBelow : Renders group body) : Renders g (.forClause name words body)
  | caseClause {g : Gnode} {m : Gnode.Multi} {subject list : Option Gnode} {word : Token}
      {items : List Ast} (type : g.type = .caseClause) (source : g.multi? = .ok m)
      (parts : caseParts m = .ok (subject, list))
      (below : List.Forall₂ Renders (Gnode.caseElements list) items) :
      Renders g (.caseClause word items)
  | caseItem {g inner : Gnode} {a b b' c c' d d' : Option Gnode} {patterns : List Token}
      {body : Option Ast} {action : CaseAction} (type : g.type = .caseItem)
      (source : g.multi? = .ok ⟨some inner, b, c, d⟩) (inner_eq : inner.multi? = .ok ⟨a, b', c', d'⟩)
      (below : Option.Rel Renders (d'.filter (·.type = .compoundList)) body) :
      Renders g (.caseItem patterns body action)
  | caseItemNs {g : Gnode} {a b c d : Option Gnode} {patterns : List Token} {body : Option Ast}
      (type : g.type = .caseItemNs) (source : g.multi? = .ok ⟨a, b, c, d⟩)
      (below : Option.Rel Renders d body) : Renders g (.caseItem patterns body .none)
  | caseItemNull {g inner : Gnode} {a b c : Option Gnode} {patterns : List Token} {n : ℕ}
      (type : g.type = .caseItemNs) (source : g.multi? = .ok ⟨a, b, c, some inner⟩)
      (null : (lowerers n).compoundList inner = .error .null) :
      Renders g (.caseItem patterns none .none)
  | functionDef {g body inner : Gnode} {a b b' c c' d' : Option Gnode} {name : String} {cmd : Ast}
      {redirections : Option (List Redirection)} (type : g.type = .functionDefinition)
      (source : g.multi? = .ok ⟨a, b, c, some body⟩) (bodyType : body.type = .functionBody)
      (body_eq : body.multi? = .ok ⟨some inner, b', c', d'⟩) (below : Renders inner cmd) :
      Renders g (.functionDef name cmd redirections)
  | plainFunctionDef {g body : Gnode} {a b c : Option Gnode} {name : String} {cmd : Ast}
      (type : g.type = .functionDefinition) (source : g.multi? = .ok ⟨a, b, c, some body⟩)
      (below : Renders body cmd) : Renders g (.functionDef name cmd none)

namespace Lower

/-- The lowerers of some level build what the parse tree says. -/
structure Lowerers.InOrder (below : Lowerers) : Prop where
  level : ∃ n, below = lowerers n
  sound : below.Sound
  compoundList : ∀ g, Gives (Renders g) (below.compoundList g)
  andOr : ∀ g, g.type = .andOr → Gives (Renders g) (below.andOr g)
  command : ∀ g, g.type = .command → Gives (Renders g) (below.command g)
  compoundCommand : ∀ g, Gives (Renders g) (below.compoundCommand g)
  elsePart : ∀ g, Gives (Renders g) (below.elsePart g)

variable {below : Lowerers}

theorem expectsEq_ok {node : Option Gnode} {type : GnodeType} {g : Gnode}
    (h : expectsEq node type = .ok g) : node = some g ∧ g.type = type := by
  unfold expectsEq at h
  split at h
  · split_ifs at h with htype
    cases h
    exact ⟨rfl, htype⟩
  · cases h

theorem expectType_ok {node : Option Gnode} {type : GnodeType} {g : Gnode}
    (h : expectType node type = .ok g) : node = some g ∧ g.type = type := by
  unfold expectType at h
  split at h
  · split_ifs at h with htype
    cases h
    exact ⟨rfl, htype⟩
  · cases h

theorem deref_ok {α : Type} {o : Option α} {a : α} (h : deref o = .ok a) : o = some a := by
  cases o with
  | none => cases h
  | some b =>
    cases h
    rfl

/-! ## Simple commands -/

/-- The parts `p'` are `p` with the elements behind them. -/
structure SimpleParts.Reads (elements : List Gnode) (p p' : SimpleParts) : Prop where
  split : ∃ q, InOrder elements q ∧ p' = ⟨p.words ++ q.words, p.redirections ++ q.redirections,
    p.assignments ++ q.assignments⟩

namespace SimpleParts.Reads

variable {p p' p'' : SimpleParts} {elements elements' : List Gnode}

theorem nil : Reads [] p p := ⟨{}, ⟨rfl, rfl, rfl, by simp⟩, by simp⟩

theorem append (h : Reads elements p p') (h' : Reads elements' p' p'') :
    Reads (elements ++ elements') p p'' := by
  obtain ⟨q, hq, rfl⟩ := h.split
  obtain ⟨q', hq', rfl⟩ := h'.split
  refine ⟨⟨q.words ++ q'.words, q.redirections ++ q'.redirections,
    q.assignments ++ q'.assignments⟩, ⟨?_, ?_, ?_, ?_⟩, by simp⟩
  · rw [List.filter_append, List.mapM_append, hq.words, hq'.words]
    rfl
  · rw [List.filter_append, List.mapM_append, hq.redirections, hq'.redirections]
    rfl
  · rw [List.filter_append, List.mapM_append, hq.assignments, hq'.assignments]
    rfl
  · exact List.forall_mem_append.mpr ⟨hq.complete, hq'.complete⟩

theorem word {g : Gnode} (hword : g.isWord = true) (hredirect : g.isRedirect = false)
    (hassign : g.isAssignment = false) {tok : Token} (htok : g.tokenClone? = .ok tok) :
    Reads [g] p (p.addWord tok) := by
  refine ⟨⟨[tok], [], []⟩, ⟨?_, ?_, ?_, ?_⟩, by simp [addWord]⟩
  · simp [hword, htok]
  · simp [hredirect]
    rfl
  · simp [hassign]
    rfl
  · simp [hword]

theorem redirection {g : Gnode} (hword : g.isWord = false) (hredirect : g.isRedirect = true)
    (hassign : g.isAssignment = false) {r : Redirection} (hr : lowerIoRedirect g = .ok r) :
    Reads [g] p (p.addRedirection r) := by
  refine ⟨⟨[], [r], []⟩, ⟨?_, ?_, ?_, ?_⟩, by simp [addRedirection]⟩
  · simp [hword]
    rfl
  · simp [hredirect, hr]
  · simp [hassign]
    rfl
  · simp [hredirect]

theorem assignment {g : Gnode} (hword : g.isWord = false) (hredirect : g.isRedirect = false)
    (hassign : g.isAssignment = true) {tok : Token} (htok : g.tokenClone? = .ok tok) :
    Reads [g] p (p.addAssignment tok) := by
  refine ⟨⟨[], [], [tok]⟩, ⟨?_, ?_, ?_, ?_⟩, by simp [addAssignment]⟩
  · simp [hword]
    rfl
  · simp [hredirect]
    rfl
  · simp [hassign, htok]
  · simp [hassign]

end SimpleParts.Reads

theorem SimpleParts.suffixElem_reads (p : SimpleParts) (e : Gnode) :
    Gives (SimpleParts.Reads ([e].filter fun e => e.type = .cmdWord || e.type = .wordNode ||
      e.isRedirect) p) (p.suffixElem e) := by
  unfold SimpleParts.suffixElem
  split_ifs with hword hredirect
  · refine ⟨fun p' h => ?_⟩
    obtain ⟨tok, htok, rfl⟩ := except_map_eq_ok.mp h
    have hkept : [e].filter (fun e => e.type = .cmdWord || e.type = .wordNode || e.isRedirect) =
        [e] := by simpa using .inl hword
    rw [hkept]
    refine .word ?_ ?_ ?_ htok <;>
      rcases hword with h | h <;> simp [Gnode.isWord, Gnode.isRedirect, Gnode.isAssignment, h]
  · refine ⟨fun p' h => ?_⟩
    obtain ⟨r, hr, rfl⟩ := except_map_eq_ok.mp h
    have hkept : [e].filter (fun e => e.type = .cmdWord || e.type = .wordNode || e.isRedirect) =
        [e] := by simp [Gnode.isRedirect, hredirect]
    rw [hkept]
    refine .redirection ?_ ?_ ?_ hr <;>
      simp [Gnode.isWord, Gnode.isRedirect, Gnode.isAssignment, hredirect]
  · have hskipped : [e].filter (fun e => e.type = .cmdWord || e.type = .wordNode || e.isRedirect) =
        [] := by
      rw [not_or] at hword
      simp [Gnode.isRedirect, hredirect, hword.1, hword.2]
    rw [hskipped]
    exact Gives.ok .nil

theorem SimpleParts.plainElem_reads (p : SimpleParts) (e : Gnode) :
    Gives (SimpleParts.Reads [e] p) (p.plainElem e) := by
  unfold SimpleParts.plainElem
  split
  · rename_i htype
    refine ⟨fun p' h => ?_⟩
    obtain ⟨tok, htok, rfl⟩ := except_map_eq_ok.mp h
    refine .assignment ?_ ?_ ?_ htok <;>
      simp [Gnode.isWord, Gnode.isRedirect, Gnode.isAssignment, htype]
  iterate 3
    rename_i htype
    refine ⟨fun p' h => ?_⟩
    obtain ⟨tok, htok, rfl⟩ := except_map_eq_ok.mp h
    refine .word ?_ ?_ ?_ htok <;>
      simp [Gnode.isWord, Gnode.isRedirect, Gnode.isAssignment, htype]
  · rename_i htype
    refine ⟨fun p' h => ?_⟩
    obtain ⟨r, hr, rfl⟩ := except_map_eq_ok.mp h
    refine .redirection ?_ ?_ ?_ hr <;>
      simp [Gnode.isWord, Gnode.isRedirect, Gnode.isAssignment, htype]
  · exact Gives.error

/-- Steps one after the other read their elements one after the other. -/
theorem SimpleParts.foldlM_reads {f : SimpleParts → Gnode → Lowering SimpleParts}
    {elementsOf : Gnode → List Gnode} (hf : ∀ p e, Gives (SimpleParts.Reads (elementsOf e) p) (f p e))
    (nodes : List Gnode) (p : SimpleParts) :
    Gives (SimpleParts.Reads (nodes.flatMap elementsOf) p) (nodes.foldlM f p) := by
  induction nodes generalizing p with
  | nil => exact Gives.pure .nil
  | cons e nodes ih =>
    rw [List.foldlM_cons, List.flatMap_cons]
    refine (hf p e).bind fun q hq => ?_
    exact (ih q).mono fun p' h => hq.append h

theorem flatMap_filter_singleton {α : Type} (q : α → Bool) (as : List α) :
    as.flatMap (fun a => [a].filter q) = as.filter q := by
  rw [← List.filter_flatMap, List.flatMap_singleton']

theorem SimpleParts.elem_reads (p : SimpleParts) (e : Gnode) :
    Gives (SimpleParts.Reads e.commandElements p) (p.elem e) := by
  unfold SimpleParts.elem
  split
  · rename_i htype
    simp only [Gnode.commandElements, htype]
    apply Gives.bind_of; intro m hm
    rw [hm]
    dsimp only
    cases m.a with
    | none => exact Gives.pure .nil
    | some inner => exact p.plainElem_reads inner
  · rename_i htype
    simp only [Gnode.commandElements, htype]
    apply Gives.bind_of; intro nodes hnodes
    rw [hnodes]
    have hfold := SimpleParts.foldlM_reads SimpleParts.suffixElem_reads nodes p
    rwa [flatMap_filter_singleton] at hfold
  · rename_i hprefix hsuffix
    have hplain : e.commandElements = [e] := by
      unfold Gnode.commandElements
      split
      · rename_i htype
        exact absurd htype hprefix
      · rename_i htype
        exact absurd htype hsuffix
      · rfl
    rw [hplain]
    exact p.plainElem_reads e

theorem lowerSimpleCommand_renders (g : Gnode) : Gives (Renders g) (lowerSimpleCommand g) := by
  apply Gives.bind_of; intro g' hg
  obtain ⟨heq, htype⟩ := expectsEq_ok hg
  cases heq
  apply Gives.bind_of; intro nodes hnodes
  apply (SimpleParts.foldlM_reads SimpleParts.elem_reads nodes {}).bind; intro p hp
  obtain ⟨q, hq, rfl⟩ := hp.split
  exact Gives.pure (.simpleCommand htype hnodes (by simpa using hq))

/-! ## Pipelines and and-or lists -/

theorem lowerPipeline_renders (h : below.InOrder) {g : Gnode} (htype : g.type = .pipeline) :
    Gives (Renders g) (lowerPipeline below g) := by
  apply Gives.bind_of; intro nodes hnodes
  apply Gives.bind_of; rintro ⟨seq, isNegated⟩ hparts
  apply Gives.bind_of; intro seq' hseq
  cases (expectType_ok hseq).1
  apply Gives.bind_of; intro cmds hcmds
  have hcommand (cmd : Gnode) (hcmd : cmd ∈ cmds.filter (·.type = .command)) :
      Gives (Renders cmd) (below.command cmd) := by
    have htype : cmd.type = .command := by simpa using List.of_mem_filter hcmd
    exact h.command cmd htype
  apply (Gives.list_forall₂ hcommand).bind; intro items hitems
  match items with
  | [] => exact Gives.error
  | [only] =>
    cases isNegated with
    | true => exact Gives.pure (.pipeline htype hnodes hparts hcmds hitems)
    | false =>
      obtain ⟨cmd, rest, hcmd, hrest, hone⟩ := List.forall₂_cons_right_iff.mp hitems
      cases hrest
      exact Gives.pure (.onePipeline htype hnodes hparts hcmds hone hcmd)
  | _ :: _ :: _ => exact Gives.pure (.pipeline htype hnodes hparts hcmds hitems)

theorem lowerAndOrOrPipeline_renders (h : below.InOrder) (g : Gnode) :
    Gives (fun t => g.isAndOrList = true ∧ Renders g t) (lowerAndOrOrPipeline below g) := by
  unfold lowerAndOrOrPipeline
  split
  · rename_i htype
    exact (h.andOr g htype).mono fun t ht => ⟨by simp [Gnode.isAndOrList, htype], ht⟩
  · rename_i htype
    exact (lowerPipeline_renders h htype).mono fun t ht => ⟨by simp [Gnode.isAndOrList, htype], ht⟩
  · exact Gives.error

theorem lowerAndOr_renders (h : below.InOrder) (g : Gnode) (htype : g.type = .andOr) :
    Gives (Renders g) (lowerAndOr below g) := by
  apply Gives.bind_of; intro m hm
  split
  · apply (lowerAndOrOrPipeline_renders h _).bind; intro left hleft
    apply Gives.bind_of; intro node hnode
    cases (expectType_ok hnode).1
    apply Gives.bind_of; intro tok htok
    apply Gives.bind_of; intro op hop
    apply (lowerAndOrOrPipeline_renders h _).bind; intro right hright
    exact Gives.pure (.andOrList htype hm htok hop hleft.2 hright.2)
  · split_ifs with hpipeline
    · exact (lowerPipeline_renders h hpipeline).mono fun t ht => .oneAndOr htype hm ht
    · exact Gives.error
  · exact Gives.error

/-! ## Lists -/

/-- The items of a list are its and-or lists in order. -/
theorem lowerItems_renders (h : below.InOrder) {sepType : GnodeType}
    (hsep : sepType ≠ .andOr ∧ sepType ≠ .pipeline) (sepOf : Gnode → Lowering CmdSeparator)
    (nodes : List Gnode) :
    Gives (fun cl => List.Forall₂ Renders (nodes.filter Gnode.isAndOrList) cl.items)
      (lowerItems below sepType sepOf nodes) := by
  fun_induction lowerItems below sepType sepOf nodes with
  | case1 => exact Gives.ok .nil
  | case2 elem =>
    apply (lowerAndOrOrPipeline_renders h elem).bind; rintro node ⟨helem, hnode⟩
    rw [List.filter_cons_of_pos helem]
    exact Gives.pure (.cons hnode .nil)
  | case3 elem sepNode rest ih ih' =>
    apply (lowerAndOrOrPipeline_renders h elem).bind; rintro node ⟨helem, hnode⟩
    rw [List.filter_cons_of_pos helem]
    split_ifs with htype
    · have hskip : ¬ sepNode.isAndOrList = true := by
        simp [Gnode.isAndOrList, htype, hsep]
      rw [List.filter_cons_of_neg hskip]
      apply Gives.andThen; intro sep
      apply ih.bind; intro cl hcl
      exact Gives.pure (.cons hnode hcl)
    · apply ih'.bind; intro cl hcl
      exact Gives.pure (.cons hnode hcl)

theorem CommandList.finish_items {cl : CommandList} (given : Option CmdSeparator) :
    Gives (fun cl' => cl'.items = cl.items) (cl.finish given) := by
  have hset (sep : CmdSeparator) : Gives (fun cl' : CommandList => cl'.items = cl.items)
      (cl.setFinalSeparator sep) := by
    unfold CommandList.setFinalSeparator
    split_ifs
    · exact Gives.error
    · exact Gives.ok rfl
    · exact Gives.ok rfl
    · exact Gives.error
  cases given with
  | some sep => exact hset sep
  | none =>
    unfold CommandList.finish
    split_ifs
    · exact hset .end_
    · exact Gives.ok rfl

theorem lowerCompoundList_renders (h : below.InOrder) (g : Gnode) :
    Gives (Renders g) (lowerCompoundList below g) := by
  apply Gives.bind_of; intro g' hg
  obtain ⟨heq, htype⟩ := expectsEq_ok hg
  cases heq
  apply Gives.bind_of; intro m hm
  apply Gives.bind_of; intro term hterm
  have hlist : Gives (fun cl => cl.Sound ∧ List.Forall₂ Renders g.firstElements cl.items)
      (lowerTermAsCommandList below term) := by
    apply Gives.bind_of; intro nodes hnodes
    rw [Gnode.firstElements_eq hm (expectType_ok hterm).1 hnodes]
    exact (lowerItems_gives h.sound _ _ nodes).and (lowerItems_renders h (by decide) _ nodes)
  apply (nullCrash_gives hlist).bind; rintro cl ⟨hsound, hitems⟩
  apply Gives.andThen; intro given
  apply ((CommandList.finish_gives hsound given).and (CommandList.finish_items given)).bind
  rintro cl' ⟨hsound', hsame⟩
  exact Gives.pure (.compoundList htype hsound'.length (hsame ▸ hitems))

theorem lowerCompleteCommand_renders (h : below.InOrder) (g : Gnode) :
    Gives (fun t => (Body t ∨ ListItem t) ∧
      List.Forall₂ Renders g.firstElements (completeCommandItems t).items)
      (lowerCompleteCommand below g) := by
  apply (lowerCompleteCommand_gives h.sound g).and
  apply Gives.bind_of; intro g' hg
  cases (expectsEq_ok hg).1
  apply Gives.bind_of; intro m hm
  apply Gives.bind_of; intro list hlist
  have hlist : Gives (fun cl => cl.Sound ∧ List.Forall₂ Renders g.firstElements cl.items)
      (lowerList below list) := by
    apply Gives.bind_of; intro list' hlist'
    cases (expectsEq_ok hlist').1
    apply Gives.bind_of; intro nodes hnodes
    rw [Gnode.firstElements_eq hm (deref_ok hlist) hnodes]
    exact (lowerItems_gives h.sound _ _ nodes).and (lowerItems_renders h (by decide) _ nodes)
  apply hlist.bind; rintro cl ⟨hsound, hitems⟩
  apply Gives.andThen; intro given
  apply ((CommandList.finish_gives hsound given).and (CommandList.finish_items given)).bind
  rintro cl' ⟨hsound', hsame⟩
  rw [← hsame] at hitems
  split
  · refine Gives.pure ?_
    rw [completeCommandItems_item (hsound'.items _ List.mem_cons_self)]
    exact hitems
  · refine Gives.pure ?_
    rw [completeCommandItems_ast hsound']
    exact hitems

theorem lowerCompleteCommandItems_renders (h : below.InOrder) (nodes : List Gnode) :
    Gives (fun cl => List.Forall₂ Renders (nodes.flatMap Gnode.firstElements) cl.items)
      (lowerCompleteCommandItems below nodes) := by
  induction nodes with
  | nil => exact Gives.ok .nil
  | cons g rest ih =>
    rw [List.flatMap_cons]
    apply (lowerCompleteCommand_renders h g).bind; rintro t ⟨-, ht⟩
    apply ih.bind; intro cl hcl
    exact Gives.pure (List.rel_append ht hcl)

theorem lowerCompleteCommands_renders (h : below.InOrder) (g : Gnode) :
    Gives (Renders g) (lowerCompleteCommands below g) := by
  apply Gives.bind_of; intro g' hg
  obtain ⟨heq, htype⟩ := expectsEq_ok hg
  cases heq
  apply Gives.bind_of; intro nodes hnodes
  have hsource : g.programElements = nodes.flatMap Gnode.firstElements := by
    simp [Gnode.programElements, hnodes]
  split
  · rename_i gcmd
    apply (lowerCompleteCommand_renders h gcmd).bind; rintro t ⟨hkind, ht⟩
    rw [List.flatMap_singleton] at hsource
    have hlist {items : List Ast} {separators : List CmdSeparator}
        (hsound : CommandList.Sound ⟨items, separators⟩)
        (hitems : (completeCommandItems t).items = items) :
        Renders g (.commandList items separators) :=
      .completeCommands htype hsound.length (hsource ▸ hitems ▸ ht)
    split
    · rename_i items separators
      rcases hkind with ⟨-, hlow⟩ | hitem
      · cases hlow with
        | commandList hlength hkinds hbelow =>
          exact Gives.pure (hlist ⟨hlength, fun c hc => ⟨hkinds c hc, hbelow c hc⟩⟩ rfl)
      · exact absurd hitem.1 (by simp [Ast.isListItem, Ast.isCommand])
    · rename_i hne
      rcases hkind with ⟨hbody, hlow⟩ | hitem
      · cases hlow <;> simp_all [Ast.isCommandList]
      · have hone := completeCommandItems_item hitem
        exact Gives.pure (hlist (CommandList.Sound.nil.cons hitem .end_) (congrArg _ hone))
  · apply ((lowerCompleteCommandItems_gives h.sound _).and
      (lowerCompleteCommandItems_renders h _)).bind
    rintro cl ⟨hsound, hitems⟩
    exact Gives.pure (.completeCommands htype hsound.length (hsource ▸ hitems))

/-! ## Compound commands -/

theorem lowerBody_renders (h : below.InOrder) (node : Option Gnode) :
    Gives (fun t => ∃ g, node = some g ∧ Renders g t) (lowerBody below node) := by
  apply Gives.bind_of; intro g hg
  exact (h.compoundList g).mono fun t ht => ⟨g, deref_ok hg, ht⟩

theorem lowerDoGroup_renders (h : below.InOrder) (node : Option Gnode) :
    Gives (fun t => ∃ g, node = some g ∧ Renders g t) (lowerDoGroup below node) := by
  apply Gives.bind_of; intro g hg
  obtain ⟨heq, htype⟩ := expectsEq_ok hg
  apply Gives.bind_of; rintro ⟨a, b, c, d⟩ hm
  refine (lowerBody_renders h b).mono ?_
  rintro t ⟨inner, rfl, ht⟩
  exact ⟨g, heq, .doGroup htype hm ht⟩

theorem lowerSubshell_renders (h : below.InOrder) {g : Gnode} (htype : g.type = .subshell) :
    Gives (Renders g) (lowerSubshell below g) := by
  apply Gives.bind_of; rintro ⟨a, b, c, d⟩ hm
  apply (lowerBody_renders h b).bind; rintro body ⟨inner, rfl, hbody⟩
  exact Gives.pure (.subshell htype hm hbody)

theorem lowerBraceGroup_renders (h : below.InOrder) {g : Gnode} (htype : g.type = .braceGroup) :
    Gives (Renders g) (lowerBraceGroup below g) := by
  apply Gives.bind_of; rintro ⟨a, b, c, d⟩ hm
  cases b with
  | none => exact Gives.pure (.emptyBraceGroup htype hm)
  | some inner =>
    apply (h.compoundList inner).bind; intro body hbody
    exact Gives.pure (.braceGroup htype hm hbody)

theorem lowerElsePart_renders (h : below.InOrder) (g : Gnode) :
    Gives (Renders g) (lowerElsePart below g) := by
  apply Gives.bind_of; intro g' hg
  obtain ⟨heq, htype⟩ := expectsEq_ok hg
  cases heq
  apply Gives.bind_of; rintro ⟨a, b, c, d⟩ hm
  dsimp only
  split
  · refine (lowerBody_renders h a).mono ?_
    rintro t ⟨inner, rfl, ht⟩
    exact .elsePart htype hm ht
  · apply (lowerBody_renders h a).bind; rintro cond ⟨condition, rfl, hcond⟩
    apply (lowerBody_renders h b).bind; rintro thenBody ⟨body, rfl, hthen⟩
    apply (Gives.option_rel h.elsePart).bind; intro tail htail
    exact Gives.pure (.elif htype hm hcond hthen htail)

theorem lowerIfClause_renders (h : below.InOrder) {g : Gnode} (htype : g.type = .ifClause) :
    Gives (Renders g) (lowerIfClause below g) := by
  apply Gives.bind_of; rintro ⟨a, b, c, d⟩ hm
  apply Gives.bind_of; intro innerNode hinnerNode
  obtain rfl : a = some innerNode := (expectType_ok hinnerNode).1
  apply Gives.bind_of; rintro ⟨a', b', c', d'⟩ hinner
  apply (lowerBody_renders h b').bind; rintro cond ⟨condition, rfl, hcond⟩
  apply (lowerBody_renders h d').bind; rintro thenBody ⟨body, rfl, hthen⟩
  apply (Gives.option_rel h.elsePart).bind; intro elseBody helse
  exact Gives.pure (.ifClause htype hm hinner hcond hthen helse)

theorem lowerLoopClause_renders (h : below.InOrder) {build : Ast → Ast → Ast} {g : Gnode}
    (hbuild : ∀ a condition group d cond body,
      g.multi? = .ok ⟨a, some condition, some group, d⟩ → Renders condition cond →
      Renders group body → Renders g (build cond body)) :
    Gives (Renders g) (lowerLoopClause below build g) := by
  apply Gives.bind_of; rintro ⟨a, b, c, d⟩ hm
  apply (lowerBody_renders h b).bind; rintro cond ⟨condition, rfl, hcond⟩
  apply (lowerDoGroup_renders h c).bind; rintro body ⟨group, rfl, hbody⟩
  exact Gives.pure (hbuild a condition group d cond body hm hcond hbody)

theorem lowerForClause_renders (h : below.InOrder) {g : Gnode} (htype : g.type = .forClause) :
    Gives (Renders g) (lowerForClause below g) := by
  apply Gives.bind_of; rintro ⟨a, b, c, d⟩ hm
  apply Gives.andThen; intro nameNode
  apply Gives.andThen; intro name
  apply Gives.bind_of; intro words hwords
  apply (lowerDoGroup_renders h d).bind; rintro body ⟨group, rfl, hbody⟩
  exact Gives.pure (.forClause htype hm hwords hbody)

/-! ### Case clauses -/

theorem lowerCaseItem_renders (h : below.InOrder) {g : Gnode} (htype : g.type = .caseItem) :
    Gives (Renders g) (lowerCaseItem below g) := by
  apply Gives.bind_of; rintro ⟨a, b, c, d⟩ hm
  apply Gives.bind_of; intro innerNode hinnerNode
  obtain rfl : a = some innerNode := (expectType_ok hinnerNode).1
  apply Gives.bind_of; rintro ⟨a', b', c', d'⟩ hinner
  apply Gives.andThen; intro patternNode
  apply Gives.andThen; intro patterns
  have finish {body : Option Ast}
      (hbody : Option.Rel Renders (d'.filter (·.type = .compoundList)) body) :
      Gives (Renders g) (do return Ast.caseItem patterns body (← caseAction b)) :=
    Gives.andThen fun action => Gives.pure (.caseItem htype hm hinner hbody)
  cases d' with
  | none => exact finish .none
  | some gbody =>
    dsimp only
    split_ifs with hkind
    · have hsome : (some gbody).filter (·.type = .compoundList) = some gbody := by simp [hkind]
      apply ((h.compoundList gbody).map (Q := Option.Rel Renders (some gbody))
        fun _ => .some).bind
      intro body hbody
      exact finish (by rw [hsome]; exact hbody)
    · have hnone : (some gbody).filter (·.type = .compoundList) = none := by simp [hkind]
      exact finish (by rw [hnone]; exact .none)

theorem lowerCaseItemNs_renders (h : below.InOrder) {g : Gnode} (htype : g.type = .caseItemNs) :
    Gives (Renders g) (lowerCaseItemNs below g) := by
  obtain ⟨n, rfl⟩ := h.level
  apply Gives.bind_of; rintro ⟨a, b, c, d⟩ hm
  apply Gives.andThen; intro patternNode
  apply Gives.andThen; intro patterns
  cases d with
  | none => exact Gives.pure (.caseItemNs htype hm .none)
  | some gbody =>
    dsimp only
    split
    · rename_i hnull
      exact Gives.pure (.caseItemNull htype hm hnull)
    · apply ((h.compoundList gbody).map (Q := Option.Rel Renders (some gbody))
        fun _ => .some).bind
      intro body hbody
      exact Gives.pure (.caseItemNs htype hm hbody)

theorem lowerCaseList_renders (h : below.InOrder) (node : Option Gnode) :
    Gives (List.Forall₂ Renders (Gnode.caseElements node)) (lowerCaseList below node) := by
  cases node with
  | none => exact Gives.ok .nil
  | some g =>
    unfold lowerCaseList Gnode.caseElements
    dsimp only
    split_ifs with htype
    · apply Gives.bind_of; intro nodes hnodes
      rw [hnodes]
      refine Gives.list_forall₂ fun item _ => ?_
      unfold lowerCaseListItem
      split
      · rename_i hitem
        exact lowerCaseItem_renders h hitem
      · rename_i hitem
        exact lowerCaseItemNs_renders h hitem
      · exact Gives.error
    · exact Gives.ok .nil

theorem lowerCaseClause_renders (h : below.InOrder) {g : Gnode} (htype : g.type = .caseClause) :
    Gives (Renders g) (lowerCaseClause below g) := by
  apply Gives.bind_of; intro m hm
  apply Gives.bind_of; rintro ⟨subject, list⟩ hparts
  apply Gives.andThen; intro wordNode
  apply Gives.andThen; intro word
  apply (lowerCaseList_renders h list).bind; intro items hitems
  exact Gives.pure (.caseClause htype hm hparts hitems)

/-! ### Commands -/

theorem lowerCompoundCommand_renders (h : below.InOrder) (g : Gnode) :
    Gives (Renders g) (lowerCompoundCommand below g) := by
  unfold lowerCompoundCommand
  split
  · exact lowerSubshell_renders h ‹_›
  · exact lowerBraceGroup_renders h ‹_›
  · exact lowerForClause_renders h ‹_›
  · exact lowerCaseClause_renders h ‹_›
  · exact lowerIfClause_renders h ‹_›
  · exact lowerLoopClause_renders h fun _ _ _ _ _ _ hm hcond hbody =>
      .whileClause ‹_› hm hcond hbody
  · exact lowerLoopClause_renders h fun _ _ _ _ _ _ hm hcond hbody =>
      .untilClause ‹_› hm hcond hbody
  · rename_i htype
    apply Gives.bind_of; rintro ⟨a, b, c, d⟩ hm
    apply Gives.bind_of; intro inner hinner
    obtain rfl : a = some inner := deref_ok hinner
    exact (h.compoundCommand inner).mono fun t ht => .compoundCommand htype hm ht
  · exact Gives.error

theorem lowerFunctionDefinition_renders (h : below.InOrder) {g : Gnode}
    (htype : g.type = .functionDefinition) :
    Gives (Renders g) (lowerFunctionDefinition below g) := by
  apply Gives.bind_of; rintro ⟨a, b, c, d⟩ hm
  apply Gives.andThen; intro nameNode
  apply Gives.andThen; intro name
  apply Gives.bind_of; intro gbody hgbody
  obtain rfl : d = some gbody := deref_ok hgbody
  split_ifs with hbody
  · apply Gives.bind_of; rintro ⟨a', b', c', d'⟩ hinner
    apply Gives.bind_of; intro compound hcompound
    obtain rfl : a' = some compound := deref_ok hcompound
    apply (h.compoundCommand compound).bind; intro cmd hcmd
    apply Gives.andThen; intro redirs
    exact Gives.pure (.functionDef htype hm hbody hinner hcmd)
  · apply (h.compoundCommand gbody).bind; intro cmd hcmd
    exact Gives.pure (.plainFunctionDef htype hm hcmd)

theorem lowerCommand_renders (h : below.InOrder) (g : Gnode) (htype : g.type = .command) :
    Gives (Renders g) (lowerCommand below g) := by
  apply Gives.bind_of; intro child hchild
  have hgroup (htype : child.type = .subshell ∨ child.type = .braceGroup) :
      Gives (Renders child) (do below.compoundCommand (← deref (← child.multi?).b)) := by
    apply Gives.bind_of; rintro ⟨a, b, c, d⟩ hm
    apply Gives.bind_of; intro inner hinner
    obtain rfl : b = some inner := deref_ok hinner
    exact (h.compoundCommand inner).mono fun t ht => .unwrapped htype hm ht
  suffices hinner : Gives (Renders child) _ from hinner.mono fun t ht => .command htype hchild ht
  split
  · exact h.command child ‹_›
  · exact lowerSimpleCommand_renders child
  · exact hgroup (.inl ‹_›)
  · exact hgroup (.inr ‹_›)
  · exact h.compoundCommand child
  · exact h.compoundCommand child
  · exact h.compoundCommand child
  · exact h.compoundCommand child
  · exact h.compoundCommand child
  · exact h.compoundCommand child
  · exact lowerFunctionDefinition_renders h ‹_›
  · exact Gives.error

end Lower

/-! ## Programs -/

theorem lowerers_inOrder (n : ℕ) : (lowerers n).InOrder := by
  induction n with
  | zero => exact ⟨⟨0, rfl⟩, lowerers_sound 0, fun _ => Gives.error, fun _ _ => Gives.error,
      fun _ _ => Gives.error, fun _ => Gives.error, fun _ => Gives.error⟩
  | succ n ih =>
    exact
      { level := ⟨n + 1, rfl⟩
        sound := lowerers_sound (n + 1)
        compoundList := lowerCompoundList_renders ih
        andOr := lowerAndOr_renders ih
        command := lowerCommand_renders ih
        compoundCommand := lowerCompoundCommand_renders ih
        elsePart := lowerElsePart_renders ih }

/-- Every command list has a separator for each item. -/
def Ast.SeparatorsFit (t : Ast) : Prop := ∀ list ∈ t.commandLists, list.2.length = list.1.length

theorem Ast.separatorsFit_all {nodes : List Ast} (h : ∀ t ∈ nodes, t.SeparatorsFit) :
    ∀ list ∈ Ast.listCommandLists nodes, list.2.length = list.1.length := by
  induction nodes with
  | nil => simp [Ast.listCommandLists]
  | cons t nodes ih =>
    rw [Ast.listCommandLists, List.forall_mem_append]
    exact ⟨h t List.mem_cons_self, ih fun t' ht' => h t' (List.mem_cons_of_mem t ht')⟩

theorem Ast.Lowered.separatorsFit {t : Ast} (h : t.Lowered) : t.SeparatorsFit := by
  induction h with
  | simpleCommand => simp [Ast.SeparatorsFit, Ast.commandLists]
  | pipeline _ _ _ ih => exact Ast.separatorsFit_all ih
  | andOrList _ _ _ _ ihl ihr | whileClause _ _ _ _ ihl ihr | untilClause _ _ _ _ ihl ihr =>
    exact List.forall_mem_append.mpr ⟨ihl, ihr⟩
  | commandList hlength _ _ ih =>
    exact List.forall_mem_cons.mpr ⟨hlength, Ast.separatorsFit_all ih⟩
  | subshell _ _ ih | braceGroup _ _ ih | forClause _ _ _ ih | functionDef _ _ _ ih => exact ih
  | @ifClause condition thenBody elseBody _ _ _ _ _ _ ihc iht ihe =>
    have hboth := List.forall_mem_append.mpr ⟨ihc, iht⟩
    cases elseBody with
    | none => simpa [Ast.SeparatorsFit, Ast.commandLists] using hboth
    | some body =>
      have helse : body.SeparatorsFit := ihe body rfl
      have hall := List.forall_mem_append.mpr ⟨hboth, helse⟩
      simpa [Ast.SeparatorsFit, Ast.commandLists] using hall
  | @caseClause word caseItems items _ _ _ _ ih =>
    refine Ast.separatorsFit_all fun c hc => ?_
    obtain ⟨patterns, body, action, rfl⟩ := items c hc
    cases body with
    | none => simp [Ast.SeparatorsFit, Ast.commandLists]
    | some body => exact ih patterns body action hc

theorem lowerProgram_renders {below : Lowerers} (h : below.InOrder) {g : Gnode}
    (htype : g.type = .program) : Gives (Renders g) (lowerProgram below g) := by
  apply Gives.bind_of; rintro ⟨a, b, c, d⟩ hm
  cases a with
  | none => exact Gives.error
  | some inner =>
    exact (lowerCompleteCommands_renders h inner).mono fun t ht => .program htype hm ht

/-! ## What the parser leaves to be read -/

/-- Everything in the suffix of a simple command is one of its elements. -/
def Gnode.SuffixesKept (g : Gnode) : Prop :=
  ∀ nodes, g.nodes? = .ok nodes → ∀ e ∈ nodes, e.type = .cmdSuffix →
    e.nodes? = .ok e.commandElements

theorem yields_suffixesKept : Yields Gnode.SuffixesKept gparseSimpleCommand := by
  intro s g t h
  obtain ⟨nodes, rfl, helements⟩ := yields_gparseSimpleCommand s g t h
  intro nodes' hnodes e he htype
  cases hnodes
  cases helements e he with
  | head kind => cases htype
  | name leaf =>
    obtain ⟨type, hmem, tok, origin, rfl⟩ := leaf
    cases List.mem_singleton.mp hmem
    cases htype
  | @suffix elements kind =>
    refine congrArg Except.ok (List.filter_eq_self.mpr fun e he => ?_).symm
    rcases kind e he with hredirect | ⟨type, hmem, tok, origin, rfl⟩
    · cases hredirect
      rfl
    · cases List.mem_singleton.mp hmem
      rfl

/-- The node is never lowered to NULL. -/
def Gnode.NeverNull (g : Gnode) : Prop := ∀ n, (lowerers n).compoundList g ≠ .error .null

theorem Lower.CommandList.Sound.finish_ok {cl : CommandList} (h : cl.Sound) (hne : cl.items ≠ [])
    (given : Option CmdSeparator) : ∃ cl', cl.finish given = .ok cl' := by
  have hlength := h.length
  cases given with
  | none => exact ⟨cl, if_neg (by omega)⟩
  | some sep =>
    refine ⟨{ cl with separators := cl.separators.dropLast ++ [sep] }, ?_⟩
    rw [CommandList.finish, CommandList.setFinalSeparator, if_neg hne, if_neg (by omega),
      if_pos hlength.symm]

theorem lowerCompoundList_ne_null {below : Lowerers} (hbelow : below.Sound) {g : Gnode}
    (h : CompoundListNode g) : lowerCompoundList below g ≠ .error .null := by
  obtain ⟨hnodes, hsep⟩ := h
  rename_i sep
  obtain ⟨first, rest, rfl, hrest⟩ := hnodes.split
  change (do
    let list ← nullCrash (lowerItems below .separator (fun _ => .ok .sequential)
      (first :: Gnode.flatten rest))
    let given ← sep.mapM compoundListSeparator
    return (← list.finish given).ast) ≠ .error .null
  rw [option_mapM_eq fun g hg => compoundListSeparator_eq (hsep g hg)]
  cases hlist : lowerItems below .separator (fun _ => .ok .sequential)
    (first :: Gnode.flatten rest) with
  | error e => cases e <;> simp [nullCrash, bind, Except.bind]
  | ok cl =>
    have hsound := (lowerItems_gives hbelow _ _ _).answer cl hlist
    have hseps := lowerItems_separators (fun _ => .sequential) (fun p hp => (hrest p hp).type)
      (fun _ _ => rfl) hlist
    have hne : cl.items ≠ [] := by
      intro hnil
      have hlength := hsound.length
      rw [hnil, hseps] at hlength
      simp at hlength
    obtain ⟨cl', hfinish⟩ := hsound.finish_ok hne (sep.map fun g => g.terminator.separator)
    simp [nullCrash, bind, Except.bind, hfinish, pure, Except.pure]

theorem yields_neverNull : Yields Gnode.NeverNull gparseCompoundList := by
  intro s g t h n
  have hnode := gparseCompoundList_node s g t h
  cases n with
  | zero => rintro ⟨⟩
  | succ n => exact lowerCompoundList_ne_null (lowerers_sound n) hnode

/-- In the tree that `ast_lower` returns every command list has one separator for each item, its items
are the and-or lists of the source in order, and the parts of every simple command are those of the
source in order. The parser builds no suffix with anything else in it and no body that is NULL. -/
theorem astLower_inOrder {root : Gnode} {t : Ast} (h : astLower root = .ok t) :
    t.SeparatorsFit ∧ Renders root t ∧ Yields Gnode.SuffixesKept gparseSimpleCommand ∧
      Yields Gnode.NeverNull gparseCompoundList := by
  refine ⟨((astLower_gives root).answer t h).2.separatorsFit, ?_, yields_suffixesKept,
    yields_neverNull⟩
  obtain ⟨g, hg, hlower⟩ := except_bind_eq_ok.mp h
  obtain ⟨heq, htype⟩ := expectType_ok hg
  cases heq
  exact (lowerProgram_renders (lowerers_inOrder _) htype).answer t hlower

/-- `a x; b` is a list with two items and two separators. -/
theorem astLower_inOrder_two : ∃ root s t,
    parserParseProgram [.ofText "a", .ofText "x", .ofType .semi, .ofText "b"] = .ok root s ∧
      astLower root = .ok t ∧
      t = .commandList [.ofWords ["a", "x"], .ofWords ["b"]] [.sequential, .end_] ∧
      t.SeparatorsFit ∧ Renders root t := by
  obtain ⟨root, s, hparse, hlower⟩ : ∃ root s,
      parserParseProgram [.ofText "a", .ofText "x", .ofType .semi, .ofText "b"] = .ok root s ∧
        astLower root =
          .ok (.commandList [.ofWords ["a", "x"], .ofWords ["b"]] [.sequential, .end_]) :=
    ⟨_, _, rfl, rfl⟩
  obtain ⟨hfit, hrenders, -⟩ := astLower_inOrder hlower
  exact ⟨root, s, _, hparse, hlower, rfl, hfit, hrenders⟩

end Migash
