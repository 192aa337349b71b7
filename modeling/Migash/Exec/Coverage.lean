import Migash.Exec.Dispatch
import Migash.Lower.Shape
import Migash.Parser.Program
import Mathlib.Logic.Relation

/-! # Which nodes the executor has a case for

Four switches over node types: the one of dispatch, the one of the list loop
and the two of the and-or executor. Three of them cover everything that
lowering builds; the operand switches know four types only.
-/

namespace Migash

open Library

namespace Ast

/-- The nodes directly below a node. -/
def children : Ast → List Ast
  | pipeline commands _ => commands
  | andOrList left right _ => [left, right]
  | commandList items _ => items
  | subshell body | braceGroup body => [body]
  | ifClause condition thenBody elifList elseBody =>
    condition :: thenBody :: (elifList.getD [] ++ elseBody.toList)
  | whileClause condition body | untilClause condition body => [condition, body]
  | forClause _ _ body => [body]
  | caseClause _ caseItems => caseItems
  | functionDef _ body _ => [body]
  | redirectedCommand command _ => [command]
  | caseItem _ body _ => body.toList
  | simpleCommand .. | redirection .. | functionStored => []

/-- `n` is a node of the tree `t`. -/
def Contains (t n : Ast) : Prop := Relation.ReflTransGen (fun a b => b ∈ a.children) t n

/-- The node is an `AST_CASE_ITEM`. -/
def isCaseItem : Ast → Bool
  | caseItem .. => true
  | _ => false

/-- A node that the operand switches of the and-or executor know and lowering makes an operand:
a simple command, a pipeline or an and-or list. -/
def isPlainOperand : Ast → Bool
  | simpleCommand .. | pipeline .. | andOrList .. => true
  | _ => false

/-- A node of a lowered tree: a lowered one, or a case item with a lowered body. -/
def LoweredNode : Ast → Prop
  | caseItem _ body _ => ∀ b ∈ body, b.Lowered
  | t => t.Lowered

theorem Lowered.node {t : Ast} (h : t.Lowered) : t.LoweredNode := by
  cases h <;> constructor <;> assumption

/-- The nodes directly below a node of a lowered tree are nodes of one. -/
theorem Lowered.child {t n : Ast} (h : t.Lowered) (hn : n ∈ t.children) : n.LoweredNode := by
  cases h with
  | simpleCommand => cases hn
  | pipeline _ _ below => exact (below n hn).node
  | andOrList _ _ leftBelow rightBelow =>
    rcases List.mem_pair.mp hn with rfl | rfl
    · exact leftBelow.node
    · exact rightBelow.node
  | commandList _ _ below => exact (below n hn).node
  | subshell _ below | braceGroup _ below | forClause _ below | functionDef _ below =>
    rw [List.mem_singleton.mp hn]
    exact below.node
  | ifClause _ _ _ conditionBelow thenBelow elseBelow =>
    rcases List.mem_cons.mp hn with rfl | hn
    · exact conditionBelow.node
    rcases List.mem_cons.mp hn with rfl | hn
    · exact thenBelow.node
    · exact (elseBelow n (by simpa using hn)).node
  | whileClause _ _ conditionBelow bodyBelow | untilClause _ _ conditionBelow bodyBelow =>
    rcases List.mem_pair.mp hn with rfl | rfl
    · exact conditionBelow.node
    · exact bodyBelow.node
  | caseClause items _ below =>
    obtain ⟨patterns, body, action, rfl⟩ := items n hn
    intro b hb
    cases hb
    exact below patterns b action hn

theorem LoweredNode.child {t n : Ast} (h : t.LoweredNode) (hn : n ∈ t.children) :
    n.LoweredNode := by
  cases t with
  | caseItem patterns body action => exact (h n (by simpa [children] using hn)).node
  | _ => exact Lowered.child h hn

/-- Every node of a lowered tree that is no case item is lowered itself. -/
theorem Lowered.contained {t n : Ast} (h : t.Lowered) (hn : t.Contains n)
    (hitem : n.isCaseItem = false) : n.Lowered := by
  have hnode : n.LoweredNode := by
    clear hitem
    induction hn with
    | refl => exact h.node
    | tail _ hchild ih => exact ih.child hchild
  cases n with
  | caseItem => cases hitem
  | _ => exact hnode

end Ast

namespace Exec

variable {δ W : Type}

/-! ## Computations that never answer `MIGA_EXEC_STATUS_NOT_IMPL` -/

/-- Whatever state it is started in, its answer is not `MIGA_EXEC_STATUS_NOT_IMPL`. -/
abbrev Implemented (m : ExecM δ W ExecuteResult) : Prop :=
  Answers (fun r => r.status ≠ .notImpl) m

/-- Nothing that the executor calls back answers `MIGA_EXEC_STATUS_NOT_IMPL`. -/
structure Callees.Implemented (callees : Callees δ W) : Prop where
  dispatch : ∀ node, Exec.Implemented (callees.dispatch node)
  compoundList : ∀ node, Exec.Implemented (callees.compoundList node)
  andOrList : ∀ node, Exec.Implemented (callees.andOrList node)

theorem handleControlFlow_status (policy : FramePolicy) (result : ExecuteResult) :
    (handleControlFlow policy result).status = result.status ∨
      (handleControlFlow policy result).status = .ok := by
  unfold handleControlFlow
  repeat' split
  all_goals simp

theorem afterBody_status {result body : ExecuteResult} (hr : result.status ≠ .notImpl)
    (hb : body.status ≠ .notImpl) : (afterBody result body).result.status ≠ .notImpl := by
  unfold afterBody
  repeat' split
  all_goals first | exact hr | exact hb

section Frames

variable {env : Env δ W} {callees : Callees δ W} (h : callees.Implemented)

include h

theorem iterationBody_implemented (body : Ast) : Implemented (iterationBody callees body) := by
  cases body with
  | commandList items separators => exact h.compoundList _
  | _ => exact h.dispatch _

theorem iterationTurns_implemented (var : String) (body : Ast) (words : List String)
    (result : ExecuteResult) (hr : result.status ≠ .notImpl) :
    Implemented (iterationTurns callees var body words result) := by
  induction words generalizing result with
  | nil => exact .of_pure hr
  | cons word words ih =>
    refine .andThen fun _ => .andThen fun _ => ?_
    refine (iterationBody_implemented h body).bind fun b hb => ?_
    have hstep := afterBody_status hr hb
    cases hafter : afterBody result b with
    | leave r => exact .of_pure (by rwa [hafter] at hstep)
    | next r => exact ih r (by rwa [hafter] at hstep)

theorem execFrameExecuteIterationLoop_implemented (params : ExecParams) :
    Implemented (execFrameExecuteIterationLoop callees params) :=
  .andThen fun var => .andThen fun words => .andThen fun body =>
    iterationTurns_implemented h var body words _ (by simp)

theorem conditionBody_implemented (params : ExecParams) (body : Ast) :
    Implemented (conditionBody callees params body) := by
  cases body with
  | commandList items separators => exact execFrameExecuteIterationLoop_implemented h params
  | _ => exact h.dispatch _

theorem conditionTurns_implemented (params : ExecParams) (condition body : Ast) (fuel : ℕ)
    (result : ExecuteResult) (hr : result.status ≠ .notImpl) :
    Implemented (conditionTurns callees params condition body fuel result) := by
  induction fuel generalizing result with
  | zero => exact .of_throw
  | succ fuel ih =>
    refine .andThen fun _ => (h.dispatch condition).bind fun cond hcond => ?_
    split
    · exact .of_pure hcond
    · split
      · exact .of_pure hr
      · refine .andThen fun _ => (conditionBody_implemented h params body).bind fun b hb => ?_
        have hstep := afterBody_status hr hb
        cases hafter : afterBody result b with
        | leave r => exact .of_pure (by rwa [hafter] at hstep)
        | next r => exact ih r (by rwa [hafter] at hstep)

theorem execFrameExecuteConditionLoop_implemented (params : ExecParams) :
    Implemented (execFrameExecuteConditionLoop callees params) :=
  .andThen fun condition => .andThen fun body =>
    conditionTurns_implemented h params condition body _ _ (by simp)

omit h in
theorem orchestrateMany_implemented (commands : List Ast) (isNegated : Bool) :
    Implemented (orchestrateMany env callees commands isNegated) := by
  refine .andThen ?_
  rintro ⟨created, pipes⟩
  dsimp only
  split
  · refine .andThen ?_
    rintro ⟨forked, pipes, pids⟩
    refine .andThen fun _ => ?_
    split
    · exact .andThen fun _ => .andThen fun _ => .of_pure (by simp)
    · exact .of_pure (by simp)
  · exact .andThen fun _ => .of_pure (by simp)

theorem execFrameExecutePipelineOrchestrate_implemented (params : ExecParams) :
    Implemented (execFrameExecutePipelineOrchestrate env callees params) := by
  refine .andThen fun commands => ?_
  split
  · exact .of_pure (by simp)
  · refine (h.dispatch _).bind fun r hr => ?_
    split
    · exact .of_pure hr
    · exact .of_pure hr
  · exact orchestrateMany_implemented _ _

theorem executeFrameWork_implemented (type : FrameType) (params : ExecParams) :
    Implemented (executeFrameWork env callees type params) := by
  unfold executeFrameWork
  split
  · exact .andThen fun _ => h.dispatch _
  · split
    · exact execFrameExecuteConditionLoop_implemented h params
    · split
      · exact execFrameExecuteIterationLoop_implemented h params
      · split
        · exact execFrameExecutePipelineOrchestrate_implemented h params
        · exact .of_pure (by simp)

theorem executeFrameBody_implemented (type : FrameType) (params : ExecParams) :
    Implemented (executeFrameBody env callees type params) := by
  refine .andThen fun applied => ?_
  split
  · refine .andThen fun _ => (executeFrameWork_implemented h type params).bind fun r hr => ?_
    have hflow : (handleControlFlow (execFramePolicies type) r).status ≠ .notImpl := by
      rcases handleControlFlow_status (execFramePolicies type) r with hs | hs <;> simp [hs, hr]
    exact .andThen fun _ => .of_pure hflow
  · exact .of_pure (by simp)

theorem execInFrame_implemented (type : FrameType) (params : ExecParams) :
    Implemented (execInFrame env callees type params) := by
  unfold execInFrame
  split
  · refine .andThen fun pid => ?_
    split
    · exact .of_pure (by simp)
    · split
      · exact .andThen fun _ => .andThen fun _ => .of_pure (by simp)
      · refine .andThen fun status => ?_
        split
        · exact .of_throw
        · exact .of_pure (by simp)
        · exact .of_pure (by simp)
  · refine .andThen fun _ => (executeFrameBody_implemented h type params).bind fun r hr => ?_
    exact .andThen fun _ => .andThen fun _ => .of_pure hr

/-! ## Simple commands -/

omit h in
theorem assignmentOnly_implemented (assignments : List Token) :
    Implemented (assignmentOnly env assignments) := by
  induction assignments with
  | nil => exact .andThen fun _ => .of_pure (by simp)
  | cons tok toks ih =>
    refine .andThen fun value => ?_
    split
    · exact .andThen fun _ => .of_pure (by simp)
    · refine .andThen fun name => .andThen fun s => ?_
      split
      · exact .andThen fun _ => .of_pure (by simp)
      · exact .andThen fun _ => ih

omit h in
theorem withRedirections_status (redirs : List Redirect.ExecRedirection) (m : ExecM δ W ℤ) :
    Answers (fun o : CommandOutcome => o.status ≠ .notImpl) (withRedirections env redirs m) := by
  refine .andThen fun applied => ?_
  split
  · exact .andThen fun _ => .andThen fun _ => .of_pure (by simp)
  · exact .of_pure (by simp)

omit h in
theorem runWords_status (assignments : List Token) (redirs : List Redirect.ExecRedirection)
    (words : List String) :
    Answers (fun o : CommandOutcome => o.status ≠ .notImpl)
      (runWords env callees assignments redirs words) := by
  refine .andThen fun cmdName => ?_
  split
  · exact .andThen fun _ => .of_pure (by simp)
  · refine .andThen fun kept => ?_
    split
    · refine .andThen fun s => ?_
      split
      · exact withRedirections_status _ _
      · split
        · exact withRedirections_status _ _
        · unfold runExternal
          split
          · exact .andThen fun _ => .of_pure (by simp)
          · exact .andThen fun _ => .andThen fun _ => .andThen fun _ => .of_pure (by simp)
    · exact .of_pure (by simp)

omit h in
theorem doneExecution_status (words : List String) {outcome : CommandOutcome}
    (ho : outcome.status ≠ .notImpl) :
    Answers (fun status => status ≠ .notImpl)
      (doneExecution words outcome : ExecM δ W ExecStatus) :=
  .andThen fun _ => .andThen fun _ => .of_pure ho

omit h in
theorem runInTempStore_status (words assignments : List Token)
    (redirections : List Migash.Redirection) :
    Answers (fun status => status ≠ .notImpl)
      (runInTempStore env callees words assignments redirections) := by
  unfold runInTempStore
  split
  · exact .andThen fun _ => .of_pure (by simp)
  · split
    · exact doneExecution_status _ (by simp)
    · refine .andThen fun expanded => ?_
      split
      · exact .of_pure (by simp)
      · exact (runWords_status _ _ _).bind fun outcome ho => doneExecution_status _ ho

omit h in
theorem execFrameExecuteSimpleCommand_implemented (words : Option (List Token))
    (redirections : Option (List Migash.Redirection)) (assignments : Option (List Token)) :
    Implemented (execFrameExecuteSimpleCommand env callees words redirections assignments) := by
  have himpl : Implemented
      (execFrameExecuteSimpleCommandImpl env callees words redirections assignments) := by
    unfold execFrameExecuteSimpleCommandImpl
    dsimp only
    split
    · exact assignmentOnly_implemented _
    · refine .andThen fun temp => .andThen fun _ => ?_
      exact (runInTempStore_status _ _ _).bind fun status hs => .andThen fun _ => .of_pure hs
  exact .andThen fun _ => himpl.bind fun r hr => .andThen fun s => .andThen fun _ => .of_pure hr

/-! ## Compound commands -/

theorem execFrameExecuteRedirectedCommand_implemented (command : Ast)
    (redirections : List Migash.Redirection) :
    Implemented (execFrameExecuteRedirectedCommand env callees command redirections) := by
  unfold execFrameExecuteRedirectedCommand
  split
  · exact execInFrame_implemented h _ _
  · split
    · exact .andThen fun _ => .of_pure (by simp)
    · exact execInFrame_implemented h _ _

theorem elifClauses_implemented (elifs : List Ast) :
    Answers (fun r : Option ExecuteResult => ∀ a ∈ r, a.status ≠ .notImpl)
      (elifClauses callees elifs) := by
  induction elifs with
  | nil => exact .of_pure (by simp)
  | cons elif_ elifs ih =>
    cases elif_ with
    | ifClause condition thenBody elifList elseBody =>
      refine (h.dispatch condition).bind fun cond hcond => ?_
      split
      · exact .of_pure (by simpa using hcond)
      · split
        · exact (h.dispatch thenBody).map fun a ha => by simpa using ha
        · exact ih
    | _ => exact ih

theorem execFrameExecuteIfClause_implemented (condition thenBody : Ast)
    (elifList : Option (List Ast)) (elseBody : Option Ast) :
    Implemented (execFrameExecuteIfClause callees condition thenBody elifList elseBody) := by
  refine (h.dispatch condition).bind fun cond hcond => ?_
  split
  · exact .of_pure hcond
  · split
    · exact h.dispatch thenBody
    · refine (elifClauses_implemented h _).bind fun r hr => ?_
      split
      · exact .of_pure (hr _ rfl)
      · split
        · exact h.dispatch _
        · exact .of_pure (by simp)

theorem execFrameExecuteWhileClause_implemented (condition body : Ast) (isUntil : Bool) :
    Implemented (execFrameExecuteWhileClause callees condition body isUntil) :=
  .andThen fun _ => (execFrameExecuteConditionLoop_implemented h _).bind fun _ hr =>
    .andThen fun _ => .of_pure hr

theorem execFrameExecuteForClause_implemented (var : String) (words : Option (List Token))
    (body : Ast) : Implemented (execFrameExecuteForClause env callees var words body) :=
  .andThen fun _ => .andThen fun _ => (execInFrame_implemented h _ _).bind fun _ hr =>
    .andThen fun _ => .of_pure hr

theorem caseItems_implemented (word : String) (items : List Ast) :
    Implemented (caseItems env callees word items) := by
  induction items with
  | nil => exact .of_pure (by simp)
  | cons item items ih =>
    cases item with
    | caseItem patterns body action =>
      refine .andThen fun found => ?_
      split
      · split
        · exact h.dispatch _
        · exact .of_pure (by simp)
      · exact ih
    | _ => exact ih

theorem execFrameExecuteCaseClause_implemented (word : Token) (items : List Ast) :
    Implemented (execFrameExecuteCaseClause env callees word items) := by
  refine .andThen fun text => ?_
  split
  · exact .andThen fun _ => .of_pure (by simp)
  · exact caseItems_implemented h _ _

omit h in
theorem execFrameExecuteFunctionDefClause_implemented (name : String) (body : Ast)
    (redirections : Option (List Migash.Redirection)) :
    Implemented
      (execFrameExecuteFunctionDefClause name body redirections : ExecM δ W ExecuteResult) := by
  unfold execFrameExecuteFunctionDefClause functionDefError
  split
  · exact .andThen fun _ => .of_pure (by simp)
  · refine .andThen fun added => ?_
    split
    · exact .of_pure (by simp)
    · exact .andThen fun _ => .of_pure (by simp)

/-! ## The switches -/

theorem operandCase_implemented {node : Ast} (hnode : node.isPlainOperand = true) :
    ∃ run, operandCase env callees node = some run ∧ Implemented run := by
  cases node with
  | simpleCommand words redirections assignments =>
    exact ⟨_, rfl, execFrameExecuteSimpleCommand_implemented _ _ _⟩
  | pipeline commands isNegated => exact ⟨_, rfl, execInFrame_implemented h _ _⟩
  | andOrList left right op => exact ⟨_, rfl, h.andOrList _⟩
  | _ => cases hnode

theorem andOrRight_implemented {right : Ast} (hright : right.isPlainOperand = true) :
    Implemented (andOrRight env callees right) := by
  obtain ⟨run, hrun, himpl⟩ : ∃ run, operandCase env callees right = some run ∧ Implemented run :=
    operandCase_implemented h hright
  unfold andOrRight
  rw [hrun]
  refine himpl.bind fun r hr => ?_
  split
  · exact .of_pure hr
  · exact .andThen fun _ => .of_pure hr

theorem execFrameExecuteAndOrList_implemented {left right : Ast} (op : AndorOperator)
    (hleft : left.isPlainOperand = true) (hright : right.isPlainOperand = true) :
    Implemented (execFrameExecuteAndOrList env callees left right op) := by
  obtain ⟨run, hrun, himpl⟩ : ∃ run, operandCase env callees left = some run ∧ Implemented run :=
    operandCase_implemented h hleft
  unfold execFrameExecuteAndOrList
  rw [hrun]
  refine himpl.bind fun r hr => ?_
  split
  · exact .of_pure hr
  · split
    · exact andOrRight_implemented h hright
    · exact .andThen fun _ => .of_pure hr

theorem listItemCase_implemented (sep : CmdSeparator) {cmd : Ast} (hitem : cmd.isListItem = true)
    (hplain : ∀ left right op, cmd = .andOrList left right op →
      left.isPlainOperand = true ∧ right.isPlainOperand = true) :
    ∃ run, listItemCase env callees sep cmd = some run ∧ Implemented run := by
  by_cases hsep : sep = .background
  · exact ⟨_, if_pos hsep, execInFrame_implemented h _ _⟩
  · unfold listItemCase
    rw [if_neg hsep]
    cases cmd with
    | simpleCommand words redirections assignments =>
      exact ⟨_, rfl, execFrameExecuteSimpleCommand_implemented _ _ _⟩
    | andOrList left right op =>
      obtain ⟨hleft, hright⟩ := hplain left right op rfl
      exact ⟨_, rfl, execFrameExecuteAndOrList_implemented h op hleft hright⟩
    | pipeline | subshell | braceGroup => exact ⟨_, rfl, execInFrame_implemented h _ _⟩
    | ifClause => exact ⟨_, rfl, execFrameExecuteIfClause_implemented h _ _ _ _⟩
    | whileClause | untilClause =>
      exact ⟨_, rfl, execFrameExecuteWhileClause_implemented h _ _ _⟩
    | forClause => exact ⟨_, rfl, execFrameExecuteForClause_implemented h _ _ _⟩
    | caseClause => exact ⟨_, rfl, execFrameExecuteCaseClause_implemented h _ _⟩
    | functionDef => exact ⟨_, rfl, execFrameExecuteFunctionDefClause_implemented _ _ _⟩
    | _ => cases hitem

theorem listTurns_implemented {items : List Ast} (hitems : ∀ c ∈ items, c.isListItem = true)
    (hplain : ∀ left right op, .andOrList left right op ∈ items →
      left.isPlainOperand = true ∧ right.isPlainOperand = true)
    (separators : List CmdSeparator) {result : ExecuteResult} (hr : result.status ≠ .notImpl) :
    Implemented (listTurns env callees items separators result) := by
  induction items generalizing separators result with
  | nil => exact .of_pure hr
  | cons cmd items ih =>
    cases separators with
    | nil => exact .of_throw
    | cons sep separators =>
      have hcmd := hitems cmd List.mem_cons_self
      obtain ⟨run, hrun, himpl⟩ : ∃ run, listItemCase env callees sep cmd = some run ∧
          Implemented run := listItemCase_implemented h sep hcmd
        fun left right op heq => hplain left right op (by simp [heq])
      have htake (item : ExecuteResult) : (result.takeStatus item).status = result.status := by
        unfold ExecuteResult.takeStatus
        split <;> rfl
      rw [listTurns, hrun]
      refine himpl.bind fun item hi => ?_
      split
      · exact .of_pure hi
      · refine .andThen fun _ => ?_
        split
        · exact .of_pure (by rwa [htake])
        · exact ih (fun c hc => hitems c (List.mem_cons_of_mem _ hc))
            (fun left right op hmem => hplain left right op (List.mem_cons_of_mem _ hmem)) _
            (by rwa [htake])

end Frames

/-! ## Lowered trees -/

/-- The and-or lists of a tree have operands that the operand switches know. -/
def OperandsPlain (t : Ast) : Prop :=
  ∀ left right op, t.Contains (.andOrList left right op) →
    left.isPlainOperand = true ∧ right.isPlainOperand = true

/-- The executor has a case for `n`: as long as nothing it calls back answers
`MIGA_EXEC_STATUS_NOT_IMPL`, neither dispatch does on `n`, with the list loop and the switch over
the left operand, nor the switch over the right operand. -/
structure HasCase (n : Ast) : Prop where
  dispatch : ∀ (δ W : Type) (env : Env δ W) (callees : Callees δ W), callees.Implemented →
    Implemented (execFrameExecuteDispatch env callees n)
  right : ∀ (δ W : Type) (env : Env δ W) (callees : Callees δ W), callees.Implemented →
    ∀ left right op, n = .andOrList left right op → Implemented (andOrRight env callees right)

/-- The executor has a case for every node of the tree. -/
def Covered (t : Ast) : Prop := ∀ n, t.Contains n → n.isCaseItem = false → HasCase n

theorem OperandsPlain.contained {t n : Ast} (h : OperandsPlain t) (hn : t.Contains n) :
    OperandsPlain n := fun left right op hmem => h left right op (hn.trans hmem)

theorem execFrameExecuteDispatch_implemented {env : Env δ W} {callees : Callees δ W}
    (h : callees.Implemented) {n : Ast} (hn : n.Lowered) (hplain : OperandsPlain n) :
    Implemented (execFrameExecuteDispatch env callees n) := by
  have hcase : ∃ run, dispatchCase env callees n = some run ∧ Implemented run := by
    cases hn with
    | simpleCommand words redirections assignments =>
      exact ⟨_, rfl, execFrameExecuteSimpleCommand_implemented _ _ _⟩
    | @andOrList left right op _ _ _ _ =>
      obtain ⟨hleft, hright⟩ := hplain left right op .refl
      exact ⟨_, rfl, execFrameExecuteAndOrList_implemented h op hleft hright⟩
    | @commandList items separators _ kind _ =>
      refine ⟨_, rfl, ?_⟩
      unfold execFrameExecuteCompoundList
      split
      · exact .of_pure (by simp)
      · exact listTurns_implemented h kind
          (fun left right op hmem => hplain left right op (.single hmem)) separators (by simp)
    | pipeline | subshell | braceGroup => exact ⟨_, rfl, execInFrame_implemented h _ _⟩
    | ifClause => exact ⟨_, rfl, execFrameExecuteIfClause_implemented h _ _ _ _⟩
    | whileClause | untilClause =>
      exact ⟨_, rfl, execFrameExecuteWhileClause_implemented h _ _ _⟩
    | forClause => exact ⟨_, rfl, execFrameExecuteForClause_implemented h _ _ _⟩
    | caseClause => exact ⟨_, rfl, execFrameExecuteCaseClause_implemented h _ _⟩
    | functionDef => exact ⟨_, rfl, execFrameExecuteFunctionDefClause_implemented _ _ _⟩
  obtain ⟨run, hrun, himpl⟩ := hcase
  unfold execFrameExecuteDispatch
  rw [hrun]
  exact himpl.bind fun r hr => .andThen fun _ => .of_pure hr

/-- A list item that is no plain operand has no case in the operand switches. -/
theorem operandCase_eq_none {env : Env δ W} {callees : Callees δ W} {node : Ast}
    (hitem : node.isListItem = true) (hplain : node.isPlainOperand = false) :
    operandCase env callees node = none := by
  cases node with
  | simpleCommand | pipeline | andOrList => cases hplain
  | commandList => cases hitem
  | _ => rfl

theorem executor_zero_implemented (env : Env δ W) : (executor env 0).Implemented where
  dispatch _ := .of_throw
  compoundList _ := .of_throw
  andOrList _ := .of_throw

theorem HasCase.left_plain {left right : Ast} {op : AndorOperator}
    (h : HasCase (.andOrList left right op)) (hleft : left.isListItem = true) :
    left.isPlainOperand = true := by
  by_contra hplain
  let env : Env Unit Unit := Env.idle Unit Unit
  have hnone : operandCase env (executor env 0) left = none :=
    operandCase_eq_none hleft (by simpa using hplain)
  have hrun : ∃ s, (execFrameExecuteDispatch env (executor env 0)
      (.andOrList left right op)).run (Shell.initial ()) = .ok ({ status := .notImpl }, s) := by
    simp only [execFrameExecuteDispatch, dispatchCase, execFrameExecuteAndOrList, hnone]
    exact ⟨_, rfl⟩
  obtain ⟨s, hs⟩ := hrun
  have himpl := h.dispatch Unit Unit env _ (executor_zero_implemented env)
  exact (himpl.ensures _).answer _ _ hs rfl

theorem HasCase.right_plain {left right : Ast} {op : AndorOperator}
    (h : HasCase (.andOrList left right op)) (hright : right.isListItem = true) :
    right.isPlainOperand = true := by
  by_contra hplain
  let env : Env Unit Unit := Env.idle Unit Unit
  have hnone : operandCase env (executor env 0) right = none :=
    operandCase_eq_none hright (by simpa using hplain)
  have hrun : ∃ s, (andOrRight env (executor env 0) right).run (Shell.initial ()) =
      .ok ({ status := .notImpl }, s) := by
    simp only [andOrRight, hnone]
    exact ⟨_, rfl⟩
  obtain ⟨s, hs⟩ := hrun
  have himpl := h.right Unit Unit env _ (executor_zero_implemented env) left right op rfl
  exact (himpl.ensures _).answer _ _ hs rfl

theorem Covered.operandsPlain {t : Ast} (hcovered : Covered t) (ht : t.Lowered) :
    OperandsPlain t := by
  intro left right op hmem
  have hn := ht.contained hmem rfl
  cases hn with
  | andOrList leftKind rightKind =>
    have hcase := hcovered _ hmem rfl
    exact ⟨hcase.left_plain leftKind, hcase.right_plain rightKind⟩

theorem OperandsPlain.covered {t : Ast} (hplain : OperandsPlain t) (ht : t.Lowered) :
    Covered t := by
  intro n hmem hitem
  constructor
  · intro δ W env callees h
    exact execFrameExecuteDispatch_implemented h (ht.contained hmem hitem)
      (hplain.contained hmem)
  · intro δ W env callees h left right op heq
    subst heq
    exact andOrRight_implemented h (hplain left right op hmem).2

/-- The executor has a case for every node of a tree that lowering returns exactly when every
operand of its and-or lists is a simple command, a pipeline or an and-or list. -/
theorem astLower_covered_iff {root : Gnode} {t : Ast} (h : astLower root = .ok t) :
    Covered t ↔ OperandsPlain t := by
  have ht : t.Lowered := ((astLower_gives root).answer t h).2
  constructor
  · intro hcovered
    exact hcovered.operandsPlain ht
  · intro hplain
    exact hplain.covered ht

/-- `a && { b; }`. -/
def andBraceTokens : List Token :=
  [.ofText "a", .ofType .andIf, .ofText "\x7b", .ofText "b", .ofType .semi, .ofText "\x7d"]

/-- The tree that the parser makes of it. -/
def andBraceRoot : Gnode :=
  match Parser.parserParseProgram andBraceTokens with
  | .ok root _ => root
  | _ => .ofList .program []

/-- What that is lowered to. -/
def andBraceTree : Ast :=
  .commandList
    [.andOrList (.ofWords ["a"]) (.braceGroup (.commandList [.ofWords ["b"]] [.sequential])) .and]
    [.end_]

theorem astLower_covered_iff_andBrace :
    astLower andBraceRoot = .ok andBraceTree ∧ (Covered andBraceTree ↔ OperandsPlain andBraceTree) :=
  ⟨rfl, astLower_covered_iff (show astLower andBraceRoot = .ok andBraceTree from rfl)⟩

/-- The right operand of `a && { b; }` has no case. -/
theorem andBrace_not_covered : ¬ ∀ root t, astLower root = .ok t → Covered t := by
  intro h
  have hcase := h andBraceRoot andBraceTree rfl _ (.single List.mem_cons_self) rfl
  exact absurd (hcase.right_plain rfl) (by decide)

end Exec

end Migash
