import Migash.Lower.Shape
import Migash.Parser.Program

/-! # Copies of lowered trees

The copy of a lowered tree is the tree again where it succeeds, and it succeeds
where nothing that the parser may leave out is missing.
-/

namespace Migash

open Library

/-! ## When a copy succeeds -/

/-- The computation has an answer. -/
def Succeeds {ε α : Type} (r : Except ε α) : Prop := ∃ a, r = .ok a

section Succeeds

variable {ε α β : Type}

@[simp] theorem succeeds_ok (a : α) : Succeeds (.ok a : Except ε α) := ⟨a, rfl⟩

@[simp] theorem succeeds_pure (a : α) : Succeeds (pure a : Except ε α) := ⟨a, rfl⟩

@[simp] theorem not_succeeds_error (e : ε) : ¬ Succeeds (.error e : Except ε α) := by
  rintro ⟨a, ⟨⟩⟩

@[simp] theorem succeeds_map (r : Except ε α) (f : α → β) : Succeeds (f <$> r) ↔ Succeeds r := by
  cases r with
  | error e => exact iff_of_false (not_succeeds_error e) (not_succeeds_error e)
  | ok a => exact iff_of_true ⟨f a, rfl⟩ ⟨a, rfl⟩

/-- The steps of a computation one after the other, none of which uses what came before. -/
theorem succeeds_bind {r : Except ε α} {f : α → Except ε β} {p : Prop}
    (hf : ∀ a, Succeeds (f a) ↔ p) : Succeeds (r >>= f) ↔ Succeeds r ∧ p := by
  cases r with
  | error e => simp [bind, Except.bind]
  | ok a => simpa [bind, Except.bind] using hf a

theorem succeeds_bind_pure (r : Except ε α) (f : α → β) :
    Succeeds (r >>= fun a => pure (f a)) ↔ Succeeds r := by
  rw [succeeds_bind fun a => iff_true_intro (succeeds_pure (f a)), and_true]

theorem succeeds_mapM {f : α → Except ε β} {as : List α} :
    Succeeds (as.mapM f) ↔ ∀ a ∈ as, Succeeds (f a) := by
  induction as with
  | nil => exact iff_of_true ⟨[], rfl⟩ (by simp)
  | cons a as ih =>
    rw [List.mapM_cons, succeeds_bind fun b => succeeds_bind_pure _ _, ih, List.forall_mem_cons]

end Succeeds

theorem succeeds_stringCreateFrom (str : Option String) :
    Succeeds (stringCreateFrom str) ↔ str.isSome = true := by
  cases str <;> simp [stringCreateFrom]

theorem succeeds_tokenListClone (toks : Option (List Token)) :
    Succeeds (tokenListClone toks) ↔ toks.isSome = true := by
  cases toks <;> simp [tokenListClone]

namespace Redirection

theorem succeeds_clone (r : Redirection) : Succeeds r.clone ↔ r.isComplete = true := by
  unfold clone isComplete
  split <;> simp_all [succeeds_stringCreateFrom]

theorem succeeds_listClone (rs : Option (List Redirection)) :
    Succeeds (listClone rs) ↔ rs.any (fun rs => rs.all isComplete) = true := by
  cases rs <;> simp [listClone, succeeds_mapM, succeeds_clone]

end Redirection

namespace Ast

mutual

/-- A tree is copied exactly if nothing is missing in it. -/
theorem succeeds_clone : ∀ t : Ast, Succeeds t.clone ↔ t.isComplete = true
  | .simpleCommand words redirections assignments => by
    rw [clone, succeeds_bind fun _ => succeeds_bind fun _ => succeeds_bind_pure _ _]
    simp [isComplete, succeeds_tokenListClone, Redirection.succeeds_listClone, and_assoc]
  | .pipeline commands isNegated | .commandList commands separators
  | .caseClause word commands => by
    simp [clone, isComplete, succeeds_listClone commands]
  | .andOrList left right op | .whileClause left right | .untilClause left right => by
    rw [clone, succeeds_bind fun _ => succeeds_bind_pure _ _]
    simp [isComplete, succeeds_clone left, succeeds_clone right]
  | .subshell body | .braceGroup body => by
    simp [clone, isComplete, succeeds_clone body]
  | .ifClause condition thenBody elifList elseBody => by
    cases elifList with
    | none =>
      cases elseBody with
      | none =>
        rw [clone, succeeds_bind fun _ => succeeds_bind fun _ => succeeds_bind fun _ =>
          succeeds_bind_pure _ _]
        simp [isComplete, succeeds_clone condition, succeeds_clone thenBody]
      | some body =>
        rw [clone, succeeds_bind fun _ => succeeds_bind fun _ => succeeds_bind fun _ =>
          succeeds_bind_pure _ _]
        simp [isComplete, succeeds_clone condition, succeeds_clone thenBody, succeeds_clone body,
          and_assoc]
    | some elifs =>
      cases elseBody with
      | none =>
        rw [clone, succeeds_bind fun _ => succeeds_bind fun _ => succeeds_bind fun _ =>
          succeeds_bind_pure _ _]
        simp [isComplete, succeeds_clone condition, succeeds_clone thenBody,
          succeeds_listClone elifs, and_assoc]
      | some body =>
        rw [clone, succeeds_bind fun _ => succeeds_bind fun _ => succeeds_bind fun _ =>
          succeeds_bind_pure _ _]
        simp [isComplete, succeeds_clone condition, succeeds_clone thenBody,
          succeeds_listClone elifs, succeeds_clone body, and_assoc]
  | .forClause variable_ words body => by
    rw [clone, succeeds_bind fun _ => succeeds_bind_pure _ _]
    simp [isComplete, succeeds_tokenListClone, succeeds_clone body]
  | .functionDef name body redirections => by
    rw [clone, succeeds_bind fun _ => succeeds_bind_pure _ _]
    simp [isComplete, Redirection.succeeds_listClone, succeeds_clone body]
  | .redirectedCommand command redirections => by
    rw [clone, succeeds_bind fun _ => succeeds_bind_pure _ _]
    simp [isComplete, Redirection.succeeds_listClone, succeeds_clone command]
  | .redirection data => by
    simp [clone, isComplete, Redirection.succeeds_clone]
  | .caseItem patterns body action => by
    cases body with
    | none => simp [clone, isComplete]
    | some body => simp [clone, isComplete, succeeds_clone body]
  | .functionStored => by simp [clone, isComplete]

theorem succeeds_listClone :
    ∀ nodes : List Ast, Succeeds (Ast.listClone nodes) ↔ Ast.allComplete nodes = true
  | [] => by simp [listClone, allComplete]
  | node :: nodes => by
    rw [listClone, succeeds_bind fun _ => succeeds_bind_pure _ _]
    simp [allComplete, succeeds_clone node, succeeds_listClone nodes]

end

/-! ## What a copy is -/

theorem listClone_eq {nodes : List Ast} (h : ∀ n ∈ nodes, n.clone = .ok n) :
    listClone nodes = .ok nodes := by
  induction nodes with
  | nil => rfl
  | cons n nodes ih =>
    have hn : n.clone = .ok n := h n List.mem_cons_self
    have hnodes : listClone nodes = .ok nodes := ih fun n' hn' => h n' (List.mem_cons_of_mem n hn')
    rw [listClone, hn, hnodes]
    rfl

theorem allComplete_iff {nodes : List Ast} :
    allComplete nodes = true ↔ ∀ n ∈ nodes, n.isComplete = true := by
  induction nodes with
  | nil => simp [allComplete]
  | cons n nodes ih => simp [allComplete, ih]

end Ast

theorem tokenListClone_eq {toks : List Token} (h : Token.AllCopied toks) :
    tokenListClone (some toks) = .ok toks := congrArg Except.ok h

namespace Redirection

variable {r : Redirection}

/-- The members that are not copied are those of the node itself. -/
theorem Copied.clone_eq (h : r.Copied) (hcomplete : r.isComplete = true) : r.clone = .ok r := by
  obtain ⟨type, io, operand, expansion, fdString, target, buffer⟩ := r
  replace h : target.map Token.clone = target := h
  unfold clone
  cases operand with
  | invalid | close => rfl
  | file | fd => simp only [h]
  | fdString =>
    obtain ⟨str, rfl⟩ := Option.isSome_iff_exists.mp hcomplete
    rfl
  | buffer =>
    obtain ⟨str, rfl⟩ := Option.isSome_iff_exists.mp hcomplete
    simp only [h]
    rfl

theorem listClone_eq {rs : List Redirection} (h : ∀ r ∈ rs, r.Copied)
    (hcomplete : ∀ r ∈ rs, r.isComplete = true) : listClone (some rs) = .ok rs := by
  refine list_mapM_eq_ok.mpr (List.forall₂_same.mpr fun r hr => ?_)
  exact (h r hr).clone_eq (hcomplete r hr)

/-- What `ast_node_destroy` frees of a redirection is what `ast_node_clone` copies. -/
theorem sharesNothing (r : Redirection) : r.SharesNothing := by
  unfold SharesNothing owned copied
  cases r.operand <;> simp

end Redirection

/-- A lowered tree in which nothing is missing is its own copy. -/
theorem Ast.Lowered.clone_eq {t : Ast} (h : t.Lowered) (hcomplete : t.isComplete = true) :
    t.clone = .ok t := by
  induction h with
  | simpleCommand words redirections assignments hwords hassignments htargets =>
    simp only [Ast.isComplete, Option.isSome_some, Option.any_some, Bool.true_and, Bool.and_true,
      List.all_eq_true] at hcomplete
    rw [Ast.clone, tokenListClone_eq hwords, tokenListClone_eq hassignments,
      Redirection.listClone_eq htargets hcomplete]
    rfl
  | pipeline _ _ _ ih | commandList _ _ _ ih =>
    have hall := Ast.allComplete_iff.mp hcomplete
    rw [Ast.clone, Ast.listClone_eq fun c hc => ih c hc (hall c hc)]
    rfl
  | andOrList _ _ _ _ ihl ihr | whileClause _ _ _ _ ihl ihr | untilClause _ _ _ _ ihl ihr =>
    simp only [Ast.isComplete, Bool.and_eq_true] at hcomplete
    rw [Ast.clone, ihl hcomplete.1, ihr hcomplete.2]
    rfl
  | subshell _ _ ih | braceGroup _ _ ih =>
    rw [Ast.clone, ih hcomplete]
    rfl
  | @ifClause condition thenBody elseBody _ _ _ _ _ _ ihc iht ihe =>
    cases elseBody with
    | none =>
      simp only [Ast.isComplete, Bool.and_eq_true, and_true] at hcomplete
      rw [Ast.clone, ihc hcomplete.1, iht hcomplete.2]
      rfl
    | some body =>
      simp only [Ast.isComplete, Bool.and_eq_true, and_true] at hcomplete
      rw [Ast.clone, ihc hcomplete.1.1, iht hcomplete.1.2, ihe body rfl hcomplete.2]
      rfl
  | @forClause _ words _ _ _ hwords ih =>
    simp only [Ast.isComplete, Bool.and_eq_true] at hcomplete
    obtain ⟨toks, rfl⟩ := Option.isSome_iff_exists.mp hcomplete.1
    rw [Ast.clone, tokenListClone_eq (hwords toks rfl), ih hcomplete.2]
    rfl
  | @caseClause word caseItems items _ _ hword hpatterns ih =>
    have hall := Ast.allComplete_iff.mp hcomplete
    have hitem (c : Ast) (hc : c ∈ caseItems) : c.clone = .ok c := by
      obtain ⟨patterns, body, action, rfl⟩ := items c hc
      have hbody := hall _ hc
      cases body with
      | none => simp [Ast.isComplete] at hbody
      | some body =>
        have hcopied : patterns.map Token.clone = patterns := hpatterns _ _ _ hc
        rw [Ast.clone, ih _ _ _ hc hbody, hcopied]
        rfl
    rw [Ast.clone, Ast.listClone_eq hitem, hword]
    rfl
  | @functionDef name body redirections _ _ htargets ih =>
    simp only [Ast.isComplete, Bool.and_eq_true, Option.any_eq_true, List.all_eq_true]
      at hcomplete
    obtain ⟨hbody, rs, hrs, hrcomplete⟩ := hcomplete
    obtain rfl : redirections = some rs := hrs
    rw [Ast.clone, ih hbody, Redirection.listClone_eq (htargets rs rfl) hrcomplete]
    rfl

/-- What a copy of a tree has to be: the tree again, without sharing a member that is freed with
it. -/
def Ast.CopiesExactly (t : Ast) : Prop :=
  t.clone = .ok t ∧ ∀ r ∈ t.redirections, r.SharesNothing

/-- A tree that `ast_lower` built is copied exactly if nothing is missing in it. -/
theorem astLower_copiesExactly_iff {root : Gnode} {t : Ast} (h : astLower root = .ok t) :
    t.CopiesExactly ↔ t.isComplete = true := by
  constructor
  · intro hcopy
    exact (Ast.succeeds_clone t).mp ⟨t, hcopy.1⟩
  · intro hcomplete
    have hlowered : t.Lowered := ((astLower_gives root).answer t h).2
    exact ⟨hlowered.clone_eq hcomplete, fun r _ => r.sharesNothing⟩

/-! ## Loops with and without words -/

/-- `for x; do a; done`, with the words after `in` between. -/
def forOverTokens (inWords : List Token) : List Token :=
  [.ofType .for_, .ofText "x"] ++ inWords ++
    [.ofType .semi, .ofType .do_, .ofText "a", .ofType .semi, .ofType .done]

/-- The tree that the parser makes of it. -/
def forOverRoot (inWords : List Token) : Gnode :=
  match Parser.parserParseProgram (forOverTokens inWords) with
  | .ok root _ => root
  | _ => .ofList .program []

/-- The tree that `ast_lower` makes of that. -/
def forOverTree (words : Option (List Token)) : Ast :=
  .commandList [.forClause "x" words (.commandList [.ofWords ["a"]] [.sequential])] [.end_]

/-- `for x in b; do a; done` is copied. -/
theorem forOverTree_copiesExactly : (forOverTree (some [.ofText "b"])).CopiesExactly :=
  (@astLower_copiesExactly_iff (forOverRoot [.ofType .in_, .ofText "b"]) _ rfl).mpr rfl

/-- `for x; do a; done` cannot be copied: its words are missing. -/
theorem forOverTree_breaks_contract :
    astLower (forOverRoot []) = .ok (forOverTree none) ∧
      (forOverTree none).clone = .error (.contract "other") ∧
      ¬ (forOverTree none).CopiesExactly := by
  refine ⟨rfl, rfl, fun h => ?_⟩
  cases h.1

end Migash
