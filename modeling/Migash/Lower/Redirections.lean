import Migash.Lower.Separators

/-! # Redirections

The redirections of a command stand in its prefix and its suffix, behind its
compound command or behind the body of its function. Those behind a compound
command are in the tree, but no lowerer reads them.
-/

namespace Migash

open Library Lower Migash.Parser

/-! ## The redirections of a command -/

mutual

/-- The redirections in a tree that are not inside a compound command. -/
def Gnode.ownRedirects : Gnode → List Gnode
  | .list _ _ nodes => Gnode.ownRedirectsAll nodes
  | .token .. | .ioHere .. => []
  | .pair _ _ left right => Gnode.ownRedirectsOpt left ++ Gnode.ownRedirectsOpt right
  | .child .compoundCommand _ _ => []
  | .child _ _ node => Gnode.ownRedirectsOpt node
  | .multi .ioRedirect payload a b c d => [.multi .ioRedirect payload a b c d]
  | .multi _ _ a b c d =>
    Gnode.ownRedirectsOpt a ++ Gnode.ownRedirectsOpt b ++ Gnode.ownRedirectsOpt c ++
      Gnode.ownRedirectsOpt d

/-- The redirections in some trees. -/
def Gnode.ownRedirectsAll : List Gnode → List Gnode
  | [] => []
  | node :: nodes => node.ownRedirects ++ Gnode.ownRedirectsAll nodes

/-- The redirections in a child that may be absent. -/
def Gnode.ownRedirectsOpt : Option Gnode → List Gnode
  | none => []
  | some node => node.ownRedirects

end

/-- The redirections of a node of the syntax tree. -/
def Ast.ownRedirections : Ast → List Redirection
  | simpleCommand _ redirections _ => redirections.getD []
  | functionDef _ _ redirections => redirections.getD []
  | redirectedCommand _ redirections => redirections
  | _ => []

/-- A compound command with a redirection list. -/
def Gnode.isRedirectedCompound : Gnode → Bool
  | .child .command _ (some (.multi .command _ _ (some _) _ _)) => true
  | _ => false

/-! ## What the parser builds -/

inductive IsIoRedirect : Gnode → Prop where
  | mk (payload : GnodePayload) (a b c d : Option Gnode) :
      IsIoRedirect (.multi .ioRedirect payload a b c d)

/-- A compound command. -/
inductive IsCompound : Gnode → Prop where
  | mk (payload : GnodePayload) (node : Gnode) : IsCompound (.child .compoundCommand payload (some node))

/-- A leaf of one of the types. -/
def IsLeaf (types : List GnodeType) (g : Gnode) : Prop :=
  ∃ type ∈ types, ∃ tok origin, g = .ofToken type tok origin

/-- An element of a simple command. -/
inductive CommandElement : Gnode → Prop where
  | head {inner : Gnode} (kind : IsIoRedirect inner ∨ IsLeaf [.assignmentWord] inner) :
      CommandElement (.ofChild .cmdPrefix inner)
  | name {g : Gnode} (leaf : IsLeaf [.cmdName] g) : CommandElement g
  | suffix {nodes : List Gnode} (kind : ∀ g ∈ nodes, IsIoRedirect g ∨ IsLeaf [.cmdWord] g) :
      CommandElement (.ofList .cmdSuffix nodes)

/-- The list of redirections behind a command. -/
inductive RedirectList : Gnode → Prop where
  | mk {nodes : List Gnode} (nonempty : nodes ≠ []) (kind : ∀ g ∈ nodes, IsIoRedirect g) :
      RedirectList (.ofList .redirectList nodes)

/-- The body of a function, with the redirections behind it or without. -/
inductive FunctionBody : Gnode → Prop where
  | plain {compound : Gnode} (kind : IsCompound compound) : FunctionBody compound
  | redirected {compound redirects : Gnode} (kind : IsCompound compound)
      (list : RedirectList redirects) :
      FunctionBody (.ofMulti .functionBody (some compound) (some redirects) none none)

/-- A command. -/
inductive CommandNode : Gnode → Prop where
  | function {fname lparen rparen body : Gnode} (name : IsLeaf [.fname] fname)
      (parens : IsLeaf [.wordNode] lparen ∧ IsLeaf [.wordNode] rparen) (kind : FunctionBody body) :
      CommandNode (commandNode
        (.ofMulti .functionDefinition (some fname) (some lparen) (some rparen) (some body)))
  | compound {compound : Gnode} (kind : IsCompound compound) : CommandNode (commandNode compound)
  | redirected {compound redirects : Gnode} (kind : IsCompound compound)
      (list : RedirectList redirects) :
      CommandNode (commandNode (.multi .command .multi (some compound) (some redirects) none none))
  | simple {nodes : List Gnode} (kind : ∀ g ∈ nodes, CommandElement g) :
      CommandNode (commandNode (.ofList .simpleCommand nodes))

namespace Parser

open Forward

theorem yields_takeLeaf (type : GnodeType) : Yields (IsLeaf [type]) (takeLeaf type) := by
  intro s g t h
  obtain ⟨tok, origin, rfl⟩ := takeLeaf_ok h
  exact ⟨type, List.mem_cons_self, tok, origin, rfl⟩

theorem yields_gparseIoRedirect : Yields IsIoRedirect gparseIoRedirect := by
  unfold gparseIoRedirect
  refine Yields.bind fun source => ?_
  refine Yields.bind fun target => ?_
  exact Yields.pure (.mk _ _ _ _ _)

theorem yields_matchHeredoc {node : Gnode} (h : IsIoRedirect node) :
    Yields IsIoRedirect (matchHeredoc node) := by
  unfold matchHeredoc
  split
  · refine Yields.bind fun _ => Yields.bind fun _ => Yields.bind fun tok => Yields.bind fun _ => ?_
    exact Yields.pure (.mk _ _ _ _ _)
  · exact Yields.pure h

/-- An attempt that adds what it parsed to a list, and otherwise ends the loop. -/
theorem yields_attemptAppend {P Q : Gnode → Prop} {m : Production Gnode} (hm : Yields P m)
    {nodes : List Gnode} {f : Gnode → Gnode} (hf : ∀ g, P g → Q (f g)) (hnodes : ∀ g ∈ nodes, Q g) :
    Yields (fun o => ∀ nodes' ∈ o, ∀ g ∈ nodes', Q g) (do
      match ← attempt m with
      | .ok next => return some (nodes ++ [f next])
      | .error _ => return none) := by
  refine Yields.bind_of (Yields.attempt hm) fun r hr => ?_
  cases r with
  | error e => exact Yields.pure (by simp)
  | ok next =>
    refine Yields.pure fun nodes' hnodes' => ?_
    cases hnodes'
    intro g hg
    rcases List.mem_append.mp hg with hg | hg
    · exact hnodes g hg
    · cases List.mem_singleton.mp hg
      exact hf next (hr next rfl)

theorem yields_gparseRedirectList : Yields RedirectList gparseRedirectList := by
  unfold gparseRedirectList
  refine Yields.bind_of yields_gparseIoRedirect fun redir hredir => ?_
  have hloop : Yields (fun nodes => nodes ≠ [] ∧ ∀ g ∈ nodes, IsIoRedirect g)
      (loop redirectListStep [redir]) := by
    refine Yields.loop (fun nodes hnodes => ?_) ⟨by simp, by simpa using hredir⟩
    unfold redirectListStep
    refine Yields.bind_of (Yields.attempt yields_gparseIoRedirect) fun r hr => ?_
    cases r with
    | error e => exact Yields.pure (by simp)
    | ok next =>
      refine Yields.pure fun nodes' hnodes' => ?_
      cases hnodes'
      refine ⟨by simp, ?_⟩
      intro g hg
      rcases List.mem_append.mp hg with hg | hg
      · exact hnodes.2 g hg
      · cases List.mem_singleton.mp hg
        exact hr next rfl
  refine Yields.bind_of hloop ?_
  rintro nodes ⟨hne, hkind⟩
  refine Yields.bind_of (Yields.forEach fun g hg => yields_matchHeredoc (hkind g hg)) ?_
  rintro nodes' ⟨hlength, hkind'⟩
  refine Yields.pure (.mk ?_ hkind')
  intro hnil
  rw [hnil, List.length_nil] at hlength
  exact hne (List.length_eq_zero_iff.mp hlength.symm)

theorem yields_cmdPrefix : Yields (fun nodes => ∀ g ∈ nodes, CommandElement g)
    (loop cmdPrefixStep []) := by
  refine Yields.loop (fun nodes hnodes => ?_) (by simp)
  unfold cmdPrefixStep
  refine Yields.bind fun type => Yields.ite (fun _ => ?_) fun _ => Yields.ite (fun _ => ?_) fun _ => ?_
  · exact yields_attemptAppend yields_gparseIoRedirect (fun g hg => .head (.inl hg)) hnodes
  · refine Yields.bind_of (yields_takeLeaf .assignmentWord) fun leaf hleaf => ?_
    refine Yields.pure fun nodes' hnodes' => ?_
    cases hnodes'
    intro g hg
    rcases List.mem_append.mp hg with hg | hg
    · exact hnodes g hg
    · cases List.mem_singleton.mp hg
      exact .head (.inr hleaf)
  · exact Yields.pure (by simp)

theorem yields_cmdSuffix :
    Yields (fun nodes => ∀ g ∈ nodes, IsIoRedirect g ∨ IsLeaf [.cmdWord] g)
      (loop cmdSuffixStep []) := by
  refine Yields.loop (fun nodes hnodes => ?_) (by simp)
  unfold cmdSuffixStep
  refine Yields.bind fun type => Yields.ite (fun _ => ?_) fun _ =>
    Yields.bind fun atWord => Yields.ite (fun _ => ?_) fun _ => ?_
  · exact yields_attemptAppend yields_gparseIoRedirect (f := id) (fun g hg => .inl hg) hnodes
  · refine Yields.bind_of (yields_takeLeaf .cmdWord) fun leaf hleaf => ?_
    refine Yields.pure fun nodes' hnodes' => ?_
    cases hnodes'
    intro g hg
    rcases List.mem_append.mp hg with hg | hg
    · exact hnodes g hg
    · cases List.mem_singleton.mp hg
      exact .inr hleaf
  · exact Yields.pure (by simp)

theorem yields_gparseCmdName : Yields (fun o => ∀ g ∈ o, IsLeaf [.cmdName] g) gparseCmdName := by
  unfold gparseCmdName
  refine Yields.bind fun atWord => Yields.ite (fun _ => ?_) fun _ => Yields.pure (by simp)
  refine Yields.bind_of (yields_takeLeaf .cmdName) fun leaf hleaf => ?_
  exact Yields.pure (by simpa using hleaf)

theorem yields_matchHeredocsInItem {g : Gnode} (h : CommandElement g) :
    Yields CommandElement (matchHeredocsInItem g) := by
  cases h with
  | @head inner kind =>
    change Yields CommandElement (do
      return Gnode.ofChild .cmdPrefix (← matchHeredoc inner))
    rcases kind with hredirect | hleaf
    · refine Yields.bind_of (yields_matchHeredoc hredirect) fun redirect hredirect' => ?_
      exact Yields.pure (.head (.inl hredirect'))
    · obtain ⟨type, htype, tok, origin, rfl⟩ := hleaf
      exact Yields.pure (.head (.inr ⟨type, htype, tok, origin, rfl⟩))
  | name leaf =>
    obtain ⟨type, htype, tok, origin, rfl⟩ := leaf
    exact Yields.pure (.name ⟨type, htype, tok, origin, rfl⟩)
  | @suffix nodes kind =>
    change Yields CommandElement (do
      return Gnode.ofList .cmdSuffix (← forEach matchHeredoc nodes))
    have heach : ∀ g ∈ nodes, Yields (fun g => IsIoRedirect g ∨ IsLeaf [.cmdWord] g)
        (matchHeredoc g) := by
      intro g hg
      rcases kind g hg with hredirect | hleaf
      · intro s g' t hrun
        exact .inl (yields_matchHeredoc hredirect s g' t hrun)
      · obtain ⟨type, htype, tok, origin, rfl⟩ := hleaf
        exact Yields.pure (.inr ⟨type, htype, tok, origin, rfl⟩)
    refine Yields.bind_of (Yields.forEach heach) ?_
    rintro nodes' ⟨-, hkind⟩
    exact Yields.pure (.suffix hkind)

theorem yields_gparseSimpleCommand :
    Yields (fun g => ∃ nodes, g = .ofList .simpleCommand nodes ∧ ∀ g ∈ nodes, CommandElement g)
      gparseSimpleCommand := by
  unfold gparseSimpleCommand
  refine Yields.bind_of yields_cmdPrefix fun heads hheads => ?_
  refine Yields.bind_of yields_gparseCmdName fun name hname => ?_
  refine Yields.bind_of yields_cmdSuffix fun suffixes hsuffixes => Yields.ite (fun _ => ?_) fun _ => ?_
  · refine Yields.bind fun type => Yields.ite (fun _ => ?_) fun _ => ?_ <;> exact Yields.failure _
  · refine Yields.bind_of (Yields.forEach fun g hg => yields_matchHeredocsInItem ?_) ?_
    · rcases List.mem_append.mp hg with hg | hg
      · rcases List.mem_append.mp hg with hg | hg
        · exact hheads g hg
        · exact .name (hname g (by simpa using hg))
      · split_ifs at hg
        · cases hg
        · cases List.mem_singleton.mp hg
          exact .suffix hsuffixes
    · rintro nodes ⟨-, hnodes⟩
      exact Yields.pure ⟨nodes, rfl, hnodes⟩

theorem yields_gparseCompoundCommand (m : Production Gnode) :
    Yields IsCompound (gparseCompoundCommand m) := by
  unfold gparseCompoundCommand
  refine Yields.bind fun _ => Yields.bind fun _ => Yields.bind fun type => Yields.bind fun child => ?_
  exact Yields.pure (.mk _ child)

theorem yields_gparseFunctionBody (m : Production Gnode) :
    Yields FunctionBody (gparseFunctionBody m) := by
  unfold gparseFunctionBody
  refine Yields.bind_of (Yields.attempt (yields_gparseCompoundCommand m)) fun r hr => ?_
  cases r with
  | ok compound =>
    have hcompound : IsCompound compound := hr compound rfl
    refine Yields.bind_of (Yields.attempt yields_gparseRedirectList) fun r hr => ?_
    cases r with
    | ok redirects => exact Yields.pure (.redirected hcompound (hr redirects rfl))
    | error e => exact Yields.pure (.plain hcompound)
  | error e =>
    cases e with
    | error => exact Yields.bind fun _ => Yields.failure _
    | incomplete => exact Yields.failure _
    | empty => exact Yields.failure _

theorem yields_gparseFunctionDefinition (m : Production Gnode) :
    Yields (fun g => CommandNode (commandNode g)) (gparseFunctionDefinition m) := by
  unfold gparseFunctionDefinition
  refine Yields.bind fun _ => Yields.bind fun _ => Yields.bind fun _ => ?_
  refine Yields.bind_of (yields_takeLeaf .fname) fun fname hfname => ?_
  refine Yields.bind_of (yields_takeLeaf .wordNode) fun lparen hlparen => Yields.bind fun _ => ?_
  refine Yields.bind_of (yields_takeLeaf .wordNode) fun rparen hrparen => ?_
  refine Yields.bind fun _ => Yields.bind fun _ => ?_
  refine Yields.bind_of (yields_gparseFunctionBody m) fun body hbody => ?_
  exact Yields.pure (.function hfname ⟨hlparen, hrparen⟩ hbody)

theorem yields_gparseRedirectedCompound (m : Production Gnode) :
    Yields CommandNode (gparseRedirectedCompound m) := by
  unfold gparseRedirectedCompound
  refine Yields.bind_of (yields_gparseCompoundCommand m) fun compound hcompound => ?_
  refine Yields.bind_of (Yields.attempt yields_gparseRedirectList) fun r hr => ?_
  cases r with
  | ok redirects => exact Yields.pure (.redirected hcompound (hr redirects rfl))
  | error e => exact Yields.pure (.compound hcompound)

theorem yields_gparseCommand (m : Production Gnode) : Yields CommandNode (gparseCommand m) := by
  unfold gparseCommand
  refine Yields.bind_of (Yields.attempt (yields_gparseFunctionDefinition m)) fun r hr => ?_
  have hrest : Yields CommandNode (gparseCompoundOrSimple m) := by
    refine Yields.bind_of (Yields.attempt (yields_gparseRedirectedCompound m)) fun r hr => ?_
    cases r with
    | ok node => exact Yields.pure (hr node rfl)
    | error e =>
      have hsimple : Yields CommandNode (commandNode <$> gparseSimpleCommand) := by
        refine Yields.bind_of yields_gparseSimpleCommand ?_
        rintro g ⟨nodes, rfl, hnodes⟩
        exact Yields.pure (.simple hnodes)
      cases e with
      | incomplete => exact Yields.failure _
      | error => exact hsimple
      | empty => exact hsimple
  cases r with
  | ok func => exact Yields.pure (hr func rfl)
  | error e =>
    cases e with
    | incomplete => exact Yields.failure _
    | error => exact hrest
    | empty => exact hrest

end Parser

/-! ## What lowering reads -/

theorem IsIoRedirect.ownRedirects {g : Gnode} (h : IsIoRedirect g) : g.ownRedirects = [g] := by
  cases h
  rfl

theorem IsLeaf.ownRedirects {types : List GnodeType} {g : Gnode} (h : IsLeaf types g) :
    g.ownRedirects = [] := by
  obtain ⟨type, -, tok, origin, rfl⟩ := h
  rfl

theorem IsCompound.ownRedirects {g : Gnode} (h : IsCompound g) : g.ownRedirects = [] := by
  cases h
  rfl

theorem ownRedirectsAll_eq {nodes : List Gnode} (h : ∀ g ∈ nodes, IsIoRedirect g) :
    Gnode.ownRedirectsAll nodes = nodes := by
  induction nodes with
  | nil => rfl
  | cons g nodes ih =>
    rw [Gnode.ownRedirectsAll, (h g List.mem_cons_self).ownRedirects,
      ih fun g' hg' => h g' (List.mem_cons_of_mem g hg')]
    rfl

/-- The parts `p'` are `p` with the redirections of the nodes. -/
structure Adds (nodes : List Gnode) (p p' : SimpleParts) : Prop where
  split : ∃ rs, nodes.mapM lowerIoRedirect = .ok rs ∧
    p'.redirections = p.redirections ++ rs

theorem Adds.nil {p p' : SimpleParts} (h : p'.redirections = p.redirections) : Adds [] p p' :=
  ⟨[], rfl, by simpa using h⟩

theorem Adds.redirection {g : Gnode} {p : SimpleParts} {r : Redirection}
    (h : lowerIoRedirect g = .ok r) : Adds [g] p (p.addRedirection r) := by
  refine ⟨[r], ?_, rfl⟩
  rw [List.mapM_cons, h]
  rfl

theorem Adds.append {nodes nodes' : List Gnode} {p p' p'' : SimpleParts} (h : Adds nodes p p')
    (h' : Adds nodes' p' p'') : Adds (nodes ++ nodes') p p'' := by
  obtain ⟨rs, hrs, hp⟩ := h.split
  obtain ⟨rs', hrs', hp'⟩ := h'.split
  refine ⟨rs ++ rs', ?_, by rw [hp', hp, List.append_assoc]⟩
  rw [List.mapM_append, hrs, hrs']
  rfl

theorem plainElem_redirect {g : Gnode} (h : IsIoRedirect g) {p p' : SimpleParts}
    (hp : p.plainElem g = .ok p') : Adds g.ownRedirects p p' := by
  rw [h.ownRedirects]
  cases h with
  | mk payload a b c d =>
    obtain ⟨r, hr, rfl⟩ := except_map_eq_ok.mp hp
    exact .redirection hr

theorem suffixElem_adds {g : Gnode} (h : IsIoRedirect g ∨ IsLeaf [.cmdWord] g)
    {p p' : SimpleParts} (hp : p.suffixElem g = .ok p') : Adds g.ownRedirects p p' := by
  rcases h with hredirect | hleaf
  · rw [hredirect.ownRedirects]
    cases hredirect with
    | mk payload a b c d =>
      obtain ⟨r, hr, rfl⟩ := except_map_eq_ok.mp hp
      exact .redirection hr
  · rw [hleaf.ownRedirects]
    obtain ⟨type, htype, tok, origin, rfl⟩ := hleaf
    cases List.mem_singleton.mp htype
    cases hp
    exact .nil rfl

/-- Elements one after the other add what each of them adds. -/
theorem foldlM_adds {f : SimpleParts → Gnode → Lowering SimpleParts} {nodes : List Gnode}
    (hf : ∀ g ∈ nodes, ∀ p p', f p g = .ok p' → Adds g.ownRedirects p p') {p p' : SimpleParts}
    (h : nodes.foldlM f p = .ok p') : Adds (Gnode.ownRedirectsAll nodes) p p' := by
  induction nodes generalizing p with
  | nil =>
    cases h
    exact .nil rfl
  | cons g nodes ih =>
    rw [List.foldlM_cons] at h
    obtain ⟨q, hq, hrest⟩ := except_bind_eq_ok.mp h
    have hhead := hf g List.mem_cons_self p q hq
    exact hhead.append (ih (fun g' hg' => hf g' (List.mem_cons_of_mem g hg')) hrest)

theorem elem_adds {g : Gnode} (h : CommandElement g) {p p' : SimpleParts}
    (hp : p.elem g = .ok p') : Adds g.ownRedirects p p' := by
  cases h with
  | @head inner kind =>
    have hp' : p.plainElem inner = .ok p' := hp
    change Adds inner.ownRedirects p p'
    rcases kind with hredirect | hleaf
    · exact plainElem_redirect hredirect hp'
    · rw [hleaf.ownRedirects]
      obtain ⟨type, htype, tok, origin, rfl⟩ := hleaf
      cases List.mem_singleton.mp htype
      cases hp'
      exact .nil rfl
  | name leaf =>
    rw [leaf.ownRedirects]
    obtain ⟨type, htype, tok, origin, rfl⟩ := leaf
    cases List.mem_singleton.mp htype
    cases hp
    exact .nil rfl
  | @suffix nodes kind =>
    exact foldlM_adds (fun g hg p p' => suffixElem_adds (kind g hg)) hp

theorem lowerSimpleCommand_redirections {nodes : List Gnode} {t : Ast}
    (hnodes : ∀ g ∈ nodes, CommandElement g)
    (h : lowerSimpleCommand (.ofList .simpleCommand nodes) = .ok t) :
    (Gnode.ownRedirectsAll nodes).mapM lowerIoRedirect = .ok t.ownRedirections := by
  change (do
    let parts ← nodes.foldlM SimpleParts.elem {}
    return Ast.simpleCommand (some parts.words) (some parts.redirections)
      (some parts.assignments)) = .ok t at h
  obtain ⟨parts, hparts, hpure⟩ := except_bind_eq_ok.mp h
  cases hpure
  obtain ⟨rs, hrs, hsplit⟩ :=
    (foldlM_adds (fun g hg p p' => elem_adds (hnodes g hg)) hparts).split
  rw [hrs]
  simp [Ast.ownRedirections, hsplit]

/-- No lowered compound command holds redirections. -/
theorem lowerCompoundCommand_redirections {below : Lowerers}
    (hbelow : ∀ g, Gives (fun t => t.ownRedirections = []) (below.compoundCommand g)) (g : Gnode) :
    Gives (fun t => t.ownRedirections = []) (lowerCompoundCommand below g) := by
  unfold lowerCompoundCommand
  split
  · exact Gives.andThen fun m => Gives.andThen fun body => Gives.pure rfl
  · apply Gives.andThen
    intro m
    split
    · exact Gives.pure rfl
    · exact Gives.andThen fun body => Gives.pure rfl
  · exact Gives.andThen fun m => Gives.andThen fun name => Gives.andThen fun tok =>
      Gives.andThen fun words => Gives.andThen fun body => Gives.pure rfl
  · exact Gives.andThen fun m => Gives.andThen fun parts => Gives.andThen fun word =>
      Gives.andThen fun tok => Gives.andThen fun items => Gives.pure rfl
  · exact Gives.andThen fun m => Gives.andThen fun g' => Gives.andThen fun inner =>
      Gives.andThen fun condition => Gives.andThen fun thenBody => Gives.andThen fun elseBody =>
        Gives.pure rfl
  · exact Gives.andThen fun m => Gives.andThen fun condition => Gives.andThen fun body =>
      Gives.pure rfl
  · exact Gives.andThen fun m => Gives.andThen fun condition => Gives.andThen fun body =>
      Gives.pure rfl
  · exact Gives.andThen fun m => Gives.andThen fun g' => hbelow g'
  · exact Gives.error

theorem lowerers_compoundCommand_redirections (n : ℕ) (g : Gnode) :
    Gives (fun t => t.ownRedirections = []) ((lowerers n).compoundCommand g) := by
  induction n generalizing g with
  | zero => exact Gives.error
  | succ n ih => exact lowerCompoundCommand_redirections ih g

theorem IsCompound.lowerCommand {below : Lowerers} {g : Gnode} (h : IsCompound g) {t : Ast}
    (ht : lowerCommand below (commandNode g) = .ok t) : below.compoundCommand g = .ok t := by
  cases h
  exact ht

theorem FunctionBody.redirections {below : Lowerers} {fname lparen rparen body : Gnode} {t : Ast}
    (h : FunctionBody body)
    (ht : lowerFunctionDefinition below
      (.ofMulti .functionDefinition (some fname) (some lparen) (some rparen) (some body)) = .ok t) :
    body.ownRedirects.mapM lowerIoRedirect = .ok t.ownRedirections := by
  obtain ⟨m, hm, ht⟩ := except_bind_eq_ok.mp ht
  obtain ⟨name, -, ht⟩ := except_bind_eq_ok.mp ht
  obtain ⟨tok, -, ht⟩ := except_bind_eq_ok.mp ht
  obtain ⟨gbody, hgbody, ht⟩ := except_bind_eq_ok.mp ht
  cases hm
  cases hgbody
  cases h with
  | plain kind =>
    rw [kind.ownRedirects]
    cases kind with
    | mk payload node =>
      obtain ⟨cmd, -, hpure⟩ := except_bind_eq_ok.mp ht
      cases hpure
      rfl
  | @redirected compound redirects kind list =>
    cases list with
    | @mk nodes hne hkind =>
      have hown : (Gnode.ofMulti .functionBody (some compound)
          (some (.ofList .redirectList nodes)) none none).ownRedirects = nodes := by
        change compound.ownRedirects ++ Gnode.ownRedirectsAll nodes ++ [] ++ [] = nodes
        rw [kind.ownRedirects, ownRedirectsAll_eq hkind]
        simp
      rw [hown]
      obtain ⟨inner, hinner, ht⟩ := except_bind_eq_ok.mp ht
      obtain ⟨compound', -, ht⟩ := except_bind_eq_ok.mp ht
      obtain ⟨cmd, -, ht⟩ := except_bind_eq_ok.mp ht
      obtain ⟨redirs, hredirs, hpure⟩ := except_bind_eq_ok.mp ht
      cases hinner
      cases hpure
      obtain ⟨rs, hrs, rfl⟩ := except_map_eq_ok.mp hredirs
      exact hrs

/-! ## Every command -/

/-- The node has the redirections of the command and no others, in their order. -/
def KeepsRedirections (g : Gnode) (t : Ast) : Prop :=
  g.ownRedirects.mapM lowerIoRedirect = .ok t.ownRedirections

/-- The redirections of a command, at any level of any program, are those of the node that it is
lowered to exactly if it is not a compound command with a redirection list. -/
theorem keepsRedirections_iff {s s' : Parser} {g : Gnode} {n : ℕ} {t : Ast}
    (hparse : (gparseCommand gparseCompoundList).run s = .ok g s')
    (hlower : lowerCommand (lowerers n) g = .ok t) :
    KeepsRedirections g t ↔ g.isRedirectedCompound = false := by
  unfold KeepsRedirections
  cases yields_gparseCommand _ s g s' hparse with
  | @function fname lparen rparen body name parens kind =>
    have hown : (commandNode (.ofMulti .functionDefinition (some fname) (some lparen)
        (some rparen) (some body))).ownRedirects = body.ownRedirects := by
      change fname.ownRedirects ++ lparen.ownRedirects ++ rparen.ownRedirects ++
        body.ownRedirects = body.ownRedirects
      rw [name.ownRedirects, parens.1.ownRedirects, parens.2.ownRedirects]
      rfl
    rw [hown]
    exact iff_of_true (kind.redirections hlower) rfl
  | @compound compound kind =>
    have hown : (commandNode compound).ownRedirects = [] := kind.ownRedirects
    have hnone := (lowerers_compoundCommand_redirections n compound).answer t
      (kind.lowerCommand hlower)
    rw [hown, hnone]
    refine iff_of_true rfl ?_
    cases kind
    rfl
  | @redirected compound redirects kind list =>
    cases list with
    | @mk nodes hne hkind =>
      have hown : (commandNode (.multi .command .multi (some compound)
          (some (.ofList .redirectList nodes)) none none)).ownRedirects = nodes := by
        change compound.ownRedirects ++ Gnode.ownRedirectsAll nodes ++ [] ++ [] = nodes
        rw [kind.ownRedirects, ownRedirectsAll_eq hkind]
        simp
      have hnone : t.ownRedirections = [] := by
        cases n with
        | zero => cases hlower
        | succ n =>
          cases kind
          exact (lowerers_compoundCommand_redirections n _).answer t hlower
      rw [hown, hnone]
      refine iff_of_false ?_ (by simp [commandNode, Gnode.isRedirectedCompound])
      intro hmap
      cases list_mapM_eq_ok.mp hmap
      exact hne rfl
  | simple kind =>
    refine iff_of_true ?_ rfl
    exact lowerSimpleCommand_redirections kind hlower

/-! ## Two commands -/

/-- `{ a; } > f` and `a > f`. -/
def redirectedTokens (braces : Bool) : List Token :=
  (if braces then [.ofText "\x7b", .ofText "a", .ofType .semi, .ofText "\x7d"] else [.ofText "a"]) ++
    [.ofType .greater, .ofText "f"]

/-- The command that the parser makes of it. -/
def redirectedNode (braces : Bool) : Gnode :=
  match (gparseCommand gparseCompoundList).run (create (redirectedTokens braces)) with
  | .ok g _ => g
  | _ => .ofList .list []

/-- The redirection of `a > f` is kept. -/
theorem keepsRedirections_simple :
    ∃ t, lowerCommand (lowerers 2) (redirectedNode false) = .ok t ∧ t.ownRedirections ≠ [] ∧
      KeepsRedirections (redirectedNode false) t := by
  obtain ⟨s', hparse⟩ : ∃ s', (gparseCommand gparseCompoundList).run
      (create (redirectedTokens false)) = .ok (redirectedNode false) s' := ⟨_, rfl⟩
  refine ⟨_, rfl, by decide, (keepsRedirections_iff (n := 2) hparse rfl).mpr rfl⟩

/-- The redirection of `{ a; } > f` is lost. -/
theorem braceGroup_loses_redirection :
    (∃ root s, parserParseProgram (redirectedTokens true) = .ok root s ∧
      astLower root = .ok (.commandList [.braceGroup
        (.commandList [.ofWords ["a"]] [.sequential])] [.end_])) ∧
    ∃ s' t, (gparseCommand gparseCompoundList).run (create (redirectedTokens true)) =
        .ok (redirectedNode true) s' ∧
      lowerCommand (lowerers 6) (redirectedNode true) = .ok t ∧
      ¬ KeepsRedirections (redirectedNode true) t := by
  refine ⟨⟨_, _, rfl, rfl⟩, _, _, rfl, rfl, ?_⟩
  intro hkeeps
  cases hkeeps

end Migash
