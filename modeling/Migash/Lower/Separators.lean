import Migash.Lower.Shape
import Migash.Parser.CaseItems

/-! # Separators

An and-or list ends with `&`, with `;`, with a newline or with nothing. Complete
commands and compound lists go through different productions and different
lowerers, which do not agree on what they keep of that.
-/

namespace Migash

open Library Lower Migash.Parser

/-! ## The terminators of the source -/

/-- How the source ends an and-or list. -/
inductive Terminator where
  | amper | semi | newline | none
  deriving DecidableEq, Repr

/-- The separator that it stands for. -/
def Terminator.separator : Terminator → CmdSeparator
  | .amper => .background
  | .semi | .newline => .sequential
  | .none => .end_

/-- The terminator that an operator stands for. -/
def operatorTerminator (tok : Token) : Terminator := if tok.type = .amper then .amper else .semi

namespace Gnode

/-- The terminator that a separator node stands for. -/
def terminator : Gnode → Terminator
  | .token .separatorOp _ tok _ => operatorTerminator tok
  | .child .separator _ (some (.token .separatorOp _ tok _)) => operatorTerminator tok
  | .child .separator _ (some (.list .newlineList _ _)) => .newline
  | _ => .none

/-- The terminators of the elements of a list; that of the last element stands outside it. -/
def elementTerminators (last : Terminator) : List Gnode → List Terminator
  | [] => []
  | [_] => [last]
  | _ :: sep :: rest => sep.terminator :: elementTerminators last rest

/-- The terminator of the last element, and whether a newline is the next token. -/
def lastTerminator (sep : Option Gnode) (newline : Bool) : Terminator :=
  match sep with
  | some sep => sep.terminator
  | none => if newline then .newline else .none

/-- The terminators of the and-or lists of a complete command, which a newline follows or not, or
of a compound list, whose separator takes the newlines. -/
def terminators (newline : Bool) : Gnode → List Terminator
  | .multi .completeCommand _ (some (.list .list _ nodes)) sep _ _ =>
    elementTerminators (lastTerminator sep newline) nodes
  | .pair .compoundList _ (some (.list .term _ nodes)) sep =>
    elementTerminators (lastTerminator sep false) nodes
  | _ => []

end Gnode

/-! ## What the parser builds -/

/-- `&` or `;`. -/
inductive IsSeparatorOp : Gnode → Prop where
  | mk (payload : GnodePayload) {tok : Token} (origin : ℕ)
      (type : tok.type = .amper ∨ tok.type = .semi) :
      IsSeparatorOp (.token .separatorOp payload tok origin)

/-- `&` or `;` with the newlines after it, or newlines alone. -/
inductive IsSeparator : Gnode → Prop where
  | op (payload : GnodePayload) {inner : Gnode} (isOp : IsSeparatorOp inner) :
      IsSeparator (.child .separator payload (some inner))
  | newlines (payload payload' : GnodePayload) (nodes : List Gnode) :
      IsSeparator (.child .separator payload (some (.list .newlineList payload' nodes)))

theorem IsSeparatorOp.type {g : Gnode} (h : IsSeparatorOp g) : g.type = .separatorOp := by
  cases h
  rfl

theorem IsSeparator.type {g : Gnode} (h : IsSeparator g) : g.type = .separator := by
  cases h <;> rfl

/-- Separators, each with the element after it. -/
def Gnode.flatten (rest : List (Gnode × Gnode)) : List Gnode := rest.flatMap fun p => [p.1, p.2]

/-- Elements with a separator between any two of them. -/
structure Alternates (P : Gnode → Prop) (nodes : List Gnode) : Prop where
  split : ∃ first, ∃ rest : List (Gnode × Gnode),
    nodes = first :: Gnode.flatten rest ∧ ∀ p ∈ rest, P p.1

theorem Alternates.single {P : Gnode → Prop} (first : Gnode) : Alternates P [first] :=
  ⟨first, [], rfl, by simp⟩

theorem Alternates.append {P : Gnode → Prop} {nodes : List Gnode} (h : Alternates P nodes)
    {sep : Gnode} (hsep : P sep) (next : Gnode) : Alternates P (nodes ++ [sep, next]) := by
  obtain ⟨first, rest, rfl, hrest⟩ := h.split
  refine ⟨first, rest ++ [(sep, next)], by simp [Gnode.flatten], ?_⟩
  intro p hp
  rcases List.mem_append.mp hp with hp | hp
  · exact hrest p hp
  · cases List.mem_singleton.mp hp
    exact hsep

namespace Parser

open Forward

theorem currentToken?_of_type {s : Parser} {tok : Token} (h : s.currentToken? = some tok) :
    s.currentTokenType = tok.type := by
  simp [currentTokenType, h]

/-- A leaf is the current token. -/
theorem takeLeaf_current {type : GnodeType} {s t : Parser} {g : Gnode}
    (h : (takeLeaf type).run s = .ok g t) :
    ∃ tok, s.currentTokenType = tok.type ∧ g = .ofToken type tok s.position := by
  cases hc : s.currentToken? with
  | none => simp [takeLeaf, cloneToken, hc] at h
  | some tok =>
    rw [run_takeLeaf hc] at h
    cases h
    exact ⟨tok, currentToken?_of_type hc, rfl⟩

theorem yields_gparseSeparatorOp : Yields IsSeparatorOp gparseSeparatorOp := by
  intro s g t h
  unfold gparseSeparatorOp at h
  rw [run_bind, run_requireOneOf] at h
  split_ifs at h with htype
  · obtain ⟨tok, htok, rfl⟩ := takeLeaf_current h
    exact .mk _ _ (by simpa [← htok] using htype)
  · cases h

theorem yields_gparseSeparator : Yields IsSeparator gparseSeparator := by
  intro s g t h
  unfold gparseSeparator at h
  rw [run_bind, run_tokenType, Reply.bind_ok] at h
  split_ifs at h with hop hnewline
  · simp only [run_bind, Reply.bind_eq_ok] at h
    obtain ⟨op, u, hleaf, _, v, -, hpure⟩ := h
    cases hpure
    obtain ⟨tok, htok, rfl⟩ := takeLeaf_current hleaf
    exact .op _ (.mk _ _ (htok ▸ hop))
  · simp only [run_bind, Reply.bind_eq_ok] at h
    obtain ⟨nodes, u, -, hpure⟩ := h
    cases hpure
    exact .newlines _ _ nodes
  · cases h

/-- The turn of both list loops: a separator and the and-or list after it, or neither. -/
theorem yields_listTurn {P : Gnode → Prop} {sepOf : Production Gnode} (h : Yields P sepOf)
    (next : Production Gnode) {nodes : List Gnode} (hnodes : Alternates P nodes) :
    Yields (fun o => ∀ nodes' ∈ o, Alternates P nodes') (do
      match ← orRewind (do
          let sep ← sepOf
          let next ← next
          return [sep, next]) with
      | some more => return some (nodes ++ more)
      | none => return none) := by
  have hmore : Yields (fun more => ∃ sep next, P sep ∧ more = [sep, next]) (do
      let sep ← sepOf
      let next ← next
      return [sep, next]) := by
    refine Yields.bind_of h fun sep hsep => Yields.bind fun next => ?_
    exact Yields.pure ⟨sep, next, hsep, rfl⟩
  refine Yields.bind_of (Yields.orBack hmore) fun o ho => ?_
  cases o with
  | none => exact Yields.pure (by simp)
  | some more =>
    obtain ⟨sep, next, hsep, rfl⟩ := ho more rfl
    refine Yields.pure fun nodes' hnodes' => ?_
    cases hnodes'
    exact hnodes.append hsep next

/-- A term, whose separators may be newlines. -/
theorem yields_gparseTerm (m : Production Gnode) :
    Yields (fun g => ∃ nodes, g = .ofList .term nodes ∧ Alternates IsSeparator nodes)
      (gparseTerm m) := by
  unfold gparseTerm
  refine Yields.bind fun first => ?_
  have hloop := Yields.loop (fun _ h => yields_listTurn yields_gparseSeparator (gparseAndOr m) h)
    (.single first)
  refine Yields.bind_of hloop fun nodes hnodes => ?_
  exact Yields.pure ⟨nodes, rfl, hnodes⟩

/-- A list, whose separators are operators. -/
theorem yields_gparseList (m : Production Gnode) :
    Yields (fun g => ∃ nodes, g = .ofList .list nodes ∧ Alternates IsSeparatorOp nodes)
      (gparseList m) := by
  unfold gparseList
  refine Yields.bind fun first => ?_
  have hloop := Yields.loop (fun _ h => yields_listTurn yields_gparseSeparatorOp (gparseAndOr m) h)
    (.single first)
  refine Yields.bind_of hloop fun nodes hnodes => ?_
  exact Yields.pure ⟨nodes, rfl, hnodes⟩

/-- The node of a compound list. -/
inductive CompoundListNode : Gnode → Prop where
  | mk {nodes : List Gnode} {sep : Option Gnode} (nodesAlternate : Alternates IsSeparator nodes)
      (last : ∀ g ∈ sep, IsSeparator g) :
      CompoundListNode (.ofPair .compoundList (some (.ofList .term nodes)) sep)

/-- The node of a complete command. -/
inductive CompleteCommandNode : Gnode → Prop where
  | mk {nodes : List Gnode} {sep : Option Gnode} (nodesAlternate : Alternates IsSeparatorOp nodes)
      (last : ∀ g ∈ sep, IsSeparatorOp g) :
      CompleteCommandNode (.ofMulti .completeCommand (some (.ofList .list nodes)) sep none none)

theorem gparseCompoundList_node : Yields CompoundListNode gparseCompoundList := by
  have hbody (m : Production Gnode) : Yields CompoundListNode (compoundListBody m) := by
    unfold compoundListBody
    refine Yields.bind fun _ => Yields.bind_of (yields_gparseTerm m) ?_
    rintro term ⟨nodes, rfl, hnodes⟩
    refine Yields.bind_of (Yields.attempt yields_gparseSeparator) fun sep hsep => ?_
    exact Yields.pure (.mk hnodes hsep)
  intro s g t h
  exact hbody (gparseCompoundListFor (remaining s)) s g t h

theorem gparseCompleteCommand_node (m : Production Gnode) :
    Yields CompleteCommandNode (gparseCompleteCommand m) := by
  unfold gparseCompleteCommand
  refine Yields.bind_of (yields_gparseList m) ?_
  rintro list ⟨nodes, rfl, hnodes⟩
  refine Yields.bind_of (Yields.attempt yields_gparseSeparatorOp) fun sep hsep => ?_
  exact Yields.pure (.mk hnodes hsep)

end Parser

/-! ## What lowering keeps -/

theorem elementTerminators_flatMap (last : Terminator) (first : Gnode)
    (rest : List (Gnode × Gnode)) :
    Gnode.elementTerminators last (first :: Gnode.flatten rest) =
      rest.map (fun p => p.1.terminator) ++ [last] := by
  induction rest generalizing first with
  | nil => rfl
  | cons p rest ih =>
    simpa [Gnode.elementTerminators, Gnode.flatten] using ih p.2

/-- Elements with separators between them become items with those separators, and the end. -/
theorem lowerItems_separators {below : Lowerers} {sepType : GnodeType}
    {sepOf : Gnode → Lowering CmdSeparator} (kind : Gnode → CmdSeparator) {first : Gnode}
    {rest : List (Gnode × Gnode)} {cl : CommandList} (htype : ∀ p ∈ rest, p.1.type = sepType)
    (hsep : ∀ p ∈ rest, sepOf p.1 = .ok (kind p.1))
    (h : lowerItems below sepType sepOf (first :: Gnode.flatten rest) = .ok cl) :
    cl.separators = rest.map (fun p => kind p.1) ++ [.end_] := by
  induction rest generalizing first cl with
  | nil =>
    obtain ⟨node, -, hpure⟩ := except_bind_eq_ok.mp h
    cases hpure
    rfl
  | cons p rest ih =>
    have htype' := htype p List.mem_cons_self
    have hsep' := hsep p List.mem_cons_self
    simp only [Gnode.flatten, List.flatMap_cons, List.cons_append, List.nil_append, lowerItems,
      htype', hsep', if_true] at h
    obtain ⟨node, -, h⟩ := except_bind_eq_ok.mp h
    obtain ⟨sep, hok, h⟩ := except_bind_eq_ok.mp h
    obtain ⟨cl', hcl', hpure⟩ := except_bind_eq_ok.mp h
    cases hok
    cases hpure
    have hcl := ih (fun q hq => htype q (List.mem_cons_of_mem p hq))
      (fun q hq => hsep q (List.mem_cons_of_mem p hq)) hcl'
    simp [CommandList.cons, hcl]

theorem compoundListSeparator_eq {g : Gnode} (h : IsSeparator g) :
    compoundListSeparator g = .ok g.terminator.separator := by
  cases h with
  | op payload hop =>
    cases hop with
    | mk payload' origin htype =>
      rcases htype with htype | htype <;>
        simp [compoundListSeparator, Gnode.type, Gnode.multi?, Gnode.token?, deref, finalSeparator,
          Gnode.terminator, operatorTerminator, Terminator.separator, htype, bind, Except.bind]
  | newlines payload payload' nodes => rfl

theorem completeCommandSeparator_eq {g : Gnode} (h : IsSeparatorOp g) :
    completeCommandSeparator g = .ok g.terminator.separator := by
  cases h with
  | mk payload origin htype =>
    rcases htype with htype | htype <;>
      simp [completeCommandSeparator, Gnode.type, Gnode.token?, finalSeparator, Gnode.terminator,
        operatorTerminator, Terminator.separator, htype, bind, Except.bind]

theorem separatorFromGseparatorOp_eq {g : Gnode} (h : IsSeparatorOp g) :
    separatorFromGseparatorOp g = .ok g.terminator.separator := by
  cases h with
  | mk payload origin htype =>
    rcases htype with htype | htype <;>
      simp [separatorFromGseparatorOp, Gnode.token?, Gnode.terminator, operatorTerminator,
        Terminator.separator, htype, bind, Except.bind, pure, Except.pure]

theorem option_mapM_eq {f : Gnode → Lowering CmdSeparator} {sep : Option Gnode}
    (h : ∀ g ∈ sep, f g = .ok g.terminator.separator) :
    sep.mapM f = .ok (sep.map fun g => g.terminator.separator) := by
  cases sep with
  | none => rfl
  | some g => simp [h g rfl]

theorem nullCrash_eq_ok {α : Type} {r : Lowering α} {a : α} (h : nullCrash r = .ok a) :
    r = .ok a := by
  unfold nullCrash at h
  split at h
  · cases h
  · exact h

/-- The separator that is given goes over the last one. -/
theorem finish_separators {cl cl' : CommandList} {seps : List CmdSeparator}
    {given : Option CmdSeparator} (hcl : cl.Sound) (hseps : cl.separators = seps ++ [.end_])
    (h : cl.finish given = .ok cl') :
    cl'.separators = seps ++ [given.getD .end_] := by
  have hlength : cl.items.length = seps.length + 1 := by
    rw [← hcl.length, hseps, List.length_append, List.length_singleton]
  cases given with
  | none =>
    have hnot : ¬ cl.separators.length < cl.items.length := by
      rw [hcl.length]
      exact lt_irrefl _
    simp only [CommandList.finish, hnot, if_false] at h
    cases h
    exact hseps
  | some sep =>
    have hne : cl.items ≠ [] := by
      intro hnil
      simp [hnil] at hlength
    have hnot : ¬ cl.items.length = cl.separators.length + 1 := by
      rw [hcl.length]
      omega
    unfold CommandList.finish CommandList.setFinalSeparator at h
    dsimp only at h
    rw [if_neg hne, if_neg hnot, if_pos hcl.length.symm] at h
    cases h
    simp [hseps]

/-- The items of a command list are its own. -/
theorem completeCommandItems_ast {cl : CommandList} (h : cl.Sound) :
    completeCommandItems cl.ast = cl := by
  obtain ⟨items, separators⟩ := cl
  have hlength : separators.length = items.length := h.length
  have hseps : (List.range items.length).map (fun j => separators.getD j .end_) = separators := by
    apply List.ext_getElem
    · simp [hlength]
    · intro i hi hi'
      simp [hi']
  simp only [completeCommandItems, CommandList.ast, hseps]

theorem completeCommandItems_item {item : Ast} (h : ListItem item) :
    completeCommandItems item = ⟨[item], [.end_]⟩ := by
  obtain ⟨hkind, -⟩ := h
  cases item with
  | commandList => cases hkind
  | _ => rfl

/-- The term and the separator of a compound list become a command list with one item and one
separator for each and-or list; inside the term every separator is sequential. -/
theorem lowerCompoundList_separators {below : Lowerers} (hbelow : below.Sound) {first : Gnode}
    {rest : List (Gnode × Gnode)} {sep : Option Gnode} {t : Ast}
    (hrest : ∀ p ∈ rest, IsSeparator p.1) (hsep : ∀ g ∈ sep, IsSeparator g)
    (h : lowerCompoundList below (.ofPair .compoundList
      (some (.ofList .term (first :: Gnode.flatten rest))) sep) = .ok t) :
    ∃ cl : CommandList, cl.Sound ∧ t = cl.ast ∧
      cl.separators = rest.map (fun _ => .sequential) ++
        [(sep.map fun g => g.terminator.separator).getD .end_] := by
  change (do
    let list ← nullCrash (lowerItems below .separator (fun _ => .ok .sequential)
      (first :: Gnode.flatten rest))
    let given ← sep.mapM compoundListSeparator
    return (← list.finish given).ast) = .ok t at h
  rw [option_mapM_eq fun g hg => compoundListSeparator_eq (hsep g hg)] at h
  obtain ⟨cl, hcl, h⟩ := except_bind_eq_ok.mp h
  obtain ⟨given, hgiven, h⟩ := except_bind_eq_ok.mp h
  obtain ⟨cl', hfinish, hpure⟩ := except_bind_eq_ok.mp h
  cases hgiven
  cases hpure
  have hitems := nullCrash_eq_ok hcl
  have hsound := (lowerItems_gives hbelow _ _ _).answer cl hitems
  have hseps := lowerItems_separators (fun _ => .sequential) (fun p hp => (hrest p hp).type)
    (fun _ _ => rfl) hitems
  refine ⟨cl', (CommandList.finish_gives hsound _).answer cl' hfinish, rfl, ?_⟩
  rw [finish_separators hsound hseps hfinish]

/-- A complete command becomes as many items with the separators of its operators; the last one has
the end separator if no operator follows it. -/
theorem lowerCompleteCommand_separators {below : Lowerers} (hbelow : below.Sound) {first : Gnode}
    {rest : List (Gnode × Gnode)} {sep : Option Gnode} {t : Ast}
    (hrest : ∀ p ∈ rest, IsSeparatorOp p.1) (hsep : ∀ g ∈ sep, IsSeparatorOp g)
    (h : lowerCompleteCommand below (.ofMulti .completeCommand
      (some (.ofList .list (first :: Gnode.flatten rest))) sep none none) = .ok t) :
    ∃ cl : CommandList, cl.Sound ∧ completeCommandItems t = cl ∧
      cl.separators = rest.map (fun p => p.1.terminator.separator) ++
        [(sep.map fun g => g.terminator.separator).getD .end_] := by
  rw [lowerCompleteCommand_ofMulti, option_mapM_eq fun g hg => completeCommandSeparator_eq (hsep g hg)] at h
  obtain ⟨cl, hitems, h⟩ := except_bind_eq_ok.mp h
  obtain ⟨given, hgiven, h⟩ := except_bind_eq_ok.mp h
  obtain ⟨cl', hfinish, hend⟩ := except_bind_eq_ok.mp h
  cases hgiven
  have hsound := (lowerItems_gives hbelow _ _ _).answer cl hitems
  have hseps := lowerItems_separators (fun g => g.terminator.separator)
    (fun p hp => (hrest p hp).type) (fun p hp => separatorFromGseparatorOp_eq (hrest p hp)) hitems
  have hsound' := (CommandList.finish_gives hsound _).answer cl' hfinish
  refine ⟨cl', hsound', ?_, finish_separators hsound hseps hfinish⟩
  split at hend
  · cases hend
    exact completeCommandItems_item (hsound'.items _ List.mem_cons_self)
  · cases hend
    exact completeCommandItems_ast hsound'

/-! ## Both lists -/

/-- The two kinds of list whose and-or lists have terminators. -/
inductive ListKind where
  | completeCommand | compoundList
  deriving DecidableEq, Repr

namespace ListKind

/-- The production that builds every node of the kind. -/
def parse : ListKind → Production Gnode
  | completeCommand => gparseCompleteCommand gparseCompoundList
  | compoundList => gparseCompoundList

/-- The lowerer for trees of at most `n` levels below the node. -/
def lower (n : ℕ) : ListKind → Gnode → Lowering Ast
  | completeCommand => lowerCompleteCommand (lowerers n)
  | compoundList => lowerCompoundList (lowerers n)

/-- A complete command has an operator unless no newline follows it, and inside a compound list no
and-or list but the last one ends with `&`. -/
def Kept : ListKind → List Terminator → Prop
  | completeCommand, terminators => terminators.getLast? ≠ some .newline
  | compoundList, terminators => .amper ∉ terminators.dropLast

end ListKind

/-- One item for each and-or list, with the separator that its terminator stands for. -/
structure KeepsSeparators (terminators : List Terminator) (cl : CommandList) : Prop where
  items : cl.items.length = terminators.length
  separators : cl.separators = terminators.map Terminator.separator

theorem Lower.CommandList.Sound.keeps_iff_separators {cl : CommandList} (h : cl.Sound)
    (terminators : List Terminator) :
    KeepsSeparators terminators cl ↔ cl.separators = terminators.map Terminator.separator := by
  constructor
  · intro hkeeps
    exact hkeeps.separators
  · intro hseps
    refine ⟨?_, hseps⟩
    rw [← h.length, hseps, List.length_map]

theorem IsSeparatorOp.terminator {g : Gnode} (h : IsSeparatorOp g) :
    g.terminator = .amper ∨ g.terminator = .semi := by
  cases h with
  | mk payload origin htype => rcases htype with htype | htype <;>
      simp [Gnode.terminator, operatorTerminator, htype]

theorem IsSeparator.separator_eq_iff {g : Gnode} (h : IsSeparator g) :
    g.terminator.separator = .sequential ↔ g.terminator ≠ .amper := by
  cases h with
  | op payload hop =>
    cases hop with
    | mk payload' origin htype => rcases htype with htype | htype <;>
        simp [Gnode.terminator, operatorTerminator, Terminator.separator, htype]
  | newlines payload payload' nodes => simp [Gnode.terminator, Terminator.separator]

theorem lastTerminator_separator (sep : Option Gnode) :
    (sep.map fun g => g.terminator.separator).getD .end_ =
      (Gnode.lastTerminator sep false).separator := by
  cases sep <;> rfl

/-- The command list that a complete command or a compound list is lowered to, at any level of any
program, has the separators of the source exactly if the kind of list keeps these. -/
theorem keepsSeparators_iff (kind : ListKind) {s s' : Parser} {g : Gnode} {n : ℕ} {t : Ast}
    (hparse : kind.parse.run s = .ok g s') (hlower : kind.lower n g = .ok t) :
    KeepsSeparators (g.terminators (s'.currentTokenType = .newline)) (completeCommandItems t) ↔
      kind.Kept (g.terminators (s'.currentTokenType = .newline)) := by
  generalize decide (s'.currentTokenType = .newline) = newline
  cases kind with
  | completeCommand =>
    cases gparseCompleteCommand_node _ s g s' hparse with
    | mk hnodes hsep =>
      obtain ⟨first, rest, rfl, hrest⟩ := hnodes.split
      obtain ⟨cl, hcl, rfl, hseps⟩ :=
        lowerCompleteCommand_separators (lowerers_sound n) hrest hsep hlower
      rw [hcl.keeps_iff_separators, hseps]
      simp only [Gnode.ofMulti, Gnode.ofList, Gnode.terminators, elementTerminators_flatMap,
        ListKind.Kept, List.map_append, List.map_map, List.getLast?_append]
      rename_i sep
      cases sep with
      | none => cases newline <;> simp [Gnode.lastTerminator, Terminator.separator]
      | some last =>
        rcases (hsep last rfl).terminator with hlast | hlast <;>
          simp [Gnode.lastTerminator, hlast]
  | compoundList =>
    cases gparseCompoundList_node s g s' hparse with
    | mk hnodes hsep =>
      obtain ⟨first, rest, rfl, hrest⟩ := hnodes.split
      obtain ⟨cl, hcl, rfl, hseps⟩ :=
        lowerCompoundList_separators (lowerers_sound n) hrest hsep hlower
      rw [completeCommandItems_ast hcl, hcl.keeps_iff_separators, hseps, lastTerminator_separator]
      simp only [Gnode.ofPair, Gnode.ofList, Gnode.terminators, elementTerminators_flatMap,
        ListKind.Kept, List.map_append, List.map_map, List.dropLast_concat, List.map_cons,
        List.map_nil, List.append_cancel_right_eq]
      rw [List.map_inj_left]
      constructor
      · intro hsame hmem
        obtain ⟨p, hp, hamper⟩ := List.mem_map.mp hmem
        exact (hrest p hp).separator_eq_iff.mp (hsame p hp).symm hamper
      · intro hnone p hp
        refine ((hrest p hp).separator_eq_iff.mpr ?_).symm
        intro hamper
        exact hnone (List.mem_map.mpr ⟨p, hp, hamper⟩)

/-! ## Two lists -/

/-- `a` and `b`, with an operator after each. -/
def twoCommands (operator : TokenType) : List Token :=
  [.ofText "a", .ofType operator, .ofText "b", .ofType .semi]

/-- The compound list that the parser makes of it. -/
def twoCommandsNode (operator : TokenType) : Gnode :=
  match ListKind.compoundList.parse.run (create (twoCommands operator)) with
  | .ok g _ => g
  | _ => .ofPair .compoundList none none

/-- The separators of `a; b;` are kept. -/
theorem keepsSeparators_semi :
    ∃ s' t, ListKind.compoundList.parse.run (create (twoCommands .semi)) =
        .ok (twoCommandsNode .semi) s' ∧
      ListKind.compoundList.lower 2 (twoCommandsNode .semi) = .ok t ∧
      KeepsSeparators ((twoCommandsNode .semi).terminators (s'.currentTokenType = .newline))
        (completeCommandItems t) := by
  obtain ⟨s', hparse⟩ : ∃ s', ListKind.compoundList.parse.run (create (twoCommands .semi)) =
      .ok (twoCommandsNode .semi) s' := ⟨_, rfl⟩
  obtain ⟨t, hlower⟩ : ∃ t, ListKind.compoundList.lower 2 (twoCommandsNode .semi) = .ok t :=
    ⟨_, rfl⟩
  refine ⟨s', t, hparse, hlower, (keepsSeparators_iff .compoundList hparse hlower).mpr ?_⟩
  change .amper ∉ [Terminator.semi]
  decide

/-- In `{ a & b; }` the first command does not go to the background. -/
theorem braceGroup_loses_background :
    (∃ root s, parserParseProgram
        (.ofText "\x7b" :: twoCommands .amper ++ [.ofText "\x7d"]) = .ok root s ∧
      astLower root = .ok (.commandList [.braceGroup
        (.commandList [.ofWords ["a"], .ofWords ["b"]] [.sequential, .sequential])] [.end_])) ∧
    ∃ s' t, ListKind.compoundList.parse.run (create (twoCommands .amper)) =
        .ok (twoCommandsNode .amper) s' ∧
      ListKind.compoundList.lower 2 (twoCommandsNode .amper) = .ok t ∧
      ¬ KeepsSeparators ((twoCommandsNode .amper).terminators (s'.currentTokenType = .newline))
        (completeCommandItems t) := by
  refine ⟨⟨_, _, rfl, rfl⟩, _, _, rfl, rfl, ?_⟩
  rintro ⟨-, hseps⟩
  exact absurd hseps (by decide)

end Migash
