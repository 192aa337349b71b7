import Migash.Parser.CaseItems
import Migash.Parser.CommandStart

/-! # Payload types

The payload type of a node comes from a table of node types, and each production
writes a member of the union. The two differ for the operator of an and-or list
and for the name and the body of a function.
-/

namespace Migash

open Library

namespace Gnode

/-! ## The nodes of a tree -/

/-- The member of the union that was written: the null child of an empty program is none. -/
def member : Gnode → GnodePayload
  | .list .. => .list
  | .token .. => .token
  | .pair .. => .pair
  | .child _ _ none => .none
  | .child _ _ (some _) => .child
  | .multi .. => .multi
  | .ioHere .. => .ioHere

mutual

/-- A node and all nodes below it. -/
def nodes : Gnode → List Gnode
  | .list type payload gs => .list type payload gs :: nodesAll gs
  | .token type payload tok origin => [.token type payload tok origin]
  | .pair type payload left right =>
    .pair type payload left right :: (nodesOpt left ++ nodesOpt right)
  | .child type payload node => .child type payload node :: nodesOpt node
  | .multi type payload a b c d =>
    .multi type payload a b c d :: (nodesOpt a ++ nodesOpt b ++ nodesOpt c ++ nodesOpt d)
  | .ioHere type payload op hereEnd tok origin => [.ioHere type payload op hereEnd tok origin]

/-- The nodes of some trees. -/
def nodesAll : List Gnode → List Gnode
  | [] => []
  | g :: gs => g.nodes ++ nodesAll gs

/-- The nodes of a tree that may be absent. -/
def nodesOpt : Option Gnode → List Gnode
  | none => []
  | some g => g.nodes

end

theorem mem_nodesAll {n : Gnode} {gs : List Gnode} : n ∈ nodesAll gs ↔ ∃ g ∈ gs, n ∈ g.nodes := by
  induction gs with
  | nil => simp [nodesAll]
  | cons g gs ih => simp [nodesAll, ih]

theorem mem_nodesOpt {n : Gnode} {o : Option Gnode} : n ∈ nodesOpt o ↔ ∃ g ∈ o, n ∈ g.nodes := by
  cases o <;> simp [nodesOpt]

section Forall

variable {P : Gnode → Prop} {type : GnodeType} {payload : GnodePayload} {gs : List Gnode}
  {node : Gnode} {a b c d : Option Gnode}

theorem forall_nodes_list : (∀ n ∈ (list type payload gs).nodes, P n) ↔
    P (list type payload gs) ∧ ∀ g ∈ gs, ∀ n ∈ g.nodes, P n := by
  simp only [nodes, List.forall_mem_cons, mem_nodesAll]
  grind

theorem forall_nodes_pair : (∀ n ∈ (pair type payload a b).nodes, P n) ↔
    P (pair type payload a b) ∧ (∀ g ∈ a, ∀ n ∈ g.nodes, P n) ∧ ∀ g ∈ b, ∀ n ∈ g.nodes, P n := by
  simp only [nodes, List.forall_mem_cons, List.mem_append, mem_nodesOpt]
  grind

theorem forall_nodes_child : (∀ n ∈ (child type payload (some node)).nodes, P n) ↔
    P (child type payload (some node)) ∧ ∀ n ∈ node.nodes, P n := by
  simp only [nodes, List.forall_mem_cons, nodesOpt]

theorem forall_nodes_multi : (∀ n ∈ (multi type payload a b c d).nodes, P n) ↔
    P (multi type payload a b c d) ∧ (∀ g ∈ a, ∀ n ∈ g.nodes, P n) ∧
      (∀ g ∈ b, ∀ n ∈ g.nodes, P n) ∧ (∀ g ∈ c, ∀ n ∈ g.nodes, P n) ∧
      ∀ g ∈ d, ∀ n ∈ g.nodes, P n := by
  simp only [nodes, List.forall_mem_cons, List.mem_append, mem_nodesOpt]
  grind

end Forall

theorem mem_nodes_self (g : Gnode) : g ∈ g.nodes := by
  cases g <;> simp [nodes]

/-- The payload type of every node names the member that was written. -/
def Tagged (g : Gnode) : Prop := ∀ n ∈ g.nodes, n.payload = n.member

instance (g : Gnode) : Decidable g.Tagged :=
  inferInstanceAs (Decidable (∀ n ∈ g.nodes, n.payload = n.member))

/-- No node has the given type. -/
def Without (type : GnodeType) (g : Gnode) : Prop := ∀ n ∈ g.nodes, n.type ≠ type

end Gnode

/-! ## What the parser builds -/

/-- An operator of an and-or list. -/
def HasAndOrOperator (tokens : List Token) : Prop :=
  ∃ tok ∈ tokens, tok.type = .andIf ∨ tok.type = .orIf

/-- A word that is no reserved word stands before an opening parenthesis. -/
def HasFunctionHeading (tokens : List Token) : Prop :=
  ∃ i name paren, tokens[i]? = some name ∧ tokens[i + 1]? = some paren ∧
    name.type = .word ∧ (∀ word, name.bareLiteral? = some word → Token.isReservedWord word = false) ∧
    paren.type = .lparen

/-- A node type other than those of and-or lists and function definitions. -/
def isPlainType : GnodeType → Bool
  | .andOr | .functionDefinition => false
  | _ => true

/-- The trees that are built from the tokens. -/
inductive Built (tokens : List Token) : Gnode → Prop where
  | list {type : GnodeType} {payload : GnodePayload} {gs : List Gnode}
      (htype : isPlainType type = true) (hpayload : payload = .list)
      (hgs : ∀ g ∈ gs, Built tokens g) : Built tokens (.list type payload gs)
  | token {type : GnodeType} {payload : GnodePayload} {tok : Token} {origin : ℕ}
      (htype : isPlainType type = true) (hpayload : payload = .token) :
      Built tokens (.token type payload tok origin)
  | pair {type : GnodeType} {payload : GnodePayload} {left right : Option Gnode}
      (htype : isPlainType type = true) (hpayload : payload = .pair)
      (hleft : ∀ g ∈ left, Built tokens g) (hright : ∀ g ∈ right, Built tokens g) :
      Built tokens (.pair type payload left right)
  | child {type : GnodeType} {payload : GnodePayload} {node : Gnode}
      (htype : isPlainType type = true) (hpayload : payload = .child)
      (hnode : Built tokens node) : Built tokens (.child type payload (some node))
  | empty : Built tokens (.child .program .none none)
  | multi {type : GnodeType} {payload : GnodePayload} {a b c d : Option Gnode}
      (htype : isPlainType type = true) (hpayload : payload = .multi)
      (ha : ∀ g ∈ a, Built tokens g) (hb : ∀ g ∈ b, Built tokens g)
      (hc : ∀ g ∈ c, Built tokens g) (hd : ∀ g ∈ d, Built tokens g) :
      Built tokens (.multi type payload a b c d)
  | ioHere {op : TokenType} {hereEnd : String} {tok : Option Token} {origin : ℕ} :
      Built tokens (.ioHere .ioHere .ioHere op hereEnd tok origin)
  | andOr (h : HasAndOrOperator tokens) (left right : Gnode) (tok : Token) (origin : ℕ) :
      Built tokens (.ofMulti .andOr (some left) (some (.ofToken .andOr tok origin)) (some right)
        none)
  | function (h : HasFunctionHeading tokens) (tok : Token) (origin : ℕ) (lparen rparen body : Gnode) :
      Built tokens (.ofMulti .functionDefinition (some (.ofToken .fname tok origin)) (some lparen)
        (some rparen) (some body))

namespace Built

variable {tokens : List Token} {g : Gnode}

theorem some_of (h : Built tokens g) : ∀ g' ∈ some g, Built tokens g' := by
  rintro g' ⟨⟩
  exact h

theorem none_of : ∀ g' ∈ (none : Option Gnode), Built tokens g' := nofun

/-- Without operators and function headings among the tokens every node is tagged. -/
theorem tagged (h : Built tokens g) (hop : ¬ HasAndOrOperator tokens)
    (hfn : ¬ HasFunctionHeading tokens) : g.Tagged := by
  induction h with
  | list _ hpayload _ ih => exact Gnode.forall_nodes_list.mpr ⟨hpayload, ih⟩
  | token _ hpayload => exact List.forall_mem_singleton.mpr hpayload
  | pair _ hpayload _ _ ihleft ihright =>
    exact Gnode.forall_nodes_pair.mpr ⟨hpayload, ihleft, ihright⟩
  | child _ hpayload _ ih => exact Gnode.forall_nodes_child.mpr ⟨hpayload, ih⟩
  | empty => exact List.forall_mem_singleton.mpr rfl
  | multi _ hpayload _ _ _ _ iha ihb ihc ihd =>
    exact Gnode.forall_nodes_multi.mpr ⟨hpayload, iha, ihb, ihc, ihd⟩
  | ioHere => exact List.forall_mem_singleton.mpr rfl
  | andOr h => exact absurd h hop
  | function h => exact absurd h hfn

theorem tagged_iff_plain (h : Built tokens g) :
    g.Tagged ↔ ∀ n ∈ g.nodes, isPlainType n.type = true := by
  induction h with
  | list htype hpayload _ ih =>
    rw [Gnode.Tagged, Gnode.forall_nodes_list, Gnode.forall_nodes_list]
    exact and_congr (iff_of_true hpayload htype) (forall₂_congr ih)
  | token htype hpayload =>
    exact iff_of_true (List.forall_mem_singleton.mpr hpayload) (List.forall_mem_singleton.mpr htype)
  | pair htype hpayload _ _ ihleft ihright =>
    rw [Gnode.Tagged, Gnode.forall_nodes_pair, Gnode.forall_nodes_pair]
    exact and_congr (iff_of_true hpayload htype)
      (and_congr (forall₂_congr ihleft) (forall₂_congr ihright))
  | child htype hpayload _ ih =>
    rw [Gnode.Tagged, Gnode.forall_nodes_child, Gnode.forall_nodes_child]
    exact and_congr (iff_of_true hpayload htype) ih
  | empty =>
    exact iff_of_true (List.forall_mem_singleton.mpr rfl) (List.forall_mem_singleton.mpr rfl)
  | multi htype hpayload _ _ _ _ iha ihb ihc ihd =>
    rw [Gnode.Tagged, Gnode.forall_nodes_multi, Gnode.forall_nodes_multi]
    exact and_congr (iff_of_true hpayload htype) (and_congr (forall₂_congr iha)
      (and_congr (forall₂_congr ihb) (and_congr (forall₂_congr ihc) (forall₂_congr ihd))))
  | ioHere =>
    exact iff_of_true (List.forall_mem_singleton.mpr rfl) (List.forall_mem_singleton.mpr rfl)
  | andOr _ left right tok origin =>
    refine iff_of_false (fun h => ?_) fun h => ?_
    · -- the operator is a token behind a payload type for several children
      have hop := (Gnode.forall_nodes_multi.mp h).2.2.1 _ rfl _ (Gnode.mem_nodes_self _)
      cases hop
    · cases h _ (Gnode.mem_nodes_self _)
  | function _ tok origin lparen rparen body =>
    refine iff_of_false (fun h => ?_) fun h => ?_
    · -- the name is a token behind a payload type for a string
      have hname := (Gnode.forall_nodes_multi.mp h).2.1 _ rfl _ (Gnode.mem_nodes_self _)
      cases hname
    · cases h _ (Gnode.mem_nodes_self _)

/-- And-or lists and function definitions are what spoils a tree. -/
theorem tagged_iff (h : Built tokens g) :
    g.Tagged ↔ g.Without .andOr ∧ g.Without .functionDefinition := by
  rw [h.tagged_iff_plain]
  constructor
  · intro hplain
    constructor
    · intro n hn htype
      have := hplain n hn
      rw [htype] at this
      cases this
    · intro n hn htype
      have := hplain n hn
      rw [htype] at this
      cases this
  · rintro ⟨handOr, hfunction⟩ n hn
    have hand := handOr n hn
    have hfun := hfunction n hn
    rw [isPlainType.eq_def]
    split
    · next htype => exact absurd htype hand
    · next htype => exact absurd htype hfun
    · rfl

end Built

namespace Parser

open Forward

/-- From the state `s₀` on, the trees are built from its tokens. -/
abbrev Builds (s₀ : Parser) (m : Production Gnode) : Prop := YieldsAfter s₀ (Built s₀.tokens) m

/-- As `Builds`, for a list of trees. -/
abbrev BuildsAll (s₀ : Parser) (m : Production (List Gnode)) : Prop :=
  YieldsAfter s₀ (fun gs => ∀ g ∈ gs, Built s₀.tokens g) m

variable {s₀ : Parser} {m : Production Gnode} {gs : List Gnode} {g : Gnode}

/-! ## Lists -/

theorem forall_built_append {gs' : List Gnode} (h : ∀ g ∈ gs, Built s₀.tokens g)
    (h' : ∀ g ∈ gs', Built s₀.tokens g) : ∀ g ∈ gs ++ gs', Built s₀.tokens g :=
  List.forall_mem_append.mpr ⟨h, h'⟩

/-- A list of nodes, or none. -/
abbrev BuiltLists (s₀ : Parser) (o : Option (List Gnode)) : Prop :=
  ∀ gs ∈ o, ∀ g ∈ gs, Built s₀.tokens g

theorem builtLists_append {gs' : List Gnode} (h : ∀ g ∈ gs, Built s₀.tokens g)
    (h' : ∀ g ∈ gs', Built s₀.tokens g) : BuiltLists s₀ (some (gs ++ gs')) := by
  rintro _ ⟨⟩
  exact forall_built_append h h'

theorem builtLists_none : BuiltLists s₀ none := nofun

theorem singleton_built (h : Built s₀.tokens g) : ∀ g' ∈ [g], Built s₀.tokens g' := by
  simpa using h

/-- An attempt whose tree goes to the end of a list, and which ends the loop if it fails. -/
theorem attemptAppend (hm : Builds s₀ m) (hgs : ∀ g ∈ gs, Built s₀.tokens g) {f : Gnode → Gnode}
    (hf : ∀ g, Built s₀.tokens g → Built s₀.tokens (f g)) :
    YieldsAfter s₀ (BuiltLists s₀) (do
      match ← attempt m with
      | .ok next => return some (gs ++ [f next])
      | .error _ => return none) := by
  refine .bind_of (.attempt hm) fun r hr => ?_
  cases r with
  | error e => exact .pure builtLists_none
  | ok next => exact .pure (builtLists_append hgs (singleton_built (hf next (hr next rfl))))

/-! ## Simple commands -/

theorem builds_takeLeaf {type : GnodeType} (htype : isPlainType type = true)
    (hpayload : gnodeGetPayloadType type = .token) : Builds s₀ (takeLeaf type) :=
  .bind fun _ => .bind fun _ => .pure (.token htype hpayload)

theorem builds_wordNode : Builds s₀ (takeLeaf .wordNode) := builds_takeLeaf rfl rfl

theorem builds_gparseIoFile : Builds s₀ gparseIoFile := by
  unfold gparseIoFile gparseFilename
  refine .bind fun _ => .bind_of builds_wordNode fun op hop => ?_
  refine .bind_of (.bind fun _ => builds_takeLeaf rfl rfl) fun fname hfname => ?_
  exact .pure (.multi rfl rfl hop.some_of hfname.some_of .none_of .none_of)

theorem builds_gparseIoHere : Builds s₀ gparseIoHere := by
  unfold gparseIoHere
  refine .bind fun _ => .bind fun op => .bind fun origin => .bind fun _ => .bind fun _ => ?_
  exact .bind fun _ => .bind fun _ => .pure .ioHere

theorem builds_ioFileOrHere : Builds s₀ ioFileOrHere := by
  unfold ioFileOrHere
  refine .bind_of (.attempt builds_gparseIoFile) fun r hr => ?_
  cases r with
  | ok file => exact .pure (hr file rfl)
  | error _ =>
    refine .bind_of (.attempt builds_gparseIoHere) fun r hr => ?_
    cases r with
    | ok here => exact .pure (hr here rfl)
    | error _ => exact .failure _

theorem builds_gparseIoRedirect : Builds s₀ gparseIoRedirect := by
  unfold gparseIoRedirect
  have hnumber : YieldsAfter s₀ (fun o : Option Gnode × Option Gnode =>
      (∀ g ∈ o.1, Built s₀.tokens g) ∧ ∀ g ∈ o.2, Built s₀.tokens g) optionalIoNumber := by
    unfold optionalIoNumber
    refine .bind fun type => .ite (fun _ => ?_) fun _ => .ite (fun _ => ?_) fun _ => ?_
    · exact .bind_of (builds_takeLeaf rfl rfl) fun leaf hleaf => .pure ⟨hleaf.some_of, Built.none_of⟩
    · exact .bind_of (builds_takeLeaf rfl rfl) fun leaf hleaf => .pure ⟨Built.none_of, hleaf.some_of⟩
    · exact .pure ⟨Built.none_of, Built.none_of⟩
  refine .bind_of hnumber ?_
  rintro ⟨ioNumber, ioLocation⟩ ⟨hioNumber, hioLocation⟩
  refine .bind_of builds_ioFileOrHere fun target htarget => ?_
  exact .pure (.multi rfl rfl hioNumber hioLocation htarget.some_of .none_of)

/-- A here-document that gets its content keeps its payload type. -/
theorem builds_matchHeredoc (h : Built s₀.tokens g) : Builds s₀ (matchHeredoc g) := by
  unfold matchHeredoc
  split
  · refine .bind fun _ => .bind fun _ => .bind fun tok => .bind fun _ => ?_
    cases h with
    | multi htype hpayload ha hb hc hd =>
      have hhere := hc _ rfl
      cases hhere
      exact .pure (.multi htype hpayload ha hb (Built.some_of .ioHere) hd)
  · exact .pure h

theorem builds_matchHeredocsInItem (h : Built s₀.tokens g) : Builds s₀ (matchHeredocsInItem g) := by
  unfold matchHeredocsInItem
  split
  · cases h with
    | child htype hpayload hnode =>
      refine .bind_of (builds_matchHeredoc hnode) fun redirect hredirect => ?_
      exact .pure (.child htype hpayload hredirect)
  · cases h with
    | list htype hpayload hgs =>
      refine .bind_of (.forEach fun g hg => builds_matchHeredoc (hgs g hg)) fun gs hgs => ?_
      exact .pure (.list htype hpayload hgs.2)
  · exact .pure h

theorem builds_gparseRedirectList : Builds s₀ gparseRedirectList := by
  unfold gparseRedirectList
  refine .bind_of builds_gparseIoRedirect fun redir hredir => ?_
  have hloop : BuildsAll s₀ (loop redirectListStep [redir]) :=
    .loop (fun gs hgs => attemptAppend (f := id) builds_gparseIoRedirect hgs fun _ h => h)
      (singleton_built hredir)
  refine .bind_of hloop fun gs hgs => ?_
  refine .bind_of (.forEach fun g hg => builds_matchHeredoc (hgs g hg)) fun gs hgs => ?_
  exact .pure (.list rfl rfl hgs.2)

theorem builds_cmdPrefix : BuildsAll s₀ (loop cmdPrefixStep []) := by
  refine .loop (fun gs hgs => ?_) (by simp)
  unfold cmdPrefixStep
  refine .bind fun type => .ite (fun _ => ?_) fun _ => .ite (fun _ => ?_) fun _ => ?_
  · exact attemptAppend builds_gparseIoRedirect hgs fun g hg => .child rfl rfl hg
  · refine .bind_of (builds_takeLeaf rfl rfl) fun assign hassign => ?_
    exact .pure (builtLists_append hgs (singleton_built (.child rfl rfl hassign)))
  · exact .pure builtLists_none

theorem builds_cmdSuffix : BuildsAll s₀ (loop cmdSuffixStep []) := by
  refine .loop (fun gs hgs => ?_) (by simp)
  unfold cmdSuffixStep
  refine .bind fun type => .ite (fun _ => ?_) fun _ => .bind fun _ => .ite (fun _ => ?_) fun _ => ?_
  · exact attemptAppend (f := id) builds_gparseIoRedirect hgs fun _ h => h
  · refine .bind_of (builds_takeLeaf rfl rfl) fun word hword => ?_
    exact .pure (builtLists_append hgs (singleton_built hword))
  · exact .pure builtLists_none

theorem builds_gparseSimpleCommand : Builds s₀ gparseSimpleCommand := by
  unfold gparseSimpleCommand
  refine .bind_of builds_cmdPrefix fun heads hheads => ?_
  have hname : YieldsAfter s₀ (fun o => ∀ g ∈ o, Built s₀.tokens g) gparseCmdName := by
    unfold gparseCmdName
    refine .bind fun _ => .ite (fun _ => ?_) fun _ => .pure Built.none_of
    exact .map (builds_takeLeaf rfl rfl) fun leaf hleaf => hleaf.some_of
  refine .bind_of hname fun name hname => .bind_of builds_cmdSuffix fun suffixes hsuffixes => ?_
  refine .ite (fun _ => .bind fun _ => .ite (fun _ => .failure _) fun _ => .failure _) fun _ => ?_
  have hsuffix : ∀ g ∈ (if suffixes.isEmpty then [] else [Gnode.ofList .cmdSuffix suffixes]),
      Built s₀.tokens g := by
    split
    · simp
    · exact singleton_built (.list rfl rfl hsuffixes)
  have hnames : ∀ g ∈ name.toList, Built s₀.tokens g := fun g hg => hname g (by simpa using hg)
  have hall := forall_built_append (forall_built_append hheads hnames) hsuffix
  refine .bind_of (.forEach fun g hg => builds_matchHeredocsInItem (hall g hg)) fun gs hgs => ?_
  exact .pure (.list rfl rfl hgs.2)

/-! ## Separators -/

theorem builds_gparseSeparatorOp : Builds s₀ gparseSeparatorOp := by
  unfold gparseSeparatorOp
  exact .bind fun _ => builds_takeLeaf rfl rfl

theorem builds_newlineList : BuildsAll s₀ (loop newlineListStep []) := by
  refine .loop (fun gs hgs => ?_) (by simp)
  unfold newlineListStep
  refine .bind fun type => .ite (fun _ => ?_) fun _ => .pure builtLists_none
  refine .bind_of builds_wordNode fun tok htok => ?_
  exact .pure (builtLists_append hgs (singleton_built htok))

theorem builds_gparseSeparator : Builds s₀ gparseSeparator := by
  unfold gparseSeparator
  refine .bind fun type => .ite (fun _ => ?_) fun _ => .ite (fun _ => ?_) fun _ => .failure _
  · refine .bind_of (builds_takeLeaf rfl rfl) fun op hop => .bind fun _ => ?_
    exact .pure (.child rfl rfl hop)
  · refine .bind_of builds_newlineList fun gs hgs => ?_
    exact .pure (.child rfl rfl (.list rfl rfl hgs))

/-! ## Compound commands -/

/-- A tree that may be absent. -/
abbrev BuildsOption (s₀ : Parser) (m : Production (Option Gnode)) : Prop :=
  YieldsAfter s₀ (fun o => ∀ g ∈ o, Built s₀.tokens g) m

theorem builds_gparseSubshell (hm : Builds s₀ m) : Builds s₀ (gparseSubshell m) := by
  unfold gparseSubshell
  refine .bind fun _ => .bind_of builds_wordNode fun lparen hlparen => ?_
  refine .bind_of hm fun list hlist => .bind fun _ => ?_
  refine .bind_of builds_wordNode fun rparen hrparen => ?_
  exact .pure (.multi rfl rfl hlparen.some_of hlist.some_of hrparen.some_of .none_of)

theorem builds_gparseDoGroup (hm : Builds s₀ m) : Builds s₀ (gparseDoGroup m) := by
  unfold gparseDoGroup
  refine .bind fun _ => .bind fun _ => .bind_of builds_wordNode fun doTok hdo => ?_
  refine .bind_of hm fun list hlist => .bind fun _ => .bind fun _ => ?_
  refine .bind_of builds_wordNode fun doneTok hdone => ?_
  exact .pure (.multi rfl rfl hdo.some_of hlist.some_of hdone.some_of .none_of)

theorem builds_gparseWordlist : Builds s₀ gparseWordlist := by
  unfold gparseWordlist
  have hloop : BuildsAll s₀ (loop wordlistStep []) := by
    refine .loop (fun gs hgs => ?_) (by simp)
    unfold wordlistStep
    refine .bind fun type => .ite (fun _ => ?_) fun _ => .pure builtLists_none
    refine .bind_of builds_wordNode fun word hword => ?_
    exact .pure (builtLists_append hgs (singleton_built hword))
  refine .bind fun _ => .bind_of hloop fun gs hgs => ?_
  exact .pure (.list rfl rfl hgs)

theorem builds_gparseInClause : Builds s₀ gparseInClause := by
  unfold gparseInClause
  refine .bind fun _ => .bind fun _ => .bind fun _ => .bind fun tok => .bind fun _ => ?_
  have hnode : Built s₀.tokens (.token .inNode .token tok.1 tok.2) := .token rfl rfl
  refine .bind_of (.attempt builds_gparseWordlist) fun r hr => ?_
  cases r with
  | ok words =>
    exact .pure (.multi rfl rfl hnode.some_of (hr words rfl).some_of .none_of .none_of)
  | error e => exact .pure hnode

theorem builds_gparseForClause (hm : Builds s₀ m) : Builds s₀ (gparseForClause m) := by
  unfold gparseForClause
  refine .bind fun _ => .bind_of builds_wordNode fun forTok hfor => .bind fun _ => ?_
  refine .bind_of (builds_takeLeaf rfl rfl) fun name hname => ?_
  refine .bind_of (.attempt builds_gparseInClause) fun inClause hin => .bind fun _ => ?_
  refine .bind_of (builds_gparseDoGroup hm) fun doGrp hdoGrp => ?_
  exact .pure (.multi rfl rfl hfor.some_of hname.some_of hin hdoGrp.some_of)

theorem builds_gparsePatternList : Builds s₀ gparsePatternList := by
  unfold gparsePatternList
  refine .bind fun _ => .bind_of builds_wordNode fun word hword => ?_
  have hloop : BuildsAll s₀ (loop patternListStep [word]) := by
    refine .loop (fun gs hgs => ?_) (singleton_built hword)
    unfold patternListStep
    refine .bind fun type => .ite (fun _ => ?_) fun _ => .pure builtLists_none
    refine .bind_of builds_wordNode fun pipe hpipe => .bind fun _ => ?_
    refine .bind_of builds_wordNode fun next hnext => ?_
    exact .pure (builtLists_append hgs (List.forall_mem_cons.mpr ⟨hpipe, singleton_built hnext⟩))
  refine .bind_of hloop fun gs hgs => ?_
  exact .pure (.list rfl rfl hgs)

theorem builds_optionalLparen : BuildsOption s₀ optionalLparen := by
  unfold optionalLparen
  refine .bind fun type => .ite (fun _ => ?_) fun _ => .pure Built.none_of
  exact .map builds_wordNode fun lparen hlparen => hlparen.some_of

theorem builds_gparseCaseItem (hm : Builds s₀ m) : Builds s₀ (gparseCaseItem m) := by
  unfold gparseCaseItem
  have hbody : BuildsOption s₀ (compoundListOrNewlines m) := by
    unfold compoundListOrNewlines
    refine .bind_of (.attempt hm) fun r hr => ?_
    cases r with
    | ok list => exact .pure hr
    | error e => exact .bind fun _ => .pure Built.none_of
  refine .bind_of builds_optionalLparen fun lparen hlparen => ?_
  refine .bind_of builds_gparsePatternList fun patterns hpatterns => .bind fun _ => ?_
  refine .bind_of builds_wordNode fun rparen hrparen => .bind_of hbody fun list hlist => ?_
  refine .bind fun _ => .bind_of builds_wordNode fun dsemi hdsemi => .bind fun _ => ?_
  have hnode : Built s₀.tokens (.ofMulti .caseItem lparen (some patterns) (some rparen) list) :=
    .multi rfl rfl hlparen hpatterns.some_of hrparen.some_of hlist
  exact .pure (.multi rfl rfl hnode.some_of hdsemi.some_of .none_of .none_of)

theorem builds_gparseCaseItemNs (hm : Builds s₀ m) : Builds s₀ (gparseCaseItemNs m) := by
  unfold gparseCaseItemNs
  refine .bind_of builds_optionalLparen fun lparen hlparen => ?_
  refine .bind_of builds_gparsePatternList fun patterns hpatterns => .bind fun _ => ?_
  refine .bind_of builds_wordNode fun rparen hrparen => ?_
  refine .bind_of (.attempt hm) fun list hlist => .bind fun _ => ?_
  exact .pure (.multi rfl rfl hlparen hpatterns.some_of hrparen.some_of hlist)

theorem builds_gparseCaseList (hm : Builds s₀ m) : Builds s₀ (gparseCaseList m) := by
  unfold gparseCaseList
  refine .bind_of (builds_gparseCaseItem hm) fun item hitem => ?_
  have hloop : BuildsAll s₀ (loop (caseListStep m) [item]) := by
    refine .loop (fun gs hgs => ?_) (singleton_built hitem)
    unfold caseListStep
    refine .bind fun _ => .ite (fun _ => .pure builtLists_none) fun _ => ?_
    exact attemptAppend (f := id) (builds_gparseCaseItem hm) hgs fun _ h => h
  refine .bind_of hloop fun gs hgs => ?_
  exact .pure (.list rfl rfl hgs)

theorem builds_caseItems (hm : Builds s₀ m) : BuildsOption s₀ (caseItems m) := by
  unfold caseItems gparseCaseListNs
  refine .bind_of (.attempt (builds_gparseCaseList hm)) fun r hr => ?_
  cases r with
  | ok list => exact .pure hr
  | error e =>
    refine .map (.attempt ?_) fun r hr => hr
    refine .bind_of (.attempt (builds_gparseCaseList hm)) fun list hlist => ?_
    refine .bind_of (builds_gparseCaseItemNs hm) fun item hitem => ?_
    have hlists : ∀ g ∈ list.toOption.toList, Built s₀.tokens g :=
      fun g hg => hlist g (by simpa using hg)
    exact .pure (.list rfl rfl (forall_built_append hlists (singleton_built hitem)))

theorem builds_gparseCaseClause (hm : Builds s₀ m) : Builds s₀ (gparseCaseClause m) := by
  unfold gparseCaseClause
  refine .bind fun _ => .bind_of builds_wordNode fun caseTok hcase => .bind fun _ => ?_
  refine .bind_of builds_wordNode fun word hword => .bind fun _ => .bind fun _ => .bind fun _ => ?_
  refine .bind_of builds_wordNode fun inTok hin => .bind fun _ => ?_
  refine .bind_of (builds_caseItems hm) fun list hlist => .bind fun _ => .bind fun _ => ?_
  refine .bind_of builds_wordNode fun esacTok hesac => ?_
  have hnode : Built s₀.tokens
      (.ofMulti .caseClause (some caseTok) (some word) (some inTok) (some esacTok)) :=
    .multi rfl rfl hcase.some_of hword.some_of hin.some_of hesac.some_of
  cases list with
  | none => exact .pure hnode
  | some list => exact .pure (.multi rfl rfl hnode.some_of hlist .none_of .none_of)

theorem builds_gparseElsePartFor (hm : Builds s₀ m) (n : ℕ) :
    Builds s₀ (gparseElsePartFor m n) := by
  induction n with
  | zero => exact .stop _
  | succ n ih =>
    unfold gparseElsePartFor
    refine .bind fun _ => .bind fun _ => .bind fun type => .ite (fun _ => ?_) fun _ =>
      .ite (fun _ => ?_) fun _ => .failure _
    · refine .bind fun _ => .bind_of hm fun cond hcond => .bind fun _ => .bind fun _ => ?_
      refine .bind fun _ => .bind_of hm fun thenBody hthen => ?_
      refine .bind_of (.attempt ih) fun elsePart helse => ?_
      exact .pure (.multi rfl rfl hcond.some_of hthen.some_of helse .none_of)
    · refine .bind fun _ => .bind_of hm fun body hbody => ?_
      exact .pure (.multi rfl rfl hbody.some_of .none_of .none_of .none_of)

theorem builds_gparseIfClause (hm : Builds s₀ m) : Builds s₀ (gparseIfClause m) := by
  unfold gparseIfClause
  have helsePart : Builds s₀ (gparseElsePart m) :=
    fun s g t hs hrun => builds_gparseElsePartFor hm (remaining s + 1) s g t hs hrun
  refine .bind fun _ => .bind_of builds_wordNode fun ifTok hif => ?_
  refine .bind_of hm fun cond hcond => .bind fun _ => .bind fun _ => ?_
  refine .bind_of builds_wordNode fun thenTok hthen => .bind_of hm fun thenBody hbody => ?_
  refine .bind_of (.attempt helsePart) fun elsePart helse => .bind fun _ => .bind fun _ => ?_
  refine .bind_of builds_wordNode fun fiTok hfi => ?_
  have hnode : Built s₀.tokens
      (.ofMulti .ifClause (some ifTok) (some cond) (some thenTok) (some thenBody)) :=
    .multi rfl rfl hif.some_of hcond.some_of hthen.some_of hbody.some_of
  exact .pure (.multi rfl rfl hnode.some_of helse hfi.some_of .none_of)

theorem builds_gparseWhileClause (hm : Builds s₀ m) : Builds s₀ (gparseWhileClause m) := by
  unfold gparseWhileClause
  refine .bind fun _ => .bind_of builds_wordNode fun whileTok hwhile => ?_
  refine .bind_of hm fun cond hcond => .bind_of (builds_gparseDoGroup hm) fun doGrp hdoGrp => ?_
  exact .pure (.multi rfl rfl hwhile.some_of hcond.some_of hdoGrp.some_of .none_of)

theorem builds_gparseUntilClause (hm : Builds s₀ m) : Builds s₀ (gparseUntilClause m) := by
  unfold gparseUntilClause
  refine .bind fun _ => .bind_of builds_wordNode fun untilTok huntil => ?_
  refine .bind_of hm fun cond hcond => .bind_of (builds_gparseDoGroup hm) fun doGrp hdoGrp => ?_
  exact .pure (.multi rfl rfl huntil.some_of hcond.some_of hdoGrp.some_of .none_of)

theorem builds_gparseBraceGroup (hm : Builds s₀ m) : Builds s₀ (gparseBraceGroup m) := by
  unfold gparseBraceGroup
  have hbody : BuildsOption s₀ (compoundListOrRbrace m) := by
    unfold compoundListOrRbrace
    refine .bind_of (.attempt hm) fun r hr => ?_
    cases r with
    | ok list => exact .pure hr
    | error e => exact .bind fun _ => .ite (fun _ => .pure Built.none_of) fun _ => .failure _
  refine .bind fun _ => .bind fun _ => .bind_of builds_wordNode fun lbrace hlbrace => ?_
  refine .bind_of hbody fun list hlist => .bind fun _ => ?_
  refine .bind_of builds_wordNode fun rbrace hrbrace => ?_
  exact .pure (.multi rfl rfl hlbrace.some_of hlist hrbrace.some_of .none_of)

theorem builds_gparseCompoundCommand (hm : Builds s₀ m) : Builds s₀ (gparseCompoundCommand m) := by
  unfold gparseCompoundCommand
  refine .bind fun _ => .bind fun _ => .bind fun type => ?_
  have hchild : Builds s₀ (compoundCommandOf m type) := by
    unfold compoundCommandOf
    split
    · exact builds_gparseBraceGroup hm
    · exact builds_gparseSubshell hm
    · exact builds_gparseForClause hm
    · exact builds_gparseCaseClause hm
    · exact builds_gparseIfClause hm
    · exact builds_gparseWhileClause hm
    · exact builds_gparseUntilClause hm
    · exact .bind fun _ => .failure _
  exact .bind_of hchild fun child hchild => .pure (.child rfl rfl hchild)

/-! ## Function definitions -/

/-- A token of a later state that is no promoted word is the token of the earlier one. -/
theorem getElem?_of_le {s : Parser} {i : ℕ} {tok : Token} (hs : s₀ ≤ s) (h : s.tokens[i]? = some tok)
    (htype : ¬ tok.type.IsReserved) : s₀.tokens[i]? = some tok := by
  have hpromotes := List.forall₂_iff_get.mp hs.promotes
  obtain ⟨hi, rfl⟩ := List.getElem?_eq_some_iff.mp h
  have hi₀ : i < s₀.tokens.length := hpromotes.1 ▸ hi
  have heq : s.tokens[i] = s₀.tokens[i] := (hpromotes.2 i hi₀ hi).type_eq htype
  rw [heq, List.getElem?_eq_getElem hi₀]

theorem hasFunctionHeading_of_namesFunction {s : Parser} (hs : s₀ ≤ s) (h : NamesFunction s) :
    HasFunctionHeading s₀.tokens := by
  obtain ⟨hword, hparen, hname⟩ := h
  obtain ⟨name, hcurrent, htype⟩ := exists_token (s := s) (by rw [hword]; decide)
  rw [hword] at htype
  rw [atFunctionParen] at hparen
  split at hparen
  · next paren hpeek =>
    have hlparen : paren.type = .lparen := of_decide_eq_true hparen
    refine ⟨s.position, name, paren, getElem?_of_le hs hcurrent (by rw [htype]; decide),
      getElem?_of_le hs hpeek (by rw [hlparen]; decide), htype, fun word hw => ?_, hlparen⟩
    have := hname word (by rw [hcurrent]; exact hw)
    simpa using this
  · cases hparen

theorem builds_gparseFunctionDefinition (m : Production Gnode) :
    Builds s₀ (gparseFunctionDefinition m) := by
  intro s g t hs hrun
  have hnames : NamesFunction s := by
    by_contra hnot
    obtain ⟨u, hfail, -⟩ := run_gparseFunctionDefinition_of_not hnot
    rw [hfail] at hrun
    cases hrun
  unfold gparseFunctionDefinition at hrun
  simp only [run_bind, Reply.bind_eq_ok] at hrun
  obtain ⟨_, _, -, _, _, -, _, _, -, fname, _, hfname, lparen, _, -, _, _, -, rparen, _, -, _, _, -,
    _, _, -, body, _, -, hpure⟩ := hrun
  cases hpure
  obtain ⟨tok, origin, rfl⟩ := takeLeaf_ok hfname
  exact .function (hasFunctionHeading_of_namesFunction hs hnames) tok origin lparen rparen body

/-! ## Commands and lists -/

theorem builds_gparseRedirectedCompound (hm : Builds s₀ m) :
    Builds s₀ (gparseRedirectedCompound m) := by
  unfold gparseRedirectedCompound
  refine .bind_of (builds_gparseCompoundCommand hm) fun compound hcompound => ?_
  refine .bind_of (.attempt builds_gparseRedirectList) fun r hr => ?_
  cases r with
  | ok redirects =>
    have hnode : Built s₀.tokens
        (.multi .command .multi (some compound) (some redirects) none none) :=
      .multi rfl rfl hcompound.some_of (hr redirects rfl).some_of .none_of .none_of
    exact .pure (.child rfl rfl hnode)
  | error e => exact .pure (.child rfl rfl hcompound)

theorem builds_gparseCommand (hm : Builds s₀ m) : Builds s₀ (gparseCommand m) := by
  unfold gparseCommand
  have hrest : Builds s₀ (gparseCompoundOrSimple m) := by
    refine .bind_of (.attempt (builds_gparseRedirectedCompound hm)) fun r hr => ?_
    have hsimple : Builds s₀ (commandNode <$> gparseSimpleCommand) :=
      .map builds_gparseSimpleCommand fun g hg => .child rfl rfl hg
    cases r with
    | ok node => exact .pure (hr node rfl)
    | error e =>
      cases e with
      | incomplete => exact .failure _
      | error => exact hsimple
      | empty => exact hsimple
  refine .bind_of (.attempt (builds_gparseFunctionDefinition m)) fun r hr => ?_
  cases r with
  | ok func => exact .pure (.child rfl rfl (hr func rfl))
  | error e =>
    cases e with
    | incomplete => exact .failure _
    | error => exact hrest
    | empty => exact hrest

theorem builds_gparsePipeline (hm : Builds s₀ m) : Builds s₀ (gparsePipeline m) := by
  unfold gparsePipeline gparsePipeSequence optionalBang
  have hbang : BuildsAll s₀ optionalBang := by
    unfold optionalBang
    refine .bind fun type => .ite (fun _ => ?_) fun _ => .pure (by simp)
    exact .bind_of builds_wordNode fun bang hbang => .pure (singleton_built hbang)
  have hseq : Builds s₀ (gparsePipeSequence m) := by
    refine .bind_of (builds_gparseCommand hm) fun cmd hcmd => ?_
    have hloop : BuildsAll s₀ (loop (pipeSequenceStep m) [cmd]) := by
      refine .loop (fun gs hgs => ?_) (singleton_built hcmd)
      unfold pipeSequenceStep
      refine .bind fun type => .ite (fun _ => ?_) fun _ => .pure builtLists_none
      refine .bind_of builds_wordNode fun pipe hpipe => .bind fun _ => ?_
      refine .bind_of (builds_gparseCommand hm) fun next hnext => ?_
      exact .pure (builtLists_append hgs (List.forall_mem_cons.mpr ⟨hpipe, singleton_built hnext⟩))
    exact .bind_of hloop fun gs hgs => .pure (.list rfl rfl hgs)
  refine .bind fun _ => .bind fun _ => .bind_of hbang fun bang hbang => ?_
  refine .bind_of hseq fun seq hseq => ?_
  exact .pure (.list rfl rfl (forall_built_append hbang (singleton_built hseq)))

/-- The type that a production tests is that of a token, unless the input has ended or the token
was promoted. -/
theorem yieldsAfter_tokenType : YieldsAfter s₀ (fun type =>
    type ≠ .eof → ¬ type.IsReserved → ∃ tok ∈ s₀.tokens, tok.type = type) tokenType := by
  intro s type t hs hrun hne hreserved
  rw [run_tokenType] at hrun
  cases hrun
  obtain ⟨tok, htok, htype⟩ := exists_token hne
  exact ⟨tok, List.mem_of_getElem? (getElem?_of_le hs htok (htype ▸ hreserved)), htype⟩

/-- An operator makes an and-or list of what stands before and behind it. -/
theorem builds_gparseAndOr (hm : Builds s₀ m) : Builds s₀ (gparseAndOr m) := by
  unfold gparseAndOr
  refine .bind_of (builds_gparsePipeline hm) fun left hleft => .loop (fun left hleft => ?_) hleft
  unfold andOrStep gparseAndOrTail
  refine .bind_of yieldsAfter_tokenType fun type htype => .ite (fun _ => .pure nofun) fun hop => ?_
  have hoperator : HasAndOrOperator s₀.tokens := by
    have hor : type = .andIf ∨ type = .orIf := by tauto
    obtain ⟨tok, htok, heq⟩ := htype (by rcases hor with rfl | rfl <;> decide)
      (by rcases hor with rfl | rfl <;> decide)
    exact ⟨tok, htok, heq ▸ hor⟩
  have htail : YieldsAfter s₀ (fun r : Gnode × Gnode => ∃ tok origin, r.1 = .ofToken .andOr tok origin)
      (gparseAndOrTail m) := by
    unfold gparseAndOrTail
    refine .bind fun tok => .bind fun _ => .bind fun _ => .bind fun right => ?_
    exact .pure ⟨tok.1, tok.2, rfl⟩
  refine .bind_of (.orBack htail) fun o ho => ?_
  cases o with
  | none => exact .pure nofun
  | some r =>
    obtain ⟨op, right⟩ := r
    obtain ⟨tok, origin, rfl⟩ := ho _ rfl
    refine .pure ?_
    rintro _ ⟨⟩
    exact .andOr hoperator left right tok origin

/-- The turn of a loop that reads a separator and what stands behind it. -/
theorem builds_listTurn {sepOf next : Production Gnode} (hsep : Builds s₀ sepOf)
    (hnext : Builds s₀ next) (hgs : ∀ g ∈ gs, Built s₀.tokens g) :
    YieldsAfter s₀ (BuiltLists s₀) (do
      match ← orRewind (do
          let sep ← sepOf
          let next ← next
          return [sep, next]) with
      | some more => return some (gs ++ more)
      | none => return none) := by
  have hmore : BuildsAll s₀ (do
      let sep ← sepOf
      let next ← next
      return [sep, next]) :=
    .bind_of hsep fun sep hsep => .bind_of hnext fun next hnext =>
      .pure (List.forall_mem_cons.mpr ⟨hsep, singleton_built hnext⟩)
  refine .bind_of (.orBack hmore) fun o ho => ?_
  cases o with
  | none => exact .pure builtLists_none
  | some more => exact .pure (builtLists_append hgs (ho more rfl))

theorem builds_compoundListBody (hm : Builds s₀ m) : Builds s₀ (compoundListBody m) := by
  unfold compoundListBody
  have hterm : Builds s₀ (gparseTerm m) := by
    refine .bind_of (builds_gparseAndOr hm) fun first hfirst => ?_
    have hloop : BuildsAll s₀ (loop (termStep m) [first]) :=
      .loop (fun gs hgs => builds_listTurn builds_gparseSeparator (builds_gparseAndOr hm) hgs)
        (singleton_built hfirst)
    exact .bind_of hloop fun gs hgs => .pure (.list rfl rfl hgs)
  refine .bind fun _ => .bind_of hterm fun term hterm => ?_
  refine .bind_of (.attempt builds_gparseSeparator) fun sep hsep => ?_
  exact .pure (.pair rfl rfl hterm.some_of hsep)

theorem builds_gparseCompoundListFor (n : ℕ) : Builds s₀ (gparseCompoundListFor n) := by
  induction n with
  | zero => exact .stop _
  | succ n ih => exact builds_compoundListBody ih

theorem builds_gparseCompoundList : Builds s₀ gparseCompoundList := by
  intro s g t hs hrun
  exact builds_compoundListBody (builds_gparseCompoundListFor (remaining s)) s g t hs hrun

/-! ## Programs -/

theorem builds_gparseCompleteCommand (hm : Builds s₀ m) : Builds s₀ (gparseCompleteCommand m) := by
  unfold gparseCompleteCommand
  have hlist : Builds s₀ (gparseList m) := by
    refine .bind_of (builds_gparseAndOr hm) fun first hfirst => ?_
    have hloop : BuildsAll s₀ (loop (listStep m) [first]) :=
      .loop (fun gs hgs => builds_listTurn builds_gparseSeparatorOp (builds_gparseAndOr hm) hgs)
        (singleton_built hfirst)
    exact .bind_of hloop fun gs hgs => .pure (.list rfl rfl hgs)
  refine .bind_of hlist fun list hlist => ?_
  refine .bind_of (.attempt builds_gparseSeparatorOp) fun sep hsep => ?_
  exact .pure (.multi rfl rfl hlist.some_of hsep .none_of .none_of)

theorem builds_gparseCompleteCommands (hm : Builds s₀ m) :
    Builds s₀ (gparseCompleteCommands m) := by
  unfold gparseCompleteCommands
  refine .bind fun _ => .bind_of (builds_gparseCompleteCommand hm) fun cmd hcmd => ?_
  have hloop : BuildsAll s₀ (loop (completeCommandsStep m) [cmd]) := by
    refine .loop (fun gs hgs => ?_) (singleton_built hcmd)
    unfold completeCommandsStep
    refine .bind fun type => .ite (fun _ => .pure builtLists_none) fun _ => .bind fun _ => ?_
    refine .bind_of (.attempt (builds_gparseCompleteCommand hm)) fun r hr => ?_
    cases r with
    | ok next => exact .pure (builtLists_append hgs (singleton_built (hr next rfl)))
    | error e =>
      cases e with
      | empty => exact .pure builtLists_none
      | error => exact .failure _
      | incomplete => exact .failure _
  exact .bind_of hloop fun gs hgs => .pure (.list rfl rfl hgs)

theorem builds_gparseProgram (hm : Builds s₀ m) : Builds s₀ (gparseProgram m) := by
  unfold gparseProgram
  have hnode : Builds s₀ (programNode m) := by
    unfold programNode
    refine .bind_of (.attempt (builds_gparseCompleteCommands hm)) fun r hr => ?_
    cases r with
    | ok commands => exact .pure (.child rfl rfl (hr commands rfl))
    | error e =>
      cases e with
      | empty => exact .pure .empty
      | error => exact .failure _
      | incomplete => exact .failure _
  exact .bind fun _ => .bind_of hnode fun program hprogram => .bind fun _ => .pure hprogram

theorem parserParseProgram_built {tokens : List Token} {t : Parser} {g : Gnode}
    (h : parserParseProgram tokens = .ok g t) : Built tokens g := by
  rw [parserParseProgram] at h
  split_ifs at h
  have hprogram : Builds (create tokens) (gparseProgram gparseCompoundList) :=
    builds_gparseProgram builds_gparseCompoundList
  exact hprogram _ _ _ le_rfl h

/-- The payload types of a program's nodes name the members that were written exactly if the program
has no and-or list and no function definition. It has none if no token is an operator of an and-or
list and no name stands before an opening parenthesis. -/
theorem parserParseProgram_tagged_iff {tokens : List Token} {t : Parser} {g : Gnode}
    (h : parserParseProgram tokens = .ok g t) :
    (g.Tagged ↔ g.Without .andOr ∧ g.Without .functionDefinition) ∧
      (¬ HasAndOrOperator tokens → ¬ HasFunctionHeading tokens → g.Tagged) :=
  ⟨(parserParseProgram_built h).tagged_iff, (parserParseProgram_built h).tagged⟩

/-- The nodes of the program `a`. -/
theorem parserParseProgram_tagged :
    ∃ t g, parserParseProgram [.ofText "a"] = .ok g t ∧ g.Tagged := by
  obtain ⟨t, g, h⟩ : ∃ t g, parserParseProgram [.ofText "a"] = .ok g t := ⟨_, _, rfl⟩
  have hop : ¬ HasAndOrOperator [.ofText "a"] := by simp [HasAndOrOperator, Token.ofText]
  have hfn : ¬ HasFunctionHeading [.ofText "a"] := by simp [HasFunctionHeading]
  exact ⟨t, g, h, (parserParseProgram_tagged_iff h).2 hop hfn⟩

/-- The operator in `a && b` is a token in a node whose payload type stands for several children. -/
theorem parserParseProgram_not_tagged :
    ∃ t g, parserParseProgram [.ofText "a", .ofType .andIf, .ofText "b"] = .ok g t ∧
      ¬ g.Tagged := by
  refine ⟨_, _, rfl, ?_⟩
  decide

end Parser

end Migash
