import Migash.Library.Gives
import Migash.Lower
import Migash.Parser.Stops

/-! # The items of a case statement

The grammar gives a case statement any number of items of which the last may
lack its `;;`. `gparse_case_list` stops in front of that item after it has read
it, so that the item is in no node of the tree.
-/

namespace Migash.Parser

open Library Forward

/-! ## The items of the source -/

/-- An item of a case statement: its patterns, its body, and whether a `;;` ends it. -/
structure SourceItem where
  patterns : Gnode
  body : Option Gnode
  ended : Bool

/-- The items of a case statement, and the type of the token that closes it. -/
structure SourceCase where
  items : List SourceItem
  closing : TokenType

section Productions

variable (gparseCompoundList : Production Gnode)

/-- An item as the grammar has it, with its `;;` or without. -/
def sourceCaseItem : Production SourceItem := do
  let _lparen ← optionalLparen
  let patterns ← gparsePatternList
  expect .rparen "Expected ')' after pattern list"
  let _rparen ← takeLeaf .wordNode
  let body ← compoundListOrNewlines gparseCompoundList
  if (← tokenType) = .dsemi then
    let _dsemi ← takeLeaf .wordNode
    parserSkipNewlines
    return ⟨patterns, body, true⟩
  else return ⟨patterns, body, false⟩

/-- Items follow each other up to `esac` or to one that is not ended. -/
def sourceCaseStep (items : List SourceItem) : Production (Option (List SourceItem)) := do
  if items.all SourceItem.ended then
    if ← inspect atEsac then return none
    else
      let item ← sourceCaseItem gparseCompoundList
      return some (items ++ [item])
  else return none

/-- What stands before the items. -/
def caseHeader : Production (Gnode × Gnode × Gnode) := do
  require .case_
  let caseTok ← takeLeaf .wordNode
  expect .word "Expected word after 'case'"
  let word ← takeLeaf .wordNode
  parserSkipNewlines
  parserTokenTryPromoteToIn 0
  expect .in_ "Expected 'in' in case statement"
  let inTok ← takeLeaf .wordNode
  parserSkipNewlines
  return (caseTok, word, inTok)

/-- What stands behind the items. -/
def caseEnd : Production Gnode := do
  parserTokenTryPromoteToEsac 0
  expect .esac "Expected 'esac' to close case statement"
  takeLeaf .wordNode

/-- A case statement as the grammar has it. -/
def sourceCaseClause : Production SourceCase := do
  let _header ← caseHeader
  let items ← loop (sourceCaseStep gparseCompoundList) []
  let closing ← tokenType
  let _esac ← caseEnd
  return ⟨items, closing⟩

/-- The node of a case clause. -/
def caseNode (header : Gnode × Gnode × Gnode) (list : Option Gnode) (esac : Gnode) : Gnode :=
  let node := Gnode.ofMulti .caseClause (some header.1) (some header.2.1) (some header.2.2)
    (some esac)
  match list with
  | some list => .ofMulti .caseClause (some node) (some list) none none
  | none => node

theorem pure_caseNode (caseTok word inTok esac : Gnode) (list : Option Gnode) :
    (pure (caseNode (caseTok, word, inTok) list esac) : Production Gnode) =
      (let node := Gnode.ofMulti .caseClause (some caseTok) (some word) (some inTok) (some esac)
      match list with
      | some list => return .ofMulti .caseClause (some node) (some list) none none
      | none => return node) := by
  cases list <;> rfl

theorem gparseCaseClause_eq :
    gparseCaseClause gparseCompoundList = (do
      let header ← caseHeader
      let list ← caseItems gparseCompoundList
      let esac ← caseEnd
      return caseNode header list esac) := by
  simp only [caseHeader, caseEnd, bind_assoc, pure_bind, pure_caseNode]
  rfl

end Productions

/-! ## The items of the tree -/

/-- The patterns and the body of the node of an item. -/
def itemParts : Gnode → Option Gnode × Option Gnode
  | .multi .caseItem _ (some (.multi .caseItem _ _ patterns _ body)) _ _ _ => (patterns, body)
  | .multi .caseItemNs _ _ patterns _ body => (patterns, body)
  | _ => (none, none)

/-- The items in a list of items; the list before an item without `;;` is one of its elements. -/
def listItems : Gnode → List (Option Gnode × Option Gnode)
  | .list .caseList _ nodes => nodes.map itemParts
  | node => [itemParts node]

/-- The items in the tree of a case clause. -/
def treeItems : Gnode → List (Option Gnode × Option Gnode)
  | .multi .caseClause _ (some (.multi .caseClause ..)) (some (.list _ _ nodes)) _ _ =>
    nodes.flatMap listItems
  | _ => []

/-- The item of the syntax tree for an item of the source. -/
def LowersItem (n : ℕ) (item : SourceItem) (ast : Ast) : Prop :=
  ∃ patterns body action, ast = .caseItem patterns body action ∧
    Lower.tokenListFromPatternList item.patterns = .ok patterns ∧
    item.body.mapM (lowerers n).compoundList = .ok body

/-- The tree and the syntax tree it is lowered to hold the items of the statement that begins at
`s`, in order, and the statement is read to its end. -/
def HoldsItems (s t : Parser) (g : Gnode) : Prop :=
  ∃ c t', (sourceCaseClause Parser.gparseCompoundList).run s = .ok c t' ∧
    t.position = t'.position ∧
    treeItems g = c.items.map (fun item => (some item.patterns, item.body)) ∧
    ∀ n ast, Lower.lowerCaseClause (lowerers n) g = .ok ast →
      ∃ word asts, ast = .caseClause word asts ∧ List.Forall₂ (LowersItem n) c.items asts

/-- Every item of the statement is ended by `;;`, and without items the `esac` is a reserved word
when the parser comes to it. -/
def AllEnded (s : Parser) : Prop :=
  ∃ c t', (sourceCaseClause Parser.gparseCompoundList).run s = .ok c t' ∧
    (∀ item ∈ c.items, item.ended = true) ∧ (c.items = [] → c.closing = .esac)

/-! ## One item -/

/-- The node of an item that is ended. -/
def EndedNode (item : SourceItem) (node : Gnode) : Prop :=
  (∀ body ∈ item.body, body.type = .compoundList) ∧
    ∃ lparen rparen dsemi, node = .ofMulti .caseItem
      (some (.ofMulti .caseItem lparen (some item.patterns) (some rparen) item.body))
      (some dsemi) none none

theorem yields_compoundListBody (m : Production Gnode) :
    Yields (fun g => g.type = .compoundList) (compoundListBody m) := by
  unfold compoundListBody
  apply Yields.bind
  intro _
  apply Yields.bind
  intro term
  apply Yields.bind
  intro sep
  exact Yields.pure rfl

theorem yields_gparseCompoundList :
    Yields (fun g => g.type = .compoundList) Parser.gparseCompoundList := by
  intro s g t h
  exact yields_compoundListBody (gparseCompoundListFor (remaining s)) s g t h

/-- An item up to its `;;`. -/
def itemFront : Production (Option Gnode × Gnode × Gnode × Option Gnode) := do
  let lparen ← optionalLparen
  let patterns ← gparsePatternList
  expect .rparen "Expected ')' after pattern list"
  let rparen ← takeLeaf .wordNode
  let body ← compoundListOrNewlines Parser.gparseCompoundList
  return (lparen, patterns, rparen, body)

theorem gparseCaseItem_eq : gparseCaseItem Parser.gparseCompoundList = (do
    let (lparen, patterns, rparen, body) ← itemFront
    expect .dsemi "Expected ';;' after case item"
    let dsemi ← takeLeaf .wordNode
    parserSkipNewlines
    let node := Gnode.ofMulti .caseItem lparen (some patterns) (some rparen) body
    return .ofMulti .caseItem (some node) (some dsemi) none none) := by
  simp only [itemFront, bind_assoc, pure_bind]
  rfl

theorem sourceCaseItem_eq : sourceCaseItem Parser.gparseCompoundList = (do
    let (_, patterns, _, body) ← itemFront
    if (← tokenType) = .dsemi then
      let _dsemi ← takeLeaf .wordNode
      parserSkipNewlines
      return ⟨patterns, body, true⟩
    else return ⟨patterns, body, false⟩) := by
  simp only [itemFront, bind_assoc, pure_bind]
  rfl

theorem itemFront_body {s t : Parser} {lparen body : Option Gnode} {patterns rparen : Gnode}
    (h : itemFront.run s = .ok (lparen, patterns, rparen, body) t) :
    ∀ b ∈ body, b.type = .compoundList := by
  unfold itemFront at h
  simp only [run_bind, Reply.bind_eq_ok] at h
  obtain ⟨_, s₁, -, _, s₂, -, _, s₃, -, _, s₄, -, body', s₅, hbody, hpure⟩ := h
  cases hpure
  intro b hb
  unfold compoundListOrNewlines at hbody
  simp only [run_bind, run_attempt] at hbody
  cases hlist : Parser.gparseCompoundList.run s₄ with
  | ok list u =>
    rw [hlist] at hbody
    cases hbody
    obtain rfl : list = b := by simpa using hb
    exact yields_gparseCompoundList _ _ _ hlist
  | fail e u =>
    rw [hlist] at hbody
    cases hbody
    cases hb
  | fault c =>
    rw [hlist] at hbody
    cases hbody

section Item

variable {s t : Parser} {item : SourceItem}

/-- An item that is ended is an item of the tree. -/
theorem gparseCaseItem_of_ended
    (h : (sourceCaseItem Parser.gparseCompoundList).run s = .ok item t)
    (hended : item.ended = true) :
    ∃ node, (gparseCaseItem Parser.gparseCompoundList).run s = .ok node t ∧
      EndedNode item node := by
  rw [sourceCaseItem_eq, run_bind, Reply.bind_eq_ok] at h
  obtain ⟨⟨lparen, patterns, rparen, body⟩, u, hfront, h⟩ := h
  simp only [run_bind, run_tokenType, Reply.bind_ok] at h
  split_ifs at h with htype
  · obtain ⟨tok, htok, -⟩ := exists_token (s := u) (by rw [htype]; decide)
    simp only [run_bind, run_takeLeaf htok, Reply.bind_ok, run_parserSkipNewlines, run_pure] at h
    cases h
    refine ⟨_, ?_, itemFront_body hfront, lparen, rparen, .ofToken .wordNode tok u.position, rfl⟩
    rw [gparseCaseItem_eq, run_bind, hfront]
    simp only [Reply.bind_ok, run_bind, run_expect, htype, if_true, run_takeLeaf htok,
      run_parserSkipNewlines, run_pure]
  · cases h
    cases hended

/-- An item that is not ended is read and given up. -/
theorem gparseCaseItem_of_not_ended
    (h : (sourceCaseItem Parser.gparseCompoundList).run s = .ok item t)
    (hended : item.ended = false) :
    ∃ u, (gparseCaseItem Parser.gparseCompoundList).run s = .fail .error u ∧
      u.position = t.position := by
  rw [sourceCaseItem_eq, run_bind, Reply.bind_eq_ok] at h
  obtain ⟨⟨lparen, patterns, rparen, body⟩, u, hfront, h⟩ := h
  simp only [run_bind, run_tokenType, Reply.bind_ok] at h
  split_ifs at h with htype
  · obtain ⟨tok, htok, -⟩ := exists_token (s := u) (by rw [htype]; decide)
    simp only [run_bind, run_takeLeaf htok, Reply.bind_ok, run_parserSkipNewlines, run_pure] at h
    cases h
    cases hended
  · cases h
    refine ⟨t.setError "Expected ';;' after case item", ?_, setError_position _ _⟩
    rw [gparseCaseItem_eq, run_bind, hfront]
    simp only [Reply.bind_ok, run_bind, run_expect, htype, if_false, Reply.bind_fail]

end Item

/-! ## The loop -/

theorem consumes_sourceCaseItem {p : SourceItem → Prop} :
    Consumes p (sourceCaseItem Parser.gparseCompoundList) :=
  .bind_right fun _ => .bind_left (consumes_gparsePatternList (p := fun _ => True)) fun _ => trivial

theorem consumes_sourceCaseStep (items : List SourceItem) :
    Consumes (fun o => o.isSome) (sourceCaseStep Parser.gparseCompoundList items) :=
  .ite (fun _ => .bind_right fun _ => .ite (fun _ => .pure (by simp))
    fun _ => .bind_left (consumes_sourceCaseItem (p := fun _ => True)) fun _ => trivial)
    fun _ => .pure (by simp)

theorem run_sourceCaseStep {items : List SourceItem} (hended : items.all SourceItem.ended = true)
    (s : Parser) :
    (sourceCaseStep Parser.gparseCompoundList items).run s =
      if atEsac s then .ok none s
      else ((sourceCaseItem Parser.gparseCompoundList).run s).bind fun item t =>
        .ok (some (items ++ [item])) t := by
  unfold sourceCaseStep
  rw [if_pos hended, run_bind, run_inspect, Reply.bind_ok]
  split_ifs <;> rfl

/-- `gparse_case_list` follows the items of the source up to one that is not ended. -/
theorem caseListLoop_ended {items items' : List SourceItem} {nodes : List Gnode} {s t : Parser}
    (hended : items.all SourceItem.ended = true) (hnodes : List.Forall₂ EndedNode items nodes)
    (h : (loop (sourceCaseStep Parser.gparseCompoundList) items).run s = .ok items' t) :
    ∃ nodes' u, (loop (caseListStep Parser.gparseCompoundList) nodes).run s = .ok nodes' u ∧
      List.Forall₂ EndedNode (items'.filter SourceItem.ended) nodes' ∧
      (items'.all SourceItem.ended = true → u = t) := by
  induction hn : remaining s using Nat.strongRecOn generalizing items nodes s with
  | ind n ih =>
    rw [run_loop consumes_sourceCaseStep, run_sourceCaseStep hended] at h
    rw [run_loop consumes_caseListStep]
    have hfilter : items.filter SourceItem.ended = items :=
      List.filter_eq_self.mpr (by simpa using hended)
    by_cases hesac : atEsac s
    · rw [if_pos hesac, Reply.bind_ok] at h
      have hstep : (caseListStep Parser.gparseCompoundList nodes).run s = .ok none s := by
        simp [caseListStep, hesac]
      rw [hstep]
      cases h
      exact ⟨nodes, t, rfl, hfilter.symm ▸ hnodes, fun _ => rfl⟩
    · rw [if_neg hesac, Reply.bind_eq_ok] at h
      obtain ⟨o, s₁, hitem, h⟩ := h
      rw [Reply.bind_eq_ok] at hitem
      obtain ⟨item, s₁', hitem, ho⟩ := hitem
      cases ho
      cases hit : item.ended with
      | true =>
        obtain ⟨node, hnode, hend⟩ := gparseCaseItem_of_ended hitem hit
        have hstep : (caseListStep Parser.gparseCompoundList nodes).run s =
            .ok (some (nodes ++ [node])) s₁ := by
          simp [caseListStep, hesac, run_attempt, hnode]
        rw [hstep]
        have hlt := consumes_sourceCaseItem (p := fun _ => True) s item s₁ hitem trivial
        exact ih _ (hn ▸ hlt) (by simpa [hit] using hended)
          (List.rel_append hnodes (.cons hend .nil)) h rfl
      | false =>
        obtain ⟨u, hfail, -⟩ := gparseCaseItem_of_not_ended hitem hit
        have hstep : (caseListStep Parser.gparseCompoundList nodes).run s = .ok none u := by
          simp [caseListStep, hesac, run_attempt, hfail]
        rw [hstep]
        have hbreak : (sourceCaseStep Parser.gparseCompoundList (items ++ [item])).run s₁ =
            .ok none s₁ := by
          simp [sourceCaseStep, hit]
        have hloop := (run_loop_break hbreak).symm.trans h
        cases hloop
        refine ⟨nodes, u, rfl, ?_, fun hall => ?_⟩
        · rw [List.filter_append, hfilter, List.filter_singleton, hit]
          simpa using hnodes
        · simp [hit] at hall

/-- The loop over the items only adds items. -/
theorem yields_sourceCaseLoop {items : List SourceItem} (h : items ≠ []) :
    Yields (fun items => items ≠ []) (loop (sourceCaseStep Parser.gparseCompoundList) items) := by
  apply Yields.loop (p := fun items => items ≠ []) _ h
  intro items hitems
  unfold sourceCaseStep
  apply Yields.ite
  · intro _
    apply Yields.bind
    intro esac
    apply Yields.ite
    · intro _
      exact Yields.pure (by simp)
    · intro _
      apply Yields.bind
      intro item
      exact Yields.pure (by simp)
  · intro _
    exact Yields.pure (by simp)

/-! ## The list of items -/

/-- What the parser makes of the items of the source. -/
theorem caseItems_cases {items : List SourceItem} {s t : Parser}
    (h : (loop (sourceCaseStep Parser.gparseCompoundList) []).run s = .ok items t) :
    (items = [] ∧ t = s) ∨
      (∃ nodes u, items ≠ [] ∧ (caseItems Parser.gparseCompoundList).run s =
          .ok (some (.ofList .caseList nodes)) u ∧
        List.Forall₂ EndedNode (items.filter SourceItem.ended) nodes ∧
        (items.all SourceItem.ended = true → u = t)) ∨
      ∃ last u, items = [last] ∧ last.ended = false ∧
        (gparseCaseList Parser.gparseCompoundList).run s = .fail .error u ∧
        u.position = t.position := by
  rw [run_loop consumes_sourceCaseStep, run_sourceCaseStep rfl] at h
  by_cases hesac : atEsac s
  · rw [if_pos hesac, Reply.bind_ok] at h
    cases h
    exact .inl ⟨rfl, rfl⟩
  · rw [if_neg hesac, Reply.bind_eq_ok] at h
    obtain ⟨o, s₁, hitem, h⟩ := h
    rw [Reply.bind_eq_ok] at hitem
    obtain ⟨item, s₁', hitem, ho⟩ := hitem
    cases ho
    right
    cases hit : item.ended with
    | true =>
      left
      obtain ⟨node, hnode, hend⟩ := gparseCaseItem_of_ended hitem hit
      obtain ⟨nodes, u, hloop, hnodes, hu⟩ :=
        caseListLoop_ended (by simpa using hit) (.cons hend .nil) h
      refine ⟨nodes, u, yields_sourceCaseLoop (by simp) s₁ items t h, ?_, hnodes, hu⟩
      simp [caseItems, run_attempt, gparseCaseList, hnode, hloop]
    | false =>
      right
      obtain ⟨u, hfail, hu⟩ := gparseCaseItem_of_not_ended hitem hit
      have hbreak : (sourceCaseStep Parser.gparseCompoundList ([] ++ [item])).run s₁ =
          .ok none s₁ := by
        simp [sourceCaseStep, hit]
      have hloop := (run_loop_break hbreak).symm.trans h
      cases hloop
      exact ⟨item, u, rfl, hit, by simp [gparseCaseList, hfail], hu⟩

/-- Without items an `esac` that is a reserved word is left where it is. -/
theorem run_caseItems_of_esac {s : Parser} (h : s.currentTokenType = .esac) :
    (caseItems Parser.gparseCompoundList).run s = .ok none s := by
  have hlparen : optionalLparen.run s = .ok none s := by
    simp [optionalLparen, h]
  have hpatterns : gparsePatternList.run s = .fail .error s := by
    simp [gparsePatternList, run_require, h]
  have hlist : (gparseCaseList Parser.gparseCompoundList).run s = .fail .error s := by
    simp [gparseCaseList, gparseCaseItem, hlparen, hpatterns]
  simp [caseItems, run_attempt, hlist, gparseCaseListNs, gparseCaseItemNs, hlparen, hpatterns,
    Except.toOption]

/-- A word in the place of the first item is taken for a pattern. -/
theorem caseItems_of_word {s t : Parser} {list : Option Gnode} (h : s.currentTokenType = .word)
    (hrun : (caseItems Parser.gparseCompoundList).run s = .ok list t) :
    s.position < t.position := by
  obtain ⟨tok, htok, -⟩ := exists_token (s := s) (by rw [h]; decide)
  have hpatterns : (gparsePatternList.run s).From s.advance := by
    unfold gparsePatternList
    rw [run_bind, run_require, if_pos h, Reply.bind_ok, run_bind, run_takeLeaf htok, Reply.bind_ok]
    exact Forward.forward _ _
  have hlist : ((gparseCaseList Parser.gparseCompoundList).run s).From s.advance := by
    have hlparen : optionalLparen.run s = .ok none s := by
      simp [optionalLparen, h]
    unfold gparseCaseList gparseCaseItem
    rw [run_bind, run_bind, hlparen, Reply.bind_ok, run_bind]
    apply Reply.From.bind
    · apply hpatterns.bind
      intro a u
      exact Forward.forward _ _
    · intro a u
      exact Forward.forward _ _
  have hadvance := advance_position (position_lt (s := s) (by rw [h]; decide))
  have hle : s.advance ≤ t := by
    unfold caseItems at hrun
    rw [run_bind, run_attempt] at hrun
    cases hcase : (gparseCaseList Parser.gparseCompoundList).run s with
    | ok node u =>
      rw [hcase] at hlist hrun
      cases hrun
      exact hlist
    | fail e u =>
      rw [hcase] at hlist hrun
      exact le_trans hlist (le_of_ok hrun)
    | fault c =>
      rw [hcase] at hrun
      cases hrun
  have hposition := hle.position_le
  omega

theorem consumes_gparseCaseListNs {p : Gnode → Prop} :
    Consumes p (gparseCaseListNs Parser.gparseCompoundList) :=
  .bind_right fun _ => .bind_left (p := fun _ => True) (.bind_right fun _ =>
    .bind_left (consumes_gparsePatternList (p := fun _ => True)) fun _ => trivial) fun _ => trivial

theorem position_lt_of_remaining {s t : Parser} (hle : s ≤ t) (h : remaining t < remaining s) :
    s.position < t.position := by
  rw [remaining_eq, remaining_eq, length_eq_of_le hle] at h
  have hbounded := t.bounded
  rw [length_eq_of_le hle] at hbounded
  omega

/-- Behind an item that could not be read there is no list, or one that begins further on. -/
theorem caseItems_of_fail {s u t : Parser} {list : Option Gnode}
    (hfail : (gparseCaseList Parser.gparseCompoundList).run s = .fail .error u)
    (hrun : (caseItems Parser.gparseCompoundList).run s = .ok list t) :
    list = none ∨ u.position < t.position := by
  unfold caseItems at hrun
  rw [run_bind, run_attempt, hfail] at hrun
  simp only [Reply.bind_ok, run_map, run_attempt] at hrun
  cases hns : (gparseCaseListNs Parser.gparseCompoundList).run u with
  | ok node v =>
    rw [hns] at hrun
    cases hrun
    right
    exact position_lt_of_remaining (le_of_ok hns)
      (consumes_gparseCaseListNs (p := fun _ => True) u node t hns trivial)
  | fail e v =>
    rw [hns] at hrun
    cases hrun
    exact .inl rfl
  | fault c =>
    rw [hns] at hrun
    cases hrun

theorem caseEnd_ok {s t : Parser} {esac : Gnode} (h : caseEnd.run s = .ok esac t) :
    t.position = s.position + 1 ∧ (s.currentTokenType = .esac ∨ s.currentTokenType = .word) := by
  unfold caseEnd parserTokenTryPromoteToEsac at h
  rw [run_bind, run_tryPromoteTo, Reply.bind_ok, run_bind, run_expect] at h
  split_ifs at h with htype
  · obtain ⟨tok, htok, -⟩ := exists_token (s := s.tryPromote 0 "esac" .esac) (by rw [htype]; decide)
    rw [Reply.bind_ok, run_takeLeaf htok] at h
    cases h
    constructor
    · rw [advance_position (position_lt (by rw [htype]; decide)), tryPromote_position]
    · by_cases hword : s.currentTokenType = .word
      · exact .inr hword
      · left
        rwa [tryPromote_of_ne_word hword] at htype
  · cases h

/-! ## The tree and what it is lowered to -/

theorem takeLeaf_ok {type : GnodeType} {s t : Parser} {g : Gnode}
    (h : (takeLeaf type).run s = .ok g t) : ∃ tok origin, g = .ofToken type tok origin := by
  unfold takeLeaf at h
  simp only [run_bind, Reply.bind_eq_ok] at h
  obtain ⟨⟨tok, origin⟩, u, -, _, v, -, hpure⟩ := h
  cases hpure
  exact ⟨tok, origin, rfl⟩

theorem caseHeader_ok {s t : Parser} {header : Gnode × Gnode × Gnode}
    (h : caseHeader.run s = .ok header t) :
    ∃ caseTok i word j, header.1 = .ofToken .wordNode caseTok i ∧
      header.2.1 = .ofToken .wordNode word j := by
  unfold caseHeader at h
  simp only [run_bind, Reply.bind_eq_ok] at h
  obtain ⟨_, _, -, caseTok, _, hcase, _, _, -, word, _, hword, _, _, -, _, _, -, _, _, -, _, _, -, _,
    _, -, hpure⟩ := h
  cases hpure
  obtain ⟨tok, i, rfl⟩ := takeLeaf_ok hcase
  obtain ⟨tok', j, rfl⟩ := takeLeaf_ok hword
  exact ⟨tok, i, tok', j, rfl, rfl⟩

section Nodes

variable {items : List SourceItem} {nodes : List Gnode}

theorem flatMap_listItems (h : List.Forall₂ EndedNode items nodes) :
    nodes.flatMap listItems = items.map fun item => (some item.patterns, item.body) := by
  induction h with
  | nil => rfl
  | cons hnode _ ih =>
    obtain ⟨-, lparen, rparen, dsemi, rfl⟩ := hnode
    rw [List.flatMap_cons, List.map_cons, ih]
    rfl

/-- An item that is ended keeps its patterns and its body when it is lowered. -/
theorem lowerCaseListItem_ended {n : ℕ} {item : SourceItem} {node : Gnode} {ast : Ast}
    (hnode : EndedNode item node)
    (h : Lower.lowerCaseListItem (lowerers n) node = .ok ast) : LowersItem n item ast := by
  obtain ⟨hbody, lparen, rparen, dsemi, rfl⟩ := hnode
  have hitem : Lower.lowerCaseItem (lowerers n) (.ofMulti .caseItem
      (some (.ofMulti .caseItem lparen (some item.patterns) (some rparen) item.body))
      (some dsemi) none none) = .ok ast := h
  unfold Lower.lowerCaseItem at hitem
  obtain ⟨_, ⟨⟩, hitem⟩ := except_bind_eq_ok.mp hitem
  obtain ⟨_, ⟨⟩, hitem⟩ := except_bind_eq_ok.mp hitem
  obtain ⟨_, ⟨⟩, hitem⟩ := except_bind_eq_ok.mp hitem
  obtain ⟨plist, hplist, hitem⟩ := except_bind_eq_ok.mp hitem
  obtain ⟨patterns, hpatterns, hitem⟩ := except_bind_eq_ok.mp hitem
  have hsame : plist = item.patterns := by
    simp only [Lower.expectType] at hplist
    split_ifs at hplist
    exact (Except.ok.inj hplist).symm
  rw [hsame] at hpatterns
  cases hcase : item.body with
  | none =>
    simp only [hcase] at hitem
    obtain ⟨_, ⟨⟩, hitem⟩ := except_bind_eq_ok.mp hitem
    obtain ⟨action, -, hpure⟩ := except_bind_eq_ok.mp hitem
    cases hpure
    exact ⟨patterns, none, action, rfl, hpatterns, hcase ▸ rfl⟩
  | some b =>
    simp only [hcase, hbody b hcase, if_true] at hitem
    obtain ⟨_, hlower, hitem⟩ := except_bind_eq_ok.mp hitem
    obtain ⟨body, hbody, rfl⟩ := except_map_eq_ok.mp hlower
    obtain ⟨action, -, hpure⟩ := except_bind_eq_ok.mp hitem
    cases hpure
    refine ⟨patterns, some body, action, rfl, hpatterns, ?_⟩
    rw [hcase]
    exact except_map_eq_ok.mpr ⟨body, hbody, rfl⟩

theorem mapM_lowerCaseListItem {n : ℕ} {asts : List Ast} (h : List.Forall₂ EndedNode items nodes)
    (hlower : nodes.mapM (Lower.lowerCaseListItem (lowerers n)) = .ok asts) :
    List.Forall₂ (LowersItem n) items asts := by
  rw [list_mapM_eq_ok] at hlower
  induction h generalizing asts with
  | nil =>
    cases hlower
    exact .nil
  | cons hnode _ ih =>
    cases hlower with
    | cons hast hrest => exact .cons (lowerCaseListItem_ended hnode hast) (ih hrest)

/-- A clause whose items are all ended. -/
theorem lowerCaseClause_ended {n : ℕ} {ast : Ast} {header : Gnode × Gnode × Gnode} {esac : Gnode}
    (h : List.Forall₂ EndedNode items nodes)
    (hlower : Lower.lowerCaseClause (lowerers n)
      (caseNode header (some (.ofList .caseList nodes)) esac) = .ok ast) :
    ∃ word asts, ast = .caseClause word asts ∧ List.Forall₂ (LowersItem n) items asts := by
  unfold Lower.lowerCaseClause at hlower
  obtain ⟨_, ⟨⟩, hlower⟩ := except_bind_eq_ok.mp hlower
  obtain ⟨_, hparts, hlower⟩ := except_bind_eq_ok.mp hlower
  obtain ⟨word, -, hlower⟩ := except_bind_eq_ok.mp hlower
  obtain ⟨subject, -, hlower⟩ := except_bind_eq_ok.mp hlower
  obtain ⟨asts, hasts, hpure⟩ := except_bind_eq_ok.mp hlower
  cases hpure
  cases hparts
  exact ⟨subject, asts, rfl, mapM_lowerCaseListItem h hasts⟩

/-- A clause without items. -/
theorem lowerCaseClause_none {n : ℕ} {ast : Ast} {header : Gnode × Gnode × Gnode} {esac : Gnode}
    {caseTok word : Token} {i j : ℕ} (hcase : header.1 = .ofToken .wordNode caseTok i)
    (hword : header.2.1 = .ofToken .wordNode word j)
    (hlower : Lower.lowerCaseClause (lowerers n) (caseNode header none esac) = .ok ast) :
    ∃ word asts, ast = .caseClause word asts ∧ List.Forall₂ (LowersItem n) [] asts := by
  obtain ⟨_, _, inTok⟩ := header
  dsimp only at hcase hword
  subst hcase hword
  cases hlower
  exact ⟨_, _, rfl, .nil⟩

end Nodes

/-- The tree of a case statement and the tree it is lowered to hold its items exactly if every item
is ended by `;;`. -/
theorem gparseCaseClause_holdsItems_iff (s t : Parser) (g : Gnode)
    (h : (gparseCaseClause Parser.gparseCompoundList).run s = .ok g t) :
    HoldsItems s t g ↔ AllEnded s := by
  rw [gparseCaseClause_eq, run_bind, Reply.bind_eq_ok] at h
  obtain ⟨header, s₁, hheader, h⟩ := h
  rw [run_bind, Reply.bind_eq_ok] at h
  obtain ⟨list, s₂, hlist, h⟩ := h
  rw [run_bind, Reply.bind_eq_ok] at h
  obtain ⟨esac, _, hesac, hpure⟩ := h
  cases hpure
  obtain ⟨hend, -⟩ := caseEnd_ok hesac
  -- both readings share what stands before the items
  have hsource : ∀ {c t'}, (sourceCaseClause Parser.gparseCompoundList).run s = .ok c t' →
      ∃ t₁ esac', (loop (sourceCaseStep Parser.gparseCompoundList) []).run s₁ = .ok c.items t₁ ∧
        c.closing = t₁.currentTokenType ∧ caseEnd.run t₁ = .ok esac' t' := by
    intro c t' hrun
    unfold sourceCaseClause at hrun
    rw [run_bind, hheader, Reply.bind_ok, run_bind, Reply.bind_eq_ok] at hrun
    obtain ⟨items, t₁, hitems, hrun⟩ := hrun
    rw [run_bind, run_tokenType, Reply.bind_ok, run_bind, Reply.bind_eq_ok] at hrun
    obtain ⟨esac', _, hesac', hpure⟩ := hrun
    cases hpure
    exact ⟨t₁, esac', hitems, rfl, hesac'⟩
  constructor
  · rintro ⟨c, t', hrun, hposition, htree, -⟩
    obtain ⟨t₁, esac', hitems, hclosing, hesac'⟩ := hsource hrun
    obtain ⟨hend', htype⟩ := caseEnd_ok hesac'
    refine ⟨c, t', hrun, ?_⟩
    rcases caseItems_cases hitems with ⟨hnil, rfl⟩ | ⟨nodes, u, hne, hnodes, hforall, -⟩ |
      ⟨last, u, hlast, -, hfail, hu⟩
    · refine ⟨by simp [hnil], fun _ => ?_⟩
      rcases htype with htype | hword
      · exact hclosing.trans htype
      · have hlt := caseItems_of_word hword hlist
        omega
    · cases hnodes.symm.trans hlist
      have hlength := congrArg List.length htree
      rw [show treeItems (caseNode header (some (.ofList .caseList nodes)) esac) =
        nodes.flatMap listItems from rfl, flatMap_listItems hforall, List.length_map,
        List.length_map, List.length_filter_eq_length_iff] at hlength
      exact ⟨hlength, fun hnil => absurd hnil hne⟩
    · rcases caseItems_of_fail hfail hlist with rfl | hlt
      · rw [hlast] at htree
        obtain ⟨caseTok, i, word, j, hcase, hword⟩ := caseHeader_ok hheader
        obtain ⟨_, _, inTok⟩ := header
        dsimp only at hcase hword
        subst hcase hword
        cases htree
      · omega
  · rintro ⟨c, t', hrun, hended, hclosing⟩
    obtain ⟨t₁, esac', hitems, hclosing', hesac'⟩ := hsource hrun
    obtain ⟨hend', -⟩ := caseEnd_ok hesac'
    refine ⟨c, t', hrun, ?_⟩
    rcases caseItems_cases hitems with ⟨hnil, rfl⟩ | ⟨nodes, u, hne, hnodes, hforall, hu⟩ |
      ⟨last, u, hlast, hnot, -, -⟩
    · cases (run_caseItems_of_esac (hclosing'.symm.trans (hclosing hnil))).symm.trans hlist
      obtain ⟨caseTok, i, word, j, hcase, hword⟩ := caseHeader_ok hheader
      refine ⟨by omega, ?_, fun n ast hlower => ?_⟩
      · rw [hnil]
        obtain ⟨_, _, inTok⟩ := header
        dsimp only at hcase hword
        subst hcase hword
        rfl
      · rw [hnil]
        exact lowerCaseClause_none hcase hword hlower
    · cases hnodes.symm.trans hlist
      have hall : c.items.all SourceItem.ended = true := by simpa using hended
      rw [List.filter_eq_self.mpr hended] at hforall
      obtain rfl := hu hall
      exact ⟨by omega, flatMap_listItems hforall, fun n ast hlower =>
        lowerCaseClause_ended hforall hlower⟩
    · rw [hended last (by simp [hlast])] at hnot
      cases hnot

/-- `case x in a) b;;` and what follows. -/
def caseTokens (rest : List Token) : List Token :=
  [.ofType .case_, .ofText "x", .ofText "in", .ofText "a", .ofType .rparen, .ofText "b",
    .ofType .dsemi] ++ rest

/-- The item of `case x in a) b;; esac` is in the tree. -/
theorem gparseCaseClause_holdsItems_ended :
    ∃ t g, HoldsItems (create (caseTokens [.ofText "esac"])) t g := by
  refine ⟨_, _, (gparseCaseClause_holdsItems_iff _ _ _ rfl).mpr ⟨_, _, rfl, ?_, ?_⟩⟩
  · rintro item (_ | ⟨_, ⟨⟩⟩)
    rfl
  · rintro ⟨⟩

/-- The second item of `case x in a) b;; c) d; esac` is not. -/
theorem gparseCaseClause_loses_item :
    ∃ s t g, (gparseCaseClause Parser.gparseCompoundList).run s = .ok g t ∧
      ¬ HoldsItems s t g := by
  refine ⟨create (caseTokens [.ofText "c", .ofType .rparen, .ofText "d", .ofType .semi,
    .ofText "esac"]), _, _, rfl, ?_⟩
  rintro ⟨c, t', hrun, -, htree, -⟩
  cases hrun
  cases htree

end Migash.Parser
