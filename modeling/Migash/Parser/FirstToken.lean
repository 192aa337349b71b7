import Migash.Parser.Stops

/-! # The first token of a simple command

`gparse_command` tries its alternatives one behind the other without rewinding,
and `gparse_io_redirect` keeps what a failed attempt has read. A simple command
starts at the token the command was entered at exactly when that token opens no
other alternative and no redirection loses it.
-/

namespace Migash.Parser

open Library Forward

variable {gparseCompoundList : Production Gnode}

/-! ## The first token of a node -/

/-- The index of the first token of a redirection or an assignment. -/
def wordOrigin : Gnode → Option ℕ
  | .token _ _ _ origin => some origin
  | .multi _ _ (some (.token _ _ _ origin)) _ _ _ => some origin
  | .multi _ _ none (some (.token _ _ _ origin)) _ _ => some origin
  | .multi _ _ none none (some (.multi _ _ (some (.token _ _ _ origin)) _ _ _)) _ => some origin
  | .multi _ _ none none (some (.ioHere _ _ _ _ _ origin)) _ => some origin
  | _ => none

/-- The index of the first token of an item of a simple command. -/
def itemOrigin : Gnode → Option ℕ
  | .child .cmdPrefix _ (some node) => wordOrigin node
  | .token _ _ _ origin => some origin
  | _ => none

/-- The index of the first token of a simple command. -/
def simpleCommandOrigin : Gnode → Option ℕ
  | .list .simpleCommand _ (item :: _) => itemOrigin item
  | _ => none

/-! ## Redirections -/

def ioFileOperators : List TokenType :=
  [.less, .lessand, .greater, .greatand, .dgreat, .lessgreat, .clobber]

def ioHereOperators : List TokenType := [.dless, .dlessdash]

/-- The current token is a number or location without an operator behind it, or a file operator
in front of a here-document operator: `gparse_io_redirect` drops it. -/
def LosesFirst (s : Parser) : Prop :=
  (s.currentTokenType = .ioNumber ∨ s.currentTokenType = .ioLocation) ∧
      s.advance.currentTokenType ∉ ioFileOperators ++ ioHereOperators ∨
    s.currentTokenType ∈ ioFileOperators ∧ s.advance.currentTokenType ∈ ioHereOperators

theorem run_gparseIoFile {s : Parser} {tok next : Token} (htok : s.currentToken? = some tok)
    (hnext : s.advance.currentToken? = some next) (hop : s.currentTokenType ∈ ioFileOperators)
    (hword : s.advance.currentTokenType = .word) :
    gparseIoFile.run s = .ok (.ofMulti .ioFile (some (.ofToken .wordNode tok s.position))
      (some (.ofToken .filename next s.advance.position)) none none) s.advance.advance := by
  have hreq : (requireOneOf ioFileOperators).run s = .ok () s := by
    rw [run_requireOneOf, if_pos hop]
  simp only [ioFileOperators] at hreq
  simp [gparseIoFile, hreq, run_takeLeaf htok, gparseFilename, run_require, hword,
    run_takeLeaf hnext]

theorem run_gparseIoFile_fail {s : Parser}
    (h : ¬ (s.currentTokenType ∈ ioFileOperators ∧ s.advance.currentTokenType = .word)) :
    gparseIoFile.run s =
      .fail .error (if s.currentTokenType ∈ ioFileOperators then s.advance else s) := by
  by_cases hop : s.currentTokenType ∈ ioFileOperators
  · have hreq : (requireOneOf ioFileOperators).run s = .ok () s := by
      rw [run_requireOneOf, if_pos hop]
    obtain ⟨tok, htok, -⟩ := exists_token (s := s) (fun hc => by
      rw [hc] at hop
      exact absurd hop (by decide))
    simp only [ioFileOperators] at hreq
    simp [gparseIoFile, hreq, run_takeLeaf htok, gparseFilename, run_require,
      not_and.mp h hop, hop]
  · have hreq : (requireOneOf ioFileOperators).run s = .fail .error s := by
      rw [run_requireOneOf, if_neg hop]
    simp only [ioFileOperators] at hreq
    simp [gparseIoFile, hreq, hop]

theorem run_gparseIoHere {s : Parser} {next : Token}
    (hnext : s.advance.currentToken? = some next) (hop : s.currentTokenType ∈ ioHereOperators)
    (hword : s.advance.currentTokenType = .word) :
    gparseIoHere.run s = .ok (.ioHere .ioHere .ioHere s.currentTokenType next.getAllText none
      s.position) s.advance.advance := by
  have hreq : (requireOneOf ioHereOperators).run s = .ok () s := by
    rw [run_requireOneOf, if_pos hop]
  simp only [ioHereOperators] at hreq
  simp [gparseIoHere, hreq, run_require, hword, run_cloneToken hnext, gnodeGetPayloadType]

theorem run_gparseIoHere_fail {s : Parser}
    (h : ¬ (s.currentTokenType ∈ ioHereOperators ∧ s.advance.currentTokenType = .word)) :
    gparseIoHere.run s =
      .fail .error (if s.currentTokenType ∈ ioHereOperators then s.advance else s) := by
  by_cases hop : s.currentTokenType ∈ ioHereOperators
  · have hreq : (requireOneOf ioHereOperators).run s = .ok () s := by
      rw [run_requireOneOf, if_pos hop]
    simp only [ioHereOperators] at hreq
    simp [gparseIoHere, hreq, run_require, not_and.mp h hop, hop]
  · have hreq : (requireOneOf ioHereOperators).run s = .fail .error s := by
      rw [run_requireOneOf, if_neg hop]
    simp only [ioHereOperators] at hreq
    simp [gparseIoHere, hreq, hop]

/-- The index of the first token of the target of a redirection. -/
def targetOrigin : Gnode → Option ℕ
  | .multi _ _ (some (.token _ _ _ origin)) _ _ _ => some origin
  | .ioHere _ _ _ _ _ origin => some origin
  | _ => none

/-- A target starts at its operator, unless a here-document operator follows a file operator. -/
theorem ioFileOrHere_ok {s t : Parser} {node : Gnode} (h : ioFileOrHere.run s = .ok node t) :
    s.currentTokenType ∈ ioFileOperators ++ ioHereOperators ∧
      if s.currentTokenType ∈ ioFileOperators ∧ s.advance.currentTokenType ∈ ioHereOperators then
        targetOrigin node = some (s.position + 1)
      else targetOrigin node = some s.position := by
  by_cases hfile : s.currentTokenType ∈ ioFileOperators ∧ s.advance.currentTokenType = .word
  · obtain ⟨tok, htok, -⟩ := exists_token (s := s) (fun hc => by
      rw [hc] at hfile
      exact absurd hfile.1 (by decide))
    obtain ⟨next, hnext, -⟩ := exists_token (s := s.advance) (by simp [hfile.2])
    simp only [ioFileOrHere, run_bind, run_attempt, run_gparseIoFile htok hnext hfile.1 hfile.2,
      Reply.bind_ok, run_pure, Reply.ok.injEq] at h
    refine ⟨List.mem_append_left _ hfile.1, ?_⟩
    rw [if_neg (fun hc => absurd (hfile.2 ▸ hc.2) (by decide)), ← h.1]
    rfl
  · simp only [ioFileOrHere, run_bind, run_attempt, run_gparseIoFile_fail hfile,
      Reply.bind_ok] at h
    generalize hu : (if s.currentTokenType ∈ ioFileOperators then s.advance else s) = u at h
    by_cases hhere : u.currentTokenType ∈ ioHereOperators ∧ u.advance.currentTokenType = .word
    · obtain ⟨next, hnext, -⟩ := exists_token (s := u.advance) (by simp [hhere.2])
      simp only [run_gparseIoHere hnext hhere.1 hhere.2, run_pure, Reply.bind_ok,
        Reply.ok.injEq] at h
      by_cases hop : s.currentTokenType ∈ ioFileOperators
      · rw [if_pos hop] at hu
        have hlt := position_lt (s := s) (fun hc => by
          rw [hc] at hop
          exact absurd hop (by decide))
        refine ⟨List.mem_append_left _ hop, ?_⟩
        rw [if_pos ⟨hop, hu ▸ hhere.1⟩, ← h.1, ← hu]
        simp [targetOrigin, advance_position hlt]
      · rw [if_neg hop] at hu
        subst hu
        refine ⟨List.mem_append_right _ hhere.1, ?_⟩
        rw [if_neg (fun hc => hop hc.1), ← h.1]
        rfl
    · simp [run_gparseIoHere_fail hhere] at h

/-- Where no target is read, the parser stands at the token it was entered at, which is no
operator, or at one that is no word. -/
theorem ioFileOrHere_fail {s t : Parser} {e : ParseFailure}
    (h : ioFileOrHere.run s = .fail e t) :
    t = s ∧ s.currentTokenType ∉ ioFileOperators ++ ioHereOperators ∨
      t.currentTokenType ≠ .word := by
  have hfile : ¬ (s.currentTokenType ∈ ioFileOperators ∧ s.advance.currentTokenType = .word) := by
    intro hfile
    obtain ⟨tok, htok, -⟩ := exists_token (s := s) (fun hc => by
      rw [hc] at hfile
      exact absurd hfile.1 (by decide))
    obtain ⟨next, hnext, -⟩ := exists_token (s := s.advance) (by simp [hfile.2])
    simp [ioFileOrHere, run_attempt, run_gparseIoFile htok hnext hfile.1 hfile.2] at h
  simp only [ioFileOrHere, run_bind, run_attempt, run_gparseIoFile_fail hfile,
    Reply.bind_ok] at h
  generalize hu : (if s.currentTokenType ∈ ioFileOperators then s.advance else s) = u at h
  have hhere : ¬ (u.currentTokenType ∈ ioHereOperators ∧ u.advance.currentTokenType = .word) := by
    intro hhere
    obtain ⟨next, hnext, -⟩ := exists_token (s := u.advance) (by simp [hhere.2])
    simp [run_gparseIoHere hnext hhere.1 hhere.2] at h
  simp only [run_gparseIoHere_fail hhere, Reply.bind_ok, run_failure, Reply.fail.injEq] at h
  by_cases hmem : u.currentTokenType ∈ ioHereOperators
  · rw [if_pos hmem] at h
    exact .inr (h.2 ▸ not_and.mp hhere hmem)
  · rw [if_neg hmem] at h
    by_cases hop : s.currentTokenType ∈ ioFileOperators
    · rw [if_pos hop] at hu
      exact .inr (h.2 ▸ hu ▸ not_and.mp hfile hop)
    · rw [if_neg hop] at hu
      subst hu
      exact .inl ⟨h.2.symm, by simp [hop, hmem]⟩

theorem wordOrigin_ioRedirect (target : Gnode) :
    wordOrigin (.ofMulti .ioRedirect none none (some target) none) = targetOrigin target := by
  unfold targetOrigin
  split <;> simp_all [Gnode.ofMulti, wordOrigin]

/-- A redirection starts at the current token unless that is lost. -/
theorem gparseIoRedirect_ok {s t : Parser} {node : Gnode}
    (h : gparseIoRedirect.run s = .ok node t) :
    ∃ origin, wordOrigin node = some origin ∧ s.position ≤ origin ∧
      (origin = s.position ↔ ¬ LosesFirst s) := by
  simp only [gparseIoRedirect, run_bind, Reply.bind_eq_ok] at h
  obtain ⟨⟨ioNumber, ioLocation⟩, u, hnum, target, v, htarget, hnode⟩ := h
  simp only [run_pure, Reply.ok.injEq] at hnode
  obtain ⟨rfl, rfl⟩ := hnode
  obtain ⟨hop, horigin⟩ := ioFileOrHere_ok htarget
  by_cases hnumber : s.currentTokenType = .ioNumber ∨ s.currentTokenType = .ioLocation
  · -- The number is the first token, and an operator stands behind it.
    obtain ⟨tok, htok, -⟩ := exists_token (s := s) (by rcases hnumber with h | h <;> simp [h])
    have hfirst : ∃ type, u = s.advance ∧
        ((ioNumber = some (.ofToken type tok s.position) ∧ ioLocation = none) ∨
          (ioNumber = none ∧ ioLocation = some (.ofToken type tok s.position))) := by
      rcases hnumber with hn | hn
      · simp only [optionalIoNumber, run_bind, run_tokenType, Reply.bind_ok, hn, ↓reduceIte,
          run_takeLeaf htok, run_pure, Reply.ok.injEq, Prod.mk.injEq] at hnum
        exact ⟨_, hnum.2.symm, .inl ⟨hnum.1.1.symm, hnum.1.2.symm⟩⟩
      · simp only [optionalIoNumber, run_bind, run_tokenType, Reply.bind_ok, hn, ↓reduceIte,
          run_takeLeaf htok, run_pure, Reply.ok.injEq, Prod.mk.injEq, reduceCtorEq] at hnum
        exact ⟨_, hnum.2.symm, .inr ⟨hnum.1.1.symm, hnum.1.2.symm⟩⟩
    obtain ⟨type, rfl, hleaf⟩ := hfirst
    refine ⟨s.position, ?_, le_refl _, iff_of_true rfl ?_⟩
    · rcases hleaf with ⟨rfl, rfl⟩ | ⟨rfl, rfl⟩ <;> rfl
    · rintro (⟨-, hno⟩ | ⟨hfile, -⟩)
      · exact hno hop
      · rcases hnumber with hn | hn <;> rw [hn] at hfile <;> exact absurd hfile (by decide)
  · rw [not_or] at hnumber
    simp only [optionalIoNumber, run_bind, run_tokenType, Reply.bind_ok, hnumber, ↓reduceIte,
      run_pure, Reply.ok.injEq, Prod.mk.injEq] at hnum
    obtain ⟨⟨rfl, rfl⟩, rfl⟩ := hnum
    rw [wordOrigin_ioRedirect]
    split_ifs at horigin with hlost
    · exact ⟨_, horigin, Nat.le_succ _, iff_of_false (by omega) (not_not.mpr (.inr hlost))⟩
    · refine ⟨_, horigin, le_refl _, iff_of_true rfl ?_⟩
      rintro (⟨hn, -⟩ | hl)
      · rcases hn with hn | hn
        · exact hnumber.1 hn
        · exact hnumber.2 hn
      · exact hlost hl

/-- A redirection that fails in front of a word has lost a number or a location. -/
theorem gparseIoRedirect_fail {s t : Parser} {e : ParseFailure}
    (hs : isRedirectToken s.currentTokenType) (h : gparseIoRedirect.run s = .fail e t)
    (hword : t.currentTokenType = .word) : s.position < t.position ∧ LosesFirst s := by
  have hne : s.currentTokenType ≠ .eof := fun hc => by simp [hc, isRedirectToken] at hs
  obtain ⟨tok, htok, -⟩ := exists_token hne
  by_cases hnumber : s.currentTokenType = .ioNumber ∨ s.currentTokenType = .ioLocation
  · have hfirst : ∃ x, optionalIoNumber.run s = .ok x s.advance := by
      rcases hnumber with hn | hn <;> simp [optionalIoNumber, hn, run_takeLeaf htok]
    obtain ⟨⟨ioNumber, ioLocation⟩, hnum⟩ := hfirst
    simp only [gparseIoRedirect, run_bind, hnum, Reply.bind_ok] at h
    cases htarget : ioFileOrHere.run s.advance with
    | ok node u => simp [htarget] at h
    | fault c => simp [htarget] at h
    | fail e' u =>
      simp only [htarget, Reply.bind_fail, Reply.fail.injEq] at h
      obtain ⟨rfl, rfl⟩ := h
      rcases ioFileOrHere_fail htarget with ⟨rfl, hno⟩ | hne'
      · exact ⟨by rw [advance_position (position_lt hne)]; omega, .inl ⟨hnumber, hno⟩⟩
      · exact absurd hword hne'
  · have hnum : optionalIoNumber.run s = .ok (none, none) s := by
      rw [not_or] at hnumber
      simp [optionalIoNumber, hnumber]
    simp only [gparseIoRedirect, run_bind, hnum, Reply.bind_ok] at h
    cases htarget : ioFileOrHere.run s with
    | ok node u => simp [htarget] at h
    | fault c => simp [htarget] at h
    | fail e' u =>
      simp only [htarget, Reply.bind_fail, Reply.fail.injEq] at h
      obtain ⟨rfl, rfl⟩ := h
      rcases ioFileOrHere_fail htarget with ⟨rfl, -⟩ | hne'
      · rw [hword] at hs
        exact absurd hs (by decide)
      · exact absurd hword hne'

/-! ## Simple commands -/

private theorem loop_append {step : List Gnode → Production (Option (List Gnode))}
    (hc : ∀ nodes, Consumes (fun o => o.isSome) (step nodes))
    (hstep : ∀ nodes, Yields (fun o => ∀ nodes', o = some nodes' → ∃ more, nodes' = nodes ++ more)
      (step nodes)) :
    ∀ n s nodes r t, remaining s < n → (loop step nodes).run s = .ok r t →
      ∃ more, r = nodes ++ more := by
  intro n
  induction n with
  | zero => intro s _ _ _ hs; omega
  | succ n ih =>
    intro s nodes r t hs h
    rw [run_loop hc, Reply.bind_eq_ok] at h
    obtain ⟨o, u, hrun, h⟩ := h
    cases o with
    | none =>
      simp only [Reply.ok.injEq] at h
      exact ⟨[], by simp [h.1]⟩
    | some nodes' =>
      have hlt := hc nodes s _ u hrun rfl
      obtain ⟨more, rfl⟩ := hstep nodes s _ u hrun nodes' rfl
      obtain ⟨more', rfl⟩ := ih u _ r t (by omega) h
      exact ⟨more ++ more', by simp⟩

private theorem cmdPrefixStep_append (nodes : List Gnode) :
    Yields (fun o => ∀ nodes', o = some nodes' → ∃ more, nodes' = nodes ++ more)
      (cmdPrefixStep nodes) := by
  refine .bind fun type => ?_
  split
  · refine .bind fun r => ?_
    cases r with
    | ok redir => exact .pure (by simp)
    | error e => exact .pure (by simp)
  · split
    · exact .bind fun _ => .pure (by simp)
    · exact .pure (by simp)

/-- Matching here-documents keeps the first token of every item. -/
private theorem matchHeredocsInItem_itemOrigin (node : Gnode) :
    Yields (fun node' => itemOrigin node' = itemOrigin node) (matchHeredocsInItem node) := by
  have hword : ∀ node, Yields (fun node' => wordOrigin node' = wordOrigin node)
      (matchHeredoc node) := by
    intro node
    unfold matchHeredoc
    split
    · next a b _ _ _ _ _ =>
      refine .bind fun _ => .bind fun _ => .bind fun x => .bind fun _ => .pure ?_
      rcases a with _ | a
      · rcases b with _ | b
        · rfl
        · cases b <;> rfl
      · cases a <;> rfl
    · exact .pure rfl
  unfold matchHeredocsInItem
  split
  · intro s node' t h
    rw [run_bind, Reply.bind_eq_ok] at h
    obtain ⟨redirect, u, hrun, h⟩ := h
    simp only [run_pure, Reply.ok.injEq] at h
    simpa [← h.1, itemOrigin] using hword _ s redirect u hrun
  · exact .bind fun _ => .pure rfl
  · exact .pure rfl

private theorem forEach_cons {f : Gnode → Production Gnode} {node : Gnode} {nodes r : List Gnode}
    {s t : Parser} (h : (forEach f (node :: nodes)).run s = .ok r t) :
    ∃ node' r' u, r = node' :: r' ∧ (f node).run s = .ok node' u := by
  simp only [forEach, run_bind, Reply.bind_eq_ok] at h
  obtain ⟨node', u, hnode, r', v, -, h⟩ := h
  simp only [run_pure, Reply.ok.injEq] at h
  exact ⟨node', r', u, h.1.symm, hnode⟩

/-- The first item of a simple command: a prefix or the name. -/
private theorem simpleCommand_item {s t : Parser} {node : Gnode}
    (h : gparseSimpleCommand.run s = .ok node t) :
    ∃ item items heads u, simpleCommandOrigin node = itemOrigin item ∧
      (loop cmdPrefixStep []).run s = .ok heads u ∧
      (heads = item :: items ∨
        ∃ v, heads = [] ∧ gparseCmdName.run u = .ok (some item) v) := by
  simp only [gparseSimpleCommand, run_bind, Reply.bind_eq_ok] at h
  obtain ⟨heads, u, hheads, name, v, hname, suffixes, w, -, h⟩ := h
  split at h
  · simp only [run_bind, run_tokenType, Reply.bind_ok] at h
    split at h <;> simp at h
  · next hnonempty =>
    rw [run_bind, Reply.bind_eq_ok] at h
    obtain ⟨items, x, hitems, h⟩ := h
    simp only [run_pure, Reply.ok.injEq] at h
    obtain ⟨item, rest, hfirst⟩ : ∃ item rest, heads ++ name.toList ++
        (if suffixes.isEmpty then [] else [Gnode.ofList .cmdSuffix suffixes]) = item :: rest ∧
        (heads = item :: heads.tail ∨ heads = [] ∧ name = some item) := by
      cases heads with
      | cons head heads => exact ⟨head, _, rfl, .inl rfl⟩
      | nil =>
        cases name with
        | none => simp at hnonempty
        | some name => exact ⟨name, _, rfl, .inr ⟨rfl, rfl⟩⟩
    rw [hfirst.1] at hitems
    obtain ⟨item', items', y, rfl, hmatch⟩ := forEach_cons hitems
    refine ⟨item, heads.tail, heads, u, ?_, hheads, ?_⟩
    · rw [← h.1]
      exact matchHeredocsInItem_itemOrigin item _ _ _ hmatch
    · rcases hfirst.2 with hcons | ⟨hnil, hsome⟩
      · exact .inl hcons
      · exact .inr ⟨v, hnil, hsome ▸ hname⟩

private theorem gparseCmdName_some {s t : Parser} {item : Gnode}
    (h : gparseCmdName.run s = .ok (some item) t) :
    itemOrigin item = some s.position ∧ s.currentTokenType = .word := by
  simp only [gparseCmdName, run_bind, run_inspect, Reply.bind_ok] at h
  by_cases hword : atCommandWord s
  · have htype : ∃ tok, s.currentToken? = some tok ∧ tok.type = .word := by
      unfold atCommandWord at hword
      split at hword
      · next tok htok => exact ⟨tok, htok, by simp_all⟩
      · simp at hword
    obtain ⟨tok, htok, hw⟩ := htype
    simp only [hword, ↓reduceIte, run_map, run_takeLeaf htok, Reply.bind_ok, Reply.ok.injEq,
      Option.some.injEq] at h
    exact ⟨by rw [← h.1]; rfl, by simp [currentTokenType, htok, hw]⟩
  · simp [hword] at h

/-- A simple command starts at the current token unless a redirection loses that. -/
theorem gparseSimpleCommand_origin {s t : Parser} {node : Gnode}
    (h : gparseSimpleCommand.run s = .ok node t) :
    ∃ origin, simpleCommandOrigin node = some origin ∧ s.position ≤ origin ∧
      (origin = s.position ↔ ¬ LosesFirst s) := by
  obtain ⟨item, items, heads, u, horigin, hheads, hitem⟩ := simpleCommand_item h
  have hturn := hheads
  rw [run_loop consumes_cmdPrefixStep, Reply.bind_eq_ok] at hturn
  obtain ⟨o, v, hstep, hturn⟩ := hturn
  rw [horigin]
  cases o with
  | some first =>
    -- The first turn of the prefix loop gives the first item.
    obtain ⟨more, hmore⟩ := loop_append consumes_cmdPrefixStep cmdPrefixStep_append _ _ _ _ _
      (Nat.lt_succ_self _) hturn
    simp only [cmdPrefixStep, run_bind, run_tokenType, Reply.bind_ok] at hstep
    split_ifs at hstep with hredirect hassign
    · simp only [run_bind, run_attempt] at hstep
      cases hredir : gparseIoRedirect.run s with
      | fail e w => simp [hredir] at hstep
      | fault c => simp [hredir] at hstep
      | ok redir w =>
        simp only [hredir, Reply.bind_ok, run_pure, Reply.ok.injEq, Option.some.injEq,
          List.nil_append] at hstep
        have hhead : item = .ofChild .cmdPrefix redir := by
          rcases hitem with hcons | ⟨-, hnil, -⟩
          · simp only [hmore, ← hstep.1, List.cons_append, List.nil_append,
              List.cons.injEq] at hcons
            exact hcons.1.symm
          · simp [hmore, ← hstep.1] at hnil
        rw [hhead]
        exact gparseIoRedirect_ok hredir
    · obtain ⟨tok, htok, -⟩ := exists_token (s := s) (by simp [hassign])
      simp only [run_bind, run_takeLeaf htok, Reply.bind_ok, run_pure, Reply.ok.injEq,
        Option.some.injEq, List.nil_append] at hstep
      have hhead : item = .ofChild .cmdPrefix (.ofToken .assignmentWord tok s.position) := by
        rcases hitem with hcons | ⟨-, hnil, -⟩
        · simp only [hmore, ← hstep.1, List.cons_append, List.nil_append,
            List.cons.injEq] at hcons
          exact hcons.1.symm
        · simp [hmore, ← hstep.1] at hnil
      refine ⟨s.position, by rw [hhead]; rfl, le_refl _, iff_of_true rfl ?_⟩
      rintro (⟨hn, -⟩ | ⟨hf, -⟩)
      · simp [hassign] at hn
      · rw [hassign] at hf
        exact absurd hf (by decide)
    · simp at hstep
  | none =>
    -- There is no prefix, so the name is the first item.
    simp only [Reply.ok.injEq] at hturn
    obtain ⟨rfl, rfl⟩ := hturn
    obtain ⟨w, -, hname⟩ := hitem.resolve_left (by simp)
    obtain ⟨hpos, hword⟩ := gparseCmdName_some hname
    refine ⟨v.position, hpos, (le_of_ok hheads).position_le, ?_⟩
    simp only [cmdPrefixStep, run_bind, run_tokenType, Reply.bind_ok] at hstep
    split_ifs at hstep with hredirect hassign
    · simp only [run_bind, run_attempt] at hstep
      cases hredir : gparseIoRedirect.run s with
      | ok redir x => simp [hredir] at hstep
      | fault c => simp [hredir] at hstep
      | fail e x =>
        simp only [hredir, Reply.bind_ok, run_pure, Reply.ok.injEq, true_and] at hstep
        subst hstep
        obtain ⟨hlt, hlost⟩ := gparseIoRedirect_fail hredirect hredir hword
        exact iff_of_false (by omega) (not_not.mpr hlost)
    · obtain ⟨tok, htok, -⟩ := exists_token (s := s) (by simp [hassign])
      simp [run_takeLeaf htok] at hstep
    · simp only [run_pure, Reply.ok.injEq, true_and] at hstep
      subst hstep
      refine iff_of_true rfl ?_
      rintro (⟨hn, -⟩ | ⟨hf, -⟩)
      · simp [hword] at hn
      · rw [hword] at hf
        exact absurd hf (by decide)

end Migash.Parser
