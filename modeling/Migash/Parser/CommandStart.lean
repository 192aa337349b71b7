import Migash.Parser.FirstToken

/-! # Where a simple command starts

A compound command or a function definition that fails has consumed at least
the token that opened it, and `gparse_command` goes on behind it. The simple
command it then reads never starts where the command did.
-/

namespace Migash.Parser

open Library Forward

variable {gparseCompoundList : Production Gnode}

/-! ## Openers of compound commands -/

def openerTypes : List TokenType := [.lbrace, .lparen, .for_, .case_, .if_, .while_, .until_]

/-- The promotions that `gparse_compound_command` tries, in its order. -/
def openerPromotions : List (String × TokenType) :=
  [("\x7b", .lbrace), ("if", .if_), ("while", .while_), ("until", .until_), ("for", .for_),
    ("case", .case_)]

/-- The current token opens a compound command, as a token or as a word still to be promoted. -/
def Opens (s : Parser) : Prop :=
  s.currentTokenType ∈ openerTypes ∨
    ∃ tok word, s.currentToken? = some tok ∧ tok.type = .word ∧ tok.bareLiteral? = some word ∧
      word ∈ openerPromotions.map Prod.fst

/-- The current token is a name that is no reserved word, with a parenthesis behind it. -/
def NamesFunction (s : Parser) : Prop :=
  s.currentTokenType = .word ∧ atFunctionParen s ∧
    ∀ word, s.currentToken?.bind Token.bareLiteral? = some word → ¬ Token.isReservedWord word

/-- A simple command may start at the current token. -/
def StartsSimple (s : Parser) : Prop := ¬ Opens s ∧ ¬ NamesFunction s ∧ ¬ LosesFirst s

/-- The same tokens at the same position; only the error report may differ. -/
def SameInput (s t : Parser) : Prop := t.tokens = s.tokens ∧ t.position = s.position

namespace SameInput

variable {s t : Parser}

theorem currentToken? (h : SameInput s t) : t.currentToken? = s.currentToken? := by
  simp only [Parser.currentToken?, h.1, h.2]

theorem currentTokenType (h : SameInput s t) : t.currentTokenType = s.currentTokenType := by
  simp only [Parser.currentTokenType, h.currentToken?]

theorem advance (h : SameInput s t) : SameInput s.advance t.advance := by
  refine ⟨by simpa using h.1, ?_⟩
  by_cases hlt : s.position < s.tokens.length
  · rw [advance_position hlt, advance_position (by rw [h.1, h.2]; exact hlt), h.2]
  · have hlt' : ¬ t.position < t.tokens.length := by rwa [h.1, h.2]
    rw [Parser.advance, Parser.advance, dif_neg hlt, dif_neg hlt', h.2]

theorem losesFirst_iff (h : SameInput s t) : LosesFirst t ↔ LosesFirst s := by
  simp only [LosesFirst, h.currentTokenType, h.advance.currentTokenType]

theorem opens_iff (h : SameInput s t) : Opens t ↔ Opens s := by
  simp only [Opens, h.currentTokenType, h.currentToken?]

theorem setError (s : Parser) (text : String) : SameInput s (s.setError text) :=
  ⟨setError_tokens s text, setError_position s text⟩

end SameInput

theorem tryPromote_of_literal_ne {s : Parser} {tok : Token} {word : String} {type : TokenType}
    (htok : s.currentToken? = some tok) (h : tok.bareLiteral? ≠ some word) :
    s.tryPromote 0 word type = s := by
  have hp : s.peekToken? 0 = some tok := by simpa [peekToken?, Parser.currentToken?] using htok
  simp [tryPromote, hp, Token.tryPromote, h]

theorem tryPromote_of_literal_eq {s : Parser} {tok : Token} {word : String} {type : TokenType}
    (htok : s.currentToken? = some tok) (hw : tok.type = .word)
    (h : tok.bareLiteral? = some word) :
    (s.tryPromote 0 word type).currentTokenType = type := by
  have hp : s.peekToken? 0 = some tok := by simpa [peekToken?, Parser.currentToken?] using htok
  have hlt := s.currentToken?_isSome_iff.mp (by simp [htok])
  simp [tryPromote, hp, Token.tryPromote, hw, h, Parser.currentTokenType, Parser.currentToken?,
    hlt]

/-- Several promotions of the current token in a row. -/
def promoteAll (s : Parser) (promotions : List (String × TokenType)) : Parser :=
  promotions.foldl (fun s p => s.tryPromote 0 p.1 p.2) s

theorem run_promoteOpener (s : Parser) :
    promoteOpener.run s = .ok () (promoteAll s openerPromotions) := rfl

theorem promoteAll_of_unchanged {s : Parser} {promotions : List (String × TokenType)}
    (h : ∀ p ∈ promotions, s.tryPromote 0 p.1 p.2 = s) : promoteAll s promotions = s := by
  induction promotions with
  | nil => rfl
  | cons p promotions ih =>
    rw [promoteAll, List.foldl_cons, h p List.mem_cons_self]
    exact ih fun q hq => h q (List.mem_cons_of_mem _ hq)

theorem promoteAll_of_ne_word {s : Parser} (h : s.currentTokenType ≠ .word)
    (promotions : List (String × TokenType)) : promoteAll s promotions = s :=
  promoteAll_of_unchanged fun _ _ => tryPromote_of_ne_word h _ _

/-- The first promotion whose word stands there succeeds, and the others change nothing. -/
theorem promoteAll_of_literal {s : Parser} {tok : Token} {word : String}
    (htok : s.currentToken? = some tok) (hw : tok.type = .word)
    (hlit : tok.bareLiteral? = some word) {promotions : List (String × TokenType)}
    (hmem : word ∈ promotions.map Prod.fst) (htypes : ∀ p ∈ promotions, p.2 ≠ .word) :
    (promoteAll s promotions).position = s.position ∧
      (promoteAll s promotions).currentTokenType ∈ promotions.map Prod.snd := by
  induction promotions with
  | nil => simp at hmem
  | cons p promotions ih =>
    obtain ⟨other, type⟩ := p
    by_cases ho : word = other
    · subst ho
      have htype : (s.tryPromote 0 word type).currentTokenType = type :=
        tryPromote_of_literal_eq htok hw hlit
      have hrest : promoteAll (s.tryPromote 0 word type) promotions = s.tryPromote 0 word type :=
        promoteAll_of_ne_word (fun hc => htypes _ List.mem_cons_self (htype.symm.trans hc)) _
      simp only [promoteAll, List.foldl_cons] at hrest ⊢
      rw [hrest, htype]
      simp
    · have hid : s.tryPromote 0 other type = s :=
        tryPromote_of_literal_ne htok (by simpa [hlit] using ho)
      have hmem' : word ∈ promotions.map Prod.fst := by
        rw [List.map_cons, List.mem_cons] at hmem
        exact hmem.resolve_left ho
      obtain ⟨hpos, htype⟩ := ih hmem' fun q hq => htypes q (List.mem_cons_of_mem _ hq)
      simp only [promoteAll, List.foldl_cons, hid] at hpos htype ⊢
      exact ⟨hpos, List.mem_cons_of_mem _ htype⟩

theorem run_promoteOpener_of_not_opens {s : Parser} (h : ¬ Opens s) :
    promoteOpener.run s = .ok () s := by
  rw [run_promoteOpener, promoteAll_of_unchanged]
  intro p hp
  by_cases hw : s.currentTokenType = .word
  · obtain ⟨tok, htok, htype⟩ := exists_token (s := s) (by simp [hw])
    refine tryPromote_of_literal_ne htok fun hlit => h (.inr ⟨tok, p.1, htok, ?_, hlit, ?_⟩)
    · rw [htype, hw]
    · exact List.mem_map_of_mem hp
  · exact tryPromote_of_ne_word hw _ _

theorem run_promoteOpener_of_opens {s : Parser} (h : Opens s) :
    ∃ t, promoteOpener.run s = .ok () t ∧ t.position = s.position ∧
      t.currentTokenType ∈ openerTypes := by
  rcases h with h | ⟨tok, word, htok, hw, hlit, hword⟩
  · have hne : s.currentTokenType ≠ .word := fun hc => by
      rw [hc] at h
      exact absurd h (by decide)
    exact ⟨s, by rw [run_promoteOpener, promoteAll_of_ne_word hne], rfl, h⟩
  · obtain ⟨hpos, htype⟩ := promoteAll_of_literal htok hw hlit hword (by decide)
    refine ⟨_, run_promoteOpener s, hpos, ?_⟩
    have hsub : ∀ type ∈ openerPromotions.map Prod.snd, type ∈ openerTypes := by decide
    exact hsub _ htype

/-! ## Failures that have moved on -/

/-- A production that clones and consumes the current token fails, if at all, behind it. -/
private theorem lt_of_fail_takeLeaf {α : Type} {s t u : Parser} {tok : Token} {e : ParseFailure}
    {m : Production Unit} {type : GnodeType} {f : Gnode → Production α}
    (hm : m.run s = .ok () t) (hpos : t.position = s.position)
    (htok : t.currentToken? = some tok)
    (h : (m >>= fun _ => takeLeaf type >>= f).run s = .fail e u) : s.position < u.position := by
  simp only [run_bind, hm, Reply.bind_ok, run_takeLeaf htok] at h
  have hlt := t.currentToken?_isSome_iff.mp (by simp [htok])
  have hle := (le_of_fail h).position_le
  rw [advance_position hlt, hpos] at hle
  omega

/-- A compound command whose opener stands at the current token fails behind it, unless it is
incomplete. -/
theorem compoundCommandOf_fail {s t : Parser} {e : ParseFailure}
    (hopen : s.currentTokenType ∈ openerTypes)
    (h : (compoundCommandOf gparseCompoundList s.currentTokenType).run s = .fail e t) :
    e = .incomplete ∨ s.position < t.position := by
  obtain ⟨tok, htok, -⟩ := exists_token (s := s) (fun hc => by
    rw [hc] at hopen
    exact absurd hopen (by decide))
  have hreq : ∀ type, s.currentTokenType = type → (require type).run s = .ok () s :=
    fun type ht => by rw [run_require, if_pos ht]
  have hexp : ∀ type text, s.currentTokenType = type → (expect type text).run s = .ok () s :=
    fun type text ht => by rw [run_expect, if_pos ht]
  simp only [openerTypes, List.mem_cons, List.not_mem_nil, or_false] at hopen
  rcases hopen with ht | ht | ht | ht | ht | ht | ht <;> rw [ht] at h <;>
    simp only [compoundCommandOf] at h
  · -- Before the brace is consumed the group can only be incomplete.
    rw [gparseBraceGroup, run_bind, hexp _ _ ht, Reply.bind_ok] at h
    cases hbrace : promoteClosingBrace.run s with
    | ok x u =>
      obtain ⟨offset, rfl⟩ : ∃ offset, u = s.tryPromote offset "\x7d" .rbrace := by
        simp only [promoteClosingBrace, run_bind, run_inspect, Reply.bind_ok] at hbrace
        split at hbrace
        · simp at hbrace
        · next offset _ =>
          simp only [parserTokenTryPromoteToRbrace, run_tryPromoteTo, Reply.ok.injEq] at hbrace
          exact ⟨offset, hbrace.2.symm⟩
      have hback := le_tryPromote s offset "\x7d" (by decide : TokenType.rbrace.IsReserved)
      have htok' : (s.tryPromote offset "\x7d" .rbrace).currentToken? = some tok := by
        rw [currentToken?_of_le hback (by simp) (by simp [ht]), htok]
      exact .inr (lt_of_fail_takeLeaf hbrace (by simp) htok' h)
    | fail e' u =>
      simp only [promoteClosingBrace, run_bind, run_inspect, Reply.bind_ok] at hbrace
      split at hbrace
      · simp only [run_failure, Reply.fail.injEq] at hbrace
        simp only [promoteClosingBrace, run_bind, run_inspect, Reply.bind_ok] at h
        simp_all
      · simp [parserTokenTryPromoteToRbrace] at hbrace
    | fault c =>
      rw [run_bind, hbrace] at h
      simp at h
  · exact .inr (lt_of_fail_takeLeaf (hreq _ ht) rfl htok h)
  · exact .inr (lt_of_fail_takeLeaf (hreq _ ht) rfl htok h)
  · exact .inr (lt_of_fail_takeLeaf (hreq _ ht) rfl htok h)
  · exact .inr (lt_of_fail_takeLeaf (hreq _ ht) rfl htok h)
  · exact .inr (lt_of_fail_takeLeaf (hexp _ _ ht) rfl htok h)
  · exact .inr (lt_of_fail_takeLeaf (hexp _ _ ht) rfl htok h)

/-! ## Function definitions -/

theorem gparseFunctionDefinition_type :
    Yields (fun node => node.type = .functionDefinition)
      (gparseFunctionDefinition gparseCompoundList) :=
  .bind fun _ => .bind fun _ => .bind fun _ => .bind fun _ => .bind fun _ => .bind fun _ =>
    .bind fun _ => .bind fun _ => .bind fun _ => .bind fun _ => .pure rfl

/-- Without a name and a parenthesis a function definition fails on the spot. -/
theorem run_gparseFunctionDefinition_of_not {s : Parser} (h : ¬ NamesFunction s) :
    ∃ t, (gparseFunctionDefinition gparseCompoundList).run s = .fail .error t ∧
      SameInput s t := by
  by_cases hw : s.currentTokenType = .word
  · have hreq : (require .word).run s = .ok () s := by rw [run_require, if_pos hw]
    by_cases hres : ∀ word, s.currentToken?.bind Token.bareLiteral? = some word →
        ¬ Token.isReservedWord word
    · have hparen : atFunctionParen s = false := by
        by_contra hc
        exact h ⟨hw, by simpa using hc, hres⟩
      have hname : rejectReservedName.run s = .ok () s := by
        simp only [rejectReservedName, run_bind, run_inspect, Reply.bind_ok]
        split
        · next word hword => simp [hres word hword]
        · rfl
      refine ⟨s, ?_, rfl, rfl⟩
      simp [gparseFunctionDefinition, hreq, hname, requireFunctionParen, hparen]
    · push Not at hres
      obtain ⟨word, hword, hreserved⟩ := hres
      have hname : ∃ text, rejectReservedName.run s = .fail .error (s.setError text) := by
        simp only [rejectReservedName, run_bind, run_inspect, Reply.bind_ok, hword, hreserved,
          ↓reduceIte]
        exact ⟨_, rfl⟩
      obtain ⟨text, hname⟩ := hname
      exact ⟨s.setError text, by simp [gparseFunctionDefinition, hreq, hname],
        SameInput.setError s text⟩
  · exact ⟨s, by simp [gparseFunctionDefinition, run_require, hw], rfl, rfl⟩

/-- Behind a name and a parenthesis a function definition has moved on when it fails. -/
theorem gparseFunctionDefinition_fail {s t : Parser} {e : ParseFailure} (hs : NamesFunction s)
    (h : (gparseFunctionDefinition gparseCompoundList).run s = .fail e t) :
    s.position < t.position := by
  obtain ⟨hw, hparen, hres⟩ := hs
  obtain ⟨tok, htok, -⟩ := exists_token (s := s) (by simp [hw])
  have hreq : (require .word).run s = .ok () s := by rw [run_require, if_pos hw]
  have hname : rejectReservedName.run s = .ok () s := by
    simp only [rejectReservedName, run_bind, run_inspect, Reply.bind_ok]
    split
    · next word hword => simp [hres word hword]
    · rfl
  have hfunc : requireFunctionParen.run s = .ok () s := by
    simp [requireFunctionParen, hparen]
  rw [gparseFunctionDefinition, run_bind, hreq, Reply.bind_ok, run_bind, hname,
    Reply.bind_ok] at h
  exact lt_of_fail_takeLeaf hfunc rfl htok h

/-! ## Compound commands -/

theorem gparseCompoundCommand_type :
    Yields (fun node => node.type = .compoundCommand)
      (gparseCompoundCommand gparseCompoundList) :=
  .bind fun _ => .bind fun _ => .bind fun _ => .bind fun _ => .pure rfl

theorem gparseRedirectedCompound_type :
    Yields (fun node => ∃ x, node = commandNode x ∧ x.type ≠ .simpleCommand)
      (gparseRedirectedCompound gparseCompoundList) := by
  intro s node t h
  simp only [gparseRedirectedCompound, run_bind, Reply.bind_eq_ok] at h
  obtain ⟨compound, u, hcompound, r, v, -, h⟩ := h
  have htype := gparseCompoundCommand_type s compound u hcompound
  cases r with
  | ok redirects =>
    simp only [run_pure, Reply.ok.injEq] at h
    exact ⟨_, h.1.symm, by simp⟩
  | error e =>
    simp only [run_pure, Reply.ok.injEq] at h
    exact ⟨compound, h.1.symm, by simp [htype]⟩

/-- A compound command either fails on the spot, where nothing opens one, or behind its opener,
unless it is incomplete. -/
theorem gparseRedirectedCompound_fail {s t : Parser} {e : ParseFailure}
    (h : (gparseRedirectedCompound gparseCompoundList).run s = .fail e t) :
    (Opens s → e = .incomplete ∨ s.position < t.position) ∧ (¬ Opens s → SameInput s t) := by
  have hfail : (gparseCompoundCommand gparseCompoundList).run s = .fail e t := by
    simp only [gparseRedirectedCompound, run_bind] at h
    cases hc : (gparseCompoundCommand gparseCompoundList).run s with
    | fail e' u => simpa [hc] using h
    | fault c => simp [hc] at h
    | ok node u =>
      simp only [hc, Reply.bind_ok, run_attempt] at h
      cases hr : gparseRedirectList.run u <;> simp [hr] at h
  simp only [gparseCompoundCommand, expectsValid, run_bind, run_inspect, Reply.bind_ok] at hfail
  by_cases hend : s.atEnd
  · simp [hend] at hfail
  simp only [hend, Bool.false_eq_true, ↓reduceIte, run_pure, Reply.bind_ok, run_tokenType]
    at hfail
  constructor
  · intro hopen
    obtain ⟨u, hpromote, hpos, htype⟩ := run_promoteOpener_of_opens hopen
    simp only [hpromote, Reply.bind_ok] at hfail
    cases hc : (compoundCommandOf gparseCompoundList u.currentTokenType).run u with
    | ok node v => simp [hc] at hfail
    | fault c => simp [hc] at hfail
    | fail e' v =>
      simp only [hc, Reply.bind_fail, Reply.fail.injEq] at hfail
      obtain ⟨rfl, rfl⟩ := hfail
      rw [← hpos]
      exact compoundCommandOf_fail htype hc
  · intro hopen
    have htype : s.currentTokenType ∉ openerTypes := fun hc => hopen (.inl hc)
    have hnone : compoundCommandOf gparseCompoundList s.currentTokenType =
        errorWith noOpenerText := by
      revert htype
      cases s.currentTokenType <;> first | exact fun _ => rfl | exact fun hc => absurd (by decide) hc
    simp only [run_promoteOpener_of_not_opens hopen, Reply.bind_ok, hnone, run_errorWith,
      Reply.bind_fail, Reply.fail.injEq] at hfail
    exact hfail.2 ▸ SameInput.setError s _

/-! ## Commands -/

/-- The simple command of an accepted command starts at the token the command was entered at
exactly when a simple command may start there. -/
theorem gparseCommand_simple_start_iff (s t : Parser) (payload : GnodePayload) (simple : Gnode)
    (h : (gparseCommand Parser.gparseCompoundList).run s =
      .ok (.child .command payload (some simple)) t)
    (hsimple : simple.type = .simpleCommand) :
    simpleCommandOrigin simple = some s.position ↔ StartsSimple s := by
  rw [gparseCommand, run_bind, run_attempt] at h
  -- Neither alternative before the simple command has succeeded.
  cases hfunc : (gparseFunctionDefinition Parser.gparseCompoundList).run s with
  | ok func u =>
    simp only [hfunc, Reply.bind_ok, run_pure, Reply.ok.injEq, commandNode, Gnode.child.injEq,
      Option.some.injEq, true_and] at h
    have htype := gparseFunctionDefinition_type s func u hfunc
    rw [h.1.2, hsimple] at htype
    exact absurd htype (by decide)
  | fault c => simp [hfunc] at h
  | fail e u =>
    have hrest : (gparseCompoundOrSimple Parser.gparseCompoundList).run u =
        .ok (.child .command payload (some simple)) t := by
      rw [hfunc] at h
      cases e with
      | incomplete => simp at h
      | error => exact h
      | empty => exact h
    rw [gparseCompoundOrSimple, run_bind, run_attempt] at hrest
    cases hcompound : (gparseRedirectedCompound Parser.gparseCompoundList).run u with
    | ok node v =>
      simp only [hcompound, Reply.bind_ok, run_pure, Reply.ok.injEq] at hrest
      obtain ⟨x, hx, htype⟩ := gparseRedirectedCompound_type u node v hcompound
      have heq := hrest.1.symm.trans hx
      simp only [commandNode, Gnode.child.injEq, Option.some.injEq, true_and] at heq
      exact absurd (heq.2 ▸ hsimple) htype
    | fault c => simp [hcompound] at hrest
    | fail e' v =>
      have hrun : gparseSimpleCommand.run v = .ok simple t ∧ e' ≠ .incomplete := by
        simp only [hcompound, Reply.bind_ok] at hrest
        have hmap : e' ≠ .incomplete ∧ (commandNode <$> gparseSimpleCommand).run v =
            .ok (.child .command payload (some simple)) t := by
          cases e' with
          | incomplete => simp at hrest
          | error => exact ⟨by simp, hrest⟩
          | empty => exact ⟨by simp, hrest⟩
        obtain ⟨hne, hmap⟩ := hmap
        rw [run_map, Reply.bind_eq_ok] at hmap
        obtain ⟨node, w, hnode, hmap⟩ := hmap
        simp only [Reply.ok.injEq, commandNode, Gnode.child.injEq, Option.some.injEq,
          true_and] at hmap
        rw [hmap.1.2, hmap.2] at hnode
        exact ⟨hnode, hne⟩
      obtain ⟨origin, horigin, hle, hiff⟩ := gparseSimpleCommand_origin hrun.1
      have hmoved := gparseRedirectedCompound_fail hcompound
      rw [horigin, Option.some.injEq]
      by_cases hnames : NamesFunction s
      · have hlt := gparseFunctionDefinition_fail hnames hfunc
        have hge := (le_of_fail hcompound).position_le
        exact iff_of_false (by omega) fun hc => hc.2.1 hnames
      · obtain ⟨u', hu', hsame⟩ :=
          @run_gparseFunctionDefinition_of_not Parser.gparseCompoundList s hnames
        obtain rfl : u' = u := by
          rw [hu', Reply.fail.injEq] at hfunc
          exact hfunc.2
        by_cases hopen : Opens s
        · have hlt := (hmoved.1 (hsame.opens_iff.mpr hopen)).resolve_left hrun.2
          rw [hsame.2] at hlt
          exact iff_of_false (by omega) fun hc => hc.1 hopen
        · have hsame' := hmoved.2 fun hc => hopen (hsame.opens_iff.mp hc)
          rw [← hsame.2, ← hsame'.2, hiff, hsame'.losesFirst_iff, hsame.losesFirst_iff]
          simp [StartsSimple, hopen, hnames]

theorem gparseCommand_simple_start_echo :
    ∃ simple t, (gparseCommand Parser.gparseCompoundList).run (create [.ofText "echo"]) =
        .ok (.child .command .child (some simple)) t ∧
      (simpleCommandOrigin simple = some 0 ↔ StartsSimple (create [.ofText "echo"])) :=
  ⟨_, _, rfl, gparseCommand_simple_start_iff (create [.ofText "echo"]) _ _ _ rfl rfl⟩

/-- `for x y z` is read as the simple command `y z`. -/
theorem gparseCommand_resumes_inside_for :
    ¬ ∀ (s t : Parser) (payload : GnodePayload) (simple : Gnode),
      (gparseCommand Parser.gparseCompoundList).run s =
        .ok (.child .command payload (some simple)) t →
      simple.type = .simpleCommand → simpleCommandOrigin simple = some s.position :=
  fun h => absurd
    (h (create [.ofText "for", .ofText "x", .ofText "y", .ofText "z"]) _ _ _ rfl rfl) (by decide)

end Migash.Parser
