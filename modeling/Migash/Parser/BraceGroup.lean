import Migash.Library.ForwardTriple
import Migash.Parser.CommandStart
import Mathlib.Order.Bounds.Basic

/-! # Where a brace group ends

`gparse_brace_group` turns the next `}` behind its `{` into a reserved word
before it reads any command. No production but the group itself passes such a
word, so a group without a further `{` ends at the first `}` behind it, wherever
that stands.
-/

namespace Migash

/-- Is it the word `{`, promoted or not? -/
def Token.isLbrace (tok : Token) : Bool :=
  tok.type = .lbrace || (tok.tryPromote "\x7b" .lbrace).isSome

/-- Is it the word `}`, promoted or not? -/
def Token.isRbrace (tok : Token) : Bool :=
  tok.type = .rbrace || (tok.tryPromote "\x7d" .rbrace).isSome

namespace Parser

open Library Forward

/-! ## The end of a group -/

/-- The tokens behind the current one, up to the end of the input. -/
def behind (s : Parser) : List Token :=
  (s.tokens.drop (s.position + 1)).takeWhile (·.type ≠ .eof)

/-- A word `}` stands at `n`, behind the current token. -/
def RbraceAt (s : Parser) (n : ℕ) : Prop :=
  s.position < n ∧ ∃ tok, s.behind[n - (s.position + 1)]? = some tok ∧ tok.isRbrace

/-- The group with the word at `n` alone taken for its closing brace. -/
def closedAt (s : Parser) (n : ℕ) : Parser := s.tryPromote (n - s.position) "\x7d" .rbrace

/-- A command could begin at `n` inside the group that the current token opens: up to there the
group holds newlines only, or commands with a separator behind the last of them. -/
def CommandCouldBegin (s : Parser) (n : ℕ) : Prop :=
  (closedAt s n).advance.skipNewlines.position = n ∨
    ∃ term sep t, gparseCompoundList.run (closedAt s n).advance =
      .ok (.ofPair .compoundList (some term) (some sep)) t ∧ t.position = n

/-- The parser takes the word at `n` for the end of the group that the current token opens. -/
def EndsAt (s : Parser) (n : ℕ) : Prop :=
  ∃ g t, (gparseBraceGroup gparseCompoundList).run s = .ok g t ∧ t.position = n + 1

/-- The group ends at a word `}` exactly if it is the first one at which a command could begin
inside the group. -/
def EndsWhereCommandsBegin (s : Parser) : Prop :=
  ∀ n, EndsAt s n ↔ IsLeast {n | RbraceAt s n ∧ CommandCouldBegin s n} n

/-- The first `}` behind the `{`, if there is one, is one at which a command could begin inside
the group. -/
def FirstBraceCloses (s : Parser) : Prop :=
  ∀ n, IsLeast {n | RbraceAt s n} n → CommandCouldBegin s n

/-- No `{` stands between the `{` and the first `}` behind it. -/
def NoFurtherOpening (s : Parser) : Prop :=
  ∀ n, IsLeast {n | RbraceAt s n} n → ∀ i tok, s.position < i → i < n →
    s.tokens[i]? = some tok → ¬ tok.isLbrace

/-! ## Productions in front of a closing brace -/

variable {p q : ℕ} {s t : Parser}

/-- In front of a closing brace at `q`, with no other brace behind `p`. -/
structure Fenced (p q : ℕ) (s : Parser) : Prop where
  lt : p < s.position
  le : s.position ≤ q
  closing : s.tokens[q]?.map Token.type = some .rbrace
  free : ∀ i tok, p < i → i < q → s.tokens[i]? = some tok → ¬ tok.isLbrace ∧ ¬ tok.isRbrace

/-- In front of the closing brace, and not at it. -/
def Unclosed (p q : ℕ) (s : Parser) : Prop := Fenced p q s ∧ s.currentTokenType ≠ .rbrace

namespace Fenced

theorem sameInput (h : Fenced p q s) (hst : SameInput s t) : Fenced p q t where
  lt := hst.2 ▸ h.lt
  le := hst.2 ▸ h.le
  closing := hst.1 ▸ h.closing
  free := hst.1 ▸ h.free

theorem position_lt_of_ne (h : Fenced p q s) (hne : s.currentTokenType ≠ .rbrace) :
    s.position < q := by
  refine lt_of_le_of_ne h.le fun heq => hne ?_
  have hclosing := h.closing
  rw [← heq, Option.map_eq_some_iff] at hclosing
  obtain ⟨tok, htok, htype⟩ := hclosing
  simp [currentTokenType, currentToken?, htok, htype]

theorem advance (h : Unclosed p q s) : Fenced p q s.advance := by
  have hlt := h.1.position_lt_of_ne h.2
  obtain ⟨tok, htok, -⟩ := Option.map_eq_some_iff.mp h.1.closing
  have hlen := (List.getElem?_eq_some_iff.mp htok).1
  have hpos := advance_position (s := s) (by omega)
  have := h.1.lt
  refine ⟨by omega, by omega, ?_, ?_⟩
  · rw [advance_tokens]
    exact h.1.closing
  · rw [advance_tokens]
    exact h.1.free

theorem skipNewlines (h : Fenced p q s) : Fenced p q s.skipNewlines := by
  have hturns : ∀ n (s : Parser), Fenced p q s → Fenced p q (s.skipNewlinesFor n) := by
    intro n
    induction n with
    | zero => exact fun _ h => h
    | succ n ih =>
      intro s h
      rw [skipNewlinesFor]
      split
      · next hnl => exact ih _ (advance ⟨h, by rw [hnl]; decide⟩)
      · exact h
  exact hturns _ _ h

theorem rewind (h : Fenced p q s) (ht : Fenced p q t) :
    Fenced p q (t.rewindToPosition s.position) := by
  unfold rewindToPosition
  split
  · exact ⟨h.lt, h.le, ht.closing, ht.free⟩
  · exact ht

theorem not_lbrace (h : Fenced p q s) : s.currentTokenType ≠ .lbrace := by
  intro htype
  have hlt := h.position_lt_of_ne (by rw [htype]; decide)
  obtain ⟨tok, htok, htype'⟩ := exists_token (s := s) (by rw [htype]; decide)
  refine (h.free _ tok h.lt hlt htok).1 ?_
  simp [Token.isLbrace, htype', htype]

/-- No promotion of another word brings a brace in. -/
theorem tryPromote {word : String} {type : TokenType} (hword : type = .lbrace → word = "\x7b")
    (htype : type ≠ .rbrace) (hreserved : type ≠ .word) (h : Fenced p q s) :
    Fenced p q (s.tryPromote 0 word type) := by
  unfold Parser.tryPromote
  split
  · next tok' hpromote =>
    obtain ⟨tok, htok, htok'⟩ := Option.bind_eq_some_iff.mp hpromote
    rw [peekToken?, Nat.add_zero] at htok
    have hsome : (tok.tryPromote word type).isSome := by rw [htok']; rfl
    unfold Token.tryPromote at htok'
    split_ifs at htok' with hw
    cases htok'
    have hlt := h.position_lt_of_ne (by simp [currentTokenType, currentToken?, htok, hw.1])
    have hnot := h.free _ tok h.lt hlt htok
    refine ⟨h.lt, h.le, ?_, ?_⟩
    · rw [List.getElem?_set_ne (by omega)]
      exact h.closing
    · intro i tok'' hi hiq hget
      rw [List.getElem?_set] at hget
      split_ifs at hget with heq hlen
      · cases hget
        have hl : type ≠ .lbrace := by
          rintro rfl
          cases hword rfl
          exact hnot.1 (by simp [Token.isLbrace, hsome])
        simp [Token.isLbrace, Token.isRbrace, Token.tryPromote, hl, htype, hreserved]
      · exact h.free i tok'' hi hiq hget
  · exact h

end Fenced

/-! Guards in front of a leaf -/

theorem fenced_setError (h : Fenced p q s) (text : String) : Fenced p q (s.setError text) :=
  h.sameInput (SameInput.setError s text)

theorem triple_errorWith {α : Type} {r : α → Parser → Prop} (text : String) :
    Triple (Fenced p q) (Fenced p q) (errorWith text) r :=
  Triple.bind (.update fun h => fenced_setError h text) fun _ => .failure id

theorem keeps_skipNewlines : Keeps (Fenced p q) parserSkipNewlines := .update Fenced.skipNewlines

theorem keeps_tryPromoteTo {word : String} {type : TokenType} {hr : type.IsReserved}
    (hword : type = .lbrace → word = "\x7b") (htype : type ≠ .rbrace) :
    Keeps (Fenced p q) (tryPromoteTo 0 word type hr) :=
  .update (Fenced.tryPromote hword htype (by rintro rfl; exact absurd hr (by decide)))

theorem requireOneOf_unclosed {types : List TokenType} (h : .rbrace ∉ types) :
    Triple (Fenced p q) (Fenced p q) (requireOneOf types) fun _ => Unclosed p q :=
  Triple.bind (.inspect _) fun type => .ite (fun _ => .failure And.left) fun hmem =>
    .pure fun hs => ⟨hs.1, fun htype => h (by simpa [← hs.2, htype] using hmem)⟩

theorem expect_unclosed {type : TokenType} (h : type ≠ .rbrace) (text : String) :
    Triple (Fenced p q) (Fenced p q) (expect type text) fun _ => Unclosed p q :=
  Triple.bind (.inspect _) fun type' => .ite (fun _ => (triple_errorWith text).weaken And.left)
    fun heq => .pure fun hs => ⟨hs.1, by rw [hs.2, not_not.mp heq]; exact h⟩

theorem expectOrIncomplete_unclosed {type : TokenType} (h : type ≠ .rbrace) (text : String) :
    Triple (Fenced p q) (Fenced p q) (expectOrIncomplete type text) fun _ => Unclosed p q :=
  Triple.bind (.inspect _) fun type' => .ite
    (fun _ => Triple.bind ((Triple.inspect _).weaken And.left) fun type'' =>
      .ite (fun _ => .failure And.left) fun _ => (triple_errorWith text).weaken And.left)
    fun heq => .pure fun hs => ⟨hs.1, by rw [hs.2, not_not.mp heq]; exact h⟩

theorem triple_of_unclosed {α : Type} {n : Production α}
    (h : Triple (Fenced p q) (Fenced p q) n fun _ => Unclosed p q) : Keeps (Fenced p q) n :=
  ⟨fun hs hrun => (h.answers hs hrun).1, h.fails⟩

theorem triple_cloneToken {r : Parser → Prop} :
    Triple (Fenced p q) r cloneToken fun _ => r where
  answers {s a t} hs hrun := by
    cases hc : s.currentToken? with
    | none => simp [cloneToken, hc] at hrun
    | some tok =>
      rw [run_cloneToken hc] at hrun
      cases hrun
      exact hs
  fails {s e t} _ hrun := by cases hc : s.currentToken? <;> simp [cloneToken, hc] at hrun

theorem takeLeaf_unclosed (type : GnodeType) :
    Triple (Fenced p q) (Unclosed p q) (takeLeaf type) fun _ => Fenced p q :=
  triple_cloneToken.bind fun _ => Triple.bind (.update fun h => Fenced.advance h) fun _ => .pure id

/-- A leaf of the given type, or something else. -/
theorem keeps_ifType {α : Type} {type : TokenType} (h : type ≠ .rbrace) {m m' : Production α}
    (hm : Triple (Fenced p q) (Unclosed p q) m fun _ => Fenced p q) (hm' : Keeps (Fenced p q) m') :
    Keeps (Fenced p q) (tokenType >>= fun type' => if type' = type then m else m') :=
  Triple.bind (.inspect _) fun type' => .ite
    (fun heq => hm.weaken fun hs => ⟨hs.1, by rw [hs.2, heq]; exact h⟩)
    fun _ => hm'.weaken And.left

/-! ## Simple commands -/

theorem keeps_gparseFilename : Keeps (Fenced p q) gparseFilename :=
  (requireOneOf_unclosed (by decide)).bind fun _ => takeLeaf_unclosed _

theorem keeps_gparseIoFile : Keeps (Fenced p q) gparseIoFile :=
  (requireOneOf_unclosed (by decide)).bind fun _ => (takeLeaf_unclosed _).bind fun _ =>
    keeps_gparseFilename.bind fun _ => .pure id

theorem keeps_gparseIoHere : Keeps (Fenced p q) gparseIoHere :=
  (requireOneOf_unclosed (by decide)).bind fun _ =>
    Triple.bind ((Triple.inspect _).weaken id) fun _ =>
    Triple.bind ((Triple.inspect _).weaken And.left) fun _ =>
    Triple.bind (.update fun h => Fenced.advance h.1) fun _ =>
    (requireOneOf_unclosed (by decide)).bind fun _ => triple_cloneToken.bind fun _ =>
    Triple.bind (.update fun h => Fenced.advance h) fun _ => .pure id

theorem keeps_gparseIoRedirect : Keeps (Fenced p q) gparseIoRedirect := by
  have hnumber : Keeps (Fenced p q) optionalIoNumber := by
    refine Triple.bind (.inspect _) fun type => .ite (fun heq => ?_) fun _ =>
      .ite (fun heq => ?_) fun _ => .pure And.left
    · exact ((takeLeaf_unclosed _).weaken fun hs => ⟨hs.1, by rw [hs.2, heq]; decide⟩).bind
        fun _ => .pure id
    · exact ((takeLeaf_unclosed _).weaken fun hs => ⟨hs.1, by rw [hs.2, heq]; decide⟩).bind
        fun _ => .pure id
  have htarget : Keeps (Fenced p q) ioFileOrHere :=
    keeps_gparseIoFile.attempt_bind (fun _ => .pure id) fun _ =>
      keeps_gparseIoHere.attempt_bind (fun _ => .pure id) fun _ => .failure id
  exact hnumber.bind fun _ => htarget.bind fun _ => .pure id

theorem keeps_matchHeredoc (node : Gnode) : Keeps (Fenced p q) (matchHeredoc node) := by
  unfold matchHeredoc
  split
  · exact keeps_skipNewlines.bind fun _ => (expect_unclosed (by decide) _).bind fun _ =>
      triple_cloneToken.bind fun _ => Triple.bind (.update fun h => Fenced.advance h) fun _ => .pure id
  · exact .pure id

theorem keeps_matchHeredocsInItem (node : Gnode) :
    Keeps (Fenced p q) (matchHeredocsInItem node) := by
  unfold matchHeredocsInItem
  split
  · exact (keeps_matchHeredoc _).bind fun _ => .pure id
  · exact (Triple.forEach keeps_matchHeredoc _).bind fun _ => .pure id
  · exact .pure id

theorem keeps_redirectListStep (nodes : List Gnode) :
    Keeps (Fenced p q) (redirectListStep nodes) :=
  keeps_gparseIoRedirect.attempt_bind (fun _ => .pure id) fun _ => .pure id

theorem keeps_gparseRedirectList : Keeps (Fenced p q) gparseRedirectList :=
  keeps_gparseIoRedirect.bind fun _ =>
    (Triple.loop keeps_redirectListStep _).bind fun _ =>
    (Triple.forEach keeps_matchHeredoc _).bind fun _ => .pure id

theorem unclosed_of_atCommandWord (h : Fenced p q s) (hword : atCommandWord s = true) :
    Unclosed p q s := by
  unfold atCommandWord at hword
  split at hword
  · next tok htok =>
    refine ⟨h, ?_⟩
    simp only [Bool.and_eq_true, decide_eq_true_eq] at hword
    simp [currentTokenType, htok, hword.1]
  · cases hword

theorem keeps_ifCommandWord {α : Type} {m m' : Production α}
    (hm : Triple (Fenced p q) (Unclosed p q) m fun _ => Fenced p q) (hm' : Keeps (Fenced p q) m') :
    Keeps (Fenced p q) (inspect atCommandWord >>= fun b => if b then m else m') :=
  Triple.bind (.inspect _) fun _ => .ite
    (fun hb => hm.weaken fun hs => unclosed_of_atCommandWord hs.1 (hs.2.trans hb))
    fun _ => hm'.weaken And.left

theorem keeps_cmdPrefixStep (nodes : List Gnode) : Keeps (Fenced p q) (cmdPrefixStep nodes) :=
  Triple.bind (.inspect _) fun _ => .ite
    (fun _ => (keeps_gparseIoRedirect.weaken And.left).attempt_bind (fun _ => .pure id)
      fun _ => .pure id)
    fun _ => .ite
      (fun heq => ((takeLeaf_unclosed _).weaken fun hs => ⟨hs.1, by rw [hs.2, heq]; decide⟩).bind
        fun _ => .pure id)
      fun _ => .pure And.left

theorem keeps_gparseCmdName : Keeps (Fenced p q) gparseCmdName :=
  keeps_ifCommandWord (Triple.map (takeLeaf_unclosed _)) (.pure id)

theorem keeps_cmdSuffixStep (nodes : List Gnode) : Keeps (Fenced p q) (cmdSuffixStep nodes) :=
  Triple.bind (.inspect _) fun _ => .ite
    (fun _ => (keeps_gparseIoRedirect.weaken And.left).attempt_bind (fun _ => .pure id)
      fun _ => .pure id)
    fun _ => (keeps_ifCommandWord ((takeLeaf_unclosed _).bind fun _ => .pure id)
      (.pure id)).weaken And.left

theorem keeps_gparseSimpleCommand : Keeps (Fenced p q) gparseSimpleCommand :=
  (Triple.loop keeps_cmdPrefixStep _).bind fun _ => keeps_gparseCmdName.bind fun _ =>
    (Triple.loop keeps_cmdSuffixStep _).bind fun _ => .ite
      (fun _ => Triple.bind (.inspect _) fun _ =>
        .ite (fun _ => .failure And.left) fun _ => .failure And.left)
      fun _ => (Triple.forEach keeps_matchHeredocsInItem _).bind fun _ => .pure id

theorem keeps_gparseSeparatorOp : Keeps (Fenced p q) gparseSeparatorOp :=
  (requireOneOf_unclosed (by decide)).bind fun _ => takeLeaf_unclosed _

theorem keeps_gparseSeparator : Keeps (Fenced p q) gparseSeparator := by
  have hnewlines : Keeps (Fenced p q) (loop newlineListStep []) :=
    Triple.loop (fun _ => keeps_ifType (by decide) ((takeLeaf_unclosed _).bind fun _ => .pure id)
      (.pure id)) _
  refine Triple.bind (.inspect _) fun type => .ite (fun hsep => ?_) fun _ => .ite (fun _ => ?_)
    fun _ => .failure And.left
  · have hne : type ≠ .rbrace := by
      rintro rfl
      simp at hsep
    exact ((takeLeaf_unclosed _).weaken fun hs => ⟨hs.1, by rw [hs.2]; exact hne⟩).bind fun _ =>
      keeps_skipNewlines.bind fun _ => .pure id
  · exact (hnewlines.weaken And.left).bind fun _ => .pure id

/-! ## Compound commands -/

section Compound

variable {m : Production Gnode} (hm : Keeps (Fenced p q) m)

include hm

theorem keeps_gparseSubshell : Keeps (Fenced p q) (gparseSubshell m) :=
  (requireOneOf_unclosed (by decide)).bind fun _ => (takeLeaf_unclosed _).bind fun _ =>
    hm.bind fun _ => (expect_unclosed (by decide) _).bind fun _ =>
    (takeLeaf_unclosed _).bind fun _ => .pure id

theorem keeps_gparseDoGroup : Keeps (Fenced p q) (gparseDoGroup m) :=
  (keeps_tryPromoteTo (by decide) (by decide)).bind fun _ =>
    (expect_unclosed (by decide) _).bind fun _ => (takeLeaf_unclosed _).bind fun _ =>
    hm.bind fun _ => (keeps_tryPromoteTo (by decide) (by decide)).bind fun _ =>
    (expectOrIncomplete_unclosed (by decide) _).bind fun _ =>
    (takeLeaf_unclosed _).bind fun _ => .pure id

omit hm in
theorem keeps_gparseInClause : Keeps (Fenced p q) gparseInClause := by
  have hwords : Keeps (Fenced p q) gparseWordlist :=
    (triple_of_unclosed (expect_unclosed (by decide) _)).bind fun _ =>
      (Triple.loop (fun _ => keeps_ifType (by decide)
        ((takeLeaf_unclosed _).bind fun _ => .pure id) (.pure id)) _).bind fun _ => .pure id
  exact keeps_skipNewlines.bind fun _ =>
    (keeps_tryPromoteTo (by decide) (by decide)).bind fun _ =>
    (expect_unclosed (by decide) _).bind fun _ => triple_cloneToken.bind fun _ =>
    Triple.bind (.update fun h => Fenced.advance h) fun _ =>
    hwords.attempt_bind (fun _ => .pure id) fun _ => .pure id

theorem keeps_gparseForClause : Keeps (Fenced p q) (gparseForClause m) := by
  have hsep : ∀ inClause, Keeps (Fenced p q) (sequentialSep inClause) := by
    intro inClause
    refine Triple.bind (.inspect _) fun type => .ite (fun heq => ?_) fun _ =>
      .ite (fun _ => keeps_skipNewlines.weaken And.left) fun _ => ?_
    · exact Triple.bind (.update fun hs => Fenced.advance ⟨hs.1, by rw [hs.2, heq]; decide⟩)
        fun _ => keeps_skipNewlines
    · cases inClause with
      | ok node => exact .pure And.left
      | error e => exact (triple_errorWith _).weaken And.left
  exact (requireOneOf_unclosed (by decide)).bind fun _ => (takeLeaf_unclosed _).bind fun _ =>
    (expect_unclosed (by decide) _).bind fun _ => (takeLeaf_unclosed _).bind fun _ =>
    keeps_gparseInClause.attempt.bind fun _ => (hsep _).bind fun _ =>
    (keeps_gparseDoGroup hm).bind fun _ => .pure id

omit hm in
theorem keeps_patternListStep (nodes : List Gnode) :
    Keeps (Fenced p q) (patternListStep nodes) :=
  keeps_ifType (by decide) ((takeLeaf_unclosed _).bind fun _ =>
    (expect_unclosed (by decide) _).bind fun _ => (takeLeaf_unclosed _).bind fun _ => .pure id)
    (.pure id)

omit hm in
theorem keeps_gparsePatternList : Keeps (Fenced p q) gparsePatternList :=
  (requireOneOf_unclosed (by decide)).bind fun _ => (takeLeaf_unclosed _).bind fun _ =>
    (Triple.loop keeps_patternListStep _).bind fun _ => .pure id

omit hm in
theorem keeps_optionalLparen : Keeps (Fenced p q) optionalLparen :=
  keeps_ifType (by decide) (Triple.map (takeLeaf_unclosed _)) (.pure id)

theorem keeps_gparseCaseItem : Keeps (Fenced p q) (gparseCaseItem m) :=
  keeps_optionalLparen.bind fun _ => keeps_gparsePatternList.bind fun _ =>
    (expect_unclosed (by decide) _).bind fun _ => (takeLeaf_unclosed _).bind fun _ =>
    (hm.attempt_bind (fun _ => .pure id)
      fun _ => keeps_skipNewlines.bind fun _ => .pure id : Keeps _ (compoundListOrNewlines m)).bind
    fun _ => (expect_unclosed (by decide) _).bind fun _ => (takeLeaf_unclosed _).bind fun _ =>
    keeps_skipNewlines.bind fun _ => .pure id

theorem keeps_gparseCaseItemNs : Keeps (Fenced p q) (gparseCaseItemNs m) :=
  keeps_optionalLparen.bind fun _ => keeps_gparsePatternList.bind fun _ =>
    (expect_unclosed (by decide) _).bind fun _ => (takeLeaf_unclosed _).bind fun _ =>
    hm.attempt.bind fun _ => keeps_skipNewlines.bind fun _ => .pure id

theorem keeps_caseListStep (nodes : List Gnode) : Keeps (Fenced p q) (caseListStep m nodes) :=
  Triple.bind (.inspect _) fun _ => .ite (fun _ => .pure And.left) fun _ =>
    ((keeps_gparseCaseItem hm).weaken And.left).attempt_bind (fun _ => .pure id) fun _ => .pure id

theorem keeps_gparseCaseList : Keeps (Fenced p q) (gparseCaseList m) :=
  (keeps_gparseCaseItem hm).bind fun _ =>
    (Triple.loop (keeps_caseListStep hm) _).bind fun _ => .pure id

theorem keeps_caseItems : Keeps (Fenced p q) (caseItems m) := by
  have hns : Keeps (Fenced p q) (gparseCaseListNs m) :=
    (keeps_gparseCaseList hm).attempt.bind fun _ =>
      (keeps_gparseCaseItemNs hm).bind fun _ => .pure id
  exact (keeps_gparseCaseList hm).attempt_bind (fun _ => .pure id) fun _ => Triple.map hns.attempt

theorem keeps_gparseCaseClause : Keeps (Fenced p q) (gparseCaseClause m) := by
  refine (requireOneOf_unclosed (by decide)).bind fun _ => (takeLeaf_unclosed _).bind fun _ =>
    (expect_unclosed (by decide) _).bind fun _ => (takeLeaf_unclosed _).bind fun _ =>
    keeps_skipNewlines.bind fun _ => (keeps_tryPromoteTo (by decide) (by decide)).bind fun _ =>
    (expect_unclosed (by decide) _).bind fun _ => (takeLeaf_unclosed _).bind fun _ =>
    keeps_skipNewlines.bind fun _ => (keeps_caseItems hm).bind fun list =>
    (keeps_tryPromoteTo (by decide) (by decide)).bind fun _ =>
    (expect_unclosed (by decide) _).bind fun _ => (takeLeaf_unclosed _).bind fun _ => ?_
  cases list with
  | some list => exact .pure id
  | none => exact .pure id

theorem keeps_gparseElsePartFor (n : ℕ) : Keeps (Fenced p q) (gparseElsePartFor m n) := by
  induction n with
  | zero => exact .stop
  | succ n ih =>
    refine (keeps_tryPromoteTo (by decide) (by decide)).bind fun _ =>
      (keeps_tryPromoteTo (by decide) (by decide)).bind fun _ =>
      Triple.bind (.inspect _) fun type => .ite (fun heq => ?_) fun _ =>
      .ite (fun heq => ?_) fun _ => .failure And.left
    · exact ((takeLeaf_unclosed _).weaken fun hs => ⟨hs.1, by rw [hs.2, heq]; decide⟩).bind
        fun _ => hm.bind fun _ => (keeps_tryPromoteTo (by decide) (by decide)).bind fun _ =>
        (expect_unclosed (by decide) _).bind fun _ => (takeLeaf_unclosed _).bind fun _ =>
        hm.bind fun _ => ih.attempt.bind fun _ => .pure id
    · exact ((takeLeaf_unclosed _).weaken fun hs => ⟨hs.1, by rw [hs.2, heq]; decide⟩).bind
        fun _ => hm.bind fun _ => .pure id

theorem keeps_gparseElsePart : Keeps (Fenced p q) (gparseElsePart m) :=
  ⟨fun {s _ _} hs hrun => (keeps_gparseElsePartFor hm (remaining s + 1)).answers hs hrun,
    fun {s _ _} hs hrun => (keeps_gparseElsePartFor hm (remaining s + 1)).fails hs hrun⟩

theorem keeps_gparseIfClause : Keeps (Fenced p q) (gparseIfClause m) :=
  (requireOneOf_unclosed (by decide)).bind fun _ => (takeLeaf_unclosed _).bind fun _ =>
    hm.bind fun _ => (keeps_tryPromoteTo (by decide) (by decide)).bind fun _ =>
    (expectOrIncomplete_unclosed (by decide) _).bind fun _ => (takeLeaf_unclosed _).bind fun _ =>
    hm.bind fun _ => (keeps_gparseElsePart hm).attempt.bind fun _ =>
    (keeps_tryPromoteTo (by decide) (by decide)).bind fun _ =>
    (expectOrIncomplete_unclosed (by decide) _).bind fun _ =>
    (takeLeaf_unclosed _).bind fun _ => .pure id

theorem keeps_gparseWhileClause : Keeps (Fenced p q) (gparseWhileClause m) :=
  (expect_unclosed (by decide) _).bind fun _ => (takeLeaf_unclosed _).bind fun _ =>
    hm.bind fun _ => (keeps_gparseDoGroup hm).bind fun _ => .pure id

theorem keeps_gparseUntilClause : Keeps (Fenced p q) (gparseUntilClause m) :=
  (expect_unclosed (by decide) _).bind fun _ => (takeLeaf_unclosed _).bind fun _ =>
    hm.bind fun _ => (keeps_gparseDoGroup hm).bind fun _ => .pure id

omit hm in
/-- No further group opens in front of the closing brace. -/
theorem keeps_gparseBraceGroup : Keeps (Fenced p q) (gparseBraceGroup m) := by
  have hexpect : Triple (Fenced p q) (Fenced p q)
      (expect .lbrace "Expected '\x7b' to start brace group") fun _ _ => False :=
    Triple.bind (.inspect _) fun type => .ite
      (fun _ => (triple_errorWith _).weaken And.left)
      fun heq => .pure fun hs => hs.1.not_lbrace (hs.2.trans (not_not.mp heq))
  exact hexpect.bind fun _ => ⟨False.elim, False.elim⟩

theorem keeps_gparseCompoundCommand : Keeps (Fenced p q) (gparseCompoundCommand m) := by
  have hopener : Keeps (Fenced p q) promoteOpener :=
    (keeps_tryPromoteTo (by decide) (by decide)).bind fun _ =>
      (keeps_tryPromoteTo (by decide) (by decide)).bind fun _ =>
      (keeps_tryPromoteTo (by decide) (by decide)).bind fun _ =>
      (keeps_tryPromoteTo (by decide) (by decide)).bind fun _ =>
      (keeps_tryPromoteTo (by decide) (by decide)).bind fun _ =>
      keeps_tryPromoteTo (by decide) (by decide)
  have hvalid : Keeps (Fenced p q) expectsValid :=
    Triple.bind (.inspect _) fun _ => .ite (fun _ => .stop) fun _ => .pure And.left
  refine hvalid.bind fun _ => hopener.bind fun _ => Triple.bind (.inspect _) fun type =>
    Triple.bind (Triple.weaken ?_ And.left) fun _ => .pure id
  unfold compoundCommandOf
  split
  · exact keeps_gparseBraceGroup
  · exact keeps_gparseSubshell hm
  · exact keeps_gparseForClause hm
  · exact keeps_gparseCaseClause hm
  · exact keeps_gparseIfClause hm
  · exact keeps_gparseWhileClause hm
  · exact keeps_gparseUntilClause hm
  · exact triple_errorWith _

/-! ## Commands and lists -/

omit hm in
/-- The parenthesis behind a name is not the closing brace. -/
theorem unclosed_advance (h : Unclosed p q s) (hparen : atFunctionParen s = true) :
    Unclosed p q s.advance := by
  refine ⟨Fenced.advance h, ?_⟩
  have hlt := (s.currentToken?_isSome_iff).mp
  unfold atFunctionParen at hparen
  split at hparen
  · next tok htok =>
    have hlen := (List.getElem?_eq_some_iff.mp htok).1
    have hcurrent : s.advance.currentToken? = some tok := by
      rw [currentToken?, advance_tokens, advance_position (by omega)]
      exact htok
    simp [currentTokenType, hcurrent, of_decide_eq_true hparen]
  · cases hparen

omit hm in
theorem triple_rejectReservedName :
    Triple (Fenced p q) (Unclosed p q) rejectReservedName fun _ => Unclosed p q := by
  refine Triple.bind ((Triple.inspect _).weaken id) fun word => ?_
  cases word with
  | some word =>
    exact .ite (fun _ => (triple_errorWith _).weaken fun hs => hs.1.1) fun _ => .pure And.left
  | none => exact .pure And.left

theorem keeps_gparseFunctionDefinition : Keeps (Fenced p q) (gparseFunctionDefinition m) := by
  have hparen : Triple (Fenced p q) (Unclosed p q) requireFunctionParen fun _ s =>
      Unclosed p q s ∧ atFunctionParen s = true :=
    Triple.bind ((Triple.inspect _).weaken id) fun paren => .ite
      (fun _ => .failure fun hs => hs.1.1)
      fun hnot => .pure fun hs => ⟨hs.1, by simpa [← hs.2] using hnot⟩
  have hname : Triple (Fenced p q) (fun s => Unclosed p q s ∧ atFunctionParen s = true)
      (takeLeaf .fname) fun _ => Unclosed p q :=
    triple_cloneToken.bind fun _ =>
      Triple.bind (.update fun hs => unclosed_advance hs.1 hs.2) fun _ => .pure id
  have hrest : Keeps (Fenced p q) requireFunctionBody :=
    Triple.bind ((Triple.inspect _).weaken id) fun _ => .ite
      (fun _ => Triple.bind (.update fun hs => fenced_setError hs.1 _) fun _ => .failure id)
      fun _ => .pure And.left
  have hbody : Keeps (Fenced p q) (gparseFunctionBody m) := by
    refine (keeps_gparseCompoundCommand hm).attempt.bind fun r => ?_
    rcases r with e | compound
    · cases e with
      | error => exact triple_errorWith _
      | incomplete => exact .failure id
      | empty => exact .failure id
    · exact keeps_gparseRedirectList.attempt_bind (fun _ => .pure id) fun _ => .pure id
  exact (requireOneOf_unclosed (by decide)).bind fun _ => triple_rejectReservedName.bind fun _ =>
    hparen.bind fun _ => hname.bind fun _ => (takeLeaf_unclosed _).bind fun _ =>
    (expect_unclosed (by decide) _).bind fun _ => (takeLeaf_unclosed _).bind fun _ =>
    keeps_skipNewlines.bind fun _ => hrest.bind fun _ => hbody.bind fun _ => .pure id

theorem keeps_gparseCommand : Keeps (Fenced p q) (gparseCommand m) := by
  have hredirected : Keeps (Fenced p q) (gparseRedirectedCompound m) :=
    (keeps_gparseCompoundCommand hm).bind fun _ =>
      keeps_gparseRedirectList.attempt_bind (fun _ => .pure id) fun _ => .pure id
  refine (keeps_gparseFunctionDefinition hm).attempt.bind fun r => ?_
  have hother : Keeps (Fenced p q) (gparseCompoundOrSimple m) := by
    refine hredirected.attempt.bind fun r => ?_
    rcases r with e | node
    · cases e with
      | error => exact Triple.map keeps_gparseSimpleCommand
      | incomplete => exact .failure id
      | empty => exact Triple.map keeps_gparseSimpleCommand
    · exact .pure id
  rcases r with e | node
  · cases e with
    | error => exact hother
    | incomplete => exact .failure id
    | empty => exact hother
  · exact .pure id

theorem keeps_gparsePipeline : Keeps (Fenced p q) (gparsePipeline m) := by
  have hstep : ∀ nodes, Keeps (Fenced p q) (pipeSequenceStep m nodes) := fun nodes =>
    keeps_ifType (by decide) ((takeLeaf_unclosed _).bind fun _ => keeps_skipNewlines.bind fun _ =>
      (keeps_gparseCommand hm).bind fun _ => .pure id) (.pure id)
  have hsequence : Keeps (Fenced p q) (gparsePipeSequence m) :=
    (keeps_gparseCommand hm).bind fun _ => (Triple.loop hstep _).bind fun _ => .pure id
  have heof : Keeps (Fenced p q) rejectEof :=
    Triple.bind (.inspect _) fun _ => .ite (fun _ => .failure And.left) fun _ => .pure And.left
  have hbang : Keeps (Fenced p q) optionalBang :=
    keeps_ifType (by decide) ((takeLeaf_unclosed _).bind fun _ => .pure id) (.pure id)
  exact (keeps_tryPromoteTo (by decide) (by decide)).bind fun _ => heof.bind fun _ =>
    hbang.bind fun _ => hsequence.bind fun _ => .pure id

theorem keeps_gparseAndOr : Keeps (Fenced p q) (gparseAndOr m) := by
  have htail : Triple (Fenced p q) (Unclosed p q) (gparseAndOrTail m) fun _ => Fenced p q :=
    triple_cloneToken.bind fun _ => Triple.bind (.update fun h => Fenced.advance h) fun _ =>
      keeps_skipNewlines.bind fun _ => (keeps_gparsePipeline hm).bind fun _ => .pure id
  have hstep : ∀ left, Keeps (Fenced p q) (andOrStep m left) := by
    refine fun left => Triple.bind (.inspect _) fun type => .ite (fun _ => .pure And.left)
      fun hop => ?_
    have hne : type ≠ .rbrace := by
      rintro rfl
      exact hop (by decide)
    exact (htail.weaken fun hs => ⟨hs.1, by rw [hs.2]; exact hne⟩).orBack_bind
      (fun hs ht => hs.1.rewind ht) (fun _ => .pure id) (.pure id)
  exact (keeps_gparsePipeline hm).bind fun _ => Triple.loop hstep _

theorem keeps_compoundListBody : Keeps (Fenced p q) (compoundListBody m) := by
  have hmore : Keeps (Fenced p q) (do
      let sep ← gparseSeparator
      let next ← gparseAndOr m
      return [sep, next]) :=
    keeps_gparseSeparator.bind fun _ => (keeps_gparseAndOr hm).bind fun _ => .pure id
  have hstep : ∀ nodes, Keeps (Fenced p q) (termStep m nodes) := fun nodes =>
    hmore.orBack_bind (fun hs ht => hs.rewind ht) (fun _ => .pure id) (.pure id)
  have hterm : Keeps (Fenced p q) (gparseTerm m) :=
    (keeps_gparseAndOr hm).bind fun _ => (Triple.loop hstep _).bind fun _ => .pure id
  exact keeps_skipNewlines.bind fun _ => hterm.bind fun _ =>
    keeps_gparseSeparator.attempt.bind fun _ => .pure id

end Compound

/-- No list of commands passes the closing brace. -/
theorem keeps_gparseCompoundList : Keeps (Fenced p q) gparseCompoundList := by
  have hdepth : ∀ n, Keeps (Fenced p q) (gparseCompoundListFor n) := by
    intro n
    induction n with
    | zero => exact .stop
    | succ n ih => exact keeps_compoundListBody ih
  have hrun : ∀ s, gparseCompoundList.run s = (gparseCompoundListFor (remaining s + 1)).run s :=
    fun _ => rfl
  refine ⟨fun {s _ _} hs h => ?_, fun {s _ _} hs h => ?_⟩
  · exact (hdepth (remaining s + 1)).answers hs ((hrun s).symm.trans h)
  · exact (hdepth (remaining s + 1)).fails hs ((hrun s).symm.trans h)

/-! ## The first closing brace -/

theorem findClosingBrace_eq (toks : List Token) (offset : ℕ) :
    findClosingBrace toks offset =
      ((toks.takeWhile (·.type ≠ .eof)).findIdx? Token.isRbrace).map (· + offset) := by
  induction toks generalizing offset with
  | nil => rfl
  | cons tok toks ih =>
    rw [findClosingBrace]
    split_ifs with heof hbrace
    · simp [heof]
    · have hr : tok.isRbrace = true := by simpa [Token.isRbrace, or_comm] using hbrace
      simp [heof, List.findIdx?_cons, hr]
    · have hr : tok.isRbrace = false := by simpa [Token.isRbrace, and_comm] using hbrace
      rw [ih, List.takeWhile_cons_of_pos (by simpa using heof), List.findIdx?_cons, hr]
      simp only [Bool.false_eq_true, if_false, Option.map_map]
      congr 1
      funext k
      simp only [Function.comp_apply]
      omega

theorem findClosingBrace_eq_some {k : ℕ} :
    findClosingBrace (s.tokens.drop (s.position + 1)) 1 = some k ↔
      IsLeast {n | RbraceAt s n} (s.position + k) := by
  rw [findClosingBrace_eq, Option.map_eq_some_iff]
  change (∃ i, s.behind.findIdx? Token.isRbrace = some i ∧ i + 1 = k) ↔ _
  constructor
  · rintro ⟨i, hi, rfl⟩
    rw [List.findIdx?_eq_some_iff_getElem] at hi
    obtain ⟨hlt, hbrace, hfirst⟩ := hi
    refine ⟨⟨by omega, s.behind[i], ?_, hbrace⟩, ?_⟩
    · rw [show s.position + (i + 1) - (s.position + 1) = i by omega]
      exact List.getElem?_eq_getElem hlt
    · rintro n ⟨hn, tok, htok, hr⟩
      by_contra hlt'
      obtain ⟨hlen, rfl⟩ := List.getElem?_eq_some_iff.mp htok
      exact hfirst (n - (s.position + 1)) (by omega) hr
  · rintro ⟨⟨hn, tok, htok, hr⟩, hfirst⟩
    refine ⟨k - 1, ?_, by omega⟩
    rw [show s.position + k - (s.position + 1) = k - 1 by omega] at htok
    obtain ⟨hlen, rfl⟩ := List.getElem?_eq_some_iff.mp htok
    rw [List.findIdx?_eq_some_iff_getElem]
    refine ⟨hlen, hr, fun j hj hbrace => ?_⟩
    have hle := hfirst (a := s.position + (j + 1)) ⟨by omega, s.behind[j], by
      rw [show s.position + (j + 1) - (s.position + 1) = j by omega]
      exact List.getElem?_eq_getElem (by omega), hbrace⟩
    omega

theorem behind_getElem? {n : ℕ} {tok : Token} (hn : s.position < n)
    (h : s.behind[n - (s.position + 1)]? = some tok) : s.tokens[n]? = some tok := by
  have hpre : s.behind <+: s.tokens.drop (s.position + 1) := List.takeWhile_prefix _
  obtain ⟨toks, htoks⟩ := hpre
  have hget : (s.tokens.drop (s.position + 1))[n - (s.position + 1)]? = some tok := by
    rw [← htoks, List.getElem?_append_left (List.getElem?_eq_some_iff.mp h).1]
    exact h
  rw [List.getElem?_drop] at hget
  rwa [show s.position + 1 + (n - (s.position + 1)) = n by omega] at hget

theorem closedAt_getElem? {n i : ℕ} (hn : s.position < n) (hi : i ≠ n) :
    (closedAt s n).tokens[i]? = s.tokens[i]? := by
  unfold closedAt Parser.tryPromote
  split
  · exact List.getElem?_set_ne (by omega)
  · rfl

theorem closedAt_closing {n : ℕ} (h : RbraceAt s n) :
    (closedAt s n).tokens[n]?.map Token.type = some .rbrace := by
  obtain ⟨hn, tok, htok, hr⟩ := h
  have hget := behind_getElem? hn htok
  have hlen := (List.getElem?_eq_some_iff.mp hget).1
  have hpeek : s.peekToken? (n - s.position) = some tok := by
    rw [peekToken?, show s.position + (n - s.position) = n by omega, hget]
  unfold closedAt Parser.tryPromote
  rw [hpeek, Option.bind_some]
  split
  · next tok' hpromote =>
    unfold Token.tryPromote at hpromote
    split_ifs at hpromote
    cases hpromote
    simp [show s.position + (n - s.position) = n by omega, hlen]
  · next hpromote =>
    have htype : tok.type = .rbrace := by simpa [Token.isRbrace, hpromote] using hr
    simp [hget, htype]

theorem rbraceAt_lt_length {n : ℕ} (h : RbraceAt s n) : n < s.tokens.length := by
  obtain ⟨hn, tok, htok, -⟩ := h
  exact (List.getElem?_eq_some_iff.mp (behind_getElem? hn htok)).1

theorem closedAt_position (s : Parser) (n : ℕ) : (closedAt s n).position = s.position :=
  tryPromote_position _ _ _ _

theorem closedAt_advance_position {n : ℕ} (h : RbraceAt s n) :
    (closedAt s n).advance.position = s.position + 1 := by
  have hlen : (closedAt s n).tokens.length = s.tokens.length :=
    length_eq_of_le (le_tryPromote s _ _ (by decide))
  have hn := rbraceAt_lt_length h
  have hlt := h.1
  rw [advance_position (by rw [hlen, closedAt_position]; omega), closedAt_position]

/-- The token at a recognised closing brace stays one, whatever is read before it. -/
theorem currentTokenType_closing {n : ℕ} (h : RbraceAt s n) (hle : closedAt s n ≤ t)
    (ht : t.position = n) : t.currentTokenType = .rbrace := by
  obtain ⟨tok, htok, htype⟩ := Option.map_eq_some_iff.mp (closedAt_closing h)
  obtain ⟨hlt, rfl⟩ := List.getElem?_eq_some_iff.mp htok
  have hlt' : n < t.tokens.length := by rwa [length_eq_of_le hle]
  have hsame := (List.Forall₂.get hle.promotes hlt hlt').eq_of_ne_word (by simp [htype])
  have hcurrent : t.currentToken? = some (closedAt s n).tokens[n] := by
    rw [currentToken?, ht, List.getElem?_eq_getElem hlt']
    exact congrArg some hsame
  rw [currentTokenType, hcurrent]
  exact htype

theorem fenced_closedAt {n : ℕ} (hleast : IsLeast {n | RbraceAt s n} n)
    (hflat : NoFurtherOpening s) : Fenced s.position n (closedAt s n).advance := by
  obtain ⟨hn, tok, htok, hr⟩ := hleast.1
  have hpos := closedAt_advance_position hleast.1
  refine ⟨by omega, by omega, by simpa using closedAt_closing hleast.1, ?_⟩
  intro i tok' hi hin hget
  rw [advance_tokens, closedAt_getElem? hn (by omega)] at hget
  refine ⟨hflat n hleast i tok' hi hin hget, fun hr' => ?_⟩
  have hlen : i - (s.position + 1) < s.behind.length := by
    have := (List.getElem?_eq_some_iff.mp htok).1
    omega
  have hbehind := List.getElem?_eq_getElem hlen
  have heq : s.behind[i - (s.position + 1)] = tok' := by
    have := behind_getElem? hi hbehind
    rw [hget] at this
    exact (Option.some.inj this).symm
  have hle := hleast.2 ⟨hi, tok', heq ▸ hbehind, hr'⟩
  omega

/-! ## The group -/

theorem keeps_compoundListOrRbrace :
    Keeps (Fenced p q) (compoundListOrRbrace gparseCompoundList) :=
  keeps_gparseCompoundList.attempt_bind (fun _ => .pure id) fun _ =>
    Triple.bind (.inspect _) fun _ => .ite (fun _ => .pure And.left) fun _ => .failure And.left

theorem run_promoteClosingBrace {n : ℕ} (hleast : IsLeast {n | RbraceAt s n} n) :
    promoteClosingBrace.run s = .ok () (closedAt s n) := by
  have hlt := hleast.1.1
  have hfind : findClosingBrace (s.tokens.drop (s.position + 1)) 1 = some (n - s.position) := by
    rw [findClosingBrace_eq_some, show s.position + (n - s.position) = n by omega]
    exact hleast
  simp [promoteClosingBrace, hfind, parserTokenTryPromoteToRbrace, closedAt]

theorem run_promoteClosingBrace_none (h : ∀ n, ¬ IsLeast {n | RbraceAt s n} n) :
    promoteClosingBrace.run s = .fail .incomplete s := by
  have hfind : findClosingBrace (s.tokens.drop (s.position + 1)) 1 = none :=
    Option.eq_none_iff_forall_ne_some.mpr fun k hk => h _ (findClosingBrace_eq_some.mp hk)
  simp [promoteClosingBrace, hfind]

/-- The group ends where the list of its commands, read with the first `}` as the closing brace,
stops at a closing brace. -/
theorem endsAt_iff {n k : ℕ} (htype : s.currentTokenType = .lbrace)
    (hleast : IsLeast {n | RbraceAt s n} n) :
    EndsAt s k ↔ ∃ list t, (compoundListOrRbrace gparseCompoundList).run (closedAt s n).advance =
      .ok list t ∧ t.currentTokenType = .rbrace ∧ t.position = k := by
  have hcurrent : (closedAt s n).currentTokenType = .lbrace := by
    rw [← htype]
    exact currentTokenType_of_le (le_tryPromote s _ _ (by decide)) (closedAt_position s n)
      (by simp [htype])
  obtain ⟨tok, htok, -⟩ := exists_token (s := closedAt s n) (by simp [hcurrent])
  have hrun : (gparseBraceGroup gparseCompoundList).run s =
      ((compoundListOrRbrace gparseCompoundList).run (closedAt s n).advance).bind fun list t =>
        ((expectOrIncomplete .rbrace "Expected '\x7d' to close brace group").run t).bind fun _ t =>
          ((takeLeaf .wordNode).run t).bind fun rbrace t =>
            .ok (.ofMulti .braceGroup (some (.ofToken .wordNode tok (closedAt s n).position)) list
              (some rbrace) none) t := by
    simp only [gparseBraceGroup, run_bind]
    rw [run_expect, if_pos htype, Reply.bind_ok, run_promoteClosingBrace hleast, Reply.bind_ok,
      run_takeLeaf htok, Reply.bind_ok]
    rfl
  have hclose : ∀ t : Parser, t.currentTokenType = .rbrace →
      (expectOrIncomplete .rbrace "Expected '\x7d' to close brace group").run t = .ok () t := by
    intro t ht
    simp [expectOrIncomplete, ht]
  constructor
  · rintro ⟨g, t, hg, hpos⟩
    rw [hrun] at hg
    simp only [Reply.bind_eq_ok] at hg
    obtain ⟨list, u, hlist, _, v, hexpect, rbrace, w, hleaf, hok⟩ := hg
    have hrbrace : u.currentTokenType = .rbrace := by
      by_contra hne
      simp only [expectOrIncomplete, run_bind, run_tokenType, Reply.bind_ok, hne, ne_eq,
        not_false_eq_true, if_true] at hexpect
      split_ifs at hexpect <;> simp [errorWith] at hexpect
    rw [hclose u hrbrace] at hexpect
    cases hexpect
    obtain ⟨tok', htok', -⟩ := exists_token (s := u) (by simp [hrbrace])
    rw [run_takeLeaf htok'] at hleaf
    cases hleaf
    cases hok
    have hlt := u.currentToken?_isSome_iff.mp (by simp [htok'])
    rw [advance_position hlt] at hpos
    exact ⟨list, u, hlist, hrbrace, by omega⟩
  · rintro ⟨list, u, hlist, hrbrace, rfl⟩
    obtain ⟨tok', htok', -⟩ := exists_token (s := u) (by simp [hrbrace])
    have hlt := u.currentToken?_isSome_iff.mp (by simp [htok'])
    have hok : (gparseBraceGroup gparseCompoundList).run s =
        .ok (.ofMulti .braceGroup (some (.ofToken .wordNode tok (closedAt s n).position)) list
          (some (.ofToken .wordNode tok' u.position)) none) u.advance := by
      rw [hrun, hlist, Reply.bind_ok, hclose u hrbrace, Reply.bind_ok, run_takeLeaf htok']
      rfl
    exact ⟨_, u.advance, hok, advance_position hlt⟩

theorem not_endsAt_of_none {k : ℕ} (h : ∀ n, ¬ IsLeast {n | RbraceAt s n} n) : ¬ EndsAt s k := by
  rintro ⟨g, t, hg, -⟩
  simp only [gparseBraceGroup, run_bind, Reply.bind_eq_ok] at hg
  obtain ⟨_, u, hexpect, _, v, hpromote, -⟩ := hg
  rw [run_expect] at hexpect
  split_ifs at hexpect
  cases hexpect
  rw [run_promoteClosingBrace_none h] at hpromote
  cases hpromote

/-- A list of commands does not start at a closing brace. -/
theorem run_gparseCompoundList_nothing (h : s.skipNewlines.currentTokenType = .rbrace) :
    gparseCompoundList.run s = .fail .error (s.skipNewlines.setError noOpenerText) := by
  have hbody : ∀ m : Production Gnode, (compoundListBody m).run s =
      .fail .error (s.skipNewlines.setError noOpenerText) := by
    intro m
    simp only [compoundListBody, gparseTerm, gparseAndOr, run_bind, run_parserSkipNewlines,
      Reply.bind_ok]
    rw [run_gparsePipeline_nothing (.inr h)]
    rfl
  exact hbody (gparseCompoundListFor (remaining s))

/-- A group in which a command could begin at the first `}` ends there. -/
theorem commandCouldBegin_run {n : ℕ} (h : RbraceAt s n) (hbegin : CommandCouldBegin s n) :
    ∃ list t, (compoundListOrRbrace gparseCompoundList).run (closedAt s n).advance = .ok list t ∧
      t.currentTokenType = .rbrace ∧ t.position = n := by
  rcases hbegin with hempty | ⟨term, sep, t, hlist, hpos⟩
  · let u := (closedAt s n).advance.skipNewlines
    have hle : closedAt s n ≤ u := (le_advance _).trans (le_skipNewlinesFor _ _)
    have hrbrace : u.currentTokenType = .rbrace := currentTokenType_closing h hle hempty
    have hlist : gparseCompoundList.run (closedAt s n).advance =
        .fail .error (u.setError noOpenerText) := run_gparseCompoundList_nothing hrbrace
    refine ⟨none, u.setError noOpenerText, ?_, by simpa using hrbrace, by simpa using hempty⟩
    rw [compoundListOrRbrace, run_bind, run_attempt, hlist]
    simp [hrbrace]
  · have hle := (le_advance (closedAt s n)).trans (le_of_ok hlist)
    refine ⟨some (.ofPair .compoundList (some term) (some sep)), t, ?_,
      currentTokenType_closing h hle hpos, hpos⟩
    rw [compoundListOrRbrace, run_bind, run_attempt, hlist]
    rfl

/-- A brace group ends at the `}` at which a command could begin inside it as soon as the first
`}` behind its `{` is of that kind, and for a group without a further `{` only then. -/
theorem endsWhereCommandsBegin_of (s : Parser) (htype : s.currentTokenType = .lbrace) :
    (FirstBraceCloses s → EndsWhereCommandsBegin s) ∧
      (NoFurtherOpening s → (∃ n, EndsAt s n) → EndsWhereCommandsBegin s → FirstBraceCloses s) := by
  constructor
  · intro hfirst k
    by_cases hnone : ∀ n, ¬ IsLeast {n | RbraceAt s n} n
    · refine ⟨fun h => absurd h (not_endsAt_of_none hnone), fun hleast => ?_⟩
      classical
      have hne : ∃ n, RbraceAt s n := ⟨k, hleast.1.1⟩
      exact absurd ⟨Nat.find_spec hne, fun _ => Nat.find_min' hne⟩ (hnone (Nat.find hne))
    · push Not at hnone
      obtain ⟨n, hleast⟩ := hnone
      have hleast' : IsLeast {n | RbraceAt s n ∧ CommandCouldBegin s n} n :=
        ⟨⟨hleast.1, hfirst n hleast⟩, fun i hi => hleast.2 hi.1⟩
      obtain ⟨list, t, hlist, hrbrace, hpos⟩ := commandCouldBegin_run hleast.1 (hfirst n hleast)
      rw [endsAt_iff htype hleast]
      constructor
      · rintro ⟨list', t', hlist', -, rfl⟩
        rw [hlist] at hlist'
        cases hlist'
        rwa [hpos]
      · intro hk
        exact ⟨list, t, hlist, hrbrace, hpos.trans (hleast'.unique hk)⟩
  · rintro hflat ⟨k, hends⟩ hclaim n hleast
    obtain ⟨list, t, hlist, hrbrace, hpos⟩ := (endsAt_iff htype hleast).mp hends
    -- In front of the first `}` stands no closing brace, and the commands do not pass it.
    have hfenced := keeps_compoundListOrRbrace.answers (fenced_closedAt hleast hflat) hlist
    have hk : k = n := by
      by_contra hne
      obtain ⟨tok, htok, htok'⟩ := exists_token (s := t) (by simp [hrbrace])
      have hlt := lt_of_le_of_ne hfenced.le (by omega)
      refine (hfenced.free _ tok hfenced.lt hlt htok).2 ?_
      simp [Token.isRbrace, htok', hrbrace]
    exact hk ▸ ((hclaim k).mp hends).1.2

/-- `{ echo ; }`, its first word promoted. -/
def plainBraceGroup : Parser :=
  create [.ofType .lbrace, .ofText "echo", .ofType .semi, .ofText "\x7d"]

/-- The group `{ echo ; }` ends where it should. -/
theorem plainBraceGroup_ends : EndsWhereCommandsBegin plainBraceGroup := by
  refine (endsWhereCommandsBegin_of plainBraceGroup rfl).1 fun n hn => ?_
  have hleast : IsLeast {n | RbraceAt plainBraceGroup n} 3 :=
    findClosingBrace_eq_some.mp (by decide : findClosingBrace _ 1 = some 3)
  have hcloses : CommandCouldBegin plainBraceGroup 3 := by exact .inr ⟨_, _, _, rfl, rfl⟩
  exact hn.unique hleast ▸ hcloses

/-- `{ echo } ; }`, its first word promoted. -/
def argumentBraceGroup : Parser :=
  create [.ofType .lbrace, .ofText "echo", .ofText "\x7d", .ofType .semi, .ofText "\x7d"]

/-- The argument `}` of `{ echo } ; }` ends the group. -/
theorem argumentBraceGroup_ends : ¬ EndsWhereCommandsBegin argumentBraceGroup := by
  intro hclaim
  have hends : EndsAt argumentBraceGroup 2 := by exact ⟨_, _, rfl, rfl⟩
  rcases ((hclaim 2).mp hends).1.2 with hempty | ⟨term, sep, t, hlist, -⟩
  · exact absurd hempty (by decide)
  · cases hlist

/-- A group inside a group takes the brace that was meant for the outer one. -/
example : ∃ t, parserParseProgram [.ofText "\x7b", .ofText "\x7b", .ofText "a", .ofType .semi,
    .ofText "\x7d", .ofType .semi, .ofText "\x7d"] = .fail .incomplete t := by exact ⟨_, rfl⟩

end Parser

end Migash
