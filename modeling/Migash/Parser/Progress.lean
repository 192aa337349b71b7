import Migash.Parser.Program

/-! # Progress

Every production answers: the recursion through `gparse_compound_list` and all
loops consume a token each time around, so none of them runs out of fuel.
-/

namespace Migash.Parser

open Library Forward

/-! ## Primitives -/

@[simp] theorem run_tokenType (s : Parser) : tokenType.run s = .ok s.currentTokenType s := rfl

@[simp] theorem run_parserAdvance (s : Parser) : parserAdvance.run s = .ok () s.advance := rfl

@[simp] theorem run_parserSkipNewlines (s : Parser) :
    parserSkipNewlines.run s = .ok () s.skipNewlines := rfl

@[simp] theorem run_parserSetError (text : String) (s : Parser) :
    (parserSetError text).run s = .ok () (s.setError text) := rfl

@[simp] theorem run_errorWith {α : Type} (text : String) (s : Parser) :
    (errorWith text : Production α).run s = .fail .error (s.setError text) := rfl

@[simp] theorem run_tryPromoteTo (offset : ℕ) (word : String) (type : TokenType)
    (h : type.IsReserved) (s : Parser) :
    (tryPromoteTo offset word type h).run s = .ok () (s.tryPromote offset word type) := rfl

theorem run_cloneToken {s : Parser} {tok : Token} (h : s.currentToken? = some tok) :
    cloneToken.run s = .ok (tok, s.position) s := by simp [cloneToken, h]

theorem run_takeLeaf {s : Parser} {tok : Token} (h : s.currentToken? = some tok)
    (type : GnodeType) :
    (takeLeaf type).run s = .ok (.ofToken type tok s.position) s.advance := by
  simp [takeLeaf, run_cloneToken h]

theorem run_requireOneOf (types : List TokenType) (s : Parser) :
    (requireOneOf types).run s =
      if s.currentTokenType ∈ types then .ok () s else .fail .error s := by
  simp only [requireOneOf, run_bind, run_tokenType, Reply.bind_ok]
  split_ifs <;> simp_all

theorem run_require (type : TokenType) (s : Parser) :
    (require type).run s = if s.currentTokenType = type then .ok () s else .fail .error s := by
  simp [require, run_requireOneOf]

theorem run_expect (type : TokenType) (text : String) (s : Parser) :
    (expect type text).run s =
      if s.currentTokenType = type then .ok () s else .fail .error (s.setError text) := by
  simp only [expect, run_bind, run_tokenType, Reply.bind_ok]
  split_ifs <;> simp_all

theorem remaining_advance {s : Parser} (h : s.position < s.tokens.length) :
    remaining s.advance < remaining s := by
  simp only [remaining_eq, advance_tokens, advance_position h]
  omega

theorem skipNewlines_of_ne {s : Parser} (h : s.currentTokenType ≠ .newline) :
    s.skipNewlines = s := by
  unfold skipNewlines
  cases remaining s <;> simp [skipNewlinesFor, h]

theorem skipNewlines_of_newline {s : Parser} (h : s.currentTokenType = .newline) :
    s.skipNewlines = s.advance.skipNewlines := by
  have hlt := position_lt (s := s) (by simp [h])
  have hrem : remaining s = remaining s.advance + 1 := by
    simp only [remaining_eq, advance_tokens, advance_position hlt]
    omega
  unfold skipNewlines
  rw [hrem, skipNewlinesFor, if_pos h]

theorem remaining_skipNewlines {s : Parser} (h : s.currentTokenType = .newline) :
    remaining s.skipNewlines < remaining s := by
  rw [skipNewlines_of_newline h]
  exact lt_of_le_of_lt (remaining_anti (le_skipNewlinesFor _ _))
    (remaining_advance (position_lt (by simp [h])))

section Within

variable {n : ℕ}

theorem within_tokenType : Within n tokenType := .inspect _

theorem within_parserAdvance : Within n parserAdvance := .update _ _

theorem within_parserSkipNewlines : Within n parserSkipNewlines := .update _ _

theorem within_tryPromoteTo (offset : ℕ) (word : String) (type : TokenType)
    (h : type.IsReserved) : Within n (tryPromoteTo offset word type h) := .update _ _

theorem within_errorWith {α : Type} (text : String) :
    Within n (errorWith text : Production α) :=
  (Within.update _ _).bind fun _ => .failure _

theorem within_cloneToken : Within n cloneToken := by
  intro s _
  cases h : s.currentToken? <;> simp [cloneToken, h]

theorem within_takeLeaf (type : GnodeType) : Within n (takeLeaf type) :=
  within_cloneToken.bind fun _ => within_parserAdvance.bind fun _ => .pure _

theorem within_requireOneOf (types : List TokenType) : Within n (requireOneOf types) :=
  within_tokenType.bind fun _ => .ite (.failure _) (.pure _)

theorem within_require (type : TokenType) : Within n (require type) := within_requireOneOf _

theorem within_expect (type : TokenType) (text : String) : Within n (expect type text) :=
  within_tokenType.bind fun _ => .ite (within_errorWith _) (.pure _)

theorem within_expectOrIncomplete (type : TokenType) (text : String) :
    Within n (expectOrIncomplete type text) :=
  within_tokenType.bind fun _ =>
    .ite (within_tokenType.bind fun _ => .ite (.failure _) (within_errorWith _)) (.pure _)

end Within

/-- Cloning the current token and stepping over it. -/
theorem consumes_cloneToken_advance {α : Type} {p : α → Prop} {f : Token × ℕ → Production α} :
    Consumes p (do
      let x ← cloneToken
      parserAdvance
      f x) := by
  intro s a t hrun _
  cases htok : s.currentToken? with
  | none => simp [cloneToken, htok] at hrun
  | some tok =>
    simp only [run_bind, run_cloneToken htok, Reply.bind_ok, run_parserAdvance] at hrun
    have hlt := remaining_advance (s.currentToken?_isSome_iff.mp (by simp [htok]))
    exact (remaining_anti (le_of_ok hrun)).trans_lt hlt

theorem consumes_takeLeaf {p : Gnode → Prop} (type : GnodeType) :
    Consumes p (takeLeaf type) := consumes_cloneToken_advance

theorem within_takeLeaf_bind {n : ℕ} {α : Type} {type : GnodeType} {f : Gnode → Production α}
    (hf : ∀ node, Within n (f node)) : Within (n + 1) (takeLeaf type >>= f) :=
  (within_takeLeaf type).bind_consume (consumes_takeLeaf type) hf

/-! ## Simple commands -/

theorem consumes_gparseIoFile {p : Gnode → Prop} : Consumes p gparseIoFile :=
  .bind_right fun _ => .bind_left (consumes_takeLeaf (p := fun _ => True) _) fun _ => trivial

theorem consumes_gparseIoHere {p : Gnode → Prop} : Consumes p gparseIoHere :=
  .bind_right fun _ => .bind_right fun _ => .bind_right fun _ => .bind_right fun _ =>
    .bind_right fun _ => consumes_cloneToken_advance

theorem consumes_gparseIoRedirect {p : Gnode → Prop} : Consumes p gparseIoRedirect :=
  .bind_right fun _ => .bind_left (p := fun _ => True)
    (.attempt_bind consumes_gparseIoFile fun _ =>
      .attempt_bind consumes_gparseIoHere fun _ => .failure _)
    fun _ => trivial

section Within

variable {n : ℕ}

theorem within_gparseIoFile : Within n gparseIoFile :=
  (within_requireOneOf _).bind fun _ => (within_takeLeaf _).bind fun _ =>
    ((within_require _).bind fun _ => within_takeLeaf _).bind fun _ => .pure _

theorem within_gparseIoHere : Within n gparseIoHere :=
  (within_requireOneOf _).bind fun _ => within_tokenType.bind fun _ => (Within.inspect _).bind
    fun _ => within_parserAdvance.bind fun _ => (within_require _).bind fun _ =>
      within_cloneToken.bind fun _ => within_parserAdvance.bind fun _ => .pure _

theorem within_gparseIoRedirect : Within n gparseIoRedirect := by
  refine Within.bind ?_ fun _ => Within.bind ?_ fun _ => .pure _
  · exact within_tokenType.bind fun _ => .ite ((within_takeLeaf _).bind fun _ => .pure _)
      (.ite ((within_takeLeaf _).bind fun _ => .pure _) (.pure _))
  · refine within_gparseIoFile.attempt.bind fun r => ?_
    cases r with
    | ok file => exact .pure _
    | error e =>
      refine within_gparseIoHere.attempt.bind fun r => ?_
      cases r with
      | ok here => exact .pure _
      | error e => exact .failure _

theorem within_matchHeredoc (node : Gnode) : Within n (matchHeredoc node) := by
  unfold matchHeredoc
  split
  · exact within_parserSkipNewlines.bind fun _ => (within_expect _ _).bind fun _ =>
      within_cloneToken.bind fun _ => within_parserAdvance.bind fun _ => .pure _
  · exact .pure _

theorem within_matchHeredocsInItem (node : Gnode) : Within n (matchHeredocsInItem node) := by
  unfold matchHeredocsInItem
  split
  · exact (within_matchHeredoc _).bind fun _ => .pure _
  · exact (Within.forEach within_matchHeredoc _).bind fun _ => .pure _
  · exact .pure _

theorem consumes_redirectListStep (nodes : List Gnode) :
    Consumes (fun o => o.isSome) (redirectListStep nodes) :=
  .attempt_bind consumes_gparseIoRedirect fun _ => .pure (by simp)

theorem within_redirectListStep (nodes : List Gnode) : Within n (redirectListStep nodes) := by
  refine within_gparseIoRedirect.attempt.bind fun r => ?_
  cases r <;> exact .pure _

theorem within_gparseRedirectList : Within n gparseRedirectList :=
  within_gparseIoRedirect.bind fun _ =>
    (Within.loop within_redirectListStep consumes_redirectListStep _).bind fun _ =>
      (Within.forEach within_matchHeredoc _).bind fun _ => .pure _

theorem consumes_cmdPrefixStep (nodes : List Gnode) :
    Consumes (fun o => o.isSome) (cmdPrefixStep nodes) :=
  .bind_right fun _ => .ite
    (fun _ => .attempt_bind consumes_gparseIoRedirect fun _ => .pure (by simp))
    fun _ => .ite
      (fun _ => .bind_left (consumes_takeLeaf (p := fun _ => True) _) fun _ => trivial)
      fun _ => .pure (by simp)

theorem within_cmdPrefixStep (nodes : List Gnode) : Within n (cmdPrefixStep nodes) := by
  refine within_tokenType.bind fun _ => .ite (within_gparseIoRedirect.attempt.bind fun r => ?_)
    (.ite ((within_takeLeaf _).bind fun _ => .pure _) (.pure _))
  cases r <;> exact .pure _

theorem within_gparseCmdName : Within n gparseCmdName :=
  (Within.inspect _).bind fun _ => .ite ((within_takeLeaf _).map _) (.pure _)

theorem consumes_cmdSuffixStep (nodes : List Gnode) :
    Consumes (fun o => o.isSome) (cmdSuffixStep nodes) :=
  .bind_right fun _ => .ite
    (fun _ => .attempt_bind consumes_gparseIoRedirect fun _ => .pure (by simp))
    fun _ => .bind_right fun _ => .ite
      (fun _ => .bind_left (consumes_takeLeaf (p := fun _ => True) _) fun _ => trivial)
      fun _ => .pure (by simp)

theorem within_cmdSuffixStep (nodes : List Gnode) : Within n (cmdSuffixStep nodes) := by
  refine within_tokenType.bind fun _ => .ite (within_gparseIoRedirect.attempt.bind fun r => ?_)
    ((Within.inspect _).bind fun _ =>
      .ite ((within_takeLeaf _).bind fun _ => .pure _) (.pure _))
  cases r <;> exact .pure _

theorem within_gparseSimpleCommand : Within n gparseSimpleCommand :=
  (Within.loop within_cmdPrefixStep consumes_cmdPrefixStep _).bind fun _ =>
    within_gparseCmdName.bind fun _ =>
      (Within.loop within_cmdSuffixStep consumes_cmdSuffixStep _).bind fun _ =>
        .ite (within_tokenType.bind fun _ => .ite (.failure _) (.failure _))
          ((Within.forEach within_matchHeredocsInItem _).bind fun _ => .pure _)

theorem consumes_gparseSeparatorOp {p : Gnode → Prop} : Consumes p gparseSeparatorOp :=
  .bind_right fun _ => consumes_takeLeaf _

theorem within_gparseSeparatorOp : Within n gparseSeparatorOp :=
  (within_requireOneOf _).bind fun _ => within_takeLeaf _

theorem consumes_newlineListStep (nodes : List Gnode) :
    Consumes (fun o => o.isSome) (newlineListStep nodes) :=
  .bind_right fun _ => .ite
    (fun _ => .bind_left (consumes_takeLeaf (p := fun _ => True) _) fun _ => trivial)
    fun _ => .pure (by simp)

theorem within_newlineListStep (nodes : List Gnode) : Within n (newlineListStep nodes) :=
  within_tokenType.bind fun _ => .ite ((within_takeLeaf _).bind fun _ => .pure _) (.pure _)

theorem within_gparseSeparator : Within n gparseSeparator :=
  within_tokenType.bind fun _ => .ite
    ((within_takeLeaf _).bind fun _ => within_parserSkipNewlines.bind fun _ => .pure _)
    (.ite ((Within.loop within_newlineListStep consumes_newlineListStep _).bind fun _ => .pure _)
      (.failure _))

end Within

theorem consumes_gparseSeparator {p : Gnode → Prop} : Consumes p gparseSeparator := by
  intro s node t hrun _
  simp only [gparseSeparator, run_bind, run_tokenType, Reply.bind_ok] at hrun
  split_ifs at hrun with hop hnl
  · exact Consumes.bind_left (q := p) (consumes_takeLeaf (p := fun _ => True) _)
      (fun _ => trivial) s node t hrun ‹_›
  · -- The loop takes the newline that the current token is.
    obtain ⟨tok, htok, -⟩ := exists_token (s := s) (by simp [hnl])
    rw [run_bind, run_loop consumes_newlineListStep] at hrun
    simp only [newlineListStep, run_bind, run_tokenType, Reply.bind_ok, hnl, ↓reduceIte,
      run_takeLeaf htok, run_pure] at hrun
    rw [Reply.bind_eq_ok] at hrun
    obtain ⟨nodes, u, hloop, hrest⟩ := hrun
    have hle : s.advance ≤ t := (le_of_ok hloop).trans (le_of_ok (m := pure _) hrest)
    exact (remaining_anti hle).trans_lt
      (remaining_advance (s.currentToken?_isSome_iff.mp (by simp [htok])))
  · simp at hrun

end Migash.Parser
