import Migash.Parser.Progress

/-! # Totality of the parser

A compound command reaches `gparse_compound_list` only behind a token it has
consumed, so one more unit of fuel carries every production from the recursive
calls to the whole. The parser answers on every token list.
-/

namespace Migash.Parser

open Library Forward

variable {n : ℕ} {gparseCompoundList : Production Gnode}

/-! ## Compound commands -/

section Compound

theorem within_gparseSubshell (h : Within n gparseCompoundList) :
    Within (n + 1) (gparseSubshell gparseCompoundList) :=
  (within_require _).bind fun _ => within_takeLeaf_bind fun _ => h.bind fun _ =>
    (within_expect _ _).bind fun _ => (within_takeLeaf _).bind fun _ => .pure _

theorem within_gparseDoGroup (h : Within n gparseCompoundList) :
    Within (n + 1) (gparseDoGroup gparseCompoundList) :=
  (within_tryPromoteTo _ _ _ _).bind fun _ => (within_expect _ _).bind fun _ =>
    within_takeLeaf_bind fun _ => h.bind fun _ => (within_tryPromoteTo _ _ _ _).bind fun _ =>
      (within_expectOrIncomplete _ _).bind fun _ => (within_takeLeaf _).bind fun _ => .pure _

theorem consumes_wordlistStep (nodes : List Gnode) :
    Consumes (fun o => o.isSome) (wordlistStep nodes) :=
  .bind_right fun _ => .ite
    (fun _ => .bind_left (consumes_takeLeaf (p := fun _ => True) _) fun _ => trivial)
    fun _ => .pure (by simp)

theorem within_gparseInClause : Within n gparseInClause := by
  refine within_parserSkipNewlines.bind fun _ => (within_tryPromoteTo _ _ _ _).bind fun _ =>
    (within_expect _ _).bind fun _ => within_cloneToken.bind fun _ =>
      within_parserAdvance.bind fun _ => Within.bind (Within.attempt ?_) fun r => ?_
  · refine (within_expect _ _).bind fun _ =>
      (Within.loop (fun _ => ?_) consumes_wordlistStep _).bind fun _ => .pure _
    exact within_tokenType.bind fun _ =>
      .ite ((within_takeLeaf _).bind fun _ => .pure _) (.pure _)
  · cases r <;> exact .pure _

theorem within_sequentialSep (r : Except ParseFailure Gnode) : Within n (sequentialSep r) := by
  refine within_tokenType.bind fun _ => .ite
    (within_parserAdvance.bind fun _ => within_parserSkipNewlines)
    (.ite within_parserSkipNewlines ?_)
  cases r with
  | ok node => exact .pure _
  | error e => exact within_errorWith _

theorem within_gparseForClause (h : Within n gparseCompoundList) :
    Within (n + 1) (gparseForClause gparseCompoundList) :=
  (within_require _).bind fun _ => (within_takeLeaf _).bind fun _ => (within_expect _ _).bind
    fun _ => (within_takeLeaf _).bind fun _ => within_gparseInClause.attempt.bind fun _ =>
      (within_sequentialSep _).bind fun _ => (within_gparseDoGroup h).bind fun _ => .pure _

theorem consumes_patternListStep (nodes : List Gnode) :
    Consumes (fun o => o.isSome) (patternListStep nodes) :=
  .bind_right fun _ => .ite
    (fun _ => .bind_left (consumes_takeLeaf (p := fun _ => True) _) fun _ => trivial)
    fun _ => .pure (by simp)

theorem within_gparsePatternList : Within n gparsePatternList := by
  refine (within_require _).bind fun _ => (within_takeLeaf _).bind fun _ =>
    (Within.loop (fun _ => ?_) consumes_patternListStep _).bind fun _ => .pure _
  exact within_tokenType.bind fun _ => .ite
    ((within_takeLeaf _).bind fun _ => (within_expect _ _).bind fun _ =>
      (within_takeLeaf _).bind fun _ => .pure _)
    (.pure _)

theorem consumes_gparsePatternList {p : Gnode → Prop} : Consumes p gparsePatternList :=
  .bind_right fun _ => .bind_left (consumes_takeLeaf (p := fun _ => True) _) fun _ => trivial

theorem within_optionalLparen : Within n optionalLparen :=
  within_tokenType.bind fun _ => .ite ((within_takeLeaf _).map _) (.pure _)

theorem within_compoundListOrNewlines (h : Within n gparseCompoundList) :
    Within n (compoundListOrNewlines gparseCompoundList) := by
  refine h.attempt.bind fun r => ?_
  cases r with
  | ok node => exact .pure _
  | error e => exact within_parserSkipNewlines.bind fun _ => .pure _

theorem within_gparseCaseItem (h : Within n gparseCompoundList) :
    Within (n + 1) (gparseCaseItem gparseCompoundList) :=
  within_optionalLparen.bind fun _ =>
    within_gparsePatternList.bind_consume consumes_gparsePatternList fun _ =>
      (within_expect _ _).bind fun _ => (within_takeLeaf _).bind fun _ =>
        (within_compoundListOrNewlines h).bind fun _ => (within_expect _ _).bind fun _ =>
          (within_takeLeaf _).bind fun _ => within_parserSkipNewlines.bind fun _ => .pure _

theorem consumes_gparseCaseItem {p : Gnode → Prop} :
    Consumes p (gparseCaseItem gparseCompoundList) :=
  .bind_right fun _ => .bind_left (consumes_gparsePatternList (p := fun _ => True)) fun _ => trivial

theorem within_gparseCaseItemNs (h : Within n gparseCompoundList) :
    Within (n + 1) (gparseCaseItemNs gparseCompoundList) :=
  within_optionalLparen.bind fun _ =>
    within_gparsePatternList.bind_consume consumes_gparsePatternList fun _ =>
      (within_expect _ _).bind fun _ => (within_takeLeaf _).bind fun _ => h.attempt.bind fun _ =>
        within_parserSkipNewlines.bind fun _ => .pure _

theorem consumes_caseListStep (nodes : List Gnode) :
    Consumes (fun o => o.isSome) (caseListStep gparseCompoundList nodes) :=
  .bind_right fun _ => .ite (fun _ => .pure (by simp))
    fun _ => .attempt_bind consumes_gparseCaseItem fun _ => .pure (by simp)

theorem within_gparseCaseList (h : Within n gparseCompoundList) :
    Within (n + 1) (gparseCaseList gparseCompoundList) := by
  refine (within_gparseCaseItem h).bind fun _ =>
    (Within.loop (fun _ => ?_) consumes_caseListStep _).bind fun _ => .pure _
  refine (Within.inspect _).bind fun _ => .ite (.pure _)
    ((within_gparseCaseItem h).attempt.bind fun r => ?_)
  cases r <;> exact .pure _

theorem within_caseItems (h : Within n gparseCompoundList) :
    Within (n + 1) (caseItems gparseCompoundList) := by
  refine (within_gparseCaseList h).attempt.bind fun r => ?_
  cases r with
  | ok node => exact .pure _
  | error e =>
    exact (Within.attempt ((within_gparseCaseList h).attempt.bind fun _ =>
      (within_gparseCaseItemNs h).bind fun _ => .pure _)).map _

theorem within_gparseCaseClause (h : Within n gparseCompoundList) :
    Within (n + 1) (gparseCaseClause gparseCompoundList) := by
  refine (within_require _).bind fun _ => (within_takeLeaf _).bind fun _ =>
    (within_expect _ _).bind fun _ => (within_takeLeaf _).bind fun _ =>
      within_parserSkipNewlines.bind fun _ => (within_tryPromoteTo _ _ _ _).bind fun _ =>
        (within_expect _ _).bind fun _ => (within_takeLeaf _).bind fun _ =>
          within_parserSkipNewlines.bind fun _ => (within_caseItems h).bind fun list =>
            (within_tryPromoteTo _ _ _ _).bind fun _ => (within_expect _ _).bind fun _ =>
              (within_takeLeaf _).bind fun _ => ?_
  cases list <;> exact .pure _

theorem within_gparseElsePartFor (h : Within n gparseCompoundList) (k : ℕ) :
    ∀ s, remaining s < k → remaining s < n + 1 →
      (gparseElsePartFor gparseCompoundList k).run s ≠ .fault .fuel := by
  induction k with
  | zero => intro s hs; omega
  | succ k ih =>
    -- The nested `elif` is reached with less input, so less fuel is enough for it.
    have hw : Within (min k n + 1) (gparseElsePartFor gparseCompoundList (k + 1)) := by
      refine (within_tryPromoteTo _ _ _ _).bind fun _ => (within_tryPromoteTo _ _ _ _).bind
        fun _ => within_tokenType.bind fun _ => .ite (within_takeLeaf_bind fun _ => ?_)
          (.ite (within_takeLeaf_bind fun _ => ?_) (.failure _))
      · refine (h.mono (min_le_right k n)).bind fun _ => (within_tryPromoteTo _ _ _ _).bind
          fun _ => (within_expect _ _).bind fun _ => (within_takeLeaf _).bind fun _ =>
            (h.mono (min_le_right k n)).bind fun _ => Within.bind (.attempt ?_) fun _ => .pure _
        exact fun s hs => ih s (by omega) (by omega)
      · exact (h.mono (min_le_right k n)).bind fun _ => .pure _
    exact fun s hk hn => hw s (by omega)

theorem within_gparseElsePart (h : Within n gparseCompoundList) :
    Within (n + 1) (gparseElsePart gparseCompoundList) :=
  fun s hs => within_gparseElsePartFor h _ s (Nat.lt_succ_self _) hs

theorem within_gparseIfClause (h : Within n gparseCompoundList) :
    Within (n + 1) (gparseIfClause gparseCompoundList) :=
  (within_require _).bind fun _ => within_takeLeaf_bind fun _ => h.bind fun _ =>
    (within_tryPromoteTo _ _ _ _).bind fun _ => (within_expectOrIncomplete _ _).bind fun _ =>
      (within_takeLeaf _).bind fun _ => h.bind fun _ =>
        ((within_gparseElsePart h).mono (Nat.le_succ n)).attempt.bind fun _ =>
          (within_tryPromoteTo _ _ _ _).bind fun _ => (within_expectOrIncomplete _ _).bind fun _ =>
            (within_takeLeaf _).bind fun _ => .pure _

theorem within_gparseWhileClause (h : Within n gparseCompoundList) :
    Within (n + 1) (gparseWhileClause gparseCompoundList) :=
  (within_expect _ _).bind fun _ => within_takeLeaf_bind fun _ => h.bind fun _ =>
    ((within_gparseDoGroup h).mono (Nat.le_succ n)).bind fun _ => .pure _

theorem within_gparseUntilClause (h : Within n gparseCompoundList) :
    Within (n + 1) (gparseUntilClause gparseCompoundList) :=
  (within_expect _ _).bind fun _ => within_takeLeaf_bind fun _ => h.bind fun _ =>
    ((within_gparseDoGroup h).mono (Nat.le_succ n)).bind fun _ => .pure _

theorem within_promoteClosingBrace : Within n promoteClosingBrace := by
  refine (Within.inspect _).bind fun o => ?_
  cases o with
  | none => exact .failure _
  | some offset => exact within_tryPromoteTo _ _ _ _

theorem within_compoundListOrRbrace (h : Within n gparseCompoundList) :
    Within n (compoundListOrRbrace gparseCompoundList) := by
  refine h.attempt.bind fun r => ?_
  cases r with
  | ok node => exact .pure _
  | error e => exact within_tokenType.bind fun _ => .ite (.pure _) (.failure _)

theorem within_gparseBraceGroup (h : Within n gparseCompoundList) :
    Within (n + 1) (gparseBraceGroup gparseCompoundList) :=
  (within_expect _ _).bind fun _ => within_promoteClosingBrace.bind fun _ =>
    within_takeLeaf_bind fun _ => (within_compoundListOrRbrace h).bind fun _ =>
      (within_expectOrIncomplete _ _).bind fun _ => (within_takeLeaf _).bind fun _ => .pure _

theorem within_promoteOpener : Within n promoteOpener :=
  (within_tryPromoteTo _ _ _ _).bind fun _ => (within_tryPromoteTo _ _ _ _).bind fun _ =>
    (within_tryPromoteTo _ _ _ _).bind fun _ => (within_tryPromoteTo _ _ _ _).bind fun _ =>
      (within_tryPromoteTo _ _ _ _).bind fun _ => within_tryPromoteTo _ _ _ _

theorem within_compoundCommandOf (h : Within n gparseCompoundList) (type : TokenType) :
    Within (n + 1) (compoundCommandOf gparseCompoundList type) := by
  unfold compoundCommandOf
  split
  · exact within_gparseBraceGroup h
  · exact within_gparseSubshell h
  · exact within_gparseForClause h
  · exact within_gparseCaseClause h
  · exact within_gparseIfClause h
  · exact within_gparseWhileClause h
  · exact within_gparseUntilClause h
  · exact within_errorWith _

theorem within_gparseCompoundCommand (h : Within n gparseCompoundList) :
    Within (n + 1) (gparseCompoundCommand gparseCompoundList) := by
  refine Within.bind ?_ fun _ => within_promoteOpener.bind fun _ => within_tokenType.bind fun _ =>
    (within_compoundCommandOf h _).bind fun _ => .pure _
  exact (Within.inspect _).bind fun _ => .ite (.stop (by simp)) (.pure _)

theorem within_rejectReservedName : Within n rejectReservedName := by
  refine (Within.inspect _).bind fun o => ?_
  cases o with
  | none => exact .pure _
  | some word => exact .ite (within_errorWith _) (.pure _)

theorem within_gparseFunctionBody (h : Within n gparseCompoundList) :
    Within (n + 1) (gparseFunctionBody gparseCompoundList) := by
  refine (within_gparseCompoundCommand h).attempt.bind fun r => ?_
  rcases r with e | compound
  · cases e with
    | error => exact within_errorWith _
    | incomplete => exact .failure _
    | empty => exact .failure _
  · refine within_gparseRedirectList.attempt.bind fun r => ?_
    cases r <;> exact .pure _

theorem within_gparseFunctionDefinition (h : Within n gparseCompoundList) :
    Within (n + 1) (gparseFunctionDefinition gparseCompoundList) := by
  refine (within_require _).bind fun _ => within_rejectReservedName.bind fun _ =>
    Within.bind ?_ fun _ => (within_takeLeaf _).bind fun _ => (within_takeLeaf _).bind fun _ =>
      (within_expect _ _).bind fun _ => (within_takeLeaf _).bind fun _ =>
        within_parserSkipNewlines.bind fun _ => Within.bind ?_ fun _ =>
          (within_gparseFunctionBody h).bind fun _ => .pure _
  · exact (Within.inspect _).bind fun _ => .ite (.failure _) (.pure _)
  · exact (Within.inspect _).bind fun _ =>
      .ite ((Within.update _ _).bind fun _ => .failure _) (.pure _)

end Compound

/-! ## Commands and lists -/

section Lists

theorem within_gparseCommand (h : Within n gparseCompoundList) :
    Within (n + 1) (gparseCommand gparseCompoundList) := by
  have hcompound : Within (n + 1) (gparseRedirectedCompound gparseCompoundList) := by
    refine (within_gparseCompoundCommand h).bind fun _ =>
      within_gparseRedirectList.attempt.bind fun r => ?_
    cases r <;> exact .pure _
  have hrest : Within (n + 1) (gparseCompoundOrSimple gparseCompoundList) := by
    refine hcompound.attempt.bind fun r => ?_
    rcases r with e | node
    · cases e with
      | error => exact within_gparseSimpleCommand.map _
      | incomplete => exact .failure _
      | empty => exact within_gparseSimpleCommand.map _
    · exact .pure _
  refine (within_gparseFunctionDefinition h).attempt.bind fun r => ?_
  rcases r with e | node
  · cases e with
    | error => exact hrest
    | incomplete => exact .failure _
    | empty => exact hrest
  · exact .pure _

theorem consumes_pipeSequenceStep (nodes : List Gnode) :
    Consumes (fun o => o.isSome) (pipeSequenceStep gparseCompoundList nodes) :=
  .bind_right fun _ => .ite
    (fun _ => .bind_left (consumes_takeLeaf (p := fun _ => True) _) fun _ => trivial)
    fun _ => .pure (by simp)

theorem within_gparsePipeSequence (h : Within n gparseCompoundList) :
    Within (n + 1) (gparsePipeSequence gparseCompoundList) := by
  refine (within_gparseCommand h).bind fun _ =>
    (Within.loop (fun _ => ?_) consumes_pipeSequenceStep _).bind fun _ => .pure _
  exact within_tokenType.bind fun _ => .ite
    ((within_takeLeaf _).bind fun _ => within_parserSkipNewlines.bind fun _ =>
      (within_gparseCommand h).bind fun _ => .pure _)
    (.pure _)

theorem within_gparsePipeline (h : Within n gparseCompoundList) :
    Within (n + 1) (gparsePipeline gparseCompoundList) := by
  refine (within_tryPromoteTo _ _ _ _).bind fun _ => Within.bind ?_ fun _ => Within.bind ?_
    fun _ => (within_gparsePipeSequence h).bind fun _ => .pure _
  · exact within_tokenType.bind fun _ => .ite (.failure _) (.pure _)
  · exact within_tokenType.bind fun _ => .ite ((within_takeLeaf _).bind fun _ => .pure _) (.pure _)

theorem consumes_gparseAndOrTail {p : Gnode × Gnode → Prop} :
    Consumes p (gparseAndOrTail gparseCompoundList) := consumes_cloneToken_advance

theorem consumes_andOrStep (left : Gnode) :
    Consumes (fun o => o.isSome) (andOrStep gparseCompoundList left) :=
  .bind_right fun _ => .ite (fun _ => .pure (by simp))
    fun _ => .orBack_bind _ consumes_gparseAndOrTail (.pure (by simp))

theorem within_gparseAndOr (h : Within n gparseCompoundList) :
    Within (n + 1) (gparseAndOr gparseCompoundList) := by
  refine (within_gparsePipeline h).bind fun _ =>
    Within.loop (fun _ => ?_) consumes_andOrStep _
  refine within_tokenType.bind fun _ => .ite (.pure _) (Within.bind (.orBack _ ?_) fun r => ?_)
  · exact within_cloneToken.bind fun _ => within_parserAdvance.bind fun _ =>
      within_parserSkipNewlines.bind fun _ => (within_gparsePipeline h).bind fun _ => .pure _
  · cases r <;> exact .pure _

theorem consumes_listStep (nodes : List Gnode) :
    Consumes (fun o => o.isSome) (listStep gparseCompoundList nodes) :=
  .orBack_bind _
    (.bind_left (consumes_gparseSeparatorOp (p := fun _ => True)) fun _ => trivial)
    (.pure (by simp))

theorem within_listStep (h : Within n gparseCompoundList) (nodes : List Gnode) :
    Within (n + 1) (listStep gparseCompoundList nodes) := by
  refine Within.bind (.orBack _ ?_) fun r => ?_
  · exact within_gparseSeparatorOp.bind fun _ => (within_gparseAndOr h).bind fun _ => .pure _
  · cases r <;> exact .pure _

theorem consumes_termStep (nodes : List Gnode) :
    Consumes (fun o => o.isSome) (termStep gparseCompoundList nodes) :=
  .orBack_bind _ (.bind_left (consumes_gparseSeparator (p := fun _ => True)) fun _ => trivial)
    (.pure (by simp))

theorem within_termStep (h : Within n gparseCompoundList) (nodes : List Gnode) :
    Within (n + 1) (termStep gparseCompoundList nodes) := by
  refine Within.bind (.orBack _ ?_) fun r => ?_
  · exact within_gparseSeparator.bind fun _ => (within_gparseAndOr h).bind fun _ => .pure _
  · cases r <;> exact .pure _

theorem within_compoundListBody (h : Within n gparseCompoundList) :
    Within (n + 1) (compoundListBody gparseCompoundList) :=
  within_parserSkipNewlines.bind fun _ =>
    ((within_gparseAndOr h).bind fun _ =>
      (Within.loop (within_termStep h) consumes_termStep _).bind fun _ => .pure _).bind fun _ =>
        within_gparseSeparator.attempt.bind fun _ => .pure _

theorem within_gparseCompleteCommand (h : Within n gparseCompoundList) :
    Within (n + 1) (gparseCompleteCommand gparseCompoundList) :=
  ((within_gparseAndOr h).bind fun _ =>
    (Within.loop (within_listStep h) consumes_listStep _).bind fun _ => .pure _).bind fun _ =>
      within_gparseSeparatorOp.attempt.bind fun _ => .pure _

theorem consumes_completeCommandsStep (nodes : List Gnode) :
    Consumes (fun o => o.isSome) (completeCommandsStep gparseCompoundList nodes) := by
  intro s o t hrun ho
  simp only [completeCommandsStep, run_bind, run_tokenType, Reply.bind_ok] at hrun
  split_ifs at hrun with hnl
  · simp only [run_pure, Reply.ok.injEq] at hrun
    simp [← hrun.1] at ho
  · rw [run_bind, run_parserSkipNewlines, Reply.bind_ok] at hrun
    exact (remaining_anti (le_of_ok hrun)).trans_lt (remaining_skipNewlines (not_not.mp hnl))

theorem within_completeCommandsStep (h : Within n gparseCompoundList) (nodes : List Gnode) :
    Within (n + 1) (completeCommandsStep gparseCompoundList nodes) := by
  refine within_tokenType.bind fun _ => .ite (.pure _) (within_parserSkipNewlines.bind fun _ =>
    (within_gparseCompleteCommand h).attempt.bind fun r => ?_)
  rcases r with e | node
  · cases e with
    | error => exact .failure _
    | incomplete => exact .failure _
    | empty => exact .pure _
  · exact .pure _

theorem within_gparseProgram (h : Within n gparseCompoundList) :
    Within (n + 1) (gparseProgram gparseCompoundList) := by
  refine within_parserSkipNewlines.bind fun _ => Within.bind (Within.bind (.attempt ?_) fun r => ?_)
    fun _ => within_parserSkipNewlines.bind fun _ => .pure _
  · refine Within.bind ?_ fun _ => (within_gparseCompleteCommand h).bind fun _ =>
      (Within.loop (within_completeCommandsStep h) consumes_completeCommandsStep _).bind
        fun _ => .pure _
    exact (Within.inspect _).bind fun _ => .ite (.failure _) (.pure _)
  · rcases r with e | node
    · cases e with
      | error => exact .failure _
      | incomplete => exact .failure _
      | empty => exact .pure _
    · exact .pure _

end Lists

theorem within_gparseCompoundListFor (n : ℕ) : Within n (gparseCompoundListFor n) := by
  induction n with
  | zero => intro s hs; omega
  | succ n ih => exact within_compoundListBody ih

/-- `gparse_compound_list` always answers. -/
theorem within_gparseCompoundList (n : ℕ) : Within n Parser.gparseCompoundList :=
  fun s _ => by
    have h := within_gparseCompoundListFor (remaining s + 1) s (Nat.lt_succ_self _)
    simpa only [Parser.gparseCompoundList] using h

end Migash.Parser
