import Migash.Parser.Totality

/-! # Where productions stop

Rewinding to the position of a token that is no word gives the same token back;
a pipeline does not start at a newline; and only a pipeline at the end of the
input is empty.
-/

namespace Migash.Parser

open Library Forward

variable {gparseCompoundList : Production Gnode}

/-! ## States around a rewind -/

theorem currentToken?_of_le {s t : Parser} (h : s ≤ t) (hpos : t.position = s.position)
    (hw : s.currentTokenType ≠ .word) : t.currentToken? = s.currentToken? := by
  simp only [currentToken?, hpos]
  cases hs : s.tokens[s.position]? with
  | none =>
    rw [List.getElem?_eq_none_iff] at hs ⊢
    rwa [length_eq_of_le h]
  | some tok =>
    obtain ⟨hlt, rfl⟩ := List.getElem?_eq_some_iff.mp hs
    have hlt' : s.position < t.tokens.length := by rwa [length_eq_of_le h]
    have hp := List.Forall₂.get h.promotes hlt hlt'
    have hword : s.tokens[s.position].type ≠ .word := by
      simpa [currentTokenType, currentToken?, hs] using hw
    rw [List.getElem?_eq_getElem hlt']
    exact congrArg some (hp.eq_of_ne_word hword)

theorem currentTokenType_of_le {s t : Parser} (h : s ≤ t) (hpos : t.position = s.position)
    (hw : s.currentTokenType ≠ .word) : t.currentTokenType = s.currentTokenType := by
  simp only [currentTokenType, currentToken?_of_le h hpos hw]

/-- No promotion makes a newline, a separator or any other token that is not a reserved word. -/
theorem currentTokenType_back {s t : Parser} (h : s ≤ t) (hpos : t.position = s.position)
    (hr : ¬ t.currentTokenType.IsReserved) : s.currentTokenType = t.currentTokenType := by
  by_cases hw : s.currentTokenType = .word
  · have hlt := position_lt (s := s) (by simp [hw])
    have hlt' : s.position < t.tokens.length := by rwa [length_eq_of_le h]
    have hp := List.Forall₂.get h.promotes hlt hlt'
    have ht : t.currentTokenType = t.tokens[s.position].type := by
      simp [currentTokenType, currentToken?, hpos, List.getElem?_eq_getElem hlt']
    have hs : s.currentTokenType = s.tokens[s.position].type := by
      simp [currentTokenType, currentToken?, List.getElem?_eq_getElem hlt]
    rw [ht] at hr ⊢
    rw [hs]
    exact congrArg Token.type (hp.type_eq hr).symm
  · exact (currentTokenType_of_le h hpos hw).symm

theorem atEnd_of_le {s t : Parser} (h : s ≤ t) (hpos : t.position = s.position) :
    t.atEnd = s.atEnd := by
  rw [Bool.eq_iff_iff, atEnd_iff, atEnd_iff, hpos, length_eq_of_le h]

theorem rewindToPosition_position {s t : Parser} (h : s ≤ t)
    (hlt : s.position < s.tokens.length) :
    (t.rewindToPosition s.position).position = s.position := by
  have : s.position < t.tokens.length := by rwa [length_eq_of_le h]
  simp [rewindToPosition, this]

theorem rewindToPosition_self (s : Parser) : s.rewindToPosition s.position = s := by
  unfold rewindToPosition
  split <;> rfl

theorem rewindToPosition_advance {s : Parser} {position : ℕ} (h : s.position = position + 1) :
    (s.rewindToPosition position).advance = s := by
  have hlt : position < s.tokens.length := by have := s.bounded; omega
  cases s
  simp_all [rewindToPosition, advance]

/-! ## Productions that stop at a newline or at the end of the input -/

theorem tryPromote_of_ne_word {s : Parser} (h : s.currentTokenType ≠ .word) (word : String)
    (type : TokenType) : s.tryPromote 0 word type = s := by
  have hpeek : (s.peekToken? 0).bind (·.tryPromote word type) = none := by
    cases hc : s.currentToken? with
    | none =>
      have hp : s.peekToken? 0 = none := by simpa [peekToken?, currentToken?] using hc
      simp [hp]
    | some tok =>
      have hw : tok.type ≠ .word := by simpa [currentTokenType, hc] using h
      have hp : s.peekToken? 0 = some tok := by simpa [peekToken?, currentToken?] using hc
      simp [hp, Token.tryPromote, hw]
  simp [tryPromote, hpeek]

@[simp] theorem setError_currentToken? (s : Parser) (text : String) :
    (s.setError text).currentToken? = s.currentToken? := by simp [currentToken?]

@[simp] theorem setError_currentTokenType (s : Parser) (text : String) :
    (s.setError text).currentTokenType = s.currentTokenType := by simp [currentTokenType]

/-- The message of a compound command that starts with no keyword. -/
def noOpenerText : String := "Expected compound command (if/while/for/case/\x7b/())"

/-- The current token is a newline or a closing brace, at which no command starts. -/
def StartsNothing (s : Parser) : Prop :=
  s.currentTokenType = .newline ∨ s.currentTokenType = .rbrace

theorem run_gparseSimpleCommand_nothing {s : Parser} (h : StartsNothing s) :
    gparseSimpleCommand.run s = .fail .error s := by
  obtain ⟨tok, htok, htype⟩ := exists_token (s := s) (by rcases h with h | h <;> simp [h])
  have hword : atCommandWord s = false := by
    rcases h with h | h <;> simp [atCommandWord, htok, htype, h]
  have hheads : (loop cmdPrefixStep []).run s = .ok [] s :=
    run_loop_break (by rcases h with h | h <;> simp [cmdPrefixStep, isRedirectToken, h])
  have hsuffixes : (loop cmdSuffixStep []).run s = .ok [] s :=
    run_loop_break (by rcases h with h | h <;> simp [cmdSuffixStep, isRedirectToken, h, hword])
  rcases h with h | h <;>
    simp [gparseSimpleCommand, hheads, hsuffixes, gparseCmdName, hword, h]

theorem run_gparseCommand_nothing {s : Parser} (h : StartsNothing s) :
    (gparseCommand gparseCompoundList).run s = .fail .error (s.setError noOpenerText) := by
  have hend : s.atEnd = false := by
    by_contra hc
    have heof := currentTokenType_of_atEnd (s := s) (by simpa using hc)
    rcases h with h | h <;> simp [heof] at h
  have hword : s.currentTokenType ≠ .word := by rcases h with h | h <;> simp [h]
  have hpromote : promoteOpener.run s = .ok () s := by
    simp [promoteOpener, parserTokenTryPromoteToLbrace, parserTokenTryPromoteToIf,
      parserTokenTryPromoteToWhile, parserTokenTryPromoteToUntil, parserTokenTryPromoteToFor,
      parserTokenTryPromoteToCase, tryPromote_of_ne_word, hword]
  have hcompound : (gparseRedirectedCompound gparseCompoundList).run s =
      .fail .error (s.setError noOpenerText) := by
    rcases h with h | h <;>
      simp [gparseRedirectedCompound, gparseCompoundCommand, expectsValid, hend, hpromote, h,
        compoundCommandOf, noOpenerText]
  have hsimple := run_gparseSimpleCommand_nothing (s := s.setError noOpenerText)
    (by simpa [StartsNothing] using h)
  simp [gparseCommand, run_attempt, gparseFunctionDefinition, run_require, hword, hcompound,
    hsimple]

/-- A pipeline does not start at a newline or a closing brace. -/
theorem run_gparsePipeline_nothing {s : Parser} (h : StartsNothing s) :
    (gparsePipeline gparseCompoundList).run s = .fail .error (s.setError noOpenerText) := by
  have hcommand : (gparseCommand gparseCompoundList).run s =
      .fail .error (s.setError noOpenerText) := run_gparseCommand_nothing h
  rcases h with h | h <;>
    simp [gparsePipeline, parserTokenTryPromoteToBang, tryPromote_of_ne_word, h, rejectEof,
      optionalBang, gparsePipeSequence, hcommand]

/-! ## Failures -/

section Failures

variable {p : ParseFailure → Prop}

theorem failsOnly_tokenType : FailsOnly p tokenType := .inspect _

theorem failsOnly_takeLeaf (type : GnodeType) : FailsOnly p (takeLeaf type) := by
  refine FailsOnly.bind (fun s e t h => ?_) fun _ => (FailsOnly.update _ _).bind fun _ => .pure _
  cases hc : s.currentToken? <;> simp [cloneToken, hc] at h

theorem failsOnly_matchHeredoc (hp : p .error) (node : Gnode) :
    FailsOnly p (matchHeredoc node) := by
  unfold matchHeredoc
  split
  · refine (FailsOnly.update _ _).bind fun _ => FailsOnly.bind ?_ fun _ =>
      FailsOnly.bind (fun s e t h => ?_) fun _ => (FailsOnly.update _ _).bind fun _ => .pure _
    · exact failsOnly_tokenType.bind fun _ =>
        .ite ((FailsOnly.update _ _).bind fun _ => .failure hp) (.pure _)
    · cases hc : s.currentToken? <;> simp [cloneToken, hc] at h
  · exact .pure _

theorem failsOnly_gparseSimpleCommand (hp : p .error) (hi : p .incomplete) :
    FailsOnly p gparseSimpleCommand := by
  refine (FailsOnly.loop (fun nodes => ?_) _).bind fun _ => FailsOnly.bind ?_ fun _ =>
    (FailsOnly.loop (fun nodes => ?_) _).bind fun _ =>
      .ite (failsOnly_tokenType.bind fun _ => .ite (.failure hi) (.failure hp))
        ((FailsOnly.forEach (fun node => ?_) _).bind fun _ => .pure _)
  · refine failsOnly_tokenType.bind fun _ => .ite ((FailsOnly.attempt _).bind fun r => ?_)
      (.ite ((failsOnly_takeLeaf _).bind fun _ => .pure _) (.pure _))
    cases r <;> exact .pure _
  · exact (FailsOnly.inspect _).bind fun _ => .ite ((failsOnly_takeLeaf _).map _) (.pure _)
  · refine failsOnly_tokenType.bind fun _ => .ite ((FailsOnly.attempt _).bind fun r => ?_)
      ((FailsOnly.inspect _).bind fun _ =>
        .ite ((failsOnly_takeLeaf _).bind fun _ => .pure _) (.pure _))
    cases r <;> exact .pure _
  · unfold matchHeredocsInItem
    split
    · exact (failsOnly_matchHeredoc hp _).bind fun _ => .pure _
    · exact (FailsOnly.forEach (failsOnly_matchHeredoc hp) _).bind fun _ => .pure _
    · exact .pure _

/-- Only a pipeline, never a command, answers `PARSE_EMPTY`. -/
theorem failsOnly_gparseCommand : FailsOnly (· ≠ .empty) (gparseCommand gparseCompoundList) := by
  have hsimple := failsOnly_gparseSimpleCommand (p := (· ≠ .empty)) (by simp) (by simp)
  have hrest : FailsOnly (· ≠ .empty) (gparseCompoundOrSimple gparseCompoundList) := by
    refine (FailsOnly.attempt _).bind fun r => ?_
    rcases r with e | node
    · cases e with
      | error => exact hsimple.map _
      | incomplete => exact .failure (by simp)
      | empty => exact hsimple.map _
    · exact .pure _
  refine (FailsOnly.attempt _).bind fun r => ?_
  rcases r with e | node
  · cases e with
    | error => exact hrest
    | incomplete => exact .failure (by simp)
    | empty => exact hrest
  · exact .pure _

theorem failsOnly_gparsePipeSequence :
    FailsOnly (· ≠ .empty) (gparsePipeSequence gparseCompoundList) := by
  refine failsOnly_gparseCommand.bind fun _ =>
    (FailsOnly.loop (fun nodes => ?_) _).bind fun _ => .pure _
  exact failsOnly_tokenType.bind fun _ => .ite
    ((failsOnly_takeLeaf _).bind fun _ => (FailsOnly.update _ _).bind fun _ =>
      failsOnly_gparseCommand.bind fun _ => .pure _)
    (.pure _)

theorem failsOnly_andOrLoop (left : Gnode) :
    FailsOnly p (loop (andOrStep gparseCompoundList) left) := by
  refine .loop (fun left => failsOnly_tokenType.bind fun _ => .ite (.pure _)
    ((FailsOnly.orBack _ _).bind fun r => ?_)) _
  cases r <;> exact .pure _

theorem failsOnly_listLoop (nodes : List Gnode) :
    FailsOnly p (loop (listStep gparseCompoundList) nodes) := by
  refine .loop (fun nodes => (FailsOnly.orBack _ _).bind fun r => ?_) _
  cases r <;> exact .pure _

end Failures

/-- An empty pipeline is one at the end of the input, and reads nothing. -/
theorem gparsePipeline_empty {s t : Parser}
    (h : (gparsePipeline gparseCompoundList).run s = .fail .empty t) :
    t = s ∧ s.currentTokenType = .eof := by
  by_cases heof : s.currentTokenType = .eof
  · simp only [gparsePipeline, parserTokenTryPromoteToBang, run_bind, run_tryPromoteTo,
      Reply.bind_ok, rejectEof, run_tokenType,
      tryPromote_of_ne_word (s := s) (by simp [heof]), heof, ↓reduceIte, run_failure,
      Reply.bind_fail, Reply.fail.injEq, true_and] at h
    exact ⟨h.symm, heof⟩
  · have hrest : FailsOnly (· ≠ .empty) (do
        let bang ← optionalBang
        let seq ← gparsePipeSequence gparseCompoundList
        return Gnode.ofList .pipeline (bang ++ [seq])) :=
      FailsOnly.bind (failsOnly_tokenType.bind fun _ =>
        .ite ((failsOnly_takeLeaf _).bind fun _ => .pure _) (.pure _)) fun _ =>
          failsOnly_gparsePipeSequence.bind fun _ => .pure _
    have hne : (s.tryPromote 0 "!" .bang).currentTokenType ≠ .eof := by
      intro hc
      have hback := currentTokenType_back (s := s) (t := s.tryPromote 0 "!" .bang)
        (le_tryPromote _ _ _ (by decide)) (by simp) (by simp [hc, TokenType.IsReserved])
      exact heof (hback.trans hc)
    simp only [gparsePipeline, parserTokenTryPromoteToBang, run_bind, run_tryPromoteTo,
      Reply.bind_ok, rejectEof, run_tokenType, hne, ↓reduceIte, run_pure] at h
    exact absurd rfl (hrest _ _ _ h)

end Migash.Parser
