import Migash.Lexer.Contracts
import Migash.Library.Follows

/-! # What the lexer looks at

Two lexers that have the same text ahead of them, in the same modes and with the
same word and here-documents begun, go on in the same way. What they have read
before, the lines they count and the number of here-documents they have behind
them make no difference, except to the places of the tokens.
-/

namespace Migash

open Library

/-- The token without its place in the text. -/
def Token.unplaced (tok : Token) : Token := { tok with firstLine := 0, firstColumn := 0 }

@[simp] theorem Token.unplaced_type (tok : Token) : tok.unplaced.type = tok.type := rfl

namespace Lexer

/-- `lx'` is where `lx` is, with the text `before` in front of its input. Which document is read, and
whether at the start of a line, matters in a body only. -/
structure Alike (before : List Char) (stack : List LexMode) (lx lx' : Lexer) : Prop where
  input : lx'.input = before ++ lx.input
  pos : lx'.pos = before.length + lx.pos
  inside : lx.pos ≤ lx.input.length
  modeStack : lx.modeStack = stack
  modeStack' : lx'.modeStack = stack
  currentToken : lx'.currentToken = lx.currentToken
  inWord : lx'.inWord = lx.inWord
  tokens : lx'.tokens.map Token.unplaced = lx.tokens.map Token.unplaced
  noEof : NoEof lx
  heredocQueue : lx'.heredocQueue = lx.heredocQueue
  readingHeredoc : lx'.readingHeredoc = lx.readingHeredoc
  document : .heredocBody ∈ stack → lx'.heredocIndex = lx.heredocIndex ∧ lx'.colNo = lx.colNo

section Operations

variable {before : List Char} {stack : List LexMode} {lx lx' : Lexer}

/-! ## Reading the input -/

theorem Alike.rest (h : Alike before stack lx lx') : lx'.rest = lx.rest := by
  unfold Lexer.rest
  rw [h.input, h.pos, List.drop_length_add_append]

theorem Alike.peekAhead (h : Alike before stack lx lx') (offset : ℕ) :
    lx'.lexerPeekAhead offset = lx.lexerPeekAhead offset := by
  unfold lexerPeekAhead
  rw [h.input, h.pos, List.getD_eq_getElem?_getD, List.getD_eq_getElem?_getD,
    List.getElem?_append_right (by omega), Nat.add_assoc, Nat.add_sub_cancel_left]

theorem Alike.peek (h : Alike before stack lx lx') : lx'.lexerPeek = lx.lexerPeek := h.peekAhead 0

theorem Alike.left (h : Alike before stack lx lx') (n : ℕ) :
    lx.pos + n ≤ lx.input.length ↔ lx'.pos + n ≤ lx'.input.length := by
  rw [h.input, h.pos, List.length_append]
  omega

theorem Alike.atEnd (h : Alike before stack lx lx') : lx'.lexerAtEnd = lx.lexerAtEnd := by
  unfold lexerAtEnd
  rw [h.input, h.pos, List.length_append, decide_eq_decide]
  omega

theorem Alike.startsWith (h : Alike before stack lx lx') (text : List Char) :
    lx'.lexerInputStartsWith text = lx.lexerInputStartsWith text := by
  unfold lexerInputStartsWith
  rw [h.rest]

theorem Alike.peekInteger (h : Alike before stack lx lx') :
    lx'.lexerPeekInteger = lx.lexerPeekInteger := by
  unfold lexerPeekInteger
  rw [h.rest]

theorem Alike.turns (h : Alike before stack lx lx') : lx.turns ≤ lx'.turns := by
  unfold Lexer.turns
  rw [h.input, List.length_append]
  omega

theorem Alike.inMode (h : Alike before stack lx lx') (mode : LexMode) :
    lx'.lexerInMode mode = lx.lexerInMode mode := by
  unfold lexerInMode
  rw [h.modeStack, h.modeStack']

theorem Alike.currentMode (h : Alike before stack lx lx') :
    lx'.lexerCurrentMode = lx.lexerCurrentMode := by
  unfold lexerCurrentMode
  rw [h.modeStack, h.modeStack']

theorem Alike.length_tokens (h : Alike before stack lx lx') :
    lx'.tokens.length = lx.tokens.length := by
  have hlength := congrArg List.length h.tokens
  rwa [List.length_map, List.length_map] at hlength

theorem Alike.lastType (h : Alike before stack lx lx') :
    lx'.tokens.getLast?.map Token.type = lx.tokens.getLast?.map Token.type := by
  have hlast := congrArg (fun tokens => tokens.getLast?.map Token.type) h.tokens
  simpa [List.getLast?_map, Function.comp_def] using hlast

/-! ## Moving on -/

theorem Alike.advanced (h : Alike before stack lx lx') (hlt : lx.pos < lx.input.length) :
    Alike before stack lx.advanced lx'.advanced := by
  have hpos : lx'.pos + 1 = before.length + (lx.pos + 1) := by rw [h.pos, Nat.add_assoc]
  unfold Lexer.advanced
  rw [h.peek]
  split_ifs
  · exact { h with pos := hpos, inside := hlt, document := fun hmem => ⟨(h.document hmem).1, rfl⟩ }
  · exact
      { h with
        pos := hpos
        inside := hlt
        document := fun hmem =>
          ⟨(h.document hmem).1, congrArg (fun n => n + 1) (h.document hmem).2⟩ }

theorem Alike.advancedBy (h : Alike before stack lx lx') {n : ℕ}
    (hle : lx.pos + n ≤ lx.input.length) :
    Alike before stack (lx.advancedBy n) (lx'.advancedBy n) := by
  induction n generalizing lx lx' with
  | zero => exact h
  | succ n ih =>
    refine ih (h.advanced (by omega)) ?_
    rw [advanced_pos, advanced_input]
    omega

theorem Alike.advancedBy_rest (h : Alike before stack lx lx') {n : ℕ} (hle : n ≤ lx.rest.length) :
    Alike before stack (lx.advancedBy n) (lx'.advancedBy n) := by
  refine h.advancedBy ?_
  have hinside := h.inside
  rw [Lexer.rest, List.length_drop] at hle
  omega

theorem Alike.advancedWhile (h : Alike before stack lx lx') (p : Char → Bool) :
    Alike before stack (lx.advancedWhile p) (lx'.advancedWhile p) := by
  unfold Lexer.advancedWhile
  rw [h.rest]
  exact h.advancedBy_rest (List.takeWhile_prefix p).length_le

theorem Alike.advance (h : Alike before stack lx lx') :
    Follows (Alike before stack) lx.lexerAdvance lx'.lexerAdvance := by
  unfold lexerAdvance
  exact .ite (h.left 1) (fun hlt => .ok (h.advanced hlt)) fun _ => .contract _

theorem Alike.advance_pos (h : Alike before stack lx lx') :
    Follows (fun t t' => Alike before stack t t' ∧ 0 < t.pos) lx.lexerAdvance lx'.lexerAdvance := by
  unfold lexerAdvance
  refine .ite (h.left 1) (fun hlt => .ok ⟨h.advanced hlt, ?_⟩) fun _ => .contract _
  rw [advanced_pos]
  exact Nat.succ_pos _

theorem Alike.advanceNChars (h : Alike before stack lx lx') (n : ℕ) :
    Follows (Alike before stack) (lx.lexerAdvanceNChars n) (lx'.lexerAdvanceNChars n) := by
  unfold lexerAdvanceNChars
  exact .ite (h.left n) (fun hle => .ok (h.advancedBy hle)) fun _ => .contract _

theorem Alike.setError (h : Alike before stack lx lx') (text : String) :
    Alike before stack (lx.lexerSetError text) (lx'.lexerSetError text) := { h with }

theorem Alike.push (h : Alike before stack lx lx') {mode : LexMode} (hmode : mode ≠ .heredocBody) :
    Alike before (mode :: stack) (lx.lexerPushMode mode) (lx'.lexerPushMode mode) :=
  { h with
    modeStack := congrArg (List.cons mode) h.modeStack
    modeStack' := congrArg (List.cons mode) h.modeStack'
    document := fun hmem => h.document ((List.mem_cons.mp hmem).resolve_left (Ne.symm hmode)) }

theorem Alike.pop (h : Alike before stack lx lx') :
    Alike before stack.tail lx.lexerPopMode lx'.lexerPopMode :=
  { h with
    modeStack := congrArg List.tail h.modeStack
    modeStack' := congrArg List.tail h.modeStack'
    document := fun hmem => h.document (List.mem_of_mem_tail hmem) }

/-! ## Words and tokens -/

theorem Alike.startWord (h : Alike before stack lx lx') :
    Follows (Alike before stack) lx.lexerStartWord lx'.lexerStartWord := by
  unfold lexerStartWord
  rw [h.currentToken, h.inWord]
  refine .ite Iff.rfl (fun _ => .contract _) fun _ => .ite Iff.rfl (fun _ => .contract _) fun _ => ?_
  exact .ok { h with currentToken := rfl, inWord := rfl }

theorem Alike.ensureWord (h : Alike before stack lx lx') :
    Follows (Alike before stack) lx.ensureWord lx'.ensureWord := by
  unfold Lexer.ensureWord
  rw [h.inWord]
  exact .ite Iff.rfl (fun _ => .ok h) fun _ => h.startWord

theorem Alike.onWord (h : Alike before stack lx lx') (f : Token → Token) :
    Follows (Alike before stack) (lx.onWord f) (lx'.onWord f) := by
  unfold Lexer.onWord
  rw [h.currentToken]
  cases lx.currentToken with
  | none => exact .contract _
  | some tok => exact .ok { h with currentToken := rfl }

/-- A token, up to its place, at the end of both lists. -/
theorem Alike.append (h : Alike before stack lx lx') {tok tok' : Token}
    (htok : tok'.unplaced = tok.unplaced) (hne : tok.type ≠ .eof) :
    Alike before stack (lx.append tok) (lx'.append tok') :=
  { h with
    tokens := by
      rw [Lexer.append, Lexer.append, List.map_append, List.map_append, h.tokens, List.map_singleton,
        List.map_singleton, htok]
    noEof := List.forall_mem_append.mpr ⟨h.noEof, List.forall_mem_singleton.mpr hne⟩ }

theorem tryPromoteToAssignment_type (tok : Token) : tok.tryPromoteToAssignment.type ≠ .eof := by
  unfold Token.tryPromoteToAssignment
  split
  · dsimp only
    split_ifs <;> simp
  · simp

theorem Alike.appendLiteralChar (h : Alike before stack lx lx') (c : Char) :
    Follows (Alike before stack) (lx.lexerAppendLiteralCharToWord c)
      (lx'.lexerAppendLiteralCharToWord c) := h.onWord _

theorem Alike.appendLiteralCstr (h : Alike before stack lx lx') (text : List Char) :
    Follows (Alike before stack) (lx.lexerAppendLiteralCstrToWord text)
      (lx'.lexerAppendLiteralCstrToWord text) := by
  unfold lexerAppendLiteralCstrToWord
  exact .ite Iff.rfl (fun _ => .contract _) fun _ => h.onWord _

theorem Alike.finalizeWord (h : Alike before stack lx lx') :
    Follows (Alike before stack) lx.lexerFinalizeWord lx'.lexerFinalizeWord := by
  unfold lexerFinalizeWord
  rw [h.currentToken]
  cases lx.currentToken with
  | none => exact .contract _
  | some tok =>
    have happend : Alike before stack (lx.append (lx.finalized tok))
        (lx'.append (lx'.finalized tok)) := h.append rfl (tryPromoteToAssignment_type tok)
    exact .ok { happend with currentToken := rfl, inWord := rfl }

theorem Alike.emitToken (h : Alike before stack lx lx') {type : TokenType} (hne : type ≠ .eof) :
    Follows (Alike before stack) (lx.lexerEmitToken type) (lx'.lexerEmitToken type) := by
  unfold lexerEmitToken
  rw [h.currentToken]
  refine .ite Iff.rfl (fun _ => .contract _) fun _ => .ok ?_
  have happend : Alike before stack (lx.append (lx.tokenHere type))
      (lx'.append (lx'.tokenHere type)) := h.append rfl hne
  exact { happend with currentToken := h.currentToken }

theorem Alike.emitIoNumber (h : Alike before stack lx lx') (ioNumber : ℕ) :
    Follows (Alike before stack) (lx.lexerEmitIoNumberToken ioNumber)
      (lx'.lexerEmitIoNumberToken ioNumber) := by
  unfold lexerEmitIoNumberToken
  rw [h.currentToken]
  exact .ite Iff.rfl (fun _ => .contract _) fun _ => .ok (h.append rfl (by simp [tokenHere]))

theorem Alike.emitIoLocation (h : Alike before stack lx lx') (ioLocation : List Char) :
    Alike before stack (lx.lexerEmitIoLocationToken ioLocation)
      (lx'.lexerEmitIoLocationToken ioLocation) := h.append rfl (by simp [tokenHere])

theorem Alike.queueHeredoc (h : Alike before stack lx lx') (delimiter : List Char)
    (stripTabs delimiterQuoted : Bool) :
    Alike before stack (lx.lexerQueueHeredoc delimiter stripTabs delimiterQuoted)
      (lx'.lexerQueueHeredoc delimiter stripTabs delimiterQuoted) :=
  { h with
    heredocQueue := by
      rw [lexerQueueHeredoc, lexerQueueHeredoc, h.heredocQueue, h.length_tokens] }

theorem Alike.quotedIn (h : Alike before stack lx lx') (part : Part) :
    lx'.quotedIn part = lx.quotedIn part := by
  unfold Lexer.quotedIn
  rw [h.inMode]

end Operations

/-! ## Answers -/

/-- Two lexers that are alike in some modes. -/
def AlikeIn (before : List Char) (lx lx' : Lexer) : Prop :=
  ∃ stack, LexMode.normal ∉ stack ∧ Alike before stack lx lx'

/-- Two answers with the same status, which is no internal error, and with lexers that are alike. -/
def AlikeAnswers (before : List Char) (answer answer' : Answer) : Prop :=
  answer'.1 = answer.1 ∧ answer.1 ≠ .internalError ∧ AlikeIn before answer.2 answer'.2

section Modes

variable {before : List Char} {stack : List LexMode} {lx lx' : Lexer}

theorem Alike.answer (h : Alike before stack lx lx') (hstack : LexMode.normal ∉ stack)
    {status : LexStatus} (hstatus : status ≠ .internalError) :
    AlikeAnswers before (status, lx) (status, lx') := ⟨rfl, hstatus, stack, hstack, h⟩

theorem Alike.answerPop (h : Alike before stack lx lx') (hstack : LexMode.normal ∉ stack)
    {status : LexStatus} (hstatus : status ≠ .internalError) :
    AlikeAnswers before (status, lx.lexerPopMode) (status, lx'.lexerPopMode) :=
  h.pop.answer (fun hmem => hstack (List.mem_of_mem_tail hmem)) hstatus

theorem Alike.enter {S : Lexer → Lexer → Prop} (h : Alike before stack lx lx')
    (hstack : LexMode.normal ∉ stack) {mode : LexMode} (hnormal : mode ≠ .normal)
    (hheredoc : mode ≠ .heredocBody) (n : ℕ) :
    Follows (Next.Both S (AlikeAnswers before)) (lx.enter mode n) (lx'.enter mode n) := by
  unfold Lexer.enter
  refine ((h.push hheredoc).advanceNChars n).bind fun t t' ht => .pure (ht.answer ?_ (by decide))
  rw [List.mem_cons, not_or]
  exact ⟨Ne.symm hnormal, hstack⟩

theorem Alike.expansionAt? (h : Alike before stack lx lx') (canStart : Char → Bool) :
    lx'.expansionAt? canStart = lx.expansionAt? canStart := by
  unfold Lexer.expansionAt?
  simp only [h.peekAhead]

/-! ### Quotes -/

theorem Alike.squoteTurn (h : Alike before stack lx lx') (hstack : LexMode.normal ∉ stack) :
    Follows (Next.Both (Alike before stack) (AlikeAnswers before)) (squoteTurn lx)
      (squoteTurn lx') := by
  unfold Lexer.squoteTurn
  simp only [h.atEnd, h.peek]
  refine .ite Iff.rfl (fun _ => .pure (h.answer hstack (by decide))) fun _ => ?_
  refine .ite Iff.rfl (fun _ => ?_) fun _ => ?_
  · exact h.advance.bind fun t t' ht => .pure (ht.answerPop hstack (by decide))
  · exact (h.onWord _).bind fun t t' ht => ht.advance.bind fun u u' hu => .pure hu

theorem Alike.startQuoted (h : Alike before stack lx lx') :
    Follows (Alike before stack) lx.startQuoted lx'.startQuoted :=
  h.ensureWord.bind fun _ _ ht => ht.onWord _

theorem Alike.processSquote (h : Alike before stack lx lx') (hstack : LexMode.normal ∉ stack) :
    Follows (AlikeAnswers before) lx.lexerProcessSquote lx'.lexerProcessSquote :=
  h.startQuoted.bind fun _ _ ht => .iterate (fun _ _ hs => hs.squoteTurn hstack) ht.turns ht

theorem Alike.dquoteTurn (h : Alike before stack lx lx') (hstack : LexMode.normal ∉ stack) :
    Follows (Next.Both (Alike before stack) (AlikeAnswers before)) (dquoteTurn lx)
      (dquoteTurn lx') := by
  unfold Lexer.dquoteTurn
  simp only [h.atEnd, h.peek, h.peekAhead, h.expansionAt?]
  refine .ite Iff.rfl (fun _ => .pure (h.answer hstack (by decide))) fun _ => ?_
  refine .ite Iff.rfl (fun _ => ?_) fun _ => ?_
  · exact h.advance.bind fun t t' ht => .pure (ht.answerPop hstack (by decide))
  refine .ite Iff.rfl (fun _ => ?_) fun _ => ?_
  · refine .ite Iff.rfl (fun _ => .pure (h.answer hstack (by decide))) fun _ => ?_
    refine h.advance.bind fun t t' ht => .ite Iff.rfl (fun _ => ?_) fun _ => ?_
    · refine .ite Iff.rfl (fun _ => ?_) fun _ => ?_
      · refine ht.advance.bind fun u u' hu => ?_
        rw [hu.atEnd]
        exact .ite Iff.rfl (fun _ => .pure (hu.answer hstack (by decide))) fun _ => .pure hu
      · exact (ht.onWord _).bind fun u u' hu => hu.advance.bind fun v v' hv => .pure hv
    · exact (ht.onWord _).bind fun u u' hu => (hu.onWord _).bind fun v v' hv =>
        hv.advance.bind fun w w' hw => .pure hw
  refine .ite Iff.rfl (fun _ => h.enter hstack (by decide) (by decide) 1) fun _ => ?_
  have hplain : Follows (Next.Both (Alike before stack) (AlikeAnswers before))
      (do
        let lx ← lx.lexerAppendDquoteCharToWord lx.lexerPeek
        return .again (← lx.lexerAdvance))
      (do
        let lx' ← lx'.lexerAppendDquoteCharToWord lx.lexerPeek
        return .again (← lx'.lexerAdvance)) :=
    (h.onWord _).bind fun t t' ht => ht.advance.bind fun u u' hu => .pure hu
  refine .ite Iff.rfl (fun _ => ?_) fun _ => hplain
  refine .ite Iff.rfl (fun _ => .pure (h.answer hstack (by decide))) fun _ => ?_
  split
  · next mode n hat =>
    obtain ⟨hnormal, hheredoc, -, -⟩ := expansionAt?_eq_some hat
    exact h.enter hstack hnormal hheredoc n
  · exact hplain

theorem Alike.processDquote (h : Alike before stack lx lx') (hstack : LexMode.normal ∉ stack) :
    Follows (AlikeAnswers before) lx.lexerProcessDquote lx'.lexerProcessDquote :=
  h.startQuoted.bind fun _ _ ht => .iterate (fun _ _ hs => hs.dquoteTurn hstack) ht.turns ht

/-! ### Parameter expansions -/

theorem Alike.addParamPart (h : Alike before stack lx lx') (name : List Char) (kind : ParamSubtype)
    (hasColon : Bool) (word : Option (List Char)) :
    Follows (Alike before stack) (lx.lexerAddParamPart name kind hasColon word)
      (lx'.lexerAddParamPart name kind hasColon word) := by
  unfold lexerAddParamPart
  rw [h.quotedIn]
  exact h.onWord _

theorem Alike.processUnbraced (h : Alike before stack lx lx') (hstack : LexMode.normal ∉ stack) :
    Follows (AlikeAnswers before) lx.lexerProcessParamExpUnbraced
      lx'.lexerProcessParamExpUnbraced := by
  unfold lexerProcessParamExpUnbraced
  refine h.ensureWord.bind fun t t' ht => ?_
  simp only [ht.atEnd, ht.peek, ht.rest]
  refine .ite Iff.rfl (fun _ => .pure (ht.answer hstack (by decide))) fun _ => ?_
  refine .ite Iff.rfl (fun _ => .pure ((ht.setError _).answer hstack (by decide))) fun _ => ?_
  exact (ht.advanceNChars _).bind fun u u' hu => (hu.addParamPart ..).bind fun v v' hv =>
    .pure (hv.answerPop hstack (by decide))

theorem Alike.operatorAt? (h : Alike before stack lx lx') (hasColon : Bool) :
    lx'.operatorAt? hasColon = lx.operatorAt? hasColon := by
  unfold Lexer.operatorAt?
  simp only [h.peek, h.peekAhead]

theorem Alike.bracedOperator (h : Alike before stack lx lx') (hstack : LexMode.normal ∉ stack)
    (hasColon : Bool) (name : List Char) :
    Follows (AlikeAnswers before) (lx.bracedOperator hasColon name)
      (lx'.bracedOperator hasColon name) := by
  unfold Lexer.bracedOperator
  simp only [h.atEnd, h.peek, h.operatorAt?]
  refine .ite Iff.rfl (fun _ => .pure (h.answer hstack (by decide))) fun _ => ?_
  cases lx.operatorAt? hasColon with
  | none => exact .pure ((h.setError _).answer hstack (by decide))
  | some found =>
    refine (h.advanceNChars found.2).bind fun t t' ht => ?_
    simp only [ht.rest]
    cases wordLength? none 0 t.rest with
    | none => exact .pure ((ht.advancedBy_rest le_rfl).answer hstack (by decide))
    | some length =>
      exact (ht.advanceNChars _).bind fun u u' hu => (hu.addParamPart ..).bind fun v v' hv =>
        .pure (hv.answerPop hstack (by decide))

theorem Alike.bracedTail (h : Alike before stack lx lx') (hstack : LexMode.normal ∉ stack)
    (isLength : Bool) (name : List Char) :
    Follows (AlikeAnswers before) (lx.bracedTail isLength name) (lx'.bracedTail isLength name) := by
  unfold Lexer.bracedTail
  simp only [h.atEnd, h.peek]
  refine .ite Iff.rfl (fun _ => .pure (h.answer hstack (by decide))) fun _ => ?_
  refine .ite Iff.rfl (fun _ => ?_) fun _ => ?_
  · refine .ite Iff.rfl (fun _ => .pure ((h.setError _).answer hstack (by decide))) fun _ => ?_
    exact (h.addParamPart ..).bind fun t t' ht => ht.advance.bind fun u u' hu =>
      .pure (hu.answerPop hstack (by decide))
  refine .ite Iff.rfl (fun _ => ?_) fun _ => ?_
  · exact h.advance.bind fun t t' ht => (ht.addParamPart ..).bind fun u u' hu =>
      .pure (hu.answerPop hstack (by decide))
  refine .ite Iff.rfl (fun _ => ?_) fun _ => h.bracedOperator hstack _ _
  exact h.advance.bind fun t t' ht => ht.bracedOperator hstack _ _

theorem Alike.bracedName (h : Alike before stack lx lx') (hstack : LexMode.normal ∉ stack)
    (isLength : Bool) :
    Follows (AlikeAnswers before) (lx.bracedName isLength) (lx'.bracedName isLength) := by
  unfold Lexer.bracedName
  simp only [h.atEnd, h.peek, h.rest]
  refine .ite Iff.rfl (fun _ => .pure (h.answer hstack (by decide))) fun _ => ?_
  refine .ite Iff.rfl (fun _ => h.advance.bind fun t t' ht => ht.bracedTail hstack _ _) fun _ => ?_
  refine .ite Iff.rfl (fun _ => ?_) fun _ => ?_
  · exact (h.advanceNChars _).bind fun t t' ht => ht.bracedTail hstack _ _
  · exact .ite Iff.rfl (fun _ => .pure ((h.setError _).answer hstack (by decide))) fun _ =>
      .pure ((h.setError _).answer hstack (by decide))

theorem Alike.processBraced (h : Alike before stack lx lx') (hstack : LexMode.normal ∉ stack) :
    Follows (AlikeAnswers before) lx.lexerProcessParamExpBraced lx'.lexerProcessParamExpBraced := by
  unfold lexerProcessParamExpBraced
  refine h.ensureWord.bind fun t t' ht => ?_
  simp only [ht.atEnd, ht.peek, ht.peekAhead]
  refine .ite Iff.rfl (fun _ => .pure (ht.answer hstack (by decide))) fun _ => ?_
  refine .ite Iff.rfl (fun _ => ?_) fun _ => ht.bracedName hstack _
  exact ht.advance.bind fun u u' hu => hu.bracedName hstack _

/-! ### Command substitutions and arithmetic expansions -/

theorem Alike.closeExpansion (h : Alike before stack lx lx') (hstack : LexMode.normal ∉ stack)
    (type : PartType) (text : List Char) :
    Follows (AlikeIn before) (lx.closeExpansion type text) (lx'.closeExpansion type text) := by
  unfold Lexer.closeExpansion
  simp only [h.quotedIn]
  exact (h.onWord _).bind fun t t' ht =>
    .pure ⟨stack.tail, fun hmem => hstack (List.mem_of_mem_tail hmem), ht.pop⟩

theorem Alike.countLine (h : Alike before stack lx lx') :
    Alike before stack lx.countLine lx'.countLine :=
  { h with document := fun hmem => ⟨(h.document hmem).1, rfl⟩ }

/-- The text of a substitution lies behind its start in both inputs. -/
theorem Alike.textBetween (h : Alike before stack lx lx') (hpos : 0 < lx.pos) (start : ℕ) :
    (lx'.input.take (lx'.pos - 1)).drop (before.length + start) =
      (lx.input.take (lx.pos - 1)).drop start := by
  rw [h.input, h.pos, Nat.add_sub_assoc hpos, List.take_length_add_append,
    List.drop_length_add_append]

/-- Two scans of a substitution in parentheses. -/
structure AlikeParens (before : List Char) (stack : List LexMode) (s s' : ParenScan) : Prop where
  lx : Alike before stack s.lx s'.lx
  startPos : s'.startPos = before.length + s.startPos
  parenDepth : s'.parenDepth = s.parenDepth

theorem AlikeParens.turn {s s' : ParenScan} (h : AlikeParens before stack s s')
    (hstack : LexMode.normal ∉ stack) :
    Follows (Next.Both (AlikeParens before stack) (AlikeAnswers before)) (parenTurn s)
      (parenTurn s') := by
  unfold parenTurn
  simp only [h.lx.atEnd, h.lx.peek, h.lx.peekAhead, h.parenDepth]
  refine .ite Iff.rfl (fun _ => .pure (h.lx.answer hstack (by decide))) fun _ => ?_
  refine .ite Iff.rfl (fun _ => ?_) fun _ => ?_
  · refine h.lx.advance_pos.bind fun t t' ⟨ht, hpos⟩ => ?_
    rw [h.startPos, ht.textBetween hpos]
    exact (ht.closeExpansion hstack ..).bind fun u u' hu => .pure ⟨rfl, nofun, hu⟩
  refine .ite Iff.rfl (fun _ => ?_) fun _ => ?_
  · refine .ite Iff.rfl (fun _ => .pure (h.lx.answer hstack (by decide))) fun _ => ?_
    refine h.lx.advance.bind fun t t' ht => ht.advance.bind fun u u' hu => ?_
    refine .ite Iff.rfl (fun _ => ?_) fun _ => .pure ⟨hu, h.startPos, rfl⟩
    simp only [hu.countLine.atEnd]
    exact .ite Iff.rfl (fun _ => .pure (hu.countLine.answer hstack (by decide))) fun _ =>
      .pure ⟨hu.countLine, h.startPos, rfl⟩
  · exact h.lx.advance.bind fun t t' ht => .pure ⟨ht, h.startPos, rfl⟩

theorem Alike.processParen (h : Alike before stack lx lx') (hstack : LexMode.normal ∉ stack) :
    Follows (AlikeAnswers before) lx.lexerProcessCmdSubstParen lx'.lexerProcessCmdSubstParen :=
  h.ensureWord.bind fun _ _ ht =>
    .iterate (S := AlikeParens before stack) (fun _ _ hs => hs.turn hstack) ht.turns
      ⟨ht, ht.pos, rfl⟩

/-- Two scans that have collected the same text. -/
structure AlikeTexts (before : List Char) (stack : List LexMode) (s s' : TextScan) : Prop where
  lx : Alike before stack s.lx s'.lx
  text : s'.text = s.text

theorem AlikeTexts.backtickTurn {s s' : TextScan} (h : AlikeTexts before stack s s')
    (hstack : LexMode.normal ∉ stack) :
    Follows (Next.Both (AlikeTexts before stack) (AlikeAnswers before)) (backtickTurn s)
      (backtickTurn s') := by
  unfold Lexer.backtickTurn
  simp only [h.lx.atEnd, h.lx.peek, h.lx.peekAhead, h.text]
  refine .ite Iff.rfl (fun _ => .pure (h.lx.answer hstack (by decide))) fun _ => ?_
  refine .ite Iff.rfl (fun _ => ?_) fun _ => ?_
  · exact h.lx.advance.bind fun t t' ht => (ht.closeExpansion hstack ..).bind fun u u' hu =>
      .pure ⟨rfl, nofun, hu⟩
  refine .ite Iff.rfl (fun _ => ?_) fun _ => ?_
  · refine .ite Iff.rfl (fun _ => .pure (h.lx.answer hstack (by decide))) fun _ => ?_
    refine h.lx.advance.bind fun t t' ht => ht.advance.bind fun u u' hu => ?_
    refine .ite Iff.rfl (fun _ => ?_) fun _ => ?_
    · simp only [hu.countLine.atEnd]
      exact .ite Iff.rfl (fun _ => .pure (hu.countLine.answer hstack (by decide))) fun _ =>
        .pure ⟨hu.countLine, rfl⟩
    · simp only [hu.inMode]
      exact .ite Iff.rfl (fun _ => .pure ⟨hu, rfl⟩) fun _ => .pure ⟨hu, rfl⟩
  · exact h.lx.advance.bind fun t t' ht => .pure ⟨ht, rfl⟩

theorem Alike.processBacktick (h : Alike before stack lx lx') (hstack : LexMode.normal ∉ stack) :
    Follows (AlikeAnswers before) lx.lexerProcessCmdSubstBacktick
      lx'.lexerProcessCmdSubstBacktick :=
  h.ensureWord.bind fun _ _ ht =>
    .iterate (S := AlikeTexts before stack) (fun _ _ hs => hs.backtickTurn hstack) ht.turns ⟨ht, rfl⟩

/-- Two scans of an arithmetic expansion. -/
structure AlikeSums (before : List Char) (stack : List LexMode) (s s' : ArithScan) : Prop where
  lx : Alike before stack s.lx s'.lx
  text : s'.text = s.text
  openings : s'.stack = s.stack

theorem AlikeSums.turn {s s' : ArithScan} (h : AlikeSums before stack s s')
    (hstack : LexMode.normal ∉ stack) :
    Follows (Next.Both (AlikeSums before stack) (AlikeAnswers before)) (arithTurn s)
      (arithTurn s') := by
  have hfailed (text : String) :
      Follows (Next.Both (AlikeSums before stack) (AlikeAnswers before))
        (pure (.done (.error, s.lx.lexerSetError text)))
        (pure (.done (.error, s'.lx.lexerSetError text))) :=
    .pure ((h.lx.setError text).answer hstack (by decide))
  unfold arithTurn
  simp only [h.lx.atEnd, h.lx.peek, h.lx.peekAhead, h.text, h.openings]
  refine .ite Iff.rfl (fun _ => .pure (h.lx.answer hstack (by decide))) fun _ => ?_
  refine .ite Iff.rfl (fun _ => ?_) fun _ => ?_
  · refine .ite Iff.rfl (fun _ => ?_) fun _ => ?_
    · exact h.lx.advance.bind fun t t' ht => ht.advance.bind fun u u' hu =>
        (hu.closeExpansion hstack ..).bind fun v v' hv => .pure ⟨rfl, nofun, hv⟩
    · exact .ite Iff.rfl (fun _ => hfailed _) fun _ => hfailed _
  refine .ite Iff.rfl (fun _ => h.lx.advance.bind fun t t' ht => .pure ⟨ht, rfl, rfl⟩) fun _ => ?_
  refine .ite Iff.rfl (fun _ => ?_) fun _ => ?_
  · cases s.stack with
    | nil => exact hfailed _
    | cons opening openings =>
      exact .ite Iff.rfl (fun _ => hfailed _) fun _ =>
        h.lx.advance.bind fun t t' ht => .pure ⟨ht, rfl, rfl⟩
  refine .ite Iff.rfl (fun _ => ?_) fun _ => ?_
  · exact h.lx.advance.bind fun t t' ht => ht.advance.bind fun u u' hu => .pure ⟨hu, rfl, rfl⟩
  refine .ite Iff.rfl (fun _ => ?_) fun _ => ?_
  · exact h.lx.advance.bind fun t t' ht => ht.advance.bind fun u u' hu =>
      .pure ⟨hu, rfl, rfl⟩
  refine .ite Iff.rfl (fun _ => ?_) fun _ => ?_
  · exact h.lx.advance.bind fun t t' ht => ht.advance.bind fun u u' hu => .pure ⟨hu, rfl, rfl⟩
  · exact h.lx.advance.bind fun t t' ht => .pure ⟨ht, rfl, rfl⟩

theorem Alike.processArith (h : Alike before stack lx lx') (hstack : LexMode.normal ∉ stack) :
    Follows (AlikeAnswers before) lx.lexerProcessArithExp lx'.lexerProcessArithExp :=
  h.ensureWord.bind fun _ _ ht =>
    .iterate (S := AlikeSums before stack) (fun _ _ hs => hs.turn hstack) ht.turns ⟨ht, rfl, rfl⟩

/-! ### Here-documents -/

theorem Alike.delimiterEnd? (h : Alike before stack lx lx') (entry : HeredocEntry) :
    lx'.delimiterEnd? entry = (lx.delimiterEnd? entry).map (before.length + ·) := by
  have hlt (n : ℕ) : lx'.pos + n < lx'.input.length ↔ lx.pos + n < lx.input.length := by
    rw [h.input, h.pos, List.length_append]
    omega
  have hpos (tabs : ℕ) :
      (if entry.stripTabs ∧ lx'.pos + tabs < lx'.input.length then lx'.pos + tabs else lx'.pos) =
        before.length +
          (if entry.stripTabs ∧ lx.pos + tabs < lx.input.length then lx.pos + tabs else lx.pos) := by
    by_cases hstrip : entry.stripTabs ∧ lx.pos + tabs < lx.input.length
    · rw [if_pos hstrip, if_pos ⟨hstrip.1, (hlt _).mpr hstrip.2⟩, h.pos, Nat.add_assoc]
    · rw [if_neg hstrip, if_neg fun hs => hstrip ⟨hs.1, (hlt _).mp hs.2⟩, h.pos]
  unfold Lexer.delimiterEnd?
  rw [h.rest]
  dsimp only
  rw [hpos, h.input, List.drop_length_add_append]
  generalize (if entry.stripTabs = true ∧
    lx.pos + (lx.rest.takeWhile (· = tab)).length < lx.input.length then
      lx.pos + (lx.rest.takeWhile (· = tab)).length else lx.pos) = start
  split_ifs
  · rw [Option.map_some, Nat.add_assoc]
  · rfl

theorem Alike.checkDelimiter (h : Alike before stack lx lx') (entry : HeredocEntry) :
    Follows (fun r r' => r'.1 = r.1 ∧ Alike before stack r.2 r'.2)
      (lx.lexerCheckHeredocDelimiter entry) (lx'.lexerCheckHeredocDelimiter entry) := by
  unfold lexerCheckHeredocDelimiter
  rw [h.delimiterEnd?]
  cases lx.delimiterEnd? entry with
  | none => exact .pure ⟨rfl, h⟩
  | some pos =>
    have hget : lx'.input.getD (before.length + pos) nul = lx.input.getD pos nul := by
      rw [h.input, List.getD_eq_getElem?_getD, List.getD_eq_getElem?_getD,
        List.getElem?_append_right (Nat.le_add_right _ _), Nat.add_sub_cancel_left]
    have hlength : pos = lx.input.length ↔ before.length + pos = lx'.input.length := by
      rw [h.input, List.length_append, Nat.add_left_cancel_iff]
    simp only [Option.map_some, hget, h.pos, Nat.add_sub_add_left]
    refine .ite hlength (fun _ => ?_) fun _ => ?_
    · exact (h.advanceNChars _).bind fun t t' ht => .pure ⟨rfl, ht⟩
    refine .ite Iff.rfl (fun _ => ?_) fun _ => .pure ⟨rfl, h⟩
    exact (h.advanceNChars _).bind fun t t' ht => .pure ⟨rfl, ht⟩

/-- The documents are left when the last one is read. -/
theorem Alike.leaveDocuments (h : Alike before stack lx lx') (hstack : LexMode.normal ∉ stack)
    (hmem : .heredocBody ∈ stack) :
    AlikeIn before
      (if lx.heredocQueue.length ≤ lx.heredocIndex then
        lexerPopMode { lx with readingHeredoc := false, heredocQueue := [] } else lx)
      (if lx'.heredocQueue.length ≤ lx'.heredocIndex then
        lexerPopMode { lx' with readingHeredoc := false, heredocQueue := [] } else lx') := by
  have hlast : lx'.heredocQueue.length ≤ lx'.heredocIndex ↔
      lx.heredocQueue.length ≤ lx.heredocIndex := by
    rw [h.heredocQueue, (h.document hmem).1]
  by_cases hle : lx.heredocQueue.length ≤ lx.heredocIndex
  · rw [if_pos hle, if_pos (hlast.mpr hle)]
    exact ⟨stack.tail, fun hmem => hstack (List.mem_of_mem_tail hmem),
      Alike.pop { h with heredocQueue := rfl, readingHeredoc := rfl }⟩
  · rw [if_neg hle, if_neg fun h' => hle (hlast.mp h')]
    exact ⟨stack, hstack, h⟩

theorem Alike.finishHeredoc (h : Alike before stack lx lx') (hstack : LexMode.normal ∉ stack)
    (hmem : .heredocBody ∈ stack) (entry : HeredocEntry) :
    AlikeIn before (lx.finishHeredoc entry) (lx'.finishHeredoc entry) := by
  obtain ⟨hindex, hcol⟩ := h.document hmem
  unfold Lexer.finishHeredoc
  rw [h.currentToken]
  let done : Token :=
    { type := .endOfHeredoc, heredocDelimiter := some (String.ofList entry.delimiter),
      heredocContent := lx.currentToken.bind Token.heredocContent,
      heredocDelimQuoted := entry.delimiterQuoted, needsExpansion := !entry.delimiterQuoted }
  have happend : Alike before stack (lx.append done) (lx'.append done) := h.append rfl (by simp [done])
  refine @Alike.leaveDocuments before stack _ _ ?_ hstack hmem
  exact
    { happend with
      currentToken := rfl
      inWord := rfl
      document := fun _ => ⟨congrArg (fun n => n + 1) hindex, hcol⟩ }

theorem Alike.skipTabs (h : Alike before stack lx lx') (hmem : .heredocBody ∈ stack)
    (entry : HeredocEntry) : Alike before stack (lx.skipTabs entry) (lx'.skipTabs entry) := by
  unfold Lexer.skipTabs
  rw [(h.document hmem).2]
  split_ifs
  · exact h.advancedWhile _
  · exact h

theorem AlikeTexts.readLine {s s' : TextScan} (h : AlikeTexts before stack s s')
    (entry : HeredocEntry) :
    Follows (Next.Both (AlikeTexts before stack) (AlikeAnswers before)) (readLine entry s)
      (readLine entry s') := by
  unfold Lexer.readLine
  simp only [h.lx.peek, h.lx.peekAhead, h.text]
  refine .ite Iff.rfl (fun _ => ?_) fun _ => ?_
  · exact h.lx.advance.bind fun t t' ht => .pure ⟨ht.countLine, rfl⟩
  refine .ite Iff.rfl (fun _ => ?_) fun _ => ?_
  · exact h.lx.advance.bind fun t t' ht => ht.advance.bind fun u u' hu => .pure ⟨hu.countLine, rfl⟩
  refine .ite Iff.rfl (fun _ => ?_) fun _ => ?_
  · exact h.lx.advance.bind fun t t' ht => ht.advance.bind fun u u' hu => .pure ⟨hu, rfl⟩
  · exact h.lx.advance.bind fun t t' ht => .pure ⟨ht, rfl⟩

theorem AlikeTexts.heredocTurn {s s' : TextScan} (h : AlikeTexts before stack s s')
    (hstack : LexMode.normal ∉ stack) (hmem : .heredocBody ∈ stack) (entry : HeredocEntry) :
    Follows (Next.Both (AlikeTexts before stack) (AlikeAnswers before)) (heredocTurn entry s)
      (heredocTurn entry s') := by
  unfold Lexer.heredocTurn
  rw [h.lx.atEnd, h.text]
  refine .ite Iff.rfl (fun _ => ?_) fun _ => ?_
  · exact (h.lx.onWord _).bind fun t t' ht => .pure (ht.answer hstack (by decide))
  refine ((h.lx.skipTabs hmem entry).checkDelimiter entry).bind fun r r' hr => ?_
  obtain ⟨found, t⟩ := r
  obtain ⟨found', t'⟩ := r'
  obtain ⟨rfl, ht⟩ := hr
  have hline : AlikeTexts before stack ⟨t, s.text⟩ ⟨t', s.text⟩ := ⟨ht, rfl⟩
  refine .ite Iff.rfl (fun _ => ?_) fun _ => hline.readLine entry
  exact (ht.onWord _).bind fun u u' hu => .pure ⟨rfl, nofun, hu.finishHeredoc hstack hmem entry⟩

theorem Alike.startDocument (h : Alike before stack lx lx') :
    Alike before stack lx.startDocument lx'.startDocument := by
  unfold Lexer.startDocument
  rw [h.currentToken]
  split_ifs
  · exact { h with currentToken := rfl }
  · exact h

theorem Alike.processHeredocBody (h : Alike before stack lx lx') (hstack : LexMode.normal ∉ stack)
    (hmem : .heredocBody ∈ stack) :
    Follows (AlikeAnswers before) lx.lexerProcessHeredocBody lx'.lexerProcessHeredocBody := by
  unfold lexerProcessHeredocBody
  rw [h.heredocQueue, (h.document hmem).1]
  cases lx.heredocQueue[lx.heredocIndex]? with
  | none => exact .pure (h.answer hstack (by decide))
  | some entry =>
    exact .iterate (S := AlikeTexts before stack) (fun _ _ hs => hs.heredocTurn hstack hmem entry)
      h.turns ⟨h.startDocument, rfl⟩

/-! ### The normal mode -/

/-- The lexer with the token that marks the end of the input. -/
def marked (lx : Lexer) : Lexer :=
  { lx.append (lx.tokenHere .eof) with
    atCommandStart := [TokenType.semi, .newline, .andIf, .orIf, .pipe].contains .eof }

/-- Two lexers at the end of the input, between words. -/
structure AlikeAtEnd (before : List Char) (lx lx' : Lexer) : Prop where
  alike : Alike before [] lx lx'
  rest : lx.rest = []
  currentToken : lx.currentToken = none
  inWord : lx.inWord = false

/-- Two answers that are alike, or that both have come to the end of the input. -/
inductive AlikeOrEnded (before : List Char) : Answer → Answer → Prop where
  | alike {answer answer' : Answer} (h : AlikeAnswers before answer answer') :
    AlikeOrEnded before answer answer'
  | ended {lx lx' : Lexer} (h : AlikeAtEnd before lx lx') :
    AlikeOrEnded before (.ok, lx.marked) (.ok, lx'.marked)

theorem Next.Both.orEnded {S : Lexer → Lexer → Prop} {x x' : Next Lexer Answer}
    (h : Next.Both S (AlikeAnswers before) x x') : Next.Both S (AlikeOrEnded before) x x' := by
  cases x with
  | again s =>
    cases x' with
    | again s' => exact h
    | done answer' => exact h.elim
  | done answer =>
    cases x' with
    | again s' => exact h.elim
    | done answer' => exact .alike h

theorem Alike.answerNormal (h : Alike before [] lx lx') {status : LexStatus}
    (hstatus : status ≠ .internalError) :
    AlikeOrEnded before (status, lx) (status, lx') :=
  .alike (h.answer List.not_mem_nil hstatus)

theorem Alike.matchOperator? (h : Alike before stack lx lx') :
    lx'.matchOperator? = lx.matchOperator? := by
  unfold Lexer.matchOperator?
  simp only [h.startsWith]

theorem Alike.previousTokenAllowsIoNumber (h : Alike before stack lx lx') :
    lx'.previousTokenAllowsIoNumber = lx.previousTokenAllowsIoNumber := by
  have hlast := h.lastType
  unfold Lexer.previousTokenAllowsIoNumber
  cases htok : lx.tokens.getLast? with
  | none =>
    rw [htok, Option.map_none, Option.map_eq_none_iff] at hlast
    rw [hlast]
  | some last =>
    rw [htok, Option.map_some, Option.map_eq_some_iff] at hlast
    obtain ⟨last', hlast', htype⟩ := hlast
    simp only [hlast', htype]

theorem Alike.heredocPreviousTokenAllowsIoNumber (h : Alike before stack lx lx') :
    lx'.heredocPreviousTokenAllowsIoNumber = lx.heredocPreviousTokenAllowsIoNumber := by
  have hlast := h.lastType
  unfold Lexer.heredocPreviousTokenAllowsIoNumber
  cases htok : lx.tokens.getLast? with
  | none =>
    rw [htok, Option.map_none, Option.map_eq_none_iff] at hlast
    rw [hlast]
  | some last =>
    rw [htok, Option.map_some, Option.map_eq_some_iff] at hlast
    obtain ⟨last', hlast', htype⟩ := hlast
    simp only [hlast', htype]

theorem Alike.integerBeforeRedirection? (h : Alike before stack lx lx') :
    lx'.integerBeforeRedirection? = lx.integerBeforeRedirection? := by
  unfold Lexer.integerBeforeRedirection?
  simp only [h.peekInteger, h.peek, h.peekAhead]

theorem Alike.bracedIoLocation? (h : Alike before stack lx lx') :
    lx'.bracedIoLocation? = lx.bracedIoLocation? := by
  unfold Lexer.bracedIoLocation?
  rw [h.rest]

/-- Two results of `try_process_heredoc`. -/
inductive AlikeHeredocs (before : List Char) (stack : List LexMode) :
    HeredocResult → HeredocResult → Prop where
  | notHeredoc {lx lx' : Lexer} (h : Alike before stack lx lx') :
    AlikeHeredocs before stack (.notHeredoc lx) (.notHeredoc lx')
  | success {lx lx' : Lexer} (h : Alike before stack lx lx') :
    AlikeHeredocs before stack (.success lx) (.success lx')
  | error {lx lx' : Lexer} (h : Alike before stack lx lx') :
    AlikeHeredocs before stack (.error lx) (.error lx')

theorem Alike.processDelimiter (h : Alike before stack lx lx') (stripTabs : Bool) :
    Follows (AlikeHeredocs before stack) (lx.processDelimiter stripTabs)
      (lx'.processDelimiter stripTabs) := by
  unfold Lexer.processDelimiter
  simp only [h.rest]
  have hscan := h.advancedBy_rest (getHeredocDelimiter_consumed_le lx.rest)
  cases (getHeredocDelimiter lx.rest).error with
  | some text => exact .pure (.error (hscan.setError text))
  | none =>
    exact hscan.startWord.bind fun t t' ht => (ht.appendLiteralCstr _).bind fun u u' hu =>
      hu.finalizeWord.bind fun v v' hv => .pure (.success (hv.queueHeredoc ..))

theorem Alike.processOperator (h : Alike before stack lx lx') :
    Follows (AlikeHeredocs before stack) lx.processOperator lx'.processOperator := by
  unfold Lexer.processOperator
  rw [h.startsWith]
  refine .ite Iff.rfl (fun _ => .pure (.notHeredoc h)) fun _ => ?_
  refine (h.advanceNChars 2).bind fun t t' ht => ?_
  rw [ht.peek]
  refine .ite Iff.rfl (fun _ => ?_) fun _ => ?_
  · exact ht.advance.bind fun u u' hu => (hu.emitToken (by decide)).bind fun v v' hv =>
      (hv.advancedWhile _).processDelimiter true
  · exact (ht.emitToken (by decide)).bind fun v v' hv => (hv.advancedWhile _).processDelimiter false

theorem Alike.tryProcessHeredoc (h : Alike before stack lx lx') :
    Follows (AlikeHeredocs before stack) lx.tryProcessHeredoc lx'.tryProcessHeredoc := by
  unfold Lexer.tryProcessHeredoc
  rw [h.heredocPreviousTokenAllowsIoNumber, h.integerBeforeRedirection?]
  split
  · exact (h.emitIoNumber _).bind fun t t' ht => (ht.advanceNChars _).bind fun u u' hu =>
      hu.processOperator
  · exact h.processOperator

theorem Alike.endWord (h : Alike before stack lx lx') :
    Follows (Alike before stack) lx.endWord lx'.endWord := by
  unfold Lexer.endWord
  rw [h.inWord]
  exact .ite Iff.rfl (fun _ => h.finalizeWord) fun _ => .pure h

theorem Alike.endOfInput (h : Alike before [] lx lx') (hrest : lx.rest = []) :
    Follows (Next.Both (Alike before []) (AlikeOrEnded before)) lx.endOfInput lx'.endOfInput := by
  unfold Lexer.endOfInput
  rw [h.inWord, h.currentToken]
  refine .ite Iff.rfl (fun _ => .pure ((h.setError _).answerNormal (by decide))) fun hno => ?_
  have hend : Follows (fun t t' => Alike before [] t t' ∧ t.rest = [] ∧ t.inWord = false)
      lx.endWord lx'.endWord := by
    unfold Lexer.endWord lexerFinalizeWord
    rw [h.inWord, h.currentToken]
    refine .ite Iff.rfl (fun _ => ?_) fun hword => .pure ⟨h, hrest, by simpa using hword⟩
    cases lx.currentToken with
    | none => exact .contract _
    | some tok =>
      have happend : Alike before [] (lx.append (lx.finalized tok))
          (lx'.append (lx'.finalized tok)) := h.append rfl (tryPromoteToAssignment_type tok)
      exact .ok ⟨{ happend with currentToken := rfl, inWord := rfl }, hrest, rfl⟩
  refine hend.bind fun t t' ⟨ht, hrest, hword⟩ => ?_
  unfold lexerEmitToken
  rw [ht.currentToken]
  by_cases htoken : t.currentToken = none
  · rw [if_neg (by simpa using htoken), if_neg (by simpa using htoken)]
    exact .ok (.ended ⟨ht, hrest, htoken, hword⟩)
  · rw [if_pos htoken, if_pos htoken]
    exact .contract _

/-- The end of the word leaves the lexer in front of the same text. -/
theorem endWord_peek {lx out : Lexer} (h : lx.endWord = .ok out) : out.lexerPeek = lx.lexerPeek := by
  unfold Lexer.endWord lexerFinalizeWord at h
  split_ifs at h
  · cases hcurrent : lx.currentToken with
    | none => rw [hcurrent] at h; cases h
    | some tok =>
      rw [hcurrent] at h
      cases h
      rfl
  · cases h
    rfl

/-- Both lexers are at the start of a line, where the documents begin. -/
theorem Alike.startDocuments (h : Alike before [] lx lx') (hcol : lx'.colNo = lx.colNo) :
    AlikeIn before
      (lexerPushMode { lx with readingHeredoc := true, heredocIndex := 0 } .heredocBody)
      (lexerPushMode { lx' with readingHeredoc := true, heredocIndex := 0 } .heredocBody) :=
  ⟨[.heredocBody], by decide,
    { h with
      modeStack := congrArg (List.cons LexMode.heredocBody) h.modeStack
      modeStack' := congrArg (List.cons LexMode.heredocBody) h.modeStack'
      readingHeredoc := rfl
      document := fun _ => ⟨rfl, hcol⟩ }⟩

theorem Alike.newlineTurn (h : Alike before [] lx lx') (hpeek : lx.lexerPeek = newline) :
    Follows (Next.Both (Alike before []) (AlikeOrEnded before)) lx.newlineTurn lx'.newlineTurn := by
  have hadvance {t t' : Lexer} (ht : Alike before [] t t') (hat : t.lexerPeek = newline) :
      Follows (fun u u' => Alike before [] u u' ∧ u'.colNo = u.colNo) t.lexerAdvance
        t'.lexerAdvance := by
    unfold lexerAdvance
    refine .ite (ht.left 1) (fun hlt => .ok ⟨ht.advanced hlt, ?_⟩) fun _ => .contract _
    rw [Lexer.advanced, Lexer.advanced, ht.peek, if_pos hat, if_pos hat]
  have hemit {t t' : Lexer} (ht : Alike before [] t t') (hcol : t'.colNo = t.colNo) :
      Follows (fun u u' => Alike before [] u u' ∧ u'.colNo = u.colNo) (t.lexerEmitToken .newline)
        (t'.lexerEmitToken .newline) := by
    unfold lexerEmitToken
    rw [ht.currentToken]
    refine .ite Iff.rfl (fun _ => .contract _) fun _ => .ok ⟨?_, hcol⟩
    have happend : Alike before [] (t.append (t.tokenHere .newline))
        (t'.append (t'.tokenHere .newline)) := ht.append rfl (by simp [tokenHere])
    exact { happend with currentToken := ht.currentToken }
  have hend := h.endWord.and_left fun t ht => (endWord_peek ht).trans hpeek
  unfold Lexer.newlineTurn
  refine hend.bind fun t t' ht => (hadvance ht.1 ht.2).bind fun u u' hu =>
    (hemit hu.1 hu.2).bind fun v v' hv => ?_
  obtain ⟨hv, hcol⟩ := hv
  rw [hv.heredocQueue, hv.readingHeredoc]
  have hstatus : LexStatus.incomplete ≠ .internalError := by decide
  refine .ite Iff.rfl (fun _ => .pure (.alike ⟨rfl, hstatus, ?_⟩)) fun _ => .pure hv
  have hstart := hv.startDocuments hcol
  rwa [hv.heredocQueue] at hstart

theorem Alike.wordTurn (h : Alike before [] lx lx') (c : Char) :
    Follows (Next.Both (Alike before []) (AlikeAnswers before)) (lx.wordTurn c) (lx'.wordTurn c) :=
  h.ensureWord.bind fun _ _ ht => (ht.appendLiteralChar c).bind fun _ _ hu =>
    hu.advance.bind fun _ _ hv => .pure hv

theorem Alike.characterTurn (h : Alike before [] lx lx') :
    Follows (Next.Both (Alike before []) (AlikeAnswers before)) lx.characterTurn
      lx'.characterTurn := by
  have hstack : LexMode.normal ∉ ([] : List LexMode) := List.not_mem_nil
  unfold Lexer.characterTurn
  simp only [h.peek, h.peekAhead, h.expansionAt?, h.inWord]
  refine .ite Iff.rfl (fun _ => ?_) fun _ => ?_
  · refine .ite Iff.rfl (fun _ => .pure (h.answer hstack (by decide))) fun _ => ?_
    exact h.ensureWord.bind fun t t' ht => ht.advance.bind fun u u' hu =>
      (hu.onWord _).bind fun v v' hv => hv.advance.bind fun w w' hw => .pure hw
  refine .ite Iff.rfl (fun _ => h.enter hstack (by decide) (by decide) 1) fun _ => ?_
  refine .ite Iff.rfl (fun _ => h.enter hstack (by decide) (by decide) 1) fun _ => ?_
  refine .ite Iff.rfl (fun _ => h.enter hstack (by decide) (by decide) 1) fun _ => ?_
  refine .ite Iff.rfl (fun _ => ?_) fun _ => ?_
  · refine .ite Iff.rfl (fun _ => .pure (h.answer hstack (by decide))) fun _ => ?_
    split
    · next mode n hat =>
      obtain ⟨hnormal, hheredoc, -, -⟩ := expansionAt?_eq_some hat
      exact h.enter hstack hnormal hheredoc n
    · exact h.wordTurn _
  refine .ite Iff.rfl (fun _ => ?_) fun _ => ?_
  · refine .ite Iff.rfl (fun _ => .pure (h.advancedWhile _)) fun _ => ?_
    exact h.startWord.bind fun t t' ht => ht.wordTurn _
  refine .ite Iff.rfl (fun _ => ?_) fun _ => .pure ((h.setError _).answer hstack (by decide))
  exact h.ensureWord.bind fun t t' ht => (ht.onWord _).bind fun u u' hu => hu.wordTurn _

theorem Alike.operatorTurn (h : Alike before [] lx lx') :
    Follows (Next.Both (Alike before []) (AlikeAnswers before)) lx.operatorTurn
      lx'.operatorTurn := by
  have hstack : LexMode.normal ∉ ([] : List LexMode) := List.not_mem_nil
  unfold Lexer.operatorTurn
  refine h.tryProcessHeredoc.bind fun r r' hr => ?_
  cases hr with
  | success ht => exact .pure ht
  | error ht => exact .pure (ht.answer hstack (by decide))
  | @notHeredoc t t' ht =>
    simp only [ht.matchOperator?]
    cases hmatch : t.matchOperator? with
    | none => exact ht.characterTurn
    | some found =>
      obtain ⟨text, type⟩ := found
      exact ht.endWord.bind fun u u' hu => (hu.advanceNChars _).bind fun v v' hv =>
        (hv.emitToken (matchOperator?_type hmatch)).bind fun w w' hw =>
          .pure (hw.answer hstack (by decide))

theorem Alike.ioNumber? (h : Alike before stack lx lx') : lx'.ioNumber? = lx.ioNumber? := by
  unfold Lexer.ioNumber?
  simp only [h.previousTokenAllowsIoNumber, h.integerBeforeRedirection?]

theorem Alike.redirectionTurn (h : Alike before [] lx lx') :
    Follows (Next.Both (Alike before []) (AlikeAnswers before)) lx.redirectionTurn
      lx'.redirectionTurn := by
  unfold Lexer.redirectionTurn
  simp only [h.ioNumber?, h.bracedIoLocation?]
  cases lx.ioNumber? with
  | some found =>
    exact (h.emitIoNumber _).bind fun t t' ht => (ht.advanceNChars _).bind fun u u' hu => .pure hu
  | none =>
    cases lx.bracedIoLocation? with
    | some text =>
      exact ((h.emitIoLocation text).advanceNChars _).bind fun t t' ht => .pure ht
    | none => exact h.operatorTurn

theorem Alike.normalTurn (h : Alike before [] lx lx') :
    Follows (Next.Both (Alike before []) (AlikeOrEnded before)) (normalTurn lx)
      (normalTurn lx') := by
  unfold Lexer.normalTurn
  simp only [h.atEnd, h.peek, h.peekAhead]
  refine .ite Iff.rfl (fun hend => ?_) fun _ => ?_
  · refine h.endOfInput (List.drop_of_length_le ?_)
    simpa [lexerAtEnd] using hend
  refine .ite Iff.rfl (fun _ => ?_) fun _ => ?_
  · refine h.advance.bind fun t t' ht => ht.advance.bind fun u u' hu => ?_
    rw [hu.atEnd]
    exact .ite Iff.rfl (fun _ => .pure (hu.answerNormal (by decide))) fun _ => .pure hu
  refine .ite Iff.rfl (fun _ => ?_) fun _ => ?_
  · exact h.endWord.bind fun t t' ht => .pure (ht.advancedWhile _)
  refine .ite Iff.rfl (fun hnewline => h.newlineTurn hnewline) fun _ => ?_
  exact h.redirectionTurn.mono fun _ _ => Next.Both.orEnded

theorem Alike.processNormal (h : Alike before [] lx lx') :
    Follows (AlikeOrEnded before) lx.lexerProcessOneNormalToken lx'.lexerProcessOneNormalToken :=
  .iterate (fun _ _ hs => hs.normalTurn) h.turns h

/-! ### The loops -/

theorem AlikeIn.processMode (h : AlikeIn before lx lx') :
    Follows (AlikeOrEnded before) lx.lexerProcessMode lx'.lexerProcessMode := by
  obtain ⟨stack, hstack, h⟩ := h
  unfold lexerProcessMode
  rw [h.currentMode]
  have hmode : lx.lexerCurrentMode = stack.headD .normal := by
    rw [lexerCurrentMode, h.modeStack]
  cases stack with
  | nil =>
    rw [hmode]
    exact h.processNormal
  | cons mode stack =>
    rw [hmode, List.headD_cons]
    have halike {r r' : Except Fault Answer} (hr : Follows (AlikeAnswers before) r r') :
        Follows (AlikeOrEnded before) r r' := hr.mono fun _ _ => .alike
    cases mode with
    | normal => exact (hstack (List.mem_cons_self ..)).elim
    | singleQuote => exact halike (h.processSquote hstack)
    | doubleQuote => exact halike (h.processDquote hstack)
    | paramExpBraced => exact halike (h.processBraced hstack)
    | paramExpUnbraced => exact halike (h.processUnbraced hstack)
    | cmdSubstParen => exact halike (h.processParen hstack)
    | cmdSubstBacktick => exact halike (h.processBacktick hstack)
    | arithExp => exact halike (h.processArith hstack)
    | heredocBody => exact halike (h.processHeredocBody hstack (List.mem_cons_self ..))

theorem AlikeIn.inWord (h : AlikeIn before lx lx') : lx'.inWord = lx.inWord :=
  h.elim fun _ h => h.2.inWord

theorem AlikeIn.currentMode (h : AlikeIn before lx lx') :
    lx'.lexerCurrentMode = lx.lexerCurrentMode := h.elim fun _ h => h.2.currentMode

theorem AlikeIn.atEnd (h : AlikeIn before lx lx') : lx'.lexerAtEnd = lx.lexerAtEnd :=
  h.elim fun _ h => h.2.atEnd

theorem AlikeIn.length_tokens (h : AlikeIn before lx lx') : lx'.tokens.length = lx.tokens.length :=
  h.elim fun _ h => h.2.length_tokens

theorem AlikeIn.oneTokenTurn (h : AlikeIn before lx lx') (count : ℕ) :
    Follows (Next.Both (AlikeIn before) (AlikeOrEnded before)) (oneTokenTurn count lx)
      (oneTokenTurn count lx') := by
  unfold Lexer.oneTokenTurn
  refine h.processMode.bind fun answer answer' hanswer => ?_
  cases hanswer with
  | @ended t t' ht =>
    -- The list has grown by the mark, and if it had not, the lexer would still be between words.
    have hnot {u : Lexer} (hmode : u.modeStack = []) (hword : u.inWord = false) :
        ¬ (u.marked.lexerCurrentMode ≠ .normal ∨ u.marked.inWord = true) := by
      rw [show u.marked.lexerCurrentMode = u.modeStack.headD .normal from rfl,
        show u.marked.inWord = u.inWord from rfl, hmode, hword]
      decide
    have hlength : t'.marked.tokens.length = t.marked.tokens.length := by
      simp only [marked, Lexer.append, List.length_append, ht.alike.length_tokens,
        List.length_singleton]
    dsimp only
    rw [hlength]
    refine .ite Iff.rfl (fun _ => .pure (.ended ht)) fun _ => ?_
    rw [if_neg (hnot ht.alike.modeStack ht.inWord),
      if_neg (hnot ht.alike.modeStack' (ht.alike.inWord.trans ht.inWord))]
    exact .pure (.ended ht)
  | alike hanswer =>
    obtain ⟨status, t⟩ := answer
    obtain ⟨status', t'⟩ := answer'
    obtain ⟨rfl, hstatus, ht⟩ := hanswer
    have hdone (status : LexStatus) (hstatus : status ≠ .internalError) :
        AlikeOrEnded before (status, t) (status, t') := .alike ⟨rfl, hstatus, ht⟩
    cases status' with
    | ok =>
      dsimp only
      rw [ht.length_tokens, ht.currentMode, ht.inWord]
      exact .ite Iff.rfl (fun _ => .pure (hdone _ (by decide))) fun _ =>
        .ite Iff.rfl (fun _ => .pure ht) fun _ => .pure (hdone _ (by decide))
    | incomplete =>
      dsimp only
      rw [ht.length_tokens, ht.atEnd]
      exact .ite Iff.rfl (fun _ => .pure (hdone _ (by decide))) fun _ =>
        .ite Iff.rfl (fun _ => .pure (hdone _ (by decide))) fun _ => .pure ht
    | needHeredoc => exact .pure ht
    | error => exact .pure (hdone .error (by decide))
    | internalError => exact (hstatus rfl).elim

/-- Two states of the loops of `lexer_tokenize`. -/
structure AlikeTokenizing (before : List Char) (s s' : Tokenizing) : Prop where
  lx : AlikeIn before s.lx s'.lx
  initialTokenCount : s'.initialTokenCount = s.initialTokenCount
  outTokens : s'.outTokens.map Token.unplaced = s.outTokens.map Token.unplaced

/-- Two results of `lexer_tokenize`. Behind the end of the input nothing is left to hand over. -/
structure AlikeTokenized (before : List Char) (r r' : Tokenized) : Prop where
  status : r'.1 = r.1
  noInternalError : r.1 ≠ .internalError
  lx : AlikeIn before r.2.1 r'.2.1
  outTokens : r'.2.2.map Token.unplaced = r.2.2.map Token.unplaced
  ended : r.1 = .ok → AlikeAtEnd before r.2.1 r'.2.1 ∧ r.2.1.tokens = []

/-- The tokens in front of the mark are all handed over. -/
theorem handOver_marked {lx : Lexer} (hno : NoEof lx) (count : ℕ)
    (out : List Token) :
    handOver ⟨lx.marked, count, out⟩ = .done (.ok, { lx.marked with tokens := [] }, out ++ lx.tokens) := by
  have htokens : lx.marked.tokens = lx.tokens ++ [lx.tokenHere .eof] := rfl
  have htake : lx.marked.tokens.takeWhile (fun tok => tok.type ≠ .eof) = lx.tokens := by
    rw [htokens, List.takeWhile_append_of_pos (by simpa [NoEof] using hno)]
    simp [tokenHere]
  have hlength : lx.marked.tokens.length = lx.tokens.length + 1 := by
    rw [htokens, List.length_append, List.length_singleton]
  have hdrop : lx.marked.tokens.drop (lx.tokens.length + 1) = [] :=
    List.drop_of_length_le hlength.le
  unfold handOver
  rw [htake, if_pos (hlength ▸ Nat.lt_succ_self _), hdrop]

theorem Alike.clearTokens (h : Alike before stack lx lx') :
    Alike before stack { lx with tokens := [] } { lx' with tokens := [] } :=
  { h with tokens := rfl, noEof := fun _ hmem => (List.not_mem_nil hmem).elim }

theorem Alike.noEof' (h : Alike before stack lx lx') : NoEof lx' := by
  intro tok hmem
  obtain ⟨tok', hmem', heq⟩ : ∃ tok' ∈ lx.tokens, tok'.unplaced = tok.unplaced :=
    List.mem_map.mp (h.tokens ▸ List.mem_map_of_mem hmem)
  rw [← Token.unplaced_type, ← heq]
  exact h.noEof tok' hmem'

theorem AlikeOrEnded.handOver {t t' : Lexer} (h : AlikeOrEnded before (.ok, t) (.ok, t'))
    {count : ℕ} {out out' : List Token}
    (hout : out'.map Token.unplaced = out.map Token.unplaced) :
    Next.Both (AlikeTokenizing before) (AlikeTokenized before) (handOver ⟨t, count, out⟩)
      (handOver ⟨t', count, out'⟩) := by
  cases h with
  | alike h =>
    obtain ⟨-, -, stack, hstack, h⟩ := h
    rw [handOver_of_noEof h.noEof, handOver_of_noEof h.noEof']
    refine ⟨⟨stack, hstack, h.clearTokens⟩, rfl, ?_⟩
    rw [List.map_append, List.map_append, hout, h.tokens]
  | @ended u u' h =>
    rw [handOver_marked h.alike.noEof, handOver_marked h.alike.noEof']
    have hclear : Alike before [] { u.marked with tokens := [] } { u'.marked with tokens := [] } :=
      { h.alike with tokens := rfl, noEof := fun _ hmem => (List.not_mem_nil hmem).elim }
    refine ⟨rfl, nofun, ⟨[], List.not_mem_nil, hclear⟩, ?_, fun _ => ?_⟩
    · rw [List.map_append, List.map_append, hout, h.alike.tokens]
    · exact ⟨⟨hclear, h.rest, h.currentToken, h.inWord⟩, rfl⟩

theorem AlikeTokenizing.turn {s s' : Tokenizing} (h : AlikeTokenizing before s s') :
    Follows (Next.Both (AlikeTokenizing before) (AlikeTokenized before)) (tokenizeTurn s)
      (tokenizeTurn s') := by
  unfold tokenizeTurn
  rw [h.initialTokenCount]
  refine (h.lx.oneTokenTurn _).bind fun next next' hnext => ?_
  cases next with
  | again t =>
    cases next' with
    | again t' => exact .pure ⟨hnext, rfl, h.outTokens⟩
    | done answer' => exact hnext.elim
  | done answer =>
    cases next' with
    | again t' => exact hnext.elim
    | done answer' =>
      obtain ⟨status, t⟩ := answer
      obtain ⟨status', t'⟩ := answer'
      have hanswer : AlikeOrEnded before (status, t) (status', t') := hnext
      have hstopped (hne : status ≠ .ok) :
          status' = status ∧ AlikeTokenized before (status, t, s.outTokens)
            (status', t', s'.outTokens) := by
        cases hanswer with
        | ended ht => exact (hne rfl).elim
        | alike ht => exact ⟨ht.1, ht.1, ht.2.1, ht.2.2, h.outTokens, fun hok => (hne hok).elim⟩
      cases status with
      | ok =>
        obtain rfl : status' = .ok := by
          cases hanswer with
          | ended ht => rfl
          | alike ht => exact ht.1
        exact .pure (hanswer.handOver h.outTokens)
      | error => obtain ⟨rfl, hr⟩ := hstopped (by decide); exact .pure hr
      | incomplete => obtain ⟨rfl, hr⟩ := hstopped (by decide); exact .pure hr
      | needHeredoc => obtain ⟨rfl, hr⟩ := hstopped (by decide); exact .pure hr
      | internalError => obtain ⟨rfl, hr⟩ := hstopped (by decide); exact .pure hr

/-- The lexers that are alike tokenize the text ahead of them alike. -/
theorem AlikeIn.tokenize (h : AlikeIn before lx lx') {n m : ℕ} (hnm : n ≤ m) :
    Follows (AlikeTokenized before) (lexerTokenize n lx) (lexerTokenize m lx') :=
  .iterate (S := AlikeTokenizing before) (fun _ _ hs => hs.turn) hnm ⟨h, h.length_tokens, rfl⟩

theorem AlikeIn.appendInput (h : AlikeIn before lx lx') (text : List Char) :
    AlikeIn before (lx.lexerAppendInput text) (lx'.lexerAppendInput text) := by
  obtain ⟨stack, hstack, h⟩ := h
  refine ⟨stack, hstack, { h with input := ?_, inside := ?_ }⟩
  · rw [lexerAppendInput, lexerAppendInput, h.input, List.append_assoc]
  · rw [lexerAppendInput, List.length_append]
    exact h.inside.trans (Nat.le_add_right _ _)

end Modes

end Lexer

end Migash
