import Migash.Library.Gives
import Migash.Lexer.Total

/-! # What the modes inside a word leave alone

A property of the lexer that survives its moves, the changes of its mode stack
and the changes of the word under construction survives every call of a mode
between the normal mode and the here-documents. The modes of the expansions do
no more than move until they add their part to the word.
-/

namespace Migash.Lexer

open Library

/-- The ways the modes inside a word change it. -/
inductive WordChange : (Token → Token) → Prop where
  | single (c : Char) : WordChange fun tok => tok.appendChar true false c
  | double (c : Char) : WordChange fun tok => tok.appendChar false true c
  | quoted : WordChange fun tok => { tok with wasQuoted := true }
  | part (part : Part) (h : part.type ≠ .literal) : WordChange fun tok => tok.addPart part

/-- The property survives what the modes inside a word do. -/
structure Stable (I : Lexer → Prop) : Prop where
  advanced : ∀ {lx}, I lx → I lx.advanced
  push : ∀ {lx mode}, mode ≠ .normal → mode ≠ .heredocBody → I lx → I (lx.lexerPushMode mode)
  pop : ∀ {lx}, I lx → I lx.lexerPopMode
  setError : ∀ {lx text}, I lx → I (lx.lexerSetError text)
  word : ∀ {lx tok f}, I lx → lx.currentToken = some tok → WordChange f →
    I { lx with currentToken := some (f tok) }

/-- The property `I` survives the moves of the modes of the expansions, the part they add to the
word leads to `J`, and from there the end of the mode to `K`. -/
structure Expands (I J K : Lexer → Prop) : Prop where
  advanced : ∀ {lx}, I lx → I lx.advanced
  setError : ∀ {lx text}, I lx → I (lx.lexerSetError text)
  part : ∀ {lx tok part}, I lx → lx.currentToken = some tok → part.type ≠ .literal →
    J { lx with currentToken := some (tok.addPart part) }
  advancedPart : ∀ {lx}, J lx → J lx.advanced
  pop : ∀ {lx}, J lx → K lx.lexerPopMode

theorem Stable.expands {I : Lexer → Prop} (h : Stable I) : Expands I I I where
  advanced := h.advanced
  setError := h.setError
  part hlx htok htype := h.word hlx htok (.part _ htype)
  advancedPart := h.advanced
  pop := h.pop

/-- The call of a loop's turns, one after another, from a state of the invariant. -/
theorem gives_iterate {σ α : Type} {turn : σ → Except Fault (Next σ α)} {J : σ → Prop}
    {Q : α → Prop} (hturn : ∀ s, J s → Gives (Next.Either J Q) (turn s)) {s : σ} (hs : J s)
    (n : ℕ) : Gives Q (iterate turn n s) :=
  ⟨fun _ h => iterate_rule (fun s _ hs ht => (hturn s hs).answer _ ht)
    (fun s _ hs ha => (hturn s hs).answer _ ha) hs h⟩

/-- A backslash and a newline are read next. -/
def AtContinuation (lx : Lexer) : Prop :=
  lx.lexerPeek = backslash ∧ lx.lexerPeekAhead 1 = newline

namespace Stable

variable {I : Lexer → Prop} {lx : Lexer}

/-- The answer of a call, with the property. -/
abbrev Answers (I : Lexer → Prop) (answer : Answer) : Prop := I answer.2

/-! ## Operations -/

theorem advancedBy (h : Stable I) (n : ℕ) (hlx : I lx) : I (lx.advancedBy n) := by
  induction n generalizing lx with
  | zero => exact hlx
  | succ n ih => exact ih (h.advanced hlx)

theorem lexerAdvance (h : Stable I) (hlx : I lx) : Gives I lx.lexerAdvance := by
  unfold Lexer.lexerAdvance
  split
  · exact .ok (h.advanced hlx)
  · exact .error

theorem lexerAdvanceNChars (h : Stable I) (n : ℕ) (hlx : I lx) :
    Gives I (lx.lexerAdvanceNChars n) := by
  unfold Lexer.lexerAdvanceNChars
  split
  · exact .ok (h.advancedBy n hlx)
  · exact .error

theorem onWord (h : Stable I) {f : Token → Token} (hf : WordChange f) (hlx : I lx) :
    Gives I (lx.onWord f) := by
  unfold Lexer.onWord
  split
  · next tok htok => exact .ok (h.word hlx htok hf)
  · exact .error

theorem enter (h : Stable I) {mode : LexMode} (hnormal : mode ≠ .normal)
    (hheredoc : mode ≠ .heredocBody) (n : ℕ) (hlx : I lx) :
    Gives (Next.Either I (Answers I)) (lx.enter mode n) :=
  (h.lexerAdvanceNChars n (h.push hnormal hheredoc hlx)).bind fun _ hlx => .pure hlx

/-! ## Quotes -/

theorem startQuoted (h : Stable I) (hstart : Gives I lx.ensureWord) : Gives I lx.startQuoted :=
  hstart.bind fun _ hlx => h.onWord .quoted hlx

theorem squoteTurn (h : Stable I) (hlx : I lx) :
    Gives (Next.Either I (Answers I)) lx.squoteTurn := by
  unfold Lexer.squoteTurn
  split
  · exact .pure hlx
  dsimp only
  split
  · exact (h.lexerAdvance hlx).bind fun _ hlx => .pure (h.pop hlx)
  · exact (h.onWord (.single _) hlx).bind fun _ hlx =>
      (h.lexerAdvance hlx).bind fun _ hlx => .pure hlx

theorem lexerProcessSquote (h : Stable I) (hstart : Gives I lx.startQuoted) :
    Gives (Answers I) lx.lexerProcessSquote :=
  hstart.bind fun _ hlx => gives_iterate (fun _ hlx => h.squoteTurn hlx) hlx _

theorem dquoteTurn (h : Stable I) (hlx : I lx) :
    Gives (Next.Either I (Answers I)) lx.dquoteTurn := by
  have hplain : ∀ c, Gives (Next.Either I (Answers I)) (do
      let lx ← lx.lexerAppendDquoteCharToWord c
      return .again (← lx.lexerAdvance)) := fun c =>
    (h.onWord (.double c) hlx).bind fun _ hlx => (h.lexerAdvance hlx).bind fun _ hlx => .pure hlx
  unfold Lexer.dquoteTurn
  split
  · exact .pure hlx
  dsimp only
  split
  · exact (h.lexerAdvance hlx).bind fun _ hlx => .pure (h.pop hlx)
  split
  · split
    · exact .pure hlx
    refine (h.lexerAdvance hlx).bind fun lx hlx => ?_
    split
    · split
      · refine (h.lexerAdvance hlx).bind fun lx hlx => ?_
        split
        · exact .pure hlx
        · exact .pure hlx
      · exact (h.onWord (.double _) hlx).bind fun _ hlx =>
          (h.lexerAdvance hlx).bind fun _ hlx => .pure hlx
    · exact (h.onWord (.double _) hlx).bind fun _ hlx => (h.onWord (.double _) hlx).bind
        fun _ hlx => (h.lexerAdvance hlx).bind fun _ hlx => .pure hlx
  split
  · exact h.enter (by decide) (by decide) _ hlx
  split
  · split
    · exact .pure hlx
    split
    · next hat =>
      obtain ⟨hnormal, hheredoc, -⟩ := expansionAt?_eq_some hat
      exact h.enter hnormal hheredoc _ hlx
    · exact hplain _
  · exact hplain _

theorem lexerProcessDquote (h : Stable I) (hstart : Gives I lx.startQuoted) :
    Gives (Answers I) lx.lexerProcessDquote :=
  hstart.bind fun _ hlx => gives_iterate (fun _ hlx => h.dquoteTurn hlx) hlx _

end Stable

namespace Expands

variable {I J K : Lexer → Prop} {lx : Lexer}

/-- The answer of a call: the mode is not over, or it has ended with its part. -/
def Answers (I K : Lexer → Prop) (answer : Answer) : Prop := I answer.2 ∨ K answer.2

theorem Answers.same {answer : Answer} (h : Answers I I answer) : I answer.2 := h.elim id id

/-! ## Operations -/

theorem advancedBy (h : Expands I J K) (n : ℕ) (hlx : I lx) : I (lx.advancedBy n) := by
  induction n generalizing lx with
  | zero => exact hlx
  | succ n ih => exact ih (h.advanced hlx)

theorem lexerAdvance (h : Expands I J K) (hlx : I lx) : Gives I lx.lexerAdvance := by
  unfold Lexer.lexerAdvance
  split
  · exact .ok (h.advanced hlx)
  · exact .error

theorem lexerAdvanceNChars (h : Expands I J K) (n : ℕ) (hlx : I lx) :
    Gives I (lx.lexerAdvanceNChars n) := by
  unfold Lexer.lexerAdvanceNChars
  split
  · exact .ok (h.advancedBy n hlx)
  · exact .error

theorem advancePart (h : Expands I J K) (hlx : J lx) : Gives J lx.lexerAdvance := by
  unfold Lexer.lexerAdvance
  split
  · exact .ok (h.advancedPart hlx)
  · exact .error

theorem addPart (h : Expands I J K) {part : Part} (htype : part.type ≠ .literal) (hlx : I lx) :
    Gives J (lx.onWord fun tok => tok.addPart part) := by
  unfold Lexer.onWord
  split
  · next tok htok => exact .ok (h.part hlx htok htype)
  · exact .error

theorem closeExpansion (h : Expands I J K) (type : PartType) (htype : type ≠ .literal)
    (text : List Char) (hlx : I lx) : Gives K (lx.closeExpansion type text) :=
  (h.addPart (by rw [quotedIn_type]; exact htype) hlx).bind fun _ hlx => .pure (h.pop hlx)

theorem lexerAddParamPart (h : Expands I J K) (name : List Char) (kind : ParamSubtype)
    (hasColon : Bool) (word : Option (List Char)) (hlx : I lx) :
    Gives J (lx.lexerAddParamPart name kind hasColon word) :=
  h.addPart (by rw [quotedIn_type]; nofun) hlx

/-! ## Command substitutions -/

theorem parenTurn (h : Expands I J K) {s : ParenScan}
    (hcount : AtContinuation s.lx → ∀ {lx}, I lx → I lx.countLine) (hs : I s.lx) :
    Gives (Next.Either (fun t => I t.lx) (Answers I K)) (Lexer.parenTurn s) := by
  unfold Lexer.parenTurn
  dsimp only
  split
  · exact .pure (.inl hs)
  split
  · exact (h.lexerAdvance hs).bind fun _ hlx =>
      (h.closeExpansion .commandSubst nofun _ hlx).bind fun _ hlx => .pure (.inr hlx)
  split
  · next hback =>
    split
    · exact .pure (.inl hs)
    refine (h.lexerAdvance hs).bind fun _ hlx => (h.lexerAdvance hlx).bind fun lx hlx => ?_
    split
    · next hline =>
      have hlx' := hcount ⟨hback, hline⟩ hlx
      split
      · exact .pure (.inl hlx')
      · exact .pure hlx'
    · exact .pure hlx
  · exact (h.lexerAdvance hs).bind fun _ hlx => .pure hlx

theorem lexerProcessCmdSubstParen (h : Expands I J K) (hstart : Gives I lx.ensureWord)
    (hcount : ∀ u s, lx.ensureWord = .ok u →
      Visits Lexer.parenTurn { lx := u, startPos := u.pos } s → AtContinuation s.lx →
      ∀ {lx}, I lx → I lx.countLine) :
    Gives (Answers I K) lx.lexerProcessCmdSubstParen := by
  refine .bind_of fun u hu => ?_
  have hturns : ∀ s : ParenScan, I s.lx ∧ Visits Lexer.parenTurn { lx := u, startPos := u.pos } s →
      Gives (Next.Either (fun t => I t.lx ∧ Visits Lexer.parenTurn { lx := u, startPos := u.pos } t)
        (Answers I K)) (Lexer.parenTurn s) := by
    refine fun s hs => ⟨fun x hx => ?_⟩
    have hkeeps := (h.parenTurn (hcount u s hu hs.2) hs.1).answer x hx
    cases x with
    | again t => exact ⟨hkeeps, .next hs.2 hx⟩
    | done a => exact hkeeps
  exact gives_iterate hturns ⟨hstart.answer u hu, .start⟩ u.turns

theorem backtickTurn (h : Expands I J K) {s : TextScan}
    (hcount : AtContinuation s.lx → ∀ {lx}, I lx → I lx.countLine) (hs : I s.lx) :
    Gives (Next.Either (fun t => I t.lx) (Answers I K)) (Lexer.backtickTurn s) := by
  unfold Lexer.backtickTurn
  dsimp only
  split
  · exact .pure (.inl hs)
  split
  · exact (h.lexerAdvance hs).bind fun _ hlx =>
      (h.closeExpansion .commandSubst nofun _ hlx).bind fun _ hlx => .pure (.inr hlx)
  split
  · next hback =>
    split
    · exact .pure (.inl hs)
    refine (h.lexerAdvance hs).bind fun _ hlx => (h.lexerAdvance hlx).bind fun lx hlx => ?_
    split
    · next hline =>
      have hlx' := hcount ⟨hback, hline⟩ hlx
      split
      · exact .pure (.inl hlx')
      · exact .pure hlx'
    · split
      · exact .pure hlx
      · exact .pure hlx
  · exact (h.lexerAdvance hs).bind fun _ hlx => .pure hlx

theorem lexerProcessCmdSubstBacktick (h : Expands I J K) (hstart : Gives I lx.ensureWord)
    (hcount : ∀ u s, lx.ensureWord = .ok u → Visits Lexer.backtickTurn { lx := u } s →
      AtContinuation s.lx → ∀ {lx}, I lx → I lx.countLine) :
    Gives (Answers I K) lx.lexerProcessCmdSubstBacktick := by
  refine .bind_of fun u hu => ?_
  have hturns : ∀ s : TextScan, I s.lx ∧ Visits Lexer.backtickTurn { lx := u } s →
      Gives (Next.Either (fun t => I t.lx ∧ Visits Lexer.backtickTurn { lx := u } t)
        (Answers I K)) (Lexer.backtickTurn s) := by
    refine fun s hs => ⟨fun x hx => ?_⟩
    have hkeeps := (h.backtickTurn (hcount u s hu hs.2) hs.1).answer x hx
    cases x with
    | again t => exact ⟨hkeeps, .next hs.2 hx⟩
    | done a => exact hkeeps
  exact gives_iterate hturns ⟨hstart.answer u hu, .start⟩ u.turns

/-! ## Arithmetic expansions -/

theorem arithTurn (h : Expands I J K) {s : ArithScan} (hs : I s.lx) :
    Gives (Next.Either (fun t => I t.lx) (Answers I K)) (Lexer.arithTurn s) := by
  unfold Lexer.arithTurn
  dsimp only
  split
  · exact .pure (.inl hs)
  split
  · split
    · exact (h.lexerAdvance hs).bind fun _ hlx => (h.lexerAdvance hlx).bind fun _ hlx =>
        (h.closeExpansion .arithmetic nofun _ hlx).bind fun _ hlx => .pure (.inr hlx)
    split
    · exact .pure (.inl (h.setError hs))
    · exact .pure (.inl (h.setError hs))
  split
  · exact (h.lexerAdvance hs).bind fun _ hlx => .pure hlx
  split
  · split
    · exact .pure (.inl (h.setError hs))
    · split
      · exact .pure (.inl (h.setError hs))
      · exact (h.lexerAdvance hs).bind fun _ hlx => .pure hlx
  split
  · exact (h.lexerAdvance hs).bind fun _ hlx => (h.lexerAdvance hlx).bind fun _ hlx => .pure hlx
  split
  · exact (h.lexerAdvance hs).bind fun _ hlx => (h.lexerAdvance hlx).bind fun _ hlx => .pure hlx
  split
  · exact (h.lexerAdvance hs).bind fun _ hlx => (h.lexerAdvance hlx).bind fun _ hlx => .pure hlx
  · exact (h.lexerAdvance hs).bind fun _ hlx => .pure hlx

theorem lexerProcessArithExp (h : Expands I J K) (hstart : Gives I lx.ensureWord) :
    Gives (Answers I K) lx.lexerProcessArithExp := by
  have hturns : ∀ s : ArithScan, I s.lx →
      Gives (Next.Either (fun t => I t.lx) (Answers I K)) (Lexer.arithTurn s) :=
    fun _ hs => h.arithTurn hs
  exact hstart.bind fun u hu => gives_iterate hturns (s := { lx := u }) hu u.turns

/-! ## Parameter expansions -/

theorem lexerProcessParamExpUnbraced (h : Expands I J K) (hstart : Gives I lx.ensureWord) :
    Gives (Answers I K) lx.lexerProcessParamExpUnbraced := by
  refine hstart.bind fun lx hlx => ?_
  split
  · exact .pure (.inl hlx)
  extract_lets c name
  split
  · exact .pure (.inl (h.setError hlx))
  · exact (h.lexerAdvanceNChars _ hlx).bind fun _ hlx =>
      (h.lexerAddParamPart _ _ _ _ hlx).bind fun _ hlx => .pure (.inr (h.pop hlx))

theorem bracedOperator (h : Expands I J K) (hasColon : Bool) (name : List Char) (hlx : I lx) :
    Gives (Answers I K) (lx.bracedOperator hasColon name) := by
  unfold Lexer.bracedOperator
  split
  · exact .pure (.inl hlx)
  split
  · exact .pure (.inl (h.setError hlx))
  · refine (h.lexerAdvanceNChars _ hlx).bind fun lx hlx => ?_
    split
    · exact .pure (.inl (h.advancedBy _ hlx))
    · exact (h.lexerAdvanceNChars _ hlx).bind fun _ hlx =>
        (h.lexerAddParamPart _ _ _ _ hlx).bind fun _ hlx => .pure (.inr (h.pop hlx))

theorem bracedTail (h : Expands I J K) (isLength : Bool) (name : List Char) (hlx : I lx) :
    Gives (Answers I K) (lx.bracedTail isLength name) := by
  unfold Lexer.bracedTail
  split
  · exact .pure (.inl hlx)
  split
  · split
    · exact .pure (.inl (h.setError hlx))
    · exact (h.lexerAddParamPart _ _ _ _ hlx).bind fun _ hlx =>
        (h.advancePart hlx).bind fun _ hlx => .pure (.inr (h.pop hlx))
  split
  · exact (h.lexerAdvance hlx).bind fun _ hlx =>
      (h.lexerAddParamPart _ _ _ _ hlx).bind fun _ hlx => .pure (.inr (h.pop hlx))
  split
  · exact (h.lexerAdvance hlx).bind fun _ hlx => h.bracedOperator _ _ hlx
  · exact h.bracedOperator _ _ hlx

theorem bracedName (h : Expands I J K) (isLength : Bool) (hlx : I lx) :
    Gives (Answers I K) (lx.bracedName isLength) := by
  unfold Lexer.bracedName
  split
  · exact .pure (.inl hlx)
  dsimp only
  split
  · exact (h.lexerAdvance hlx).bind fun _ hlx => h.bracedTail _ _ hlx
  split
  · exact (h.lexerAdvanceNChars _ hlx).bind fun _ hlx => h.bracedTail _ _ hlx
  split
  · exact .pure (.inl (h.setError hlx))
  · exact .pure (.inl (h.setError hlx))

theorem lexerProcessParamExpBraced (h : Expands I J K) (hstart : Gives I lx.ensureWord) :
    Gives (Answers I K) lx.lexerProcessParamExpBraced := by
  refine hstart.bind fun lx hlx => ?_
  split
  · exact .pure (.inl hlx)
  dsimp only
  split
  · exact (h.lexerAdvance hlx).bind fun _ hlx => h.bracedName _ hlx
  · exact h.bracedName _ hlx

end Expands

end Migash.Lexer
