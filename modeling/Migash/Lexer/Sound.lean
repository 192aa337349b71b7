import Migash.Lexer.Tokenize
import Mathlib.Tactic.SplitIfs

/-! # The invariant of the lexer

What ties the word under construction to the mode stack, and that every
operation that respects it advances.
-/

namespace Migash.Lexer

open Library

variable {lx lx' : Lexer}

/-! ## What the operations need and leave alone -/

section fields

@[simp] theorem advanced_input : lx.advanced.input = lx.input := by unfold advanced; split <;> rfl

@[simp] theorem advanced_pos : lx.advanced.pos = lx.pos + 1 := by unfold advanced; split <;> rfl

@[simp] theorem advanced_modeStack : lx.advanced.modeStack = lx.modeStack := by
  unfold advanced; split <;> rfl

@[simp] theorem advanced_currentToken : lx.advanced.currentToken = lx.currentToken := by
  unfold advanced; split <;> rfl

@[simp] theorem advanced_inWord : lx.advanced.inWord = lx.inWord := by
  unfold advanced; split <;> rfl

@[simp] theorem advanced_tokens : lx.advanced.tokens = lx.tokens := by
  unfold advanced; split <;> rfl

@[simp] theorem advanced_heredocQueue : lx.advanced.heredocQueue = lx.heredocQueue := by
  unfold advanced; split <;> rfl

@[simp] theorem advanced_heredocIndex : lx.advanced.heredocIndex = lx.heredocIndex := by
  unfold advanced; split <;> rfl

/-- The operations that only move through the input. -/
structure SameContext (lx lx' : Lexer) : Prop where
  input : lx'.input = lx.input
  modeStack : lx'.modeStack = lx.modeStack
  currentToken : lx'.currentToken = lx.currentToken
  inWord : lx'.inWord = lx.inWord
  tokens : lx'.tokens = lx.tokens
  heredocQueue : lx'.heredocQueue = lx.heredocQueue
  heredocIndex : lx'.heredocIndex = lx.heredocIndex

theorem SameContext.trans {a b c : Lexer} (hab : SameContext a b) (hbc : SameContext b c) :
    SameContext a c where
  input := hbc.input.trans hab.input
  modeStack := hbc.modeStack.trans hab.modeStack
  currentToken := hbc.currentToken.trans hab.currentToken
  inWord := hbc.inWord.trans hab.inWord
  tokens := hbc.tokens.trans hab.tokens
  heredocQueue := hbc.heredocQueue.trans hab.heredocQueue
  heredocIndex := hbc.heredocIndex.trans hab.heredocIndex

theorem sameContext_advancedBy (n : ℕ) (lx : Lexer) : SameContext lx (lx.advancedBy n) := by
  induction n generalizing lx with
  | zero => exact ⟨rfl, rfl, rfl, rfl, rfl, rfl, rfl⟩
  | succ n ih =>
    have h := ih lx.advanced
    exact ⟨by rw [advancedBy, h.input, advanced_input],
      by rw [advancedBy, h.modeStack, advanced_modeStack],
      by rw [advancedBy, h.currentToken, advanced_currentToken],
      by rw [advancedBy, h.inWord, advanced_inWord],
      by rw [advancedBy, h.tokens, advanced_tokens],
      by rw [advancedBy, h.heredocQueue, advanced_heredocQueue],
      by rw [advancedBy, h.heredocIndex, advanced_heredocIndex]⟩

variable (n : ℕ) (lx)

@[simp] theorem advancedBy_input : (lx.advancedBy n).input = lx.input :=
  (sameContext_advancedBy n lx).input

@[simp] theorem advancedBy_modeStack : (lx.advancedBy n).modeStack = lx.modeStack :=
  (sameContext_advancedBy n lx).modeStack

@[simp] theorem advancedBy_currentToken : (lx.advancedBy n).currentToken = lx.currentToken :=
  (sameContext_advancedBy n lx).currentToken

@[simp] theorem advancedBy_inWord : (lx.advancedBy n).inWord = lx.inWord :=
  (sameContext_advancedBy n lx).inWord

@[simp] theorem advancedBy_tokens : (lx.advancedBy n).tokens = lx.tokens :=
  (sameContext_advancedBy n lx).tokens

@[simp] theorem advancedBy_heredocQueue : (lx.advancedBy n).heredocQueue = lx.heredocQueue :=
  (sameContext_advancedBy n lx).heredocQueue

@[simp] theorem advancedBy_heredocIndex : (lx.advancedBy n).heredocIndex = lx.heredocIndex :=
  (sameContext_advancedBy n lx).heredocIndex

@[simp] theorem advancedBy_pos : (lx.advancedBy n).pos = lx.pos + n := by
  induction n generalizing lx with
  | zero => rfl
  | succ n ih =>
    rw [advancedBy, ih, advanced_pos]
    omega

end fields

@[simp] theorem countLine_input : lx.countLine.input = lx.input := rfl

@[simp] theorem countLine_tokens : lx.countLine.tokens = lx.tokens := rfl

@[simp] theorem countLine_pos : lx.countLine.pos = lx.pos := rfl

@[simp] theorem countLine_modeStack : lx.countLine.modeStack = lx.modeStack := rfl

@[simp] theorem countLine_currentToken : lx.countLine.currentToken = lx.currentToken := rfl

@[simp] theorem countLine_inWord : lx.countLine.inWord = lx.inWord := rfl

@[simp] theorem countLine_heredocQueue : lx.countLine.heredocQueue = lx.heredocQueue := rfl

@[simp] theorem countLine_heredocIndex : lx.countLine.heredocIndex = lx.heredocIndex := rfl

@[simp] theorem lexerPushMode_pos {mode : LexMode} : (lx.lexerPushMode mode).pos = lx.pos := rfl

@[simp] theorem lexerPushMode_input {mode : LexMode} :
    (lx.lexerPushMode mode).input = lx.input := rfl

theorem rest_length : lx.rest.length = lx.input.length - lx.pos := List.length_drop ..

theorem lexerAtEnd_iff : lx.lexerAtEnd = true ↔ lx.input.length ≤ lx.pos := by
  simp [lexerAtEnd]

@[simp] theorem holds_lexerAdvance {P : Lexer → Prop} :
    Holds P lx.lexerAdvance ↔ lx.pos < lx.input.length ∧ P lx.advanced := by
  unfold lexerAdvance
  split
  · next h => simp [h]
  · next h => simp [h]

@[simp] theorem holds_lexerAdvanceNChars {P : Lexer → Prop} {n : ℕ} :
    Holds P (lx.lexerAdvanceNChars n) ↔ lx.pos + n ≤ lx.input.length ∧ P (lx.advancedBy n) := by
  unfold lexerAdvanceNChars
  split
  · next h => simp [h]
  · next h => simp [h]

@[simp] theorem holds_onWord {P : Lexer → Prop} {f : Token → Token} :
    Holds P (lx.onWord f) ↔
      ∃ tok, lx.currentToken = some tok ∧ P { lx with currentToken := some (f tok) } := by
  unfold onWord
  cases lx.currentToken with
  | none => simp
  | some tok => simp

@[simp] theorem holds_lexerEmitToken {P : Lexer → Prop} {type : TokenType} :
    Holds P (lx.lexerEmitToken type) ↔ lx.currentToken = none ∧
      P { lx.append (lx.tokenHere type) with
        atCommandStart := [.semi, .newline, .andIf, .orIf, .pipe].contains type } := by
  unfold lexerEmitToken
  split
  · next h => simp [h]
  · next h => simp [not_not.mp h]

@[simp] theorem holds_enter {P : Next Lexer Answer → Prop} {mode : LexMode} {n : ℕ} :
    Holds P (lx.enter mode n) ↔ lx.pos + n ≤ lx.input.length ∧
      P (.done (.incomplete, (lx.lexerPushMode mode).advancedBy n)) := by
  unfold enter
  simp only [bind_pure_comp, holds_map, holds_lexerAdvanceNChars]
  exact Iff.rfl

/-! ## The invariant -/

/-- The invariant between the calls of the functions of the modes. -/
structure Sound (lx : Lexer) : Prop where
  /-- The position is in the input. -/
  inside : lx.pos ≤ lx.input.length
  /-- Outside here-documents a word is in progress exactly when there is a current token. -/
  word : lx.lexerCurrentMode ≠ .heredocBody → lx.inWord = lx.currentToken.isSome
  /-- In a here-document the current token is not a word, and a document is left to be read. -/
  document : lx.lexerCurrentMode = .heredocBody →
    lx.inWord = false ∧ lx.heredocIndex < lx.heredocQueue.length
  /-- The normal mode is the bottom of the stack. -/
  notNormal : LexMode.normal ∉ lx.modeStack
  /-- Only double quotes contain other modes. -/
  below : ∀ mode ∈ lx.modeStack.tail, mode = .doubleQuote
  /-- No delimiter is empty. -/
  delimiters : ∀ entry ∈ lx.heredocQueue, entry.delimiter ≠ []
  /-- The input is a text of the source. -/
  text : nul ∉ lx.input

theorem sound_create {input : List Char} (hinput : nul ∉ input) :
    Sound (lexerCreateWithInput input) where
  inside := Nat.zero_le _
  word := fun _ => rfl
  document := fun h => by cases h
  notNormal := fun h => by cases h
  below := fun _ h => by cases h
  delimiters := fun _ h => by cases h
  text := hinput

/-- A change of the word or of the position. -/
theorem Sound.congr (h : Sound lx) (hinput : lx'.input = lx.input)
    (hpos : lx'.pos ≤ lx.input.length) (hstack : lx'.modeStack = lx.modeStack)
    (hword : lx'.inWord = lx.inWord)
    (htoken : lx'.currentToken.isSome = lx.currentToken.isSome)
    (hqueue : lx'.heredocQueue = lx.heredocQueue)
    (hindex : lx'.heredocIndex = lx.heredocIndex) : Sound lx' := by
  have hmode : lx'.lexerCurrentMode = lx.lexerCurrentMode := by
    simp only [lexerCurrentMode, hstack]
  constructor
  · rw [hinput]
    exact hpos
  · intro hne
    rw [hword, htoken]
    exact h.word (hmode ▸ hne)
  · intro heq
    rw [hword, hindex, hqueue]
    exact h.document (hmode ▸ heq)
  · rw [hstack]
    exact h.notNormal
  · rw [hstack]
    exact h.below
  · rw [hqueue]
    exact h.delimiters
  · rw [hinput]
    exact h.text

theorem Sound.modeStack_eq_nil (h : Sound lx) (hmode : lx.lexerCurrentMode = .normal) :
    lx.modeStack = [] := by
  have hnormal := h.notNormal
  unfold lexerCurrentMode at hmode
  cases hstack : lx.modeStack with
  | nil => rfl
  | cons mode stack =>
    rw [hstack] at hmode hnormal
    exact absurd (List.mem_cons_self) (hmode ▸ hnormal)

theorem Sound.pop (h : Sound lx) (hmode : lx.lexerCurrentMode ≠ .heredocBody) :
    Sound lx.lexerPopMode := by
  have hbelow : ∀ mode ∈ lx.modeStack.tail, mode = .doubleQuote := h.below
  constructor
  · exact h.inside
  · intro _
    exact h.word hmode
  · intro heq
    exfalso
    unfold lexerCurrentMode lexerPopMode at heq
    cases hstack : lx.modeStack.tail with
    | nil => simp [hstack] at heq
    | cons mode stack =>
      have := hbelow mode (by rw [hstack]; exact List.mem_cons_self)
      simp [hstack, this] at heq
  · intro hmem
    exact h.notNormal (List.mem_of_mem_tail hmem)
  · intro mode hmem
    exact hbelow mode (List.mem_of_mem_tail hmem)
  · exact h.delimiters
  · exact h.text

theorem Sound.push (h : Sound lx) (hstack : ∀ mode ∈ lx.modeStack, mode = .doubleQuote)
    {mode : LexMode} (hnormal : mode ≠ .normal) (hheredoc : mode ≠ .heredocBody) :
    Sound (lx.lexerPushMode mode) := by
  have hmode : lx.lexerCurrentMode ≠ .heredocBody := by
    unfold lexerCurrentMode
    cases hst : lx.modeStack with
    | nil => simp
    | cons top stack => simp [hstack top (by rw [hst]; exact List.mem_cons_self)]
  constructor
  · exact h.inside
  · intro _
    exact h.word hmode
  · intro heq
    exact absurd heq hheredoc
  · intro hmem
    rcases List.mem_cons.mp hmem with heq | hmem
    · exact hnormal heq.symm
    · exact h.notNormal hmem
  · exact hstack
  · exact h.delimiters
  · exact h.text

/-! ## What a turn and a call do -/

/-- The token that marks the end of the input is not in the list. -/
def NoEof (lx : Lexer) : Prop := ∀ tok ∈ lx.tokens, tok.type ≠ .eof

/-- The loop goes on: in the same mode, and further on in the input. -/
structure Goes (lx lx' : Lexer) : Prop where
  sound : Sound lx'
  input : lx'.input = lx.input
  modeStack : lx'.modeStack = lx.modeStack
  pos : lx.pos < lx'.pos
  noEof : NoEof lx → NoEof lx'

/-- The answer of a call: it is further on in the input unless it reports an error or is at the
end, where it has nothing to report or emits the last token. -/
structure Answered (lx : Lexer) (answer : Answer) : Prop where
  sound : Sound answer.2
  status : answer.1 = .ok ∨ answer.1 = .error ∨ answer.1 = .incomplete
  input : answer.2.input = lx.input
  pos_le : lx.pos ≤ answer.2.pos
  progress : answer.1 = .error ∨ lx.pos < answer.2.pos ∨
    answer.2.lexerAtEnd = true ∧ (answer.1 = .incomplete ∧ answer.2.tokens = lx.tokens ∨
      answer.1 = .ok ∧ answer.2.lexerCurrentMode = .normal ∧ answer.2.inWord = false ∧
        ∃ tok ∈ answer.2.tokens, tok.type = .eof)

theorem Answered.after {answer : Answer} (h : Goes lx lx') (ha : Answered lx' answer) :
    Answered lx answer where
  sound := ha.sound
  status := ha.status
  input := ha.input.trans h.input
  pos_le := by have := h.pos; have := ha.pos_le; omega
  progress := .inr (.inl (by have := h.pos; have := ha.pos_le; omega))

theorem Goes.trans {a b c : Lexer} (hab : Goes a b) (hbc : Goes b c) : Goes a c where
  sound := hbc.sound
  input := hbc.input.trans hab.input
  modeStack := hbc.modeStack.trans hab.modeStack
  pos := hab.pos.trans hbc.pos
  noEof := hbc.noEof ∘ hab.noEof

/-- A loop over the input ends if its turns go on or answer, wherever they are safe. -/
theorem holds_loop {τ : Type} {turn : τ → Except Fault (Next τ Answer)} {l : τ → Lexer}
    {K S : τ → Prop}
    (hturn : ∀ s, Sound (l s) → K s → S s →
      Holds (Next.Either (fun t => Goes (l s) (l t) ∧ K t) (Answered (l s))) (turn s))
    {s : τ} (hs : Sound (l s)) (hK : K s) (hsafe : ∀ t, Visits turn s t → S t) {n : ℕ}
    (hn : (l s).input.length < n) : Holds (Answered (l s)) (iterate turn n s) := by
  refine iterate_holds (I := fun t => Sound (l t) ∧ K t ∧ Visits turn s t ∧
      (l t = l s ∨ Goes (l s) (l t)))
    (fun t => (l t).input.length - (l t).pos) ?_ ⟨hs, hK, .start, .inl rfl⟩ (by omega)
  rintro t ⟨hsound, hKt, hvisits, hreach⟩
  obtain ⟨x, hx, hnext⟩ := hturn t hsound hKt (hsafe t hvisits)
  refine ⟨x, hx, ?_⟩
  cases x with
  | done answer =>
    rcases hreach with heq | hgoes
    · rw [← heq]
      exact hnext
    · exact hnext.after hgoes
  | again u =>
    obtain ⟨hgoes, hKu⟩ := hnext
    refine ⟨⟨hgoes.sound, hKu, .next hvisits hx, .inr ?_⟩, ?_⟩
    · rcases hreach with heq | hgoes'
      · rw [← heq]
        exact hgoes
      · exact hgoes'.trans hgoes
    · have := hgoes.pos
      have := hgoes.sound.inside
      rw [hgoes.input]
      rw [hgoes.input] at this
      omega

/-! ## Words -/

/-- The word that is there in every mode inside a word. -/
theorem Sound.currentToken (h : Sound lx) (hword : lx.inWord = true) :
    ∃ tok, lx.currentToken = some tok := by
  by_cases hmode : lx.lexerCurrentMode = .heredocBody
  · have := (h.document hmode).1
    rw [hword] at this
    cases this
  · have := h.word hmode
    rw [hword] at this
    exact Option.isSome_iff_exists.mp this.symm

theorem Sound.mode_of_inWord (h : Sound lx) (hword : lx.inWord = true) :
    lx.lexerCurrentMode ≠ .heredocBody := by
  intro hmode
  have := (h.document hmode).1
  rw [hword] at this
  cases this

/-- Further on in the input, in the same modes and with the same documents and tokens. -/
structure Further (lx t : Lexer) : Prop where
  pos : lx.pos < t.pos
  pos_le : t.pos ≤ lx.input.length
  input : t.input = lx.input
  modeStack : t.modeStack = lx.modeStack
  inWord : t.inWord = lx.inWord
  heredocQueue : t.heredocQueue = lx.heredocQueue
  heredocIndex : t.heredocIndex = lx.heredocIndex
  tokens : t.tokens = lx.tokens

/-- Further on in the input, with a token or without as before. -/
theorem Sound.moves {t : Lexer} (h : Sound lx) (ht : Further lx t)
    (htoken : t.currentToken.isSome = lx.currentToken.isSome) : Goes lx t where
  sound := h.congr ht.input ht.pos_le ht.modeStack ht.inWord htoken ht.heredocQueue
    ht.heredocIndex
  input := ht.input
  modeStack := ht.modeStack
  pos := ht.pos
  noEof := fun h => by
    unfold NoEof
    rw [ht.tokens]
    exact h

/-- Further on in the input, with the same word or a changed one. -/
theorem Sound.goes {t : Lexer} (h : Sound lx) (hword : lx.inWord = true) (ht : Further lx t)
    (htoken : t.currentToken.isSome = true) : Goes lx t ∧ t.inWord = true := by
  obtain ⟨tok, htok⟩ := h.currentToken hword
  exact ⟨h.moves ht (by rw [htoken, htok]; rfl), ht.inWord.trans hword⟩

/-- The lexer has a word to build on and has not moved. -/
structure Started (lx lx' : Lexer) : Prop where
  sound : Sound lx'
  inWord : lx'.inWord = true
  input : lx'.input = lx.input
  pos : lx'.pos = lx.pos
  modeStack : lx'.modeStack = lx.modeStack
  tokens : lx'.tokens = lx.tokens

theorem Started.mode (h : Started lx lx') : lx'.lexerCurrentMode = lx.lexerCurrentMode := by
  simp only [lexerCurrentMode, h.modeStack]

theorem Sound.holds_ensureWord (h : Sound lx) (hmode : lx.lexerCurrentMode ≠ .heredocBody) :
    Holds (Started lx) lx.ensureWord := by
  unfold ensureWord
  cases hword : lx.inWord with
  | true => exact ⟨lx, rfl, h, hword, rfl, rfl, rfl, rfl⟩
  | false =>
    have htoken : lx.currentToken = none := by
      have hsome := h.word hmode
      rw [hword] at hsome
      cases htok : lx.currentToken with
      | none => rfl
      | some tok =>
        rw [htok] at hsome
        cases hsome
    have hsound : Sound { lx with
        currentToken := some { type := .word }, tokStartLine := lx.lineNo,
        tokStartCol := lx.colNo, inWord := true } :=
      { inside := h.inside
        word := fun _ => rfl
        document := fun heq => absurd heq hmode
        notNormal := h.notNormal
        below := h.below
        delimiters := h.delimiters
        text := h.text }
    unfold lexerStartWord
    rw [if_neg (by simp), if_neg (not_not.mpr htoken), if_neg (by simp [hword])]
    exact holds_ok.mpr ⟨hsound, rfl, rfl, rfl, rfl, rfl⟩

/-- The closing of the mode of a word. -/
theorem Goes.answered_pop {a b : Lexer} (h : Goes a b) (hword : b.inWord = true) :
    Answered a (.ok, b.lexerPopMode) where
  sound := h.sound.pop (h.sound.mode_of_inWord hword)
  status := .inl rfl
  input := h.input
  pos_le := Nat.le_of_lt h.pos
  progress := .inr (.inl h.pos)

theorem Goes.answered_incomplete {a b : Lexer} (h : Goes a b) : Answered a (.incomplete, b) where
  sound := h.sound
  status := .inr (.inr rfl)
  input := h.input
  pos_le := Nat.le_of_lt h.pos
  progress := .inr (.inl h.pos)

/-- The end of the input in a mode that is not closed. -/
theorem Sound.answered_end (h : Sound lx) (hend : lx.lexerAtEnd = true) :
    Answered lx (.incomplete, lx) where
  sound := h
  status := .inr (.inr rfl)
  input := rfl
  pos_le := le_refl _
  progress := .inr (.inr ⟨hend, .inl ⟨rfl, rfl⟩⟩)

theorem Sound.answered_error (h : Sound lx) (text : String) :
    Answered lx (.error, lx.lexerSetError text) where
  sound := h.congr rfl h.inside rfl rfl rfl rfl rfl
  status := .inr (.inl rfl)
  input := rfl
  pos_le := le_refl _
  progress := .inl rfl

/-- A mode is entered behind the characters that open it. -/
theorem Sound.answered_enter (h : Sound lx) (hstack : ∀ mode ∈ lx.modeStack, mode = .doubleQuote)
    {mode : LexMode} (hnormal : mode ≠ .normal) (hheredoc : mode ≠ .heredocBody) {n : ℕ}
    (hn : 0 < n) (hle : lx.pos + n ≤ lx.input.length) :
    Answered lx (.incomplete, (lx.lexerPushMode mode).advancedBy n) where
  sound := (h.push hstack hnormal hheredoc).congr (by simp) (by simpa using hle) (by simp) (by simp)
    (by simp) (by simp) (by simp)
  status := .inr (.inr rfl)
  input := by simp
  pos_le := by simp
  progress := by
    refine .inr (.inl ?_)
    simpa using hn

end Migash.Lexer
