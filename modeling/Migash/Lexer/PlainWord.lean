import Mathlib.Data.List.Induction
import Migash.Lexer.DoubleQuotes

/-! # Words of ordinary characters

A run of characters that stand for themselves goes into one literal part, and
makes up a word if nothing follows it.
-/

namespace Migash

namespace Token

/-- What `lexer_process_one_normal_token` does to the word with an ordinary character. -/
def addOrdinary (tok : Token) (c : Char) : Token :=
  { tok with hasEqualsBeforeQuote := tok.hasEqualsBeforeQuote || c = '=' && !tok.wasQuoted }.appendChar
    false false c

/-- The word of ordinary characters. -/
def ordinary (text : List Char) : Token where
  type := .word
  parts := [{ type := .literal, text := some (String.ofList text) }]
  hasEqualsBeforeQuote := text.contains '='

theorem addOrdinary_ordinary (text : List Char) (c : Char) :
    (ordinary text).addOrdinary c = ordinary (text ++ [c]) := by
  simp only [addOrdinary, ordinary, appendChar, List.getLast?_singleton, and_self, if_true,
    List.dropLast_singleton, List.nil_append, Option.map_some, Bool.not_false, Bool.and_true]
  rw [String.push_eq_append, String.singleton_eq_ofList, ← String.ofList_append]
  simp [List.contains_eq_mem, eq_comm]

theorem addOrdinary_fresh (c : Char) : addOrdinary { type := .word } c = ordinary [c] := by
  simp [addOrdinary, ordinary, appendChar, eq_comm]

theorem foldl_addOrdinary (first : Char) (text : List Char) :
    (first :: text).foldl addOrdinary { type := .word } = ordinary (first :: text) := by
  rw [List.foldl_cons, addOrdinary_fresh]
  induction text using List.reverseRecOn with
  | nil => rfl
  | append_singleton text c ih =>
    rw [List.foldl_append, ih, List.foldl_cons, List.foldl_nil, addOrdinary_ordinary]
    rfl

end Token

namespace Lexer

open Library

variable {lx : Lexer} {c : Char} {cs text more : List Char}

/-- A character that stands for itself wherever it is in a word. -/
def isOrdinaryChar (c : Char) : Bool :=
  isWordChar c && !([backslash, backtick, squote, dquote, '$', '#', lbrace].contains c)

theorem isOrdinaryChar_iff : isOrdinaryChar c = true ↔ isWordChar c = true ∧ c ≠ backslash ∧
    c ≠ backtick ∧ c ≠ squote ∧ c ≠ dquote ∧ c ≠ '$' ∧ c ≠ '#' ∧ c ≠ lbrace := by
  simp [isOrdinaryChar, List.contains_eq_mem]

theorem isWordChar_iff : isWordChar c = true ↔ c ≠ ' ' ∧ c ≠ tab ∧ c ≠ newline ∧
    lexerIsMetachar c = false ∧ c ≠ nul := by
  simp only [isWordChar, isDelimiterChar, lexerIsMetachar, List.contains_eq_mem, List.mem_cons,
    List.not_mem_nil, or_false, Bool.not_eq_true', Bool.or_eq_false_iff, decide_eq_false_iff_not,
    not_or]
  tauto

/-- The lexer with the characters in the word under construction. -/
structure HasRead (lx : Lexer) (text : List Char) (lx' : Lexer) : Prop where
  rest : lx.rest = text ++ lx'.rest
  input : lx'.input = lx.input
  modeStack : lx'.modeStack = lx.modeStack
  inWord : lx'.inWord = true
  tokens : lx'.tokens = lx.tokens
  currentToken : lx'.currentToken =
    some (text.foldl Token.addOrdinary (lx.currentToken.getD { type := .word }))

/-- Where a word is in progress exactly if there is a current token. -/
def WordInStep (lx : Lexer) : Prop := lx.inWord = lx.currentToken.isSome

theorem HasRead.wordInStep {lx' : Lexer} (h : HasRead lx text lx') : WordInStep lx' := by
  rw [WordInStep, h.inWord, h.currentToken]
  rfl

theorem ensureWord_ok (h : WordInStep lx) : ∃ lx', lx.ensureWord = .ok lx' ∧
    lx'.rest = lx.rest ∧ lx'.input = lx.input ∧ lx'.modeStack = lx.modeStack ∧ lx'.inWord = true ∧
      lx'.tokens = lx.tokens ∧
      lx'.currentToken = some (lx.currentToken.getD { type := .word }) := by
  unfold ensureWord
  cases htok : lx.currentToken with
  | none =>
    rw [WordInStep, htok] at h
    have hstart : lx.lexerStartWord = .ok { lx with
        currentToken := some { type := .word }
        tokStartLine := lx.lineNo
        tokStartCol := lx.colNo
        inWord := true } := by
      rw [lexerStartWord, htok, h]
      rfl
    rw [h]
    exact ⟨_, hstart, rfl, rfl, rfl, rfl, rfl, rfl⟩
  | some tok =>
    rw [WordInStep, htok] at h
    exact ⟨lx, by rw [h]; rfl, rfl, rfl, rfl, h, rfl, htok⟩

/-- An ordinary character is read into the word. -/
theorem normalTurn_ordinary (hword : WordInStep lx) (hrest : lx.rest = c :: cs)
    (hc : isOrdinaryChar c = true) (hnumber : lx.ioNumber? = none) :
    ∃ lx', normalTurn lx = .ok (.again lx') ∧ HasRead lx [c] lx' := by
  obtain ⟨hwordChar, hbackslash, hbacktick, hsquote, hdquote, hdollar, hhash, hbrace⟩ :=
    isOrdinaryChar_iff.mp hc
  obtain ⟨hblank, htab, hnewline, hmeta, hnul⟩ := isWordChar_iff.mp hwordChar
  have hpeek := lexerPeek_of_rest hrest
  obtain ⟨lx₁, hensure, hrest₁, hinput, hstack, hin, htokens, htok⟩ := ensureWord_ok hword
  let tok : Token := lx.currentToken.getD { type := .word }
  let marked : Lexer := { lx₁ with currentToken := some { tok with
    hasEqualsBeforeQuote := tok.hasEqualsBeforeQuote || c = '=' && !tok.wasQuoted } }
  let lx₂ : Lexer := { lx₁ with currentToken := some (tok.addOrdinary c) }
  have hrest₂ : lx₂.rest = c :: cs := hrest₁.trans hrest
  have hmark : (lx₁.onWord fun tok => { tok with
      hasEqualsBeforeQuote := tok.hasEqualsBeforeQuote || c = '=' && !tok.wasQuoted }) =
        .ok marked := by
    rw [onWord, htok]
  have happend : marked.wordTurn c = .ok (.again lx₂.advanced) := by
    have hword₁ : marked.ensureWord = .ok marked := if_pos hin
    have hliteral : marked.lexerAppendLiteralCharToWord c = .ok lx₂ := rfl
    rw [wordTurn, hword₁]
    simp only [bind, Except.bind, hliteral, lexerAdvance_of_rest hrest₂]
    rfl
  have hturn := redirectionTurn_of_ioNumber?_none (pos_lt_of_rest hrest) hnumber (by rwa [hpeek])
    (by rwa [hpeek])
  refine ⟨lx₂.advanced, ?_, ?_⟩
  · have hcharacter : lx.characterTurn = .ok (.again lx₂.advanced) := by
      rw [characterTurn, hpeek]
      simp only [if_neg hbackslash, if_neg hbacktick, if_neg hsquote, if_neg hdquote,
        if_neg hdollar, if_neg hhash, hwordChar, if_true, hensure, bind, Except.bind, hmark,
        happend]
    rw [normalTurn, lexerAtEnd_of_rest hrest, hpeek]
    simp only [Bool.false_eq_true, if_false, hbackslash, false_and, hblank, htab, or_self, hnewline,
      hturn, hcharacter]
  · exact {
      rest := by rw [hrest, rest_advanced hrest₂]; rfl
      input := advanced_input.trans hinput
      modeStack := advanced_modeStack.trans hstack
      inWord := advanced_inWord.trans hin
      tokens := advanced_tokens.trans htokens
      currentToken := advanced_currentToken }

theorem HasRead.trans {lx' lx'' : Lexer} {text' : List Char} (h : HasRead lx text lx')
    (h' : HasRead lx' text' lx'') : HasRead lx (text ++ text') lx'' where
  rest := by rw [h.rest, h'.rest, List.append_assoc]
  input := h'.input.trans h.input
  modeStack := h'.modeStack.trans h.modeStack
  inWord := h'.inWord
  tokens := h'.tokens.trans h.tokens
  currentToken := by
    rw [h'.currentToken, h.currentToken, Option.getD_some, List.foldl_append]

theorem ioNumber?_none_of_rest (h : ∀ c ∈ lx.rest, isRedirectionStartChar c = false) :
    lx.ioNumber? = none := by
  have hnone : lx.integerBeforeRedirection? = none := by
    unfold integerBeforeRedirection?
    refine if_neg fun hcond => ?_
    have hpeek : isRedirectionStartChar (lx.lexerPeekAhead lx.lexerPeekInteger.2) = false := by
      rw [lexerPeekAhead_eq, List.getD_eq_getElem?_getD]
      cases hget : lx.rest[lx.lexerPeekInteger.2]? with
      | none => decide
      | some c => exact h c (List.mem_of_getElem? hget)
    exact Bool.false_ne_true (hpeek.symm.trans hcond.2)
  unfold ioNumber?
  rw [hnone, ite_self]

/-- The loop reads the ordinary characters that are left one by one. -/
theorem iterate_ordinary (hword : WordInStep lx) (hall : ∀ c ∈ lx.rest, isOrdinaryChar c = true)
    (hne : lx.rest ≠ []) (n : ℕ) :
    ∃ lx', HasRead lx lx.rest lx' ∧ iterate normalTurn (lx.rest.length + n) lx =
      iterate normalTurn n lx' := by
  induction hrest : lx.rest generalizing lx with
  | nil => exact absurd hrest hne
  | cons c cs ih =>
    have hnumber : lx.ioNumber? = none := by
      refine ioNumber?_none_of_rest fun d hd => ?_
      have hmeta := (isWordChar_iff.mp (isOrdinaryChar_iff.mp (hall d hd)).1).2.2.2.1
      simp only [lexerIsMetachar, List.contains_eq_mem, List.mem_cons, List.not_mem_nil, or_false,
        decide_eq_false_iff_not, not_or] at hmeta
      simp [isRedirectionStartChar, hmeta]
    obtain ⟨lx₁, hturn, hread⟩ := normalTurn_ordinary hword hrest
      (hall c (by rw [hrest]; exact List.mem_cons_self)) hnumber
    have hrest₁ : lx₁.rest = cs := by
      have := hread.rest
      rw [hrest] at this
      exact (List.cons.inj this).2.symm
    rw [List.length_cons, Nat.add_right_comm, iterate_again hturn]
    cases hcs : cs with
    | nil => exact ⟨lx₁, hread, by simp⟩
    | cons d ds =>
      have hall₁ : ∀ e ∈ lx₁.rest, isOrdinaryChar e = true := by
        intro e he
        rw [hrest₁] at he
        exact hall e (by rw [hrest]; exact List.mem_cons_of_mem c he)
      obtain ⟨lx₂, hread₂, hiterate⟩ := ih hread.wordInStep hall₁
        (by rw [hrest₁, hcs]; exact List.cons_ne_nil d ds) hrest₁
      rw [hcs] at hread₂ hiterate
      exact ⟨lx₂, hread.trans hread₂, hiterate⟩

/-- A text of ordinary characters is one word, with one literal part. -/
theorem tokenizes_ordinary (hne : text ≠ []) (hall : ∀ c ∈ text, isOrdinaryChar c = true)
    (hequals : '=' ∉ text) :
    ∃ lx tok, Tokenizes (lexerCreateWithInput text) (.ok, lx, [tok]) ∧
      IsWord tok (Token.ordinary text).parts := by
  let lx := lexerCreateWithInput text
  have hrest : lx.rest = text := rfl
  have hword : WordInStep lx := rfl
  obtain ⟨lx₁, hread, hiterate⟩ := iterate_ordinary hword hall hne 1
  have hend : lx₁.rest = [] := by
    exact List.self_eq_append_right.mp hread.rest
  have htok : lx₁.currentToken = some (Token.ordinary text) := by
    obtain ⟨first, others, rfl⟩ := List.exists_cons_of_ne_nil hne
    rw [hread.currentToken, hrest]
    exact congrArg some (Token.foldl_addOrdinary first others)
  have hisWord : IsWord (lx₁.finalized (Token.ordinary text)) (Token.ordinary text).parts :=
    isWord_finalized lx₁ (by simpa [Token.ordinary, List.contains_eq_mem] using hequals)
  have hmode : lx.lexerProcessMode = .ok (.ok, lx₁.ended (Token.ordinary text)) :=
    hiterate.trans (iterate_done (normalTurn_end hend hread.inWord htok hread.tokens) 0)
  obtain ⟨lx', hturn⟩ := tokenizeTurn_ended hmode (by rw [hisWord.type]; decide)
  exact ⟨lx', _, (tokenizes_iff rfl).mpr ⟨1, iterate_done hturn 0⟩, hisWord⟩

end Lexer

end Migash
