import Mathlib.Data.List.Forall2
import Migash.Lexer.LibQuote

/-! # Plain texts

How a text without quotes, expansions, comments, here-documents and numbers of
redirections falls into words and operators, and that `lexer_tokenize` finds just
these.
-/

namespace Migash

namespace Lexer

open Library

/-! ## Lexemes -/

/-- A word or an operator of a plain text; a newline is one of the operators. -/
inductive Lexeme where
  | word (text : List Char)
  | operator (type : TokenType)
  deriving DecidableEq, Repr

/-- The token of a lexeme, without its place in the text. -/
def Lexeme.token : Lexeme → Token
  | word text => (Token.ordinary text).tryPromoteToAssignment.recomputeExpansionFlags
  | operator type => { type }

/-- The token is that of the lexeme, wherever it stands. -/
def Lexeme.Spells (l : Lexeme) (tok : Token) : Prop :=
  ∃ line column, tok = { l.token with firstLine := line, firstColumn := column }

/-- The word that ends here, if one was begun. -/
def begun (w : List Char) : List Lexeme := if w = [] then [] else [.word w]

/-- The character is part of a word in front of the text. -/
def StandsIn (c : Char) (text : List Char) : Prop :=
  isOrdinaryChar c = true ∨ c = lbrace ∧ ∀ d ∈ text.head?, isNameChar d = false

/-- The operator at the start of a text. -/
def operatorOf? (text : List Char) : Option (List Char × TokenType) :=
  normalModeOperators.find? fun op => op.1.isPrefixOf text

/-- Behind the begun word, the text falls into the lexemes: an operator is as long as possible, and
so is a word. -/
inductive Lexes : List Char → List Char → List Lexeme → Prop where
  | end_ (w : List Char) : Lexes w [] (begun w)
  | blank {w text : List Char} {c : Char} {ls : List Lexeme} (isBlank : c = ' ' ∨ c = tab)
      (more : Lexes [] text ls) : Lexes w (c :: text) (begun w ++ ls)
  | newline {w text : List Char} {ls : List Lexeme} (more : Lexes [] text ls) :
      Lexes w (newline :: text) (begun w ++ .operator .newline :: ls)
  | operator {w op text : List Char} {type : TokenType} {ls : List Lexeme}
      (found : operatorOf? (op ++ text) = some (op, type))
      (noHeredoc : type ≠ .dless ∧ type ≠ .dlessdash) (more : Lexes [] text ls) :
      Lexes w (op ++ text) (begun w ++ .operator type :: ls)
  | character {w text : List Char} {c : Char} {ls : List Lexeme} (stands : StandsIn c text)
      (numberFree : NumberFree (c :: text)) (more : Lexes (w ++ [c]) text ls) :
      Lexes w (c :: text) ls

/-! ## The lexer behind a begun word -/

/-- The lexer has the begun word under construction and the text in front of it. -/
structure Pending (w text : List Char) (lx : Lexer) : Prop where
  rest : lx.rest = text
  modeStack : lx.modeStack = []
  heredocQueue : lx.heredocQueue = []
  inWord : lx.inWord = decide (w ≠ [])
  currentToken : lx.currentToken = if w = [] then none else some (.ordinary w)
  noEof : NoEof lx

variable {lx lx' : Lexer} {w text : List Char} {c : Char} {ls : List Lexeme}

theorem spells_finalized (lx : Lexer) (w : List Char) :
    (Lexeme.word w).Spells (lx.finalized (.ordinary w)) := ⟨_, _, rfl⟩

theorem spells_tokenHere (lx : Lexer) (type : TokenType) :
    (Lexeme.operator type).Spells (lx.tokenHere type) := ⟨_, _, rfl⟩

/-- The begun word is put into the list. -/
theorem Pending.endWord (h : Pending w text lx) : ∃ lx' toks, lx.endWord = .ok lx' ∧
    Pending [] text lx' ∧ List.Forall₂ Lexeme.Spells (begun w) toks ∧
    lx'.tokens = lx.tokens ++ toks := by
  by_cases hw : w = []
  · subst hw
    refine ⟨lx, [], ?_, h, .nil, (List.append_nil _).symm⟩
    rw [Lexer.endWord, h.inWord]
    rfl
  · have htok : lx.currentToken = some (.ordinary w) := by rw [h.currentToken, if_neg hw]
    refine ⟨{ lx with
      tokens := lx.tokens ++ [lx.finalized (.ordinary w)]
      currentToken := none
      inWord := false
      atCommandStart := false }, [lx.finalized (.ordinary w)], ?_, ?_, ?_, rfl⟩
    · rw [Lexer.endWord, h.inWord, decide_eq_true hw, if_pos rfl, lexerFinalizeWord, htok]
    · exact {
        rest := h.rest
        modeStack := h.modeStack
        heredocQueue := h.heredocQueue
        inWord := rfl
        currentToken := rfl
        noEof := h.noEof.append (type_finalized lx _) rfl }
    · rw [begun, if_neg hw]
      exact .cons (spells_finalized lx w) .nil

theorem Pending.advancedBy {n : ℕ} (h : Pending w text lx) :
    Pending w (text.drop n) (lx.advancedBy n) where
  rest := by rw [rest_advancedBy, h.rest]
  modeStack := (advancedBy_modeStack lx n).trans h.modeStack
  heredocQueue := (advancedBy_heredocQueue lx n).trans h.heredocQueue
  inWord := (advancedBy_inWord lx n).trans h.inWord
  currentToken := (advancedBy_currentToken lx n).trans h.currentToken
  noEof := h.noEof.congr (advancedBy_tokens lx n)

/-- A token is put into the list between two words. -/
theorem Pending.emit {type : TokenType} (h : Pending [] text lx) (htype : type ≠ .eof) :
    ∃ lx', lx.lexerEmitToken type = .ok lx' ∧ Pending [] text lx' ∧
      lx'.tokens = lx.tokens ++ [lx.tokenHere type] := by
  refine ⟨{ lx.append (lx.tokenHere type) with
    atCommandStart := [.semi, .newline, .andIf, .orIf, .pipe].contains type }, ?_, ?_, rfl⟩
  · have hnone : lx.currentToken = none := h.currentToken
    exact if_neg (not_not_intro hnone)
  · exact {
      rest := h.rest
      modeStack := h.modeStack
      heredocQueue := h.heredocQueue
      inWord := h.inWord
      currentToken := h.currentToken
      noEof := h.noEof.append (a := lx.tokenHere type) htype rfl }

/-! ## Turns -/

/-- Whether the function of the normal mode skips the character. -/
def isBlank (c : Char) : Bool := c = ' ' ∨ c = tab

theorem Pending.notAtEnd (h : Pending w (c :: text) lx) : lx.lexerAtEnd = false :=
  lexerAtEnd_of_rest h.rest

theorem Pending.readBlank (h : Pending w (c :: text) lx) (hc : c = ' ' ∨ c = tab) :
    ∃ lx' toks, normalTurn lx = .ok (.again lx') ∧ Pending [] (text.dropWhile isBlank) lx' ∧
      List.Forall₂ Lexeme.Spells (begun w) toks ∧ lx'.tokens = lx.tokens ++ toks := by
  obtain ⟨lx₁, toks, hend, hpending, hspells, htokens⟩ := h.endWord
  refine ⟨lx₁.lexerSkipWhitespace, toks, ?_, ?_, hspells, ?_⟩
  · have hpeek := lexerPeek_of_rest h.rest
    have hbackslash : c ≠ backslash := by
      rintro rfl
      revert hc
      decide
    rw [normalTurn, h.notAtEnd, hpeek]
    simp only [Bool.false_eq_true, if_false, hbackslash, false_and, if_pos hc, hend, bind,
      Except.bind]
    rfl
  · have hblank : isBlank c = true := decide_eq_true hc
    have hskip := hpending.advancedBy (n := ((c :: text).takeWhile isBlank).length)
    rw [drop_length_takeWhile, List.dropWhile_cons_of_pos hblank] at hskip
    rw [lexerSkipWhitespace_eq, hpending.rest]
    exact hskip
  · rw [lexerSkipWhitespace_eq, advancedBy_tokens, htokens]

theorem Pending.readNewline (h : Pending w (newline :: text) lx) :
    ∃ lx' toks tok, normalTurn lx = .ok (.again lx') ∧ Pending [] text lx' ∧
      List.Forall₂ Lexeme.Spells (begun w) toks ∧ (Lexeme.operator .newline).Spells tok ∧
      lx'.tokens = lx.tokens ++ (toks ++ [tok]) := by
  obtain ⟨lx₁, toks, hend, hpending, hspells, htokens⟩ := h.endWord
  have hadvance := lexerAdvance_of_rest hpending.rest
  have hadvanced : Pending [] text lx₁.advanced := hpending.advancedBy (n := 1)
  obtain ⟨lx₂, hemit, hpending₂, htokens₂⟩ := hadvanced.emit
    (show TokenType.newline ≠ .eof by decide)
  refine ⟨lx₂, toks, _, ?_, hpending₂, hspells, spells_tokenHere lx₁.advanced .newline, ?_⟩
  · have hpeek := lexerPeek_of_rest h.rest
    have hturn : lx.newlineTurn = .ok (.again lx₂) := by
      rw [newlineTurn]
      simp only [hend, hadvance, hemit, bind, Except.bind, hpending₂.heredocQueue]
      rfl
    rw [normalTurn, h.notAtEnd, hpeek, hturn]
    simp +decide
  · rw [htokens₂, advanced_tokens, htokens, List.append_assoc]

/-- In front of a brace a name is needed for the location of a redirection. -/
theorem bracedIoLocation?_of_standsIn (hrest : lx.rest = c :: text) (hc : StandsIn c text) :
    lx.bracedIoLocation? = none := by
  rcases hc with hc | ⟨rfl, hname⟩
  · exact bracedIoLocation?_of_ne hrest (isOrdinaryChar_iff.mp hc).2.2.2.2.2.2.2
  · have hnil : text.takeWhile isNameChar = [] := by
      cases text with
      | nil => rfl
      | cons d text => exact List.takeWhile_cons_of_neg (by simp [hname d rfl])
    rw [bracedIoLocation?, hrest]
    simp only [hnil, ne_eq, not_true_eq_false, false_and, and_false, if_false]
    split <;> rfl

theorem isWordChar_of_standsIn (hc : StandsIn c text) : isWordChar c = true ∧ c ≠ backslash ∧
    c ≠ backtick ∧ c ≠ squote ∧ c ≠ dquote ∧ c ≠ '$' ∧ c ≠ '#' := by
  rcases hc with hc | ⟨rfl, -⟩
  · obtain ⟨hword, hbackslash, hbacktick, hsquote, hdquote, hdollar, hhash, -⟩ :=
      isOrdinaryChar_iff.mp hc
    exact ⟨hword, hbackslash, hbacktick, hsquote, hdquote, hdollar, hhash⟩
  · decide

/-- What is no operator is read as a character. -/
theorem redirectionTurn_of_character (hpos : lx.pos < lx.input.length) (hnumber : lx.ioNumber? = none)
    (hbraced : lx.bracedIoLocation? = none) (hmeta : lexerIsMetachar lx.lexerPeek = false) :
    lx.redirectionTurn = lx.characterTurn := by
  simp only [lexerIsMetachar, List.contains_eq_mem, List.mem_cons, List.not_mem_nil, or_false,
    decide_eq_false_iff_not, not_or] at hmeta
  obtain ⟨hpipe, hamp, hsemi, hlparen, hrparen, hless, hgreater⟩ := hmeta
  have hop : lx.matchOperator? = none := by
    simp [matchOperator?, normalModeOperators, not_startsWith hpos, hpipe, hamp, hsemi, hlparen,
      hrparen, hless, hgreater]
  unfold redirectionTurn
  rw [hnumber, hbraced]
  dsimp only
  unfold operatorTurn
  rw [tryProcessHeredoc_eq hnumber]
  simp [processOperator, not_startsWith hpos hless, hop]

/-- The word in front of which the character is put. -/
theorem Pending.ensureWord (h : Pending w text lx) : ∃ lx' tok, lx.ensureWord = .ok lx' ∧
    lx'.currentToken = some tok ∧ (∀ c, tok.addOrdinary c = .ordinary (w ++ [c])) ∧
    lx'.inWord = true ∧ lx'.rest = text ∧ lx'.modeStack = [] ∧ lx'.heredocQueue = [] ∧
    lx'.tokens = lx.tokens := by
  by_cases hw : w = []
  · subst hw
    refine ⟨{ lx with
      currentToken := some { type := .word }
      tokStartLine := lx.lineNo
      tokStartCol := lx.colNo
      inWord := true }, _, ?_, rfl, Token.addOrdinary_fresh, rfl, h.rest, h.modeStack,
      h.heredocQueue, rfl⟩
    have hnone : lx.currentToken = none := h.currentToken
    have hword : lx.inWord = false := h.inWord
    rw [Lexer.ensureWord, lexerStartWord, hnone, hword]
    rfl
  · have htok : lx.currentToken = some (.ordinary w) := by rw [h.currentToken, if_neg hw]
    have hword : lx.inWord = true := by rw [h.inWord, decide_eq_true hw]
    refine ⟨lx, .ordinary w, ?_, htok, fun c => ?_, hword, h.rest, h.modeStack, h.heredocQueue, rfl⟩
    · rw [Lexer.ensureWord, if_pos hword]
    · exact Token.addOrdinary_ordinary w c

theorem Pending.readCharacter (h : Pending w (c :: text) lx) (hc : StandsIn c text)
    (hnumber : NumberFree (c :: text)) :
    ∃ lx', normalTurn lx = .ok (.again lx') ∧ Pending (w ++ [c]) text lx' ∧
      lx'.tokens = lx.tokens := by
  obtain ⟨hwordChar, hbackslash, hbacktick, hsquote, hdquote, hdollar, hhash⟩ :=
    isWordChar_of_standsIn hc
  obtain ⟨hblank, htab, hnewline, hmeta, hnul⟩ := isWordChar_iff.mp hwordChar
  have hpeek := lexerPeek_of_rest h.rest
  obtain ⟨lx₁, tok, hensure, htok, hadd, hin, hrest₁, hstack, hqueue, htokens⟩ := h.ensureWord
  let marked : Lexer := { lx₁ with currentToken := some { tok with
    hasEqualsBeforeQuote := tok.hasEqualsBeforeQuote || c = '=' && !tok.wasQuoted } }
  let lx₂ : Lexer := { lx₁ with currentToken := some (tok.addOrdinary c) }
  have hmark : (lx₁.onWord fun tok => { tok with
      hasEqualsBeforeQuote := tok.hasEqualsBeforeQuote || c = '=' && !tok.wasQuoted }) =
        .ok marked := by
    rw [onWord, htok]
  have happend : marked.wordTurn c = .ok (.again lx₂.advanced) := by
    have hword₁ : marked.ensureWord = .ok marked := if_pos hin
    have hliteral : marked.lexerAppendLiteralCharToWord c = .ok lx₂ := rfl
    have hrest₂ : lx₂.rest = c :: text := hrest₁
    rw [wordTurn, hword₁]
    simp only [bind, Except.bind, hliteral, lexerAdvance_of_rest hrest₂]
    rfl
  have hturn : lx.redirectionTurn = .ok (.again lx₂.advanced) := by
    rw [redirectionTurn_of_character (pos_lt_of_rest h.rest)
      (ioNumber?_none_of_numberFree (h.rest ▸ hnumber)) (bracedIoLocation?_of_standsIn h.rest hc)
      (by rwa [hpeek]), characterTurn, hpeek]
    simp only [if_neg hbackslash, if_neg hbacktick, if_neg hsquote, if_neg hdquote,
      if_neg hdollar, if_neg hhash, hwordChar, if_true, hensure, bind, Except.bind, hmark, happend]
  refine ⟨lx₂.advanced, ?_, ?_, ?_⟩
  · rw [normalTurn, h.notAtEnd, hpeek, hturn]
    simp only [Bool.false_eq_true, if_false, hbackslash, false_and, hblank, htab, or_self, hnewline]
  · exact {
      rest := rest_advanced hrest₁
      modeStack := advanced_modeStack.trans hstack
      heredocQueue := advanced_heredocQueue.trans hqueue
      inWord := by
        rw [advanced_inWord, decide_eq_true (by simp)]
        exact hin
      currentToken := by
        rw [advanced_currentToken, if_neg (by simp), ← hadd c]
      noEof := h.noEof.congr (advanced_tokens.trans htokens) }
  · exact advanced_tokens.trans htokens

theorem operatorOf?_heredoc {op : List Char} {type : TokenType}
    (h : operatorOf? ('<' :: '<' :: text) = some (op, type)) : type = .dless ∨ type = .dlessdash := by
  by_cases hdash : ['<', '<', '-'].isPrefixOf ('<' :: '<' :: text) = true
  · rw [operatorOf?, normalModeOperators, List.find?_cons_of_pos (by exact hdash)] at h
    cases h
    exact .inr rfl
  · rw [operatorOf?, normalModeOperators, List.find?_cons_of_neg (by exact hdash)] at h
    have hfirst : ∀ {c d : Char}, c ≠ '<' → ([c, d].isPrefixOf ('<' :: '<' :: text) = true → False) := by
      intro c d hc hstarts
      simp [List.isPrefixOf_cons_cons, hc] at hstarts
    rw [List.find?_cons_of_neg (by exact hfirst (by decide)),
      List.find?_cons_of_neg (by exact hfirst (by decide)),
      List.find?_cons_of_neg (by exact hfirst (by decide)),
      List.find?_cons_of_pos (by simp)] at h
    cases h
    exact .inl rfl

theorem operatorOf?_eq_some {op : List Char} {type : TokenType}
    (h : operatorOf? text = some (op, type)) :
    (∃ c cs, op = c :: cs ∧ lexerIsMetachar c = true) ∧ op <+: text ∧ type ≠ .eof := by
  have hmem := List.mem_of_find?_eq_some h
  have hstarts : op.isPrefixOf text = true :=
    List.find?_some (p := fun p : List Char × TokenType => p.1.isPrefixOf text) h
  refine ⟨?_, List.isPrefixOf_iff_prefix.mp hstarts, ?_⟩
  · have hall : ∀ p ∈ normalModeOperators, p.1.head?.any lexerIsMetachar = true := by decide
    have hhead := hall _ hmem
    cases op with
    | nil => cases hhead
    | cons c cs => exact ⟨c, cs, rfl, by simpa using hhead⟩
  · have hall : ∀ p ∈ normalModeOperators, p.2 ≠ .eof := by decide
    exact hall _ hmem

/-- An operator ends the call. -/
theorem Pending.readOperator {op : List Char} {type : TokenType} (h : Pending w (op ++ text) lx)
    (hfound : operatorOf? (op ++ text) = some (op, type))
    (hheredoc : type ≠ .dless ∧ type ≠ .dlessdash) :
    ∃ lx' toks tok, normalTurn lx = .ok (.done (.ok, lx')) ∧ Pending [] text lx' ∧
      List.Forall₂ Lexeme.Spells (begun w) toks ∧ (Lexeme.operator type).Spells tok ∧
      lx'.tokens = lx.tokens ++ (toks ++ [tok]) := by
  obtain ⟨⟨c, cs, hop, hmeta⟩, -, htype⟩ := operatorOf?_eq_some hfound
  have hrest : lx.rest = c :: (cs ++ text) := by rw [h.rest, hop]; rfl
  have hpos := pos_lt_of_rest hrest
  have hpeek := lexerPeek_of_rest hrest
  have hcases : c = '|' ∨ c = '&' ∨ c = ';' ∨ c = '(' ∨ c = ')' ∨ c = '<' ∨ c = '>' := by
    simpa [lexerIsMetachar, List.contains_eq_mem] using hmeta
  have hc : c ≠ backslash ∧ c ≠ ' ' ∧ c ≠ tab ∧ c ≠ newline ∧ c ≠ lbrace ∧ c.isDigit = false := by
    rcases hcases with rfl | rfl | rfl | rfl | rfl | rfl | rfl
    all_goals decide
  obtain ⟨hbackslash, hblank, htab, hnewline, hbrace, hdigit⟩ := hc
  have hnumber : lx.ioNumber? = none := by simp [ioNumber?, integerBeforeRedirection?, hpeek, hdigit]
  have hstart : lx.lexerInputStartsWith ['<', '<'] = false := by
    rw [Bool.eq_false_iff]
    intro hstarts
    obtain ⟨more, hmore⟩ := List.isPrefixOf_iff_prefix.mp hstarts
    rw [← h.rest, ← hmore] at hfound
    rcases operatorOf?_heredoc hfound with htype | htype
    · exact hheredoc.1 htype
    · exact hheredoc.2 htype
  obtain ⟨lx₁, toks, hend, hpending, hspells, htokens⟩ := h.endWord
  have hadvance := lexerAdvanceNChars_of_rest hpending.rest (by rw [hop]; exact List.cons_ne_nil _ _)
  have hadvanced : Pending [] text (lx₁.advancedBy op.length) := by
    have := hpending.advancedBy (n := op.length)
    rwa [List.drop_left] at this
  obtain ⟨lx₂, hemit, hpending₂, htokens₂⟩ := hadvanced.emit htype
  refine ⟨lx₂, toks, _, ?_, hpending₂, hspells, spells_tokenHere (lx₁.advancedBy op.length) type, ?_⟩
  · have hmatch : lx.matchOperator? = some (op, type) := by
      rw [← hfound, ← h.rest]
      rfl
    have hturn : lx.redirectionTurn = .ok (.done (.ok, lx₂)) := by
      unfold redirectionTurn
      rw [hnumber, bracedIoLocation?_of_ne hrest hbrace]
      dsimp only
      unfold operatorTurn
      rw [tryProcessHeredoc_eq hnumber, processOperator]
      simp only [hstart, Bool.not_false, if_true, bind, Except.bind, pure, Except.pure, hmatch, hend,
        hadvance, hemit]
    rw [normalTurn, lexerAtEnd_of_rest hrest, hpeek, hturn]
    simp only [Bool.false_eq_true, if_false, hbackslash, false_and, hblank, htab, or_self, hnewline]
  · rw [htokens₂, advancedBy_tokens, htokens, List.append_assoc]

/-- The end of the text ends the word and the call. -/
theorem Pending.readEnd (h : Pending w [] lx) :
    ∃ lx' toks tok, normalTurn lx = .ok (.done (.ok, lx')) ∧
      List.Forall₂ Lexeme.Spells (begun w) toks ∧ tok.type = .eof ∧
      lx'.tokens = lx.tokens ++ toks ++ [tok] ∧ ∀ tok ∈ lx.tokens ++ toks, tok.type ≠ .eof := by
  obtain ⟨lx₁, toks, hend, hpending, hspells, htokens⟩ := h.endWord
  let lx₂ : Lexer := { lx₁.append (lx₁.tokenHere .eof) with
    atCommandStart := [TokenType.semi, .newline, .andIf, .orIf, .pipe].contains .eof }
  have hemit : lx₁.lexerEmitToken .eof = .ok lx₂ := by
    have hnone : lx₁.currentToken = none := hpending.currentToken
    exact if_neg (not_not_intro hnone)
  refine ⟨lx₂, toks, lx₁.tokenHere .eof, ?_, hspells, rfl, ?_, ?_⟩
  · have hstep : ¬ (!lx.inWord ∧ lx.currentToken ≠ none) := by
      rw [h.inWord, h.currentToken]
      by_cases hw : w = [] <;> simp [hw]
    have hturn : lx.endOfInput = .ok (.done (.ok, lx₂)) := by
      rw [endOfInput, if_neg hstep]
      simp only [hend, hemit, bind, Except.bind, pure, Except.pure]
    rw [normalTurn, lexerAtEnd_of_rest_nil h.rest]
    simp only [if_true, hturn, bind, Except.bind]
  · exact congrArg (· ++ [lx₁.tokenHere .eof]) htokens
  · exact htokens ▸ hpending.noEof

/-! ## Runs -/

/-- Behind a call that ends in `lx`, `lexer_tokenize` comes to the answer. -/
def HandsOver (out : List Token) (lx : Lexer) (answer : Tokenized) : Prop :=
  handOver { lx, outTokens := out } = .done answer ∨
    ∃ s n, handOver { lx, outTokens := out } = .again s ∧ iterate tokenizeTurn n s = .ok answer

/-- From the middle of a call on, the tokens of the lexemes are found and nothing else. -/
def Finishes (lx : Lexer) (ls : List Lexeme) : Prop :=
  ∃ toks, List.Forall₂ Lexeme.Spells ls toks ∧ ∀ n out, lx.rest.length < n → ∃ lx' lx'',
    iterate normalTurn n lx = .ok (.ok, lx') ∧ lx'.tokens ≠ [] ∧
      HandsOver out lx' (.ok, lx'', out ++ (lx.tokens ++ toks))

theorem Finishes.again {ls₁ : List Lexeme} {toks₁ : List Token}
    (hturn : normalTurn lx = .ok (.again lx')) (hlength : lx'.rest.length < lx.rest.length)
    (hspells : List.Forall₂ Lexeme.Spells ls₁ toks₁) (htokens : lx'.tokens = lx.tokens ++ toks₁)
    (h : Finishes lx' ls) : Finishes lx (ls₁ ++ ls) := by
  obtain ⟨toks, htoks, hrun⟩ := h
  refine ⟨toks₁ ++ toks, List.rel_append hspells htoks, fun n out hn => ?_⟩
  obtain ⟨n, rfl⟩ : ∃ k, n = k + 1 := ⟨n - 1, by omega⟩
  obtain ⟨lx₁, lx₂, hiterate, hne, hover⟩ := hrun n out (by omega)
  refine ⟨lx₁, lx₂, (iterate_again hturn n).trans hiterate, hne, ?_⟩
  rwa [htokens, List.append_assoc] at hover

/-- The loop of `lexer_tokenize` at the start of a call. -/
theorem Finishes.tokenizes (h : Finishes lx ls) (htokens : lx.tokens = [])
    (hmode : lx.modeStack = []) : ∃ toks, List.Forall₂ Lexeme.Spells ls toks ∧
      ∀ out, ∃ n lx', iterate tokenizeTurn n { lx, outTokens := out } = .ok (.ok, lx', out ++ toks) := by
  obtain ⟨toks, htoks, hrun⟩ := h
  refine ⟨toks, htoks, fun out => ?_⟩
  obtain ⟨lx₁, lx₂, hiterate, hne, hover⟩ := hrun lx.turns out (by
    rw [rest_length, turns]
    omega)
  rw [htokens, List.nil_append] at hover
  have hprocess : lx.lexerProcessMode = .ok (.ok, lx₁) := by
    rw [lexerProcessMode, lexerCurrentMode, hmode]
    exact hiterate
  have hturn : tokenizeTurn { lx, outTokens := out } =
      .ok (handOver { lx := lx₁, outTokens := out }) := by
    have hone : oneTokenTurn 0 lx = .ok (.done (.ok, lx₁)) := by
      rw [oneTokenTurn, hprocess]
      have hpos := List.length_pos_iff.mpr hne
      simp only [bind, Except.bind, gt_iff_lt, if_pos hpos]
      rfl
    rw [tokenizeTurn, hone]
    rfl
  rcases hover with hdone | ⟨s, n, hagain, hrest⟩
  · exact ⟨1, lx₂, iterate_done (hturn.trans (congrArg Except.ok hdone)) 0⟩
  · exact ⟨n + 1, lx₂, (iterate_again (hturn.trans (congrArg Except.ok hagain)) n).trans hrest⟩

/-- A call that ends with an operator, in front of the next one. -/
theorem Finishes.operator {ls₁ : List Lexeme} {toks₁ : List Token}
    (hturn : normalTurn lx = .ok (.done (.ok, lx'))) (hne : toks₁ ≠ [])
    (hspells : List.Forall₂ Lexeme.Spells ls₁ toks₁) (htokens : lx'.tokens = lx.tokens ++ toks₁)
    (hnoEof : NoEof lx') (hmode : lx'.modeStack = []) (h : Finishes { lx' with tokens := [] } ls) :
    Finishes lx (ls₁ ++ ls) := by
  obtain ⟨toks, htoks, hrun⟩ := h.tokenizes rfl hmode
  refine ⟨toks₁ ++ toks, List.rel_append hspells htoks, fun n out hn => ?_⟩
  obtain ⟨n, rfl⟩ : ∃ k, n = k + 1 := ⟨n - 1, by omega⟩
  obtain ⟨m, lx'', hiterate⟩ := hrun (out ++ lx'.tokens)
  let emptied : Lexer := { lx' with tokens := [] }
  refine ⟨lx', lx'', iterate_done hturn n, by simp [htokens, hne],
    .inr ⟨{ lx := emptied, outTokens := out ++ lx'.tokens }, m, ?_, ?_⟩⟩
  · have hall : lx'.tokens.takeWhile (fun tok => tok.type ≠ .eof) = lx'.tokens :=
      List.takeWhile_eq_self_iff.mpr fun tok htok => decide_eq_true (hnoEof tok htok)
    unfold handOver
    simp only [hall, lt_irrefl, if_false]
    rfl
  · rw [hiterate, htokens]
    simp only [List.append_assoc]

/-- The last call. -/
theorem Finishes.end_ {toks : List Token} {tok : Token} (hturn : normalTurn lx = .ok (.done (.ok, lx')))
    (hspells : List.Forall₂ Lexeme.Spells ls toks) (htok : tok.type = .eof)
    (htokens : lx'.tokens = lx.tokens ++ toks ++ [tok])
    (hnoEof : ∀ tok ∈ lx.tokens ++ toks, tok.type ≠ .eof) : Finishes lx ls := by
  refine ⟨toks, hspells, fun n out hn => ?_⟩
  obtain ⟨n, rfl⟩ : ∃ k, n = k + 1 := ⟨n - 1, by omega⟩
  have htake : lx'.tokens.takeWhile (fun tok => tok.type ≠ .eof) = lx.tokens ++ toks := by
    rw [htokens, List.takeWhile_append_of_pos fun tok h => decide_eq_true (hnoEof tok h),
      List.takeWhile_cons_of_neg (by simp [htok]), List.append_nil]
  refine ⟨lx', { lx' with tokens := lx'.tokens.drop ((lx.tokens ++ toks).length + 1) },
    iterate_done hturn n, by simp [htokens], .inl ?_⟩
  have hlength : (lx.tokens ++ toks).length < lx'.tokens.length := by simp [htokens]
  unfold handOver
  simp only [htake, if_pos hlength]

/-- The lexer finds the lexemes, wherever it stands in the text; blanks in front of it it may have
skipped. -/
theorem Lexes.finishes (h : Lexes w text ls) : (∀ lx, Pending w text lx → Finishes lx ls) ∧
    (w = [] → ∀ lx, Pending [] (text.dropWhile isBlank) lx → Finishes lx ls) := by
  have hskipped {w text : List Char} {ls : List Lexeme} (hhead : ∀ c ∈ text.head?, isBlank c = false)
      (hread : ∀ lx, Pending w text lx → Finishes lx ls) :
      w = [] → ∀ lx, Pending [] (text.dropWhile isBlank) lx → Finishes lx ls := by
    rintro rfl lx hpending
    refine hread lx ?_
    cases text with
    | nil => exact hpending
    | cons c text => rwa [List.dropWhile_cons_of_neg (by simp [hhead c rfl])] at hpending
  induction h with
  | end_ w =>
    have hread (lx : Lexer) (hpending : Pending w [] lx) : Finishes lx (begun w) := by
      obtain ⟨lx', toks, tok, hturn, hspells, htok, htokens, hnoEof⟩ := hpending.readEnd
      exact .end_ hturn hspells htok htokens hnoEof
    exact ⟨hread, hskipped (by rintro _ ⟨⟩) hread⟩
  | @blank w text c ls hc _ ih =>
    refine ⟨fun lx hpending => ?_, ?_⟩
    · obtain ⟨lx', toks, hturn, hpending', hspells, htokens⟩ := hpending.readBlank hc
      refine .again hturn ?_ hspells htokens (ih.2 rfl lx' hpending')
      rw [hpending.rest, hpending'.rest, List.length_cons]
      exact Nat.lt_succ_of_le (List.dropWhile_sublist _).length_le
    · rintro rfl lx hpending
      rw [List.dropWhile_cons_of_pos (by exact decide_eq_true hc)] at hpending
      exact ih.2 rfl lx hpending
  | @newline w text ls _ ih =>
    have hread (lx : Lexer) (hpending : Pending w (Lexer.newline :: text) lx) :
        Finishes lx (begun w ++ .operator .newline :: ls) := by
      obtain ⟨lx', toks, tok, hturn, hpending', hspells, htok, htokens⟩ := hpending.readNewline
      have h := Finishes.again hturn (by rw [hpending.rest, hpending'.rest]; simp)
        (List.rel_append hspells (.cons htok .nil)) htokens (ih.1 lx' hpending')
      rwa [List.append_assoc] at h
    refine ⟨hread, hskipped ?_ hread⟩
    rintro _ ⟨⟩
    decide
  | @operator w op text type ls hfound hheredoc _ ih =>
    have hread (lx : Lexer) (hpending : Pending w (op ++ text) lx) :
        Finishes lx (begun w ++ .operator type :: ls) := by
      obtain ⟨lx', toks, tok, hturn, hpending', hspells, htok, htokens⟩ :=
        hpending.readOperator hfound hheredoc
      have hnext : Pending [] text { lx' with tokens := [] } :=
        { rest := hpending'.rest
          modeStack := hpending'.modeStack
          heredocQueue := hpending'.heredocQueue
          inWord := hpending'.inWord
          currentToken := hpending'.currentToken
          noEof := List.forall_mem_nil _ }
      have h := Finishes.operator hturn (by simp) (List.rel_append hspells (.cons htok .nil)) htokens
        hpending'.noEof hpending'.modeStack (ih.1 _ hnext)
      rwa [List.append_assoc] at h
    refine ⟨hread, hskipped ?_ hread⟩
    obtain ⟨⟨c, cs, rfl, hmeta⟩, -, -⟩ := operatorOf?_eq_some hfound
    rintro _ ⟨⟩
    rw [isBlank, decide_eq_false_iff_not]
    rintro (rfl | rfl)
    all_goals exact absurd hmeta (by decide)
  | @character w text c ls hc hnumber _ ih =>
    have hread (lx : Lexer) (hpending : Pending w (c :: text) lx) : Finishes lx ls := by
      obtain ⟨lx', hturn, hpending', htokens⟩ := hpending.readCharacter hc hnumber
      exact .again hturn (by rw [hpending.rest, hpending'.rest]; simp) .nil
        (by rw [htokens, List.append_nil]) (ih.1 lx' hpending')
    refine ⟨hread, hskipped ?_ hread⟩
    rintro _ ⟨⟩
    obtain ⟨hblank, htab, -⟩ := isWordChar_iff.mp (isWordChar_of_standsIn hc).1
    simp [isBlank, hblank, htab]

/-- `lexer_tokenize` finds in a plain text just its lexemes, each as one token. -/
theorem Lexes.tokenizes (h : Lexes [] text ls) :
    ∃ lx toks, Tokenizes (lexerCreateWithInput text) (.ok, lx, toks) ∧
      List.Forall₂ Lexeme.Spells ls toks := by
  have hpending : Pending [] text (lexerCreateWithInput text) :=
    { rest := rfl
      modeStack := rfl
      heredocQueue := rfl
      inWord := rfl
      currentToken := rfl
      noEof := List.forall_mem_nil _ }
  obtain ⟨toks, htoks, hrun⟩ := (h.finishes.1 _ hpending).tokenizes rfl rfl
  obtain ⟨n, lx', hiterate⟩ := hrun []
  exact ⟨lx', toks, (tokenizes_iff rfl).mpr ⟨n, hiterate⟩, htoks⟩

end Lexer

end Migash
