import Migash.Lexer.Reading
import Migash.Numeric

/-! # Braced expansions with a word

How the text of an expansion with one of the modifiers `-`, `=`, `?` and `+` is
read, with or without a colon, up to the word that holds it.
-/

namespace Migash.Lexer

open Library

/-! ## Texts -/

/-- The modifiers that take a word and are no patterns. -/
inductive Modifier where
  | useDefault | assignDefault | errorIfUnset | useAlternate
  deriving DecidableEq, Repr

namespace Modifier

def char : Modifier → Char
  | useDefault => '-'
  | assignDefault => '='
  | errorIfUnset => '?'
  | useAlternate => '+'

def kind : Modifier → ParamSubtype
  | useDefault => .useDefault
  | assignDefault => .assignDefault
  | errorIfUnset => .errorIfUnset
  | useAlternate => .useAlternate

end Modifier

/-- A character of a word that stands for itself. -/
def isPlainChar (c : Char) : Bool :=
  !([lbrace, rbrace, '(', ')', '$', backtick, backslash, squote, dquote, '~'].contains c)

/-- A parameter between braces: a name, a number or a special character. -/
inductive Parameter where
  | name (first : Char) (others : List Char) (start : isNameStartChar first = true)
    (valid : ∀ c ∈ others, isNameChar c = true)
  | positional (first : Char) (others : List Char) (valid : ∀ c ∈ first :: others, c.isDigit = true)
    (positive : 0 < decimalValue (first :: others))
  | special (c : Char) (valid : c ∈ ['@', '*', '#', '?', '-', '$', '!', '0'])

namespace Parameter

/-- A name of one character. -/
theorem valid_nil : ∀ c ∈ ([] : List Char), isNameChar c = true := List.forall_mem_nil _

def text : Parameter → List Char
  | name first others _ _ | positional first others _ _ => first :: others
  | special c _ => [c]

/-- The lexer takes a number to end after its first digit. -/
def Readable : Parameter → Prop
  | positional _ others _ _ => others = []
  | _ => True

end Parameter

/-- What stands between the braces behind the parameter. -/
def modifierText (colon : Bool) (op : Modifier) (word : List Char) : List Char :=
  (if colon then [':'] else []) ++ op.char :: word

/-- The text of the expansion. -/
def bracedText (p : Parameter) (colon : Bool) (op : Modifier) (word : List Char) : List Char :=
  '$' :: lbrace :: (p.text ++ (modifierText colon op word ++ [rbrace]))

/-- The part for it. -/
def bracedPart (p : Parameter) (colon : Bool) (op : Modifier) (word : List Char) : Part where
  type := .parameter
  paramName := some (String.ofList p.text)
  paramKind := op.kind
  hasColon := colon
  word := if word = [] then none else some (String.ofList word)

/-! ## The word -/

variable {lx : Lexer} {p : Parameter} {colon : Bool} {op : Modifier} {word more : List Char}

theorem isPlainChar_ne {c d : Char} (h : isPlainChar c = true)
    (hd : d ∈ [lbrace, rbrace, '(', ')', '$', backtick, backslash, squote, dquote, '~']) : c ≠ d := by
  rintro rfl
  rw [isPlainChar, Bool.not_eq_true'] at h
  have hmem := List.contains_iff_mem.mpr hd
  rw [h] at hmem
  cases hmem

theorem wordLength?_plain (hword : ∀ c ∈ word, isPlainChar c = true) :
    wordLength? none 0 (word ++ rbrace :: more) = some word.length := by
  induction word with
  | nil =>
    rw [List.nil_append, wordLength?.eq_def]
    rfl
  | cons c word ih =>
    have hc := hword c List.mem_cons_self
    have ih := ih fun d hd => hword d (List.mem_cons_of_mem c hd)
    have hbrace : c ≠ rbrace := isPlainChar_ne hc (by decide)
    have hdollar : c ≠ '$' := isPlainChar_ne hc (by decide)
    have hopen : c ≠ '(' := isPlainChar_ne hc (by decide)
    have hclose : c ≠ ')' := isPlainChar_ne hc (by decide)
    have hbackslash : c ≠ backslash := isPlainChar_ne hc (by decide)
    have hsquote : c ≠ squote := isPlainChar_ne hc (by decide)
    have hdquote : c ≠ dquote := isPlainChar_ne hc (by decide)
    rw [List.cons_append, wordLength?.eq_def]
    simp only [if_neg hbrace, if_neg hdollar, if_neg hopen, if_neg hclose, if_neg hbackslash,
      hsquote, hdquote, or_self, if_false, ih, Option.map_some, List.length_cons]

/-- What has been read of an expansion in a word: it is the only part of the word so far. -/
structure ReadsExpansion (lx lx' : Lexer) (part : Part) (more : List Char) : Prop where
  rest : lx'.rest = more
  modeStack : lx'.modeStack = lx.modeStack.tail
  currentToken : lx'.currentToken = some { type := .word, parts := [part], needsExpansion := true }
  inWord : lx'.inWord = true
  tokens : lx'.tokens = lx.tokens
  heredocQueue : lx'.heredocQueue = lx.heredocQueue

/-- A lexer inside an expansion that starts a word, with nothing quoted around it. -/
structure StartsExpansion (lx lx' : Lexer) : Prop where
  modeStack : lx'.modeStack = lx.modeStack
  currentToken : lx'.currentToken = some { type := .word }
  inWord : lx'.inWord = true
  tokens : lx'.tokens = lx.tokens
  heredocQueue : lx'.heredocQueue = lx.heredocQueue
  unquoted : lx.lexerInMode .doubleQuote = false

theorem StartsExpansion.advancedBy {lx' : Lexer} (h : StartsExpansion lx lx') (n : ℕ) :
    StartsExpansion lx (lx'.advancedBy n) where
  modeStack := by rw [advancedBy_modeStack, h.modeStack]
  currentToken := by rw [advancedBy_currentToken, h.currentToken]
  inWord := by rw [advancedBy_inWord, h.inWord]
  tokens := by rw [advancedBy_tokens, h.tokens]
  heredocQueue := by rw [advancedBy_heredocQueue, h.heredocQueue]
  unquoted := h.unquoted

theorem operatorAt?_of_rest {cs : List Char} (h : lx.rest = op.char :: cs) :
    lx.operatorAt? colon = some (op.kind, 1) := by
  rw [operatorAt?, lexerPeek_of_rest h]
  cases op <;> rfl

/-- Behind the colon, if any, the operator and its word end the expansion. -/
theorem bracedOperator_modifier {lx₀ : Lexer} (p : Parameter) (colon : Bool)
    (h : StartsExpansion lx₀ lx)
    (hrest : lx.rest = op.char :: (word ++ rbrace :: more))
    (hword : ∀ c ∈ word, isPlainChar c = true) :
    ∃ lx', lx.bracedOperator colon p.text = .ok (.ok, lx') ∧
      ReadsExpansion lx₀ lx' (bracedPart p colon op word) more := by
  have hsplit : lx.rest = [op.char] ++ (word ++ rbrace :: more) := hrest
  have hadvance : lx.lexerAdvanceNChars 1 = .ok (lx.advancedBy 1) :=
    lexerAdvanceNChars_of_rest hsplit (by simp)
  have hrest₁ : (lx.advancedBy 1).rest = word ++ rbrace :: more := rest_advanced hrest
  have hrest₁' : (lx.advancedBy 1).rest = (word ++ [rbrace]) ++ more := by
    rw [hrest₁, List.append_assoc]
    rfl
  have hadvance₂ := lexerAdvanceNChars_of_rest hrest₁' (by simp)
  have hrest₂ := rest_advancedBy_length hrest₁'
  rw [List.length_append, List.length_singleton] at hadvance₂ hrest₂
  have hstarts := (h.advancedBy 1).advancedBy (word.length + 1)
  have hquoted : ((lx.advancedBy 1).advancedBy (word.length + 1)).lexerInMode .doubleQuote =
      false := by
    rw [lexerInMode, hstarts.modeStack]
    exact h.unquoted
  refine ⟨lexerPopMode { (lx.advancedBy 1).advancedBy (word.length + 1) with
    currentToken := some { type := .word, parts := [bracedPart p colon op word]
                           needsExpansion := true } }, ?_, ?_⟩
  · rw [bracedOperator, lexerAtEnd_of_rest hrest, operatorAt?_of_rest hrest]
    simp only [Bool.false_eq_true, if_false, hadvance, bind, Except.bind, hrest₁,
      wordLength?_plain hword, hadvance₂, lexerAddParamPart, onWord, hstarts.currentToken,
      Token.addPart, quotedIn, hquoted, List.take_left, pure, Except.pure]
    have hmap : (if word = [] then none else some word).map String.ofList =
        if word = [] then none else some (String.ofList word) := by split <;> rfl
    rw [hmap]
    rfl
  · exact ⟨hrest₂, congrArg List.tail hstarts.modeStack, rfl, hstarts.inWord, hstarts.tokens,
      hstarts.heredocQueue⟩

/-- The characters that may follow the parameter. -/
theorem modifierText_head (colon : Bool) (op : Modifier) (word : List Char) :
    ∃ c cs, modifierText colon op word = c :: cs ∧
    c ∈ [':', '-', '=', '?', '+'] := by
  cases colon with
  | false => exact ⟨op.char, word, rfl, by cases op <;> decide⟩
  | true => exact ⟨':', op.char :: word, rfl, by decide⟩

/-- Behind the parameter, the modifier and its word end the expansion. -/
theorem bracedTail_modifier {lx₀ : Lexer} (h : StartsExpansion lx₀ lx)
    (hrest : lx.rest = modifierText colon op word ++ rbrace :: more)
    (hword : ∀ c ∈ word, isPlainChar c = true) :
    ∃ lx', lx.bracedTail false p.text = .ok (.ok, lx') ∧
      ReadsExpansion lx₀ lx' (bracedPart p colon op word) more := by
  cases colon with
  | false =>
    rw [modifierText, if_neg Bool.false_ne_true, List.nil_append, List.cons_append] at hrest
    have hpeek := lexerPeek_of_rest hrest
    have hbrace : op.char ≠ rbrace := by cases op <;> decide
    have hcolon : op.char ≠ ':' := by cases op <;> decide
    obtain ⟨lx', hrun, hreads⟩ := bracedOperator_modifier p false h hrest hword
    refine ⟨lx', ?_, hreads⟩
    rw [bracedTail, lexerAtEnd_of_rest hrest, hpeek]
    simp only [Bool.false_eq_true, if_false, if_neg hbrace, if_neg hcolon]
    exact hrun
  | true =>
    rw [modifierText, if_pos rfl, List.singleton_append, List.cons_append, List.cons_append] at hrest
    have hpeek := lexerPeek_of_rest hrest
    obtain ⟨lx', hrun, hreads⟩ := bracedOperator_modifier p true
      (h.advancedBy 1) (rest_advanced hrest) hword
    refine ⟨lx', ?_, hreads⟩
    rw [bracedTail, lexerAtEnd_of_rest hrest, hpeek]
    simp only [Bool.false_eq_true, if_false, lexerAdvance_of_rest hrest]
    exact hrun

theorem isNameChar_of_start {c : Char} (h : isNameStartChar c = true) : isNameChar c = true := by
  simp only [isNameStartChar, isNameChar, Char.isAlphanum, Bool.or_eq_true] at h ⊢
  exact h.imp_left .inl

/-- A name ends where the modifier starts. -/
theorem takeWhile_name (colon : Bool) (op : Modifier) (word rest : List Char) {first : Char}
    {others : List Char} (start : isNameStartChar first = true)
    (valid : ∀ c ∈ others, isNameChar c = true) :
    ((first :: others) ++ (modifierText colon op word ++ rest)).takeWhile isNameChar =
      first :: others := by
  obtain ⟨c, cs, htext, hc⟩ := modifierText_head colon op word
  have hstop : isNameChar c = false := by
    simp only [List.mem_cons, List.not_mem_nil, or_false] at hc
    rcases hc with rfl | rfl | rfl | rfl | rfl <;> decide
  have hall : ∀ d ∈ first :: others, isNameChar d = true := by
    intro d hd
    rcases List.mem_cons.mp hd with rfl | hd
    · exact isNameChar_of_start start
    · exact valid d hd
  have hnone : (modifierText colon op word ++ rest).takeWhile isNameChar = [] := by
    rw [htext, List.cons_append, List.takeWhile_cons_of_neg (by simp [hstop])]
  rw [List.takeWhile_append_of_pos hall, hnone, List.append_nil]

theorem not_isDigit_of_start {c : Char} (h : isNameStartChar c = true) : c.isDigit = false := by
  rw [Bool.eq_false_iff, ne_eq, isDigit_iff]
  simp only [isNameStartChar, Bool.or_eq_true, isAlpha_iff, decide_eq_true_eq] at h
  rcases h with (h | h) | rfl
  · omega
  · omega
  · decide

theorem not_isSpecialParamChar_of_start {c : Char} (h : isNameStartChar c = true) :
    isSpecialParamChar c = false := by
  rw [isSpecialParamChar, not_isDigit_of_start h, Bool.or_false]
  by_contra hc
  simp only [List.contains_eq_mem, Bool.not_eq_false, decide_eq_true_eq, List.mem_cons,
    List.not_mem_nil, or_false] at hc
  rcases hc with rfl | rfl | rfl | rfl | rfl | rfl | rfl <;> exact absurd h (by decide)

/-- The parameter is read to its end, unless it is a number of several digits. -/
theorem bracedName_modifier {lx₀ : Lexer} (h : StartsExpansion lx₀ lx) (hp : p.Readable)
    (hrest : lx.rest = p.text ++ (modifierText colon op word ++ rbrace :: more))
    (hword : ∀ c ∈ word, isPlainChar c = true) :
    ∃ lx', lx.bracedName false = .ok (.ok, lx') ∧
      ReadsExpansion lx₀ lx' (bracedPart p colon op word) more := by
  have hone : ∀ c, p.text = [c] → isSpecialParamChar c = true →
      ∃ lx', lx.bracedName false = .ok (.ok, lx') ∧
        ReadsExpansion lx₀ lx' (bracedPart p colon op word) more := by
    intro c htext hc
    rw [htext, List.singleton_append] at hrest
    obtain ⟨lx', hrun, hreads⟩ := bracedTail_modifier (p := p) (h.advancedBy 1)
      (rest_advanced hrest) hword
    refine ⟨lx', ?_, hreads⟩
    rw [bracedName, lexerAtEnd_of_rest hrest, lexerPeek_of_rest hrest]
    simp only [Bool.false_eq_true, if_false, hc, if_true, lexerAdvance_of_rest hrest, ← htext]
    exact hrun
  cases p with
  | name first others start valid =>
    have hname := takeWhile_name colon op word (rbrace :: more) start valid
    have hadvance := lexerAdvanceNChars_of_rest hrest (by simp [Parameter.text])
    have hpeek := lexerPeek_of_rest hrest
    obtain ⟨lx', hrun, hreads⟩ := bracedTail_modifier (p := .name first others start valid)
      (h.advancedBy (first :: others).length) (rest_advancedBy_length hrest) hword
    refine ⟨lx', ?_, hreads⟩
    have hend : lx.lexerAtEnd = false := lexerAtEnd_of_rest hrest
    rw [bracedName, hend, hpeek]
    simp only [Bool.false_eq_true, if_false, not_isSpecialParamChar_of_start start, start, if_true,
      hrest, Parameter.text, hname]
    rw [Parameter.text] at hadvance
    rw [hadvance]
    exact hrun
  | positional first others valid positive =>
    cases hp
    exact hone first rfl (by simp [isSpecialParamChar, valid first List.mem_cons_self])
  | special c valid =>
    refine hone c rfl ?_
    simp only [List.mem_cons, List.not_mem_nil, or_false] at valid
    rcases valid with rfl | rfl | rfl | rfl | rfl | rfl | rfl | rfl <;> decide

/-- A `#` before a modifier is the parameter, and asks for no length. -/
theorem not_length {rest : List Char}
    (hrest : lx.rest = p.text ++ (modifierText colon op word ++ rest)) (hp : p.Readable) :
    ¬ (lx.lexerPeek = '#' ∧ (isNameStartChar (lx.lexerPeekAhead 1) ||
      (lx.lexerPeekAhead 1).isDigit || lx.lexerPeekAhead 1 = '@' || lx.lexerPeekAhead 1 = '*') =
        true) := by
  rintro ⟨hpeek, hnext⟩
  obtain ⟨c, cs, htext, hc⟩ := modifierText_head colon op word
  cases p with
  | name first others start valid =>
    have := lexerPeek_of_rest hrest
    rw [hpeek] at this
    rw [← this] at start
    exact absurd start (by decide)
  | positional first others valid positive =>
    have := lexerPeek_of_rest hrest
    rw [hpeek] at this
    exact absurd (valid first List.mem_cons_self) (by rw [← this]; decide)
  | special d valid =>
    rw [Parameter.text, htext] at hrest
    rw [lexerPeekAhead_of_rest hrest] at hnext
    simp only [List.mem_cons, List.not_mem_nil, or_false] at hc
    rcases hc with rfl | rfl | rfl | rfl | rfl <;> exact absurd hnext (by decide)

/-- The start of an expansion that is the first thing in its word. -/
structure BeforeExpansion (lx : Lexer) : Prop where
  inWord : lx.inWord = false
  currentToken : lx.currentToken = none
  unquoted : lx.lexerInMode .doubleQuote = false

theorem BeforeExpansion.ensureWord (h : BeforeExpansion lx) :
    ∃ lx', lx.ensureWord = .ok lx' ∧ StartsExpansion lx lx' ∧ lx'.rest = lx.rest := by
  refine ⟨{ lx with currentToken := some { type := .word }, tokStartLine := lx.lineNo,
                    tokStartCol := lx.colNo, inWord := true }, ?_, ?_, rfl⟩
  · simp [Lexer.ensureWord, lexerStartWord, h.inWord, h.currentToken]
  · exact ⟨rfl, rfl, rfl, rfl, rfl, h.unquoted⟩

theorem lexerProcessParamExpBraced_modifier (h : BeforeExpansion lx) (hp : p.Readable)
    (hrest : lx.rest = p.text ++ (modifierText colon op word ++ rbrace :: more))
    (hword : ∀ c ∈ word, isPlainChar c = true) :
    ∃ lx', lx.lexerProcessParamExpBraced = .ok (.ok, lx') ∧
      ReadsExpansion lx lx' (bracedPart p colon op word) more := by
  obtain ⟨lx₁, hensure, hstarts, hrest₁⟩ := h.ensureWord
  rw [hrest] at hrest₁
  obtain ⟨lx', hrun, hreads⟩ := bracedName_modifier hstarts hp hrest₁ hword
  have hend : lx₁.lexerAtEnd = false := by
    obtain ⟨c, cs, htext⟩ : ∃ c cs, p.text = c :: cs := by cases p <;> exact ⟨_, _, rfl⟩
    rw [htext] at hrest₁
    exact lexerAtEnd_of_rest hrest₁
  refine ⟨lx', ?_, hreads⟩
  rw [lexerProcessParamExpBraced, hensure]
  simp only [bind, Except.bind, hend, Bool.false_eq_true, if_false, if_neg (not_length hrest₁ hp)]
  exact hrun

/-- A number of several digits is no parameter. -/
theorem lexerProcessParamExpBraced_digits {lx₀ : Lexer} {first second : Char} {cs : List Char}
    (hensure : lx.ensureWord = .ok lx₀) (hrest : lx₀.rest = first :: second :: cs)
    (hfirst : first.isDigit = true) (hsecond : second.isDigit = true) :
    ∃ lx', lx.lexerProcessParamExpBraced = .ok (.error, lx') := by
  have hhash : first ≠ '#' := by
    rintro rfl
    exact absurd hfirst (by decide)
  have hspecial : isSpecialParamChar first = true := by simp [isSpecialParamChar, hfirst]
  have hrest₁ : lx₀.advanced.rest = second :: cs := rest_advanced hrest
  have hother : ∀ d, d.isDigit = false → second ≠ d := by
    rintro d hd rfl
    rw [hsecond] at hd
    cases hd
  have hnone : lx₀.advanced.operatorAt? false = none := by
    rw [operatorAt?, lexerPeek_of_rest hrest₁]
    simp [hother]
  refine ⟨lx₀.advanced.lexerSetError (operatorError false second), ?_⟩
  rw [lexerProcessParamExpBraced, hensure]
  simp only [bind, Except.bind, lexerAtEnd_of_rest hrest, lexerPeek_of_rest hrest, hhash, false_and,
    Bool.false_eq_true, if_false, bracedName, hspecial, if_true, lexerAdvance_of_rest hrest,
    bracedTail, lexerAtEnd_of_rest hrest₁, lexerPeek_of_rest hrest₁, hother rbrace (by decide),
    hother ':' (by decide), bracedOperator, hnone, pure, Except.pure]

/-! ## The run -/

/-- The lexer between the braces of an expansion at the start of its input. -/
def insideBraces (c : Char) (cs : List Char) : Lexer where
  input := '$' :: lbrace :: c :: cs
  pos := 2
  colNo := 3
  modeStack := [.paramExpBraced]

/-- A `$` and an opening brace at the start of the input start an expansion. -/
theorem lexerProcessMode_dollar (c : Char) (cs : List Char) :
    (lexerCreateWithInput ('$' :: lbrace :: c :: cs)).lexerProcessMode =
      .ok (.incomplete, insideBraces c cs) := rfl

/-- A mode that leaves its token to other modes is followed by the next one. -/
theorem tokenizeTurn_incomplete {lx' : Lexer} (hmode : lx.lexerProcessMode = .ok (.incomplete, lx'))
    (hend : lx'.lexerAtEnd = false) (htokens : lx'.tokens = []) :
    tokenizeTurn { lx } = .ok (.again { lx := lx' }) := by
  rw [tokenizeTurn, oneTokenTurn, hmode]
  simp only [bind, Except.bind, pure, Except.pure, hend, htokens]
  rfl

/-- So is one that has come to its end within a word. -/
theorem tokenizeTurn_inWord {lx' : Lexer} (hmode : lx.lexerProcessMode = .ok (.ok, lx'))
    (hword : lx'.inWord = true) (htokens : lx'.tokens = []) :
    tokenizeTurn { lx } = .ok (.again { lx := lx' }) := by
  rw [tokenizeTurn, oneTokenTurn, hmode]
  simp only [bind, Except.bind, pure, Except.pure, htokens, List.length_nil, lt_irrefl, if_false,
    hword, or_true, if_true]

theorem tokenizeTurn_dollar (c : Char) (cs : List Char) :
    tokenizeTurn { lx := lexerCreateWithInput ('$' :: lbrace :: c :: cs) } =
      .ok (.again { lx := insideBraces c cs }) := by
  have hrest : (insideBraces c cs).rest = c :: cs := rfl
  exact tokenizeTurn_incomplete (lexerProcessMode_dollar c cs) (lexerAtEnd_of_rest hrest) rfl

/-- The lexer behind a word with which the input ends. -/
def ended (lx : Lexer) (tok : Token) : Lexer :=
  let lx₁ : Lexer := { lx with
    tokens := [lx.finalized tok], currentToken := none, inWord := false, atCommandStart := false }
  { lx₁ with tokens := [lx.finalized tok, lx₁.tokenHere .eof], atCommandStart := false }

theorem normalTurn_end {tok : Token} (hrest : lx.rest = []) (hword : lx.inWord = true)
    (htok : lx.currentToken = some tok) (htokens : lx.tokens = []) :
    normalTurn lx = .ok (.done (.ok, lx.ended tok)) := by
  have hturn : lx.endOfInput = .ok (.done (.ok, lx.ended tok)) := by
    rw [endOfInput, endWord, lexerFinalizeWord]
    simp only [hword, Bool.not_true, if_true, htok, htokens, List.nil_append, bind,
      Except.bind, lexerEmitToken, pure, Except.pure]
    rfl
  rw [normalTurn, lexerAtEnd_of_rest_nil hrest]
  simp only [if_true, hturn, bind, Except.bind]

/-- The call that has come there hands the word over. -/
theorem tokenizeTurn_ended {lx' : Lexer} {tok : Token}
    (hmode : lx'.lexerProcessMode = .ok (.ok, lx.ended tok))
    (htype : (lx.finalized tok).type ≠ .eof) :
    ∃ lx'', tokenizeTurn { lx := lx' } = .ok (.done (.ok, lx'', [lx.finalized tok])) := by
  have hone : oneTokenTurn 0 lx' = .ok (.done (.ok, lx.ended tok)) := by
    rw [oneTokenTurn, hmode]
    rfl
  have hhanded : (lx.ended tok).tokens.takeWhile (fun tok => tok.type ≠ .eof) =
      [lx.finalized tok] := by
    rw [ended, List.takeWhile_cons_of_pos (by simp [htype]),
      List.takeWhile_cons_of_neg (by simp [tokenHere])]
  refine ⟨{ lx.ended tok with tokens := [] }, ?_⟩
  rw [tokenizeTurn, hone]
  simp only [bind, Except.bind, handOver, hhanded]
  rfl

/-- The input ends behind a word. -/
theorem tokenizeTurn_end {tok : Token} (hrest : lx.rest = []) (hmode : lx.modeStack = [])
    (hword : lx.inWord = true) (htok : lx.currentToken = some tok) (htokens : lx.tokens = [])
    (htype : (lx.finalized tok).type = .word) :
    ∃ lx', tokenizeTurn { lx } = .ok (.done (.ok, lx', [lx.finalized tok])) := by
  have hnormal : lx.lexerCurrentMode = .normal := by rw [lexerCurrentMode, hmode]; rfl
  refine tokenizeTurn_ended ?_ (by rw [htype]; decide)
  rw [lexerProcessMode, hnormal]
  exact iterate_done (normalTurn_end hrest hword htok htokens) _

theorem beforeExpansion (c : Char) (cs : List Char) : BeforeExpansion (insideBraces c cs) :=
  ⟨rfl, rfl, rfl⟩

theorem bracedText_eq_cons (p : Parameter) (colon : Bool) (op : Modifier) (word : List Char) :
    ∃ c cs, bracedText p colon op word = '$' :: lbrace :: c :: cs ∧
      p.text ++ (modifierText colon op word ++ [rbrace]) = c :: cs := by
  cases p <;> exact ⟨_, _, rfl, rfl⟩

/-- The text of an expansion with a plain word is read as the one word that consists of it. -/
theorem lexerTokenize_modifier (colon : Bool) (op : Modifier) (hp : p.Readable)
    (hword : ∀ c ∈ word, isPlainChar c = true) (n : ℕ) :
    ∃ lx tok, lexerTokenize (n + 3) (lexerCreateWithInput (bracedText p colon op word)) =
        .ok (.ok, lx, [tok]) ∧ tok.type = .word ∧ tok.parts = [bracedPart p colon op word] := by
  obtain ⟨c, cs, htext, hinside⟩ := bracedText_eq_cons p colon op word
  obtain ⟨lx₂, hbraced, hreads⟩ := lexerProcessParamExpBraced_modifier
    (beforeExpansion c cs) hp hinside.symm hword
  have hmode : (insideBraces c cs).lexerProcessMode = .ok (.ok, lx₂) := hbraced
  have hsecond : tokenizeTurn { lx := insideBraces c cs } = .ok (.again { lx := lx₂ }) :=
    tokenizeTurn_inWord hmode hreads.inWord hreads.tokens
  let tok := lx₂.finalized
    { type := .word, parts := [bracedPart p colon op word], needsExpansion := true }
  obtain ⟨lx₃, hthird⟩ := tokenizeTurn_end hreads.rest hreads.modeStack hreads.inWord
    hreads.currentToken hreads.tokens rfl
  refine ⟨lx₃, tok, ?_, rfl, rfl⟩
  rw [htext, lexerTokenize]
  exact (iterate_again (tokenizeTurn_dollar c cs) _).trans
    ((iterate_again hsecond _).trans (iterate_done hthird n))

/-- With a number of several digits the text is an error. -/
theorem lexerTokenize_number (colon : Bool) (op : Modifier) (word : List Char)
    (hp : ¬ p.Readable) (n : ℕ) :
    ∃ lx toks, lexerTokenize (n + 3) (lexerCreateWithInput (bracedText p colon op word)) =
      .ok (.error, lx, toks) := by
  cases p with
  | name | special => exact absurd trivial hp
  | positional first others valid positive =>
    cases others with
    | nil => exact absurd rfl hp
    | cons second others =>
      obtain ⟨c, cs, htext, hinside⟩ := bracedText_eq_cons
        (.positional first (second :: others) valid positive) colon op word
      obtain ⟨lx₁, hensure, -, hrest⟩ := (beforeExpansion c cs).ensureWord
      obtain ⟨lx₂, hbraced⟩ := lexerProcessParamExpBraced_digits hensure
        (hrest.trans hinside.symm) (valid first List.mem_cons_self)
        (valid second (List.mem_cons_of_mem _ List.mem_cons_self))
      have hmode : (insideBraces c cs).lexerProcessMode = .ok (.error, lx₂) := hbraced
      have hsecond : tokenizeTurn { lx := insideBraces c cs } = .ok (.done (.error, lx₂, [])) := by
        rw [tokenizeTurn, oneTokenTurn, hmode]
        rfl
      refine ⟨lx₂, [], ?_⟩
      rw [htext, lexerTokenize]
      exact (iterate_again (tokenizeTurn_dollar c cs) _).trans (iterate_done hsecond _)

end Migash.Lexer
