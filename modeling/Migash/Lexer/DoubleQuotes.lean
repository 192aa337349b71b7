import Migash.Lexer.ParamExp
import Mathlib.Data.List.TakeWhile

/-! # Text between double quotes

How a text of characters and parameter expansions is read between double
quotes: as one word, with a part for each expansion and one for each run of
characters between them.
-/

namespace Migash.Lexer

open Library

variable {lx lx' lx₁ : Lexer} {p : Parameter} {op : Operator} {w more : List Char}
variable {c : Char} {part : Part}

/-! ## Expansions without an operator -/

/-- The parameter between braces. -/
def bracedParameter (p : Parameter) : List Char := '$' :: lbrace :: (p.text ++ [rbrace])

/-- The parameter behind a dollar sign. -/
def bareParameter (p : Parameter) : List Char := '$' :: p.text

/-- The part for it. -/
def plainPart (p : Parameter) : Part := paramPart p.text .plain false none

/-- A name ends where the text goes on with another character. -/
def Parameter.EndsBefore (p : Parameter) (more : List Char) : Prop :=
  match p with
  | .name .. => ∀ c ∈ more.head?, isNameChar c = false
  | _ => True

theorem Parameter.text_eq_cons (p : Parameter) : ∃ c cs, p.text = c :: cs := by
  cases p <;> exact ⟨_, _, rfl⟩

theorem Parameter.text_ne_nil (p : Parameter) : p.text ≠ [] := by
  obtain ⟨c, cs, htext⟩ := p.text_eq_cons
  simp [htext]

/-- The part is added behind the closing brace. -/
theorem bracedTail_rbrace (name : List Char) (h : Sound lx) (hword : lx.inWord = true)
    (hrest : lx.rest = rbrace :: more) :
    ∃ lx', lx.bracedTail false name = .ok (.ok, lx') ∧
      Adds lx lx' lx.modeStack.tail 1 (lx.quotedIn (paramPart name .plain false none)) := by
  have hsame := sameContext_advanced lx
  have hsound : Sound lx.advanced := h.advancedBy (n := 1) (pos_lt_of_rest hrest)
  obtain ⟨lx', hpart, hadds⟩ := hsound.adds_lexerAddParamPart (hsame.inWord.trans hword) name .plain
    false none
  rw [hsame.modeStack, quotedIn_congr hsame.modeStack] at hadds
  refine ⟨lx'.lexerPopMode, ?_, (adds_moved hsame advanced_pos (n := 0)).mpr hadds⟩
  rw [bracedTail, lexerAtEnd_of_rest hrest, lexerPeek_of_rest hrest, lexerAdvance_of_rest hrest]
  simp only [Bool.false_eq_true, if_false, if_true, bind, Except.bind, hpart, pure, Except.pure]

theorem readsAs_bracedParameter (h : Sound lx) (hmeets : lx.MeetsExpansions) (hp : p.Readable)
    (hrest : lx.rest = bracedParameter p ++ more) :
    ReadsAs lx (bracedParameter p) (plainPart p) := by
  have hafter : lx.rest = '$' :: lbrace :: (p.text ++ rbrace :: more) := by
    simpa [bracedParameter] using hrest
  obtain ⟨lx₁, lx₀, hfirst, hfunction, hensure, hsound, hword, hrest₀, -, hadds⟩ :=
    h.enters_braced hmeets hafter
  have htail := lexerProcessParamExpBraced_tail hensure hp hrest₀
    ⟨by decide, by decide, by decide⟩
  have hsame := sameContext_advancedBy p.text.length lx₀
  have hsound₁ := hsound.advancedBy (length_le_of_rest hrest₀ (.inl p.text_ne_nil))
  obtain ⟨lx', hrun, hread⟩ := bracedTail_rbrace p.text hsound₁
    (hsame.inWord.trans hword) (rest_advancedBy_length hrest₀)
  rw [hsame.modeStack, quotedIn_congr hsame.modeStack] at hread
  refine (readsAs_iff hfirst).mpr ⟨lx', by rw [hfunction, htail, hrun], ?_⟩
  have hsize : (bracedParameter p).length = 2 + (p.text.length + 1) := by
    simp [bracedParameter]
    omega
  rw [hsize]
  exact (hadds lx' _ _).mpr ((adds_moved hsame (advancedBy_pos ..)).mpr hread)

/-- What the function for an expansion without braces takes for the name. -/
theorem unbracedName {cs : List Char} (hp : p.Readable) (hends : p.EndsBefore more)
    (htext : p.text = c :: cs) :
    (if isSpecialParamChar c then [c]
      else if isNameStartChar c then (p.text ++ more).takeWhile isNameChar else []) = p.text := by
  cases p with
  | name first others start valid =>
    cases htext
    rw [if_neg (by simp [not_isSpecialParamChar_of_start start]), if_pos start, Parameter.text]
    cases more with
    | nil =>
      have hall : ∀ d ∈ c :: cs, isNameChar d = true := by
        intro d hd
        rcases List.mem_cons.mp hd with rfl | hd
        · exact isNameChar_of_start start
        · exact valid d hd
      rw [List.append_nil, List.takeWhile_eq_self_iff.mpr hall]
    | cons d more => exact takeWhile_name_of_ends start valid (hends d rfl)
  | positional first others valid positive =>
    cases hp
    cases htext
    have hspecial : isSpecialParamChar c = true := by
      simp [isSpecialParamChar, valid c List.mem_cons_self]
    rw [if_pos hspecial]
    rfl
  | special d valid =>
    cases htext
    simp only [List.mem_cons, List.not_mem_nil, or_false] at valid
    rcases valid with rfl | rfl | rfl | rfl | rfl | rfl | rfl | rfl <;> rfl

/-- A parameter may stand behind a dollar sign. -/
theorem Parameter.head_starts {cs : List Char} (p : Parameter) (htext : p.text = c :: cs) :
    (isNameStartChar c || isSpecialParamChar c) = true := by
  cases p with
  | name first others start valid =>
    cases htext
    rw [start, Bool.true_or]
  | positional first others valid positive =>
    cases htext
    simp [isSpecialParamChar, valid c List.mem_cons_self]
  | special d valid =>
    cases htext
    simp only [List.mem_cons, List.not_mem_nil, or_false] at valid
    rcases valid with rfl | rfl | rfl | rfl | rfl | rfl | rfl | rfl <;> decide

theorem readsAs_bareParameter (h : Sound lx) (hmeets : lx.MeetsExpansions) (hp : p.Readable)
    (hends : p.EndsBefore more) (hrest : lx.rest = bareParameter p ++ more) :
    ReadsAs lx (bareParameter p) (plainPart p) := by
  obtain ⟨c, cs, htext⟩ := p.text_eq_cons
  have hopens : Opens ['$'] (c :: (cs ++ more)) .paramExpUnbraced := .unbraced (p.head_starts htext)
  have hafter : lx.rest = ['$'] ++ c :: (cs ++ more) := by simp [hrest, bareParameter, htext]
  obtain ⟨lx₁, hfirst, hentered⟩ := h.enters hmeets hopens hafter
  have hmode : lx₁.lexerCurrentMode = .paramExpUnbraced := by
    simp [lexerCurrentMode, hentered.modeStack]
  obtain ⟨lx₀, hensure, hstarted, hadds⟩ := hentered.ensureWord ⟨by decide, by decide⟩
  have hrest₀ : lx₀.rest = p.text ++ more := by
    rw [hstarted.rest, hentered.rest, hafter, htext]
    rfl
  have hpeek : lx₀.lexerPeek = c := lexerPeek_of_rest (by rw [hrest₀, htext]; rfl)
  have hend : lx₀.lexerAtEnd = false := lexerAtEnd_of_rest (by rw [hrest₀, htext]; rfl)
  have hname := unbracedName hp hends htext
  have hsame := sameContext_advancedBy p.text.length lx₀
  have hsound := hstarted.sound.advancedBy (length_le_of_rest hrest₀ (.inl p.text_ne_nil))
  obtain ⟨lx', hpart, hread⟩ := hsound.adds_lexerAddParamPart
    (hsame.inWord.trans hstarted.inWord) p.text .plain false none
  rw [hsame.modeStack, quotedIn_congr hsame.modeStack] at hread
  refine (readsAs_iff hfirst).mpr ⟨lx'.lexerPopMode, ?_, ?_⟩
  · rw [lexerProcessMode, hmode]
    dsimp only
    rw [lexerProcessParamExpUnbraced, hensure]
    simp only [bind, Except.bind, hend, Bool.false_eq_true, if_false, hpeek, hrest₀, hname,
      p.text_ne_nil, lexerAdvanceNChars_of_rest hrest₀ p.text_ne_nil, hpart, pure, Except.pure]
  · have hsize : (bareParameter p).length = 1 + (p.text.length + 0) := by
      simp [bareParameter]
      omega
    rw [hsize]
    exact (hadds _ _ _).mpr ((adds_moved hsame (advancedBy_pos ..)).mpr hread)

/-! ## No assignment -/

/-- The word under construction is no assignment so far. -/
def Unassigned (lx : Lexer) : Prop :=
  ∀ tok, lx.currentToken = some tok → tok.hasEqualsBeforeQuote = false

theorem Unassigned.congr (h : Unassigned lx) (htoken : lx'.currentToken = lx.currentToken) :
    Unassigned lx' := fun tok htok => h tok (htoken.symm.trans htok)

theorem Unassigned.ensureWord (h : Unassigned lx) : Gives Unassigned lx.ensureWord := by
  unfold Lexer.ensureWord lexerStartWord
  split_ifs
  · exact Gives.ok h
  · exact Gives.error
  · refine Gives.ok fun tok htok => ?_
    cases htok
    rfl

theorem Unassigned.lexerAdvance (h : Unassigned lx) : Gives Unassigned lx.lexerAdvance := by
  unfold Lexer.lexerAdvance
  split_ifs
  · exact Gives.ok (h.congr advanced_currentToken)
  · exact Gives.error

theorem Unassigned.lexerAdvanceNChars (h : Unassigned lx) (n : ℕ) :
    Gives Unassigned (lx.lexerAdvanceNChars n) := by
  unfold Lexer.lexerAdvanceNChars
  split_ifs
  · exact Gives.ok (h.congr (advancedBy_currentToken ..))
  · exact Gives.error

theorem Unassigned.lexerAddParamPart (h : Unassigned lx) (name : List Char) (kind : ParamSubtype)
    (colon : Bool) (word : Option (List Char)) :
    Gives Unassigned (lx.lexerAddParamPart name kind colon word) := by
  unfold Lexer.lexerAddParamPart onWord
  cases htok : lx.currentToken with
  | none => exact Gives.error
  | some tok =>
    refine Gives.ok fun tok' htok' => ?_
    cases htok'
    exact h tok htok

/-- The answer leaves the word no assignment. -/
abbrev LeavesUnassigned (r : Except Fault Answer) : Prop := Gives (fun answer => Unassigned answer.2) r

theorem Unassigned.bracedOperator (h : Unassigned lx) (colon : Bool) (name : List Char) :
    LeavesUnassigned (lx.bracedOperator colon name) := by
  unfold Lexer.bracedOperator
  split_ifs
  · exact Gives.ok h
  · cases lx.operatorAt? colon with
    | none => exact Gives.ok h
    | some found =>
      refine (h.lexerAdvanceNChars found.2).bind fun lx₁ h₁ => ?_
      cases wordLength? none 0 lx₁.rest with
      | none => exact Gives.ok (h₁.congr (advancedBy_currentToken ..))
      | some length =>
        refine (h₁.lexerAdvanceNChars (length + 1)).bind fun lx₂ h₂ => ?_
        exact (h₂.lexerAddParamPart _ _ _ _).bind fun lx₃ h₃ => Gives.ok h₃

theorem Unassigned.bracedTail (h : Unassigned lx) (isLength : Bool) (name : List Char) :
    LeavesUnassigned (lx.bracedTail isLength name) := by
  unfold Lexer.bracedTail
  split_ifs
  · exact Gives.ok h
  · exact Gives.ok h
  · exact (h.lexerAddParamPart _ _ _ _).bind fun lx₁ h₁ =>
      h₁.lexerAdvance.bind fun lx₂ h₂ => Gives.ok h₂
  · exact h.lexerAdvance.bind fun lx₁ h₁ =>
      (h₁.lexerAddParamPart _ _ _ _).bind fun lx₂ h₂ => Gives.ok h₂
  · exact h.lexerAdvance.bind fun lx₁ h₁ => h₁.bracedOperator true name
  · exact h.bracedOperator false name

theorem Unassigned.bracedName (h : Unassigned lx) (isLength : Bool) :
    LeavesUnassigned (lx.bracedName isLength) := by
  unfold Lexer.bracedName
  dsimp only
  split_ifs
  · exact Gives.ok h
  · exact h.lexerAdvance.bind fun lx₁ h₁ => h₁.bracedTail isLength _
  · exact (h.lexerAdvanceNChars _).bind fun lx₁ h₁ => h₁.bracedTail isLength _
  · exact Gives.ok h
  · exact Gives.ok h

theorem Unassigned.lexerProcessParamExpBraced (h : Unassigned lx) :
    LeavesUnassigned lx.lexerProcessParamExpBraced := by
  unfold Lexer.lexerProcessParamExpBraced
  refine h.ensureWord.bind fun lx₁ h₁ => ?_
  dsimp only
  split_ifs
  · exact Gives.ok h₁
  · exact h₁.lexerAdvance.bind fun lx₂ h₂ => h₂.bracedName true
  · exact h₁.bracedName false

theorem Unassigned.lexerProcessParamExpUnbraced (h : Unassigned lx) :
    LeavesUnassigned lx.lexerProcessParamExpUnbraced := by
  unfold Lexer.lexerProcessParamExpUnbraced
  refine h.ensureWord.bind fun lx₁ h₁ => ?_
  dsimp only
  split_ifs
  all_goals
    first
    | exact Gives.ok h₁
    | exact (h₁.lexerAdvanceNChars _).bind fun lx₂ h₂ =>
        (h₂.lexerAddParamPart _ _ _ _).bind fun lx₃ h₃ => Gives.ok h₃

/-! ## Segments -/

/-- The pieces of a text: a character that stands for itself and the forms of an expansion. -/
inductive Segment where
  | char (c : Char)
  | bare (p : Parameter)
  | braced (p : Parameter)
  | operator (p : Parameter) (op : Operator) (w : List Char)

/-- What a dollar sign makes an expansion of. -/
def isExpansionStart (c : Char) : Bool :=
  isNameStartChar c || isSpecialParamChar c || c = lbrace || c = '('

/-- The part is marked as quoted. -/
def dquoted (part : Part) : Part := { part with wasSingleQuoted := false, wasDoubleQuoted := true }

/-- The parts with one more character. -/
def appendLiteral (ps : List Part) (c : Char) : List Part :=
  (Token.appendChar { type := .word, parts := ps } false true c).parts

namespace Segment

def text : Segment → List Char
  | char c => [c]
  | bare p => bareParameter p
  | braced p => bracedParameter p
  | operator p op w => expansionText p op w

/-- The parts with those for the segment. -/
def add (ps : List Part) : Segment → List Part
  | char c => appendLiteral ps c
  | bare p | braced p => ps ++ [dquoted (plainPart p)]
  | operator p op w => ps ++ [dquoted (paramPart p.text op.kind op.hasColon (wordOf w))]

/-- The segment ends where the given text starts. -/
def Stands (more : List Char) : Segment → Prop
  | char c => c ≠ nul ∧ (c ∉ ['$', backtick, backslash, dquote] ∨
      c = '$' ∧ ∀ d ∈ more.head?, isExpansionStart d = false)
  | bare p => p.Readable ∧ p.EndsBefore more
  | braced _ => True
  | operator _ op w => nul ∉ w ∧ op.Separate w ∧ ParamWord.counted.Matched true w

/-- Its parameter is no number of several digits. -/
def Readable : Segment → Prop
  | braced p | operator p _ _ => p.Readable
  | _ => True

/-- The segment has no operator. -/
def IsPlain : Segment → Prop
  | operator .. => False
  | _ => True

/-- What a plain segment stands for, where the parameters have the given values. -/
def meaning (value : List Char → List Char) : Segment → List Char
  | char c => [c]
  | bare p | braced p => value p.text
  | operator .. => []

end Segment

def segmentsText (segs : List Segment) : List Char := segs.flatMap Segment.text

def plainText (value : List Char → List Char) (segs : List Segment) : List Char :=
  segs.flatMap (Segment.meaning value)

/-- Every segment ends where the next one starts, and the last one where the given text starts. -/
def Stand (more : List Char) : List Segment → Prop
  | [] => True
  | seg :: segs => seg.Stands (segmentsText segs ++ more) ∧ Stand more segs

variable {seg : Segment} {segs : List Segment} {ps : List Part}

@[simp] theorem segmentsText_nil : segmentsText [] = [] := rfl

@[simp] theorem segmentsText_cons : segmentsText (seg :: segs) = seg.text ++ segmentsText segs := rfl

@[simp] theorem plainText_nil {value : List Char → List Char} : plainText value [] = [] := rfl

@[simp] theorem plainText_cons {value : List Char → List Char} :
    plainText value (seg :: segs) = seg.meaning value ++ plainText value segs := rfl

theorem segmentsText_append (segs segs' : List Segment) :
    segmentsText (segs ++ segs') = segmentsText segs ++ segmentsText segs' := List.flatMap_append

theorem stand_append {segs' : List Segment} :
    Stand more (segs ++ segs') ↔ Stand (segmentsText segs' ++ more) segs ∧ Stand more segs' := by
  induction segs with
  | nil => simp [Stand]
  | cons seg segs ih =>
    rw [List.cons_append, Stand, Stand, ih, segmentsText_append, List.append_assoc, and_assoc]

/-- What ends at the end of the text ends at a closing quote too. -/
theorem Segment.Stands.dquote (h : seg.Stands more) : seg.Stands (more ++ [dquote]) := by
  cases more with
  | cons c more => cases seg <;> exact h
  | nil =>
    cases seg with
    | char c =>
      refine ⟨h.1, h.2.imp_right fun hdollar => ⟨hdollar.1, ?_⟩⟩
      simp only [List.nil_append, List.head?_cons, Option.mem_def, Option.some.injEq, forall_eq']
      decide
    | bare p =>
      refine ⟨h.1, ?_⟩
      cases p with
      | name =>
        intro c hc
        cases hc
        decide
      | positional => trivial
      | special => trivial
    | braced p => exact h
    | operator p op w => exact h

theorem Stand.dquote (h : Stand [] segs) : Stand [dquote] segs := by
  induction segs with
  | nil => trivial
  | cons seg segs ih =>
    refine ⟨?_, ih h.2⟩
    have hstands := h.1
    rw [List.append_nil] at hstands
    exact hstands.dquote

theorem appendLiteral_parts (tok : Token) (c : Char) :
    (tok.appendChar false true c).parts = appendLiteral tok.parts c ∧
      (tok.appendChar false true c).hasEqualsBeforeQuote = tok.hasEqualsBeforeQuote ∧
      (tok.appendChar false true c).wasQuoted = tok.wasQuoted := by
  unfold appendLiteral Token.appendChar
  cases tok.parts.getLast? with
  | none => exact ⟨rfl, rfl, rfl⟩
  | some last =>
    dsimp only
    split_ifs <;> exact ⟨rfl, rfl, rfl⟩

/-! ## Calls -/

/-- What `lexer_tokenize` answers. -/
def Tokenizes (lx : Lexer) (answer : Tokenized) : Prop := ∃ n, lexerTokenize n lx = .ok answer

/-- How `lexer_tokenize` comes to its answer behind a call of the function of a mode. -/
inductive Continues (answer : Tokenized) : Answer → Prop where
  | incomplete {lx : Lexer} (htokens : lx.tokens = []) (hend : lx.lexerAtEnd = false)
      (h : Tokenizes lx answer) : Continues answer (.incomplete, lx)
  | inWord {lx : Lexer} (htokens : lx.tokens = []) (hword : lx.inWord = true)
      (h : Tokenizes lx answer) : Continues answer (.ok, lx)
  | error {lx : Lexer} (h : answer = (.error, lx, [])) : Continues answer (.error, lx)

theorem tokenizes_iff {answer : Tokenized} (htokens : lx.tokens = []) :
    Tokenizes lx answer ↔ ∃ n, iterate tokenizeTurn n { lx } = .ok answer := by
  simp only [Tokenizes, lexerTokenize, htokens, List.length_nil]

theorem Continues.tokenizes {answer : Tokenized} {r : Answer} (h : Continues answer r)
    (htokens : lx.tokens = []) (hmode : lx.lexerProcessMode = .ok r) : Tokenizes lx answer := by
  rw [tokenizes_iff htokens]
  cases h with
  | incomplete htokens' hend h =>
    obtain ⟨n, hn⟩ := (tokenizes_iff htokens').mp h
    exact ⟨n + 1, (iterate_again (tokenizeTurn_incomplete hmode hend htokens') n).trans hn⟩
  | inWord htokens' hword h =>
    obtain ⟨n, hn⟩ := (tokenizes_iff htokens').mp h
    exact ⟨n + 1, (iterate_again (tokenizeTurn_inWord hmode hword htokens') n).trans hn⟩
  | error h =>
    subst h
    refine ⟨1, iterate_done ?_ 0⟩
    rw [tokenizeTurn, oneTokenTurn, hmode]
    rfl

/-- The same within a call of the function for double quotes that has `n` turns left. -/
def Inside (answer : Tokenized) (n : ℕ) (lx : Lexer) : Prop :=
  ∃ r, iterate dquoteTurn n lx = .ok r ∧ Continues answer r

/-- The lexer in the loop of the double quotes, with the given text before it and the given parts
behind it. -/
structure InQuotes (more : List Char) (ps : List Part) (lx : Lexer) : Prop where
  sound : Sound lx
  rest : lx.rest = more
  modeStack : lx.modeStack = [.doubleQuote]
  inWord : lx.inWord = true
  tokens : lx.tokens = []
  parts : lx.parts = ps
  unassigned : Unassigned lx
  wasQuoted : ∀ tok, lx.currentToken = some tok → tok.wasQuoted = true

theorem InQuotes.currentMode (h : InQuotes more ps lx) : lx.lexerCurrentMode = .doubleQuote := by
  simp [lexerCurrentMode, h.modeStack]

theorem InQuotes.quotedIn (h : InQuotes more ps lx) (part : Part) :
    lx.quotedIn part = dquoted part := by
  simp [Lexer.quotedIn, lexerInMode, h.modeStack, dquoted]

/-- A character that stands for itself goes into the word. -/
theorem InQuotes.append (h : InQuotes (c :: more) ps lx)
    (hturn : dquoteTurn lx = (do
      let lx ← lx.lexerAppendDquoteCharToWord c
      return .again (← lx.lexerAdvance))) :
    ∃ lx', dquoteTurn lx = .ok (.again lx') ∧ InQuotes more (appendLiteral ps c) lx' := by
  obtain ⟨tok, htok⟩ := h.sound.currentToken h.inWord
  obtain ⟨hparts, hequals, hquoted⟩ := appendLiteral_parts tok c
  let lx₁ : Lexer := { lx with currentToken := some (tok.appendChar false true c) }
  have happend : lx.lexerAppendDquoteCharToWord c = .ok lx₁ := by
    rw [lexerAppendDquoteCharToWord, onWord, htok]
  have hrest : lx₁.rest = c :: more := h.rest
  refine ⟨lx₁.advanced, ?_, ?_⟩
  · rw [hturn, happend]
    simp only [bind, Except.bind, lexerAdvance_of_rest hrest, pure, Except.pure]
  · have hps : tok.parts = ps := by
      rw [← h.parts, Lexer.parts, htok]
      rfl
    exact {
      sound := h.sound.congr advanced_input
        (by rw [advanced_pos]; exact pos_lt_of_rest h.rest) advanced_modeStack advanced_inWord
        (by rw [advanced_currentToken, htok]; rfl) advanced_heredocQueue advanced_heredocIndex
      rest := rest_advanced hrest
      modeStack := advanced_modeStack.trans h.modeStack
      inWord := advanced_inWord.trans h.inWord
      tokens := advanced_tokens.trans h.tokens
      parts := by
        rw [Lexer.parts, advanced_currentToken, ← hps]
        exact hparts
      unassigned := by
        intro tok' htok'
        rw [advanced_currentToken] at htok'
        cases htok'
        exact hequals.trans (h.unassigned tok htok)
      wasQuoted := by
        intro tok' htok'
        rw [advanced_currentToken] at htok'
        cases htok'
        exact hquoted.trans (h.wasQuoted tok htok) }

/-- The turn for a character. -/
theorem InQuotes.char (h : InQuotes (c :: more) ps lx) (hmore : more ≠ [])
    (hc : (Segment.char c).Stands more) :
    ∃ lx', dquoteTurn lx = .ok (.again lx') ∧ InQuotes more (appendLiteral ps c) lx' := by
  apply h.append
  have hend := lexerAtEnd_of_rest h.rest
  have hpeek := lexerPeek_of_rest h.rest
  obtain ⟨hnul, hplain | ⟨rfl, hnext⟩⟩ := hc
  · simp only [List.mem_cons, List.not_mem_nil, or_false, not_or] at hplain
    rw [dquoteTurn, hend, hpeek]
    simp only [Bool.false_eq_true, if_false, hplain]
  · obtain ⟨d, more, rfl⟩ := List.exists_cons_of_ne_nil hmore
    have hd : isExpansionStart d = false := hnext d rfl
    have hne : d ≠ nul := by
      have htext := h.sound.text
      rintro rfl
      have hmem : nul ∈ lx.rest := by simp [h.rest]
      exact htext (List.mem_of_mem_drop hmem)
    simp only [isExpansionStart, Bool.or_eq_false_iff, decide_eq_false_iff_not] at hd
    have hnone : lx.expansionAt? (fun c => isNameStartChar c || isSpecialParamChar c) = none := by
      rw [expansionAt?, lexerPeekAhead_of_rest h.rest]
      simp [hd]
    rw [dquoteTurn, hend, hpeek, lexerPeekAhead_of_rest h.rest]
    simp +decide only [if_false, if_true, hne, hnone]

/-- The functions for the expansions keep the invariants. -/
theorem Sound.answered_parameter (h : Sound lx) (hunassigned : Unassigned lx) {r : Answer}
    (hmode : lx.lexerCurrentMode = .paramExpBraced ∨ lx.lexerCurrentMode = .paramExpUnbraced)
    (hrun : lx.lexerProcessMode = .ok r) : Sound r.2 ∧ Unassigned r.2 := by
  rcases hmode with hmode | hmode
  · have hprocess : lx.lexerProcessMode = lx.lexerProcessParamExpBraced := by
      rw [lexerProcessMode, hmode]
    rw [hprocess] at hrun
    exact ⟨((h.holds_lexerProcessParamExpBraced (by rw [hmode]; decide)).of_eq hrun).sound,
      hunassigned.lexerProcessParamExpBraced.answer r hrun⟩
  · have hprocess : lx.lexerProcessMode = lx.lexerProcessParamExpUnbraced := by
      rw [lexerProcessMode, hmode]
    rw [hprocess] at hrun
    exact ⟨((h.holds_lexerProcessParamExpUnbraced (by rw [hmode]; decide)).of_eq hrun).sound,
      hunassigned.lexerProcessParamExpUnbraced.answer r hrun⟩

/-- In the loop, the call starts again with nothing changed. -/
theorem InQuotes.lexerProcessMode_eq (h : InQuotes more ps lx) :
    lx.lexerProcessMode = iterate dquoteTurn lx.turns lx := by
  obtain ⟨tok, htok⟩ := h.sound.currentToken h.inWord
  have hquoted := h.wasQuoted tok htok
  have hstart : lx.startQuoted = .ok lx := by
    rw [startQuoted, ensureWord, if_pos h.inWord]
    change lx.onWord _ = .ok lx
    rw [onWord, htok]
    refine congrArg Except.ok ?_
    cases lx
    cases tok
    cases htok
    cases hquoted
    rfl
  rw [lexerProcessMode, h.currentMode]
  simp only [lexerProcessDquote, hstart, bind, Except.bind]

theorem Unassigned.startQuoted (h : Unassigned lx) :
    Gives (fun lx' => Unassigned lx' ∧ ∀ tok, lx'.currentToken = some tok → tok.wasQuoted = true)
      lx.startQuoted := by
  unfold Lexer.startQuoted
  refine h.ensureWord.bind fun lx₁ h₁ => ?_
  unfold onWord
  cases htok : lx₁.currentToken with
  | none => exact Gives.error
  | some tok =>
    refine Gives.ok ⟨fun tok' htok' => ?_, fun tok' htok' => ?_⟩
    · cases htok'
      exact h₁ tok htok
    · cases htok'
      rfl

/-- A call of the function for double quotes comes to its loop. -/
theorem Sound.inQuotes (h : Sound lx) (hstack : lx.modeStack = [.doubleQuote])
    (htokens : lx.tokens = []) (hunassigned : Unassigned lx) :
    ∃ lx', lx.lexerProcessMode = iterate dquoteTurn lx'.turns lx' ∧ lx'.input = lx.input ∧
      InQuotes lx.rest lx.parts lx' := by
  have hmode : lx.lexerCurrentMode = .doubleQuote := by simp [lexerCurrentMode, hstack]
  obtain ⟨lx', hstart, hstarted⟩ := h.holds_startQuoted (by rw [hmode]; decide)
  obtain ⟨hunassigned', hquoted⟩ := hunassigned.startQuoted.answer lx' hstart
  refine ⟨lx', ?_, hstarted.input, hstarted.sound, hstarted.rest, hstarted.modeStack.trans hstack,
    hstarted.inWord, hstarted.tokens.trans htokens, parts_startQuoted hstart, hunassigned', hquoted⟩
  rw [lexerProcessMode, hmode]
  simp only [lexerProcessDquote, hstart, bind, Except.bind]

/-- The call behind an expansion follows that of the function for the expansion. -/
theorem Entered.reads {mode : LexMode} {text rest : List Char} {k : ℕ}
    (h : Entered lx lx₁ mode k) (hunassigned : Unassigned lx₁)
    (hmode : mode = .paramExpBraced ∨ mode = .paramExpUnbraced) (htokens : lx.tokens = [])
    (hrest : lx₁.rest = c :: rest) (hfirst : lx.lexerProcessMode = .ok (.incomplete, lx₁))
    (hread : ReadsAs lx text part) :
    ∃ lx₂, Adds lx lx₂ lx.modeStack text.length (lx.quotedIn part) ∧ Sound lx₂ ∧ Unassigned lx₂ ∧
      ∀ answer, Tokenizes lx₂ answer → Continues answer (.incomplete, lx₁) := by
  obtain ⟨lx₂, hsecond, hadds⟩ := (readsAs_iff hfirst).mp hread
  have hcurrent : lx₁.lexerCurrentMode = mode := by
    rw [lexerCurrentMode, h.modeStack]
    rfl
  obtain ⟨hsound, hunassigned⟩ := h.sound.answered_parameter hunassigned
    (by rw [hcurrent]; exact hmode) hsecond
  refine ⟨lx₂, hadds, hsound, hunassigned, fun answer htokenizes => ?_⟩
  have hword := Continues.inWord (hadds.tokens.trans htokens) hadds.inWord htokenizes
  exact .incomplete (h.tokens.trans htokens) (lexerAtEnd_of_rest hrest)
    (hword.tokenizes (h.tokens.trans htokens) hsecond)

theorem Adds.rest {stack : List LexMode} {text : List Char} (h : Adds lx lx' stack text.length part)
    (hrest : lx.rest = text ++ more) : lx'.rest = more := by
  rw [Lexer.rest] at hrest ⊢
  rw [h.input, h.pos, ← List.drop_drop, hrest, List.drop_left]

/-- An expansion is left to the function of its mode, behind which the call starts again. -/
theorem InQuotes.expansion {opener rest text : List Char} {mode : LexMode}
    (h : InQuotes (text ++ more) ps lx) (hopens : Opens opener (c :: rest) mode)
    (hrest : text ++ more = opener ++ c :: rest)
    (hmode : mode = .paramExpBraced ∨ mode = .paramExpUnbraced)
    (hread : ReadsAs lx text part) (n : ℕ) :
    ∃ lx', InQuotes more (ps ++ [dquoted part]) lx' ∧
      ∀ answer, Inside answer lx'.turns lx' → Inside answer (n + 1) lx := by
  have hturn := dquoteTurn_of_opens hopens (h.rest.trans hrest)
  have hentered := h.sound.entered (by simp [h.modeStack]) hopens (h.rest.trans hrest)
  have hunassigned : Unassigned ((lx.lexerPushMode mode).advancedBy opener.length) :=
    h.unassigned.congr (advancedBy_currentToken ..)
  have hrest₁ : ((lx.lexerPushMode mode).advancedBy opener.length).rest = c :: rest := by
    rw [hentered.rest, h.rest, hrest, List.drop_left]
  obtain ⟨lx₂, hadds, hsound, hunassigned, hcontinues⟩ := hentered.reads hunassigned hmode h.tokens
    hrest₁ (h.lexerProcessMode_eq.trans (iterate_done hturn _)) hread
  have htokens : lx₂.tokens = [] := hadds.tokens.trans h.tokens
  obtain ⟨lx₃, hcall, -, hquotes⟩ := hsound.inQuotes (hadds.modeStack.trans h.modeStack) htokens
    hunassigned
  rw [hadds.rest h.rest, hadds.parts, h.parts, h.quotedIn] at hquotes
  refine ⟨lx₃, hquotes, ?_⟩
  rintro answer ⟨r, hrun, hr⟩
  exact ⟨_, iterate_done hturn n, hcontinues answer (hr.tokenizes htokens (hcall.trans hrun))⟩

theorem readsAs_operator (h : Sound lx) (hmeets : lx.MeetsExpansions) (hp : p.Readable)
    (hseparate : op.Separate w) (hmatched : ParamWord.counted.Matched true w)
    (hrest : lx.rest = expansionText p op w ++ more) :
    ReadsAs lx (expansionText p op w) (paramPart p.text op.kind op.hasColon (wordOf w)) := by
  have hne : op.symbol ≠ [] := by
    obtain ⟨c, cs, hsymbol, -⟩ := op.symbol_head
    simp [hsymbol]
  exact (readsAs_of_operator _ h hmeets hp hrest rfl hne
    fun lx hrest => operatorAt?_separate hrest hseparate).mpr
      ⟨(ParamWord.wordLength?_eq_iff more).mpr hmatched, rfl⟩

theorem InQuotes.length_lt_turns (h : InQuotes more ps lx) : more.length < lx.turns := by
  have hlen := congrArg List.length h.rest
  rw [rest_length] at hlen
  rw [turns]
  omega

/-- A segment is read up to where the text goes on. -/
theorem InQuotes.segment (h : InQuotes (seg.text ++ more) ps lx) (hmore : more ≠ [])
    (hstands : seg.Stands more) (hread : seg.Readable) {n : ℕ}
    (hn : (seg.text ++ more).length < n) :
    ∃ lx' k, InQuotes more (seg.add ps) lx' ∧ more.length < k ∧
      ∀ answer, Inside answer k lx' → Inside answer n lx := by
  obtain ⟨n, rfl⟩ : ∃ m, n = m + 1 := ⟨n - 1, by omega⟩
  have hmeets : lx.MeetsExpansions := .inr h.currentMode
  have hbraced (c : Char) (rest : List Char) {part : Part}
      (hrest : seg.text ++ more = ['$', lbrace] ++ c :: rest) (hread : ReadsAs lx seg.text part) :
      ∃ lx' k, InQuotes more (ps ++ [dquoted part]) lx' ∧ more.length < k ∧
        ∀ answer, Inside answer k lx' → Inside answer (n + 1) lx := by
    obtain ⟨lx', hquotes, hinside⟩ := h.expansion .braced hrest (.inl rfl) hread n
    exact ⟨lx', _, hquotes, hquotes.length_lt_turns, hinside⟩
  cases seg with
  | char c =>
    obtain ⟨lx', hturn, hquotes⟩ := InQuotes.char h hmore hstands
    refine ⟨lx', n, hquotes, ?_, ?_⟩
    · simp [Segment.text] at hn
      omega
    · rintro answer ⟨r, hrun, hcontinues⟩
      exact ⟨r, (iterate_again hturn n).trans hrun, hcontinues⟩
  | bare p =>
    obtain ⟨c, cs, htext⟩ := p.text_eq_cons
    have hrest : bareParameter p ++ more = ['$'] ++ c :: (cs ++ more) := by
      simp [bareParameter, htext]
    obtain ⟨lx', hquotes, hinside⟩ := h.expansion (.unbraced (p.head_starts htext)) hrest (.inr rfl)
      (readsAs_bareParameter h.sound hmeets hstands.1 hstands.2 h.rest) n
    exact ⟨lx', _, hquotes, hquotes.length_lt_turns, hinside⟩
  | braced p =>
    obtain ⟨c, cs, htext⟩ := p.text_eq_cons
    exact hbraced c (cs ++ rbrace :: more) (by simp [Segment.text, bracedParameter, htext])
      (readsAs_bracedParameter h.sound hmeets hread h.rest)
  | operator p op w =>
    obtain ⟨c, cs, htext⟩ := p.text_eq_cons
    exact hbraced c (cs ++ (op.text ++ (w ++ rbrace :: more)))
      (by simp [Segment.text, expansionText, htext])
      (readsAs_operator h.sound hmeets hread hstands.2.1 hstands.2.2 h.rest)

/-- So are all segments of a text. -/
theorem InQuotes.segments (h : InQuotes (segmentsText segs ++ more) ps lx) (hmore : more ≠ [])
    (hstand : Stand more segs) (hread : ∀ seg ∈ segs, seg.Readable) {n : ℕ}
    (hn : (segmentsText segs ++ more).length < n) :
    ∃ lx' k, InQuotes more (segs.foldl Segment.add ps) lx' ∧ more.length < k ∧
      ∀ answer, Inside answer k lx' → Inside answer n lx := by
  induction segs generalizing lx ps n with
  | nil => exact ⟨lx, n, h, hn, fun _ => id⟩
  | cons seg segs ih =>
    rw [segmentsText_cons, List.append_assoc] at h hn
    obtain ⟨lx₁, k, hquotes, hk, hinside⟩ := h.segment (by simp [hmore]) hstand.1
      (hread seg List.mem_cons_self) hn
    obtain ⟨lx', m, hquotes', hm, hinside'⟩ := ih hquotes hstand.2
      (fun seg' hmem => hread seg' (List.mem_cons_of_mem _ hmem)) hk
    exact ⟨lx', m, hquotes', hm, fun answer => hinside answer ∘ hinside' answer⟩

/-! ## The whole word -/

/-- The word that consists of the parts, as far as its expansion is concerned. -/
structure IsWord (tok : Token) (ps : List Part) : Prop where
  type : tok.type = .word
  parts : tok.parts = ps
  needsExpansion : tok.needsExpansion =
    (Token.recomputeExpansionFlags { type := .word, parts := ps }).needsExpansion
  needsFieldSplitting : tok.needsFieldSplitting =
    (Token.recomputeExpansionFlags { type := .word, parts := ps }).needsFieldSplitting
  needsPathnameExpansion : tok.needsPathnameExpansion =
    (Token.recomputeExpansionFlags { type := .word, parts := ps }).needsPathnameExpansion

theorem isWord_finalized (lx : Lexer) {tok : Token} (h : tok.hasEqualsBeforeQuote = false) :
    IsWord (lx.finalized tok) tok.parts := by
  have hword : tok.tryPromoteToAssignment = { tok with type := .word } := by
    rw [Token.tryPromoteToAssignment, h]
  unfold finalized
  rw [hword]
  exact ⟨rfl, rfl, rfl, rfl, rfl⟩

/-- The word ends at the end of the input. -/
theorem tokenizes_end (hrest : lx.rest = []) (hmode : lx.modeStack = []) (hword : lx.inWord = true)
    (hsound : Sound lx) (htokens : lx.tokens = []) (hunassigned : Unassigned lx) :
    ∃ lx' tok, Tokenizes lx (.ok, lx', [tok]) ∧ IsWord tok lx.parts := by
  obtain ⟨tok, htok⟩ := hsound.currentToken hword
  have hisWord := isWord_finalized lx (hunassigned tok htok)
  obtain ⟨lx', hturn⟩ := tokenizeTurn_end hrest hmode hword htok htokens hisWord.type
  refine ⟨lx', _, (tokenizes_iff htokens).mpr ⟨1, iterate_done hturn 0⟩, ?_⟩
  rw [Lexer.parts, htok]
  exact hisWord

/-- The closing quote ends the word. -/
theorem InQuotes.close (h : InQuotes [dquote] ps lx) {n : ℕ} (hn : 0 < n) :
    ∃ lx' tok, Inside (.ok, lx', [tok]) n lx ∧ IsWord tok ps := by
  obtain ⟨n, rfl⟩ : ∃ m, n = m + 1 := ⟨n - 1, by omega⟩
  have hturn : dquoteTurn lx = .ok (.done (.ok, lx.advanced.lexerPopMode)) := by
    rw [dquoteTurn, lexerAtEnd_of_rest h.rest, lexerPeek_of_rest h.rest,
      lexerAdvance_of_rest h.rest]
    simp only [Bool.false_eq_true, if_false, if_true, bind, Except.bind, pure, Except.pure]
  have hsame := sameContext_advanced lx
  have hmode : lx.advanced.lexerCurrentMode ≠ .heredocBody := by
    simp [lexerCurrentMode, h.modeStack]
  have hsound : Sound lx.advanced := h.sound.advancedBy (n := 1) (pos_lt_of_rest h.rest)
  have htokens : lx.advanced.lexerPopMode.tokens = [] := hsame.tokens.trans h.tokens
  have hword : lx.advanced.lexerPopMode.inWord = true := hsame.inWord.trans h.inWord
  have hrest : lx.advanced.lexerPopMode.rest = [] := rest_advanced h.rest
  obtain ⟨lx', tok, htokenizes, hisWord⟩ := tokenizes_end hrest
    (by simp [lexerPopMode, h.modeStack]) hword (hsound.pop hmode) htokens
    (h.unassigned.congr hsame.currentToken)
  have hparts : lx.advanced.lexerPopMode.parts = ps := by
    rw [← h.parts]
    simp [Lexer.parts, lexerPopMode]
  rw [hparts] at hisWord
  exact ⟨lx', tok, ⟨_, iterate_done hturn n, .inWord htokens hword htokenizes⟩, hisWord⟩

/-- A number of several digits between braces is an error. -/
theorem InQuotes.unreadable (h : InQuotes ('$' :: lbrace :: (p.text ++ more)) ps lx)
    (hp : ¬ p.Readable) {n : ℕ} (hn : 0 < n) : ∃ lx', Inside (.error, lx', []) n lx := by
  obtain ⟨n, rfl⟩ : ∃ m, n = m + 1 := ⟨n - 1, by omega⟩
  cases p with
  | name | special => exact absurd trivial hp
  | positional first others valid positive =>
    cases others with
    | nil => exact absurd rfl hp
    | cons second others =>
      have hopens : Opens ['$', lbrace] (first :: second :: (others ++ more)) .paramExpBraced :=
        .braced
      have hturn := dquoteTurn_of_opens hopens h.rest
      obtain ⟨lx₁, lx₀, hfirst, hfunction, hensure, -, -, hrest₀, -⟩ :=
        h.sound.enters_braced (.inr h.currentMode) h.rest
      have hentered := h.sound.entered (by simp [h.modeStack]) hopens h.rest
      cases (h.lexerProcessMode_eq.trans (iterate_done hturn _)).symm.trans hfirst
      obtain ⟨lx', herror⟩ := lexerProcessParamExpBraced_digits hensure hrest₀
        (valid first List.mem_cons_self)
        (valid second (List.mem_cons_of_mem _ List.mem_cons_self))
      have htokens := hentered.tokens.trans h.tokens
      refine ⟨lx', _, iterate_done hturn n, .incomplete htokens ?_ ?_⟩
      · have hdigits : ((lx.lexerPushMode .paramExpBraced).advancedBy ['$', lbrace].length).rest =
            first :: second :: (others ++ more) := by
          rw [hentered.rest, h.rest]
          rfl
        exact lexerAtEnd_of_rest hdigits
      · exact (Continues.error rfl).tokenizes htokens (hfunction.trans herror)

/-- A text of the source between double quotes. -/
def quotedText (body : List Char) : List Char := dquote :: (body ++ [dquote])

theorem tokenizes_quotedText {body : List Char} (hbody : nul ∉ body) :
    ∃ lx, InQuotes (body ++ [dquote]) [] lx ∧ ∀ answer, Inside answer lx.turns lx →
      Tokenizes (lexerCreateWithInput (quotedText body)) answer := by
  let lx₁ := insideQuotes .double (body ++ [dquote])
  have hsound : Sound lx₁ := {
    inside := by simp [lx₁, insideQuotes]
    word := fun _ => rfl
    document := nofun
    notNormal := by simp [lx₁, insideQuotes, Quoting.mode]
    below := by simp [lx₁, insideQuotes]
    delimiters := by simp [lx₁, insideQuotes]
    text := by
      simp only [lx₁, insideQuotes, Quoting.mark, List.mem_cons, List.mem_append, List.not_mem_nil,
        or_false, not_or]
      exact ⟨by decide, hbody, by decide⟩ }
  have htokens : lx₁.tokens = [] := rfl
  have hunassigned : Unassigned lx₁ := by
    intro tok htok
    have hnone : lx₁.currentToken = none := rfl
    rw [hnone] at htok
    cases htok
  have hrest : lx₁.rest = body ++ [dquote] := rfl
  have hparts : lx₁.parts = [] := rfl
  obtain ⟨lx, hcall, -, hquotes⟩ := hsound.inQuotes rfl htokens hunassigned
  rw [hrest, hparts] at hquotes
  refine ⟨lx, hquotes, ?_⟩
  rintro answer ⟨r, hrun, hcontinues⟩
  have hfirst := tokenizeTurn_mark .double (body ++ [dquote]) (by simp)
  have hcreated : (lexerCreateWithInput (quotedText body)).tokens = [] := rfl
  obtain ⟨n, hn⟩ := (tokenizes_iff htokens).mp (hcontinues.tokenizes htokens (hcall.trans hrun))
  exact (tokenizes_iff hcreated).mpr ⟨n + 1, (iterate_again hfirst n).trans hn⟩

theorem Segment.Stands.nul_notMem {seg : Segment} (h : seg.Stands more) : nul ∉ seg.text := by
  have hparameter (p : Parameter) : nul ∉ p.text := by
    cases p with
    | name first others start valid =>
      simp only [Parameter.text, List.mem_cons, not_or]
      refine ⟨?_, fun hmem => absurd (valid _ hmem) (by decide)⟩
      rintro rfl
      exact absurd start (by decide)
    | positional first others valid positive =>
      exact fun hmem => absurd (valid _ hmem) (by decide)
    | special d valid =>
      simp only [Parameter.text, List.mem_singleton]
      rintro rfl
      exact absurd valid (by decide)
  have hdollar : nul ≠ '$' := by decide
  have hbraces : nul ≠ lbrace ∧ nul ≠ rbrace := ⟨by decide, by decide⟩
  cases seg with
  | char c => simpa [Segment.text] using Ne.symm h.1
  | bare p => simp [Segment.text, bareParameter, hdollar, hparameter p]
  | braced p => simp [Segment.text, bracedParameter, hdollar, hbraces, hparameter p]
  | operator p op w =>
    have hop : nul ∉ op.text := by
      cases op with
      | modifier colon op => cases colon <;> cases op <;> decide
      | pattern op => cases op <;> decide
    simp [Segment.text, expansionText, hdollar, hbraces, hparameter p, hop, h.1]

theorem Stand.nul_notMem (h : Stand more segs) : nul ∉ segmentsText segs := by
  induction segs with
  | nil => exact List.not_mem_nil
  | cons seg segs ih =>
    rw [segmentsText_cons, List.mem_append, not_or]
    exact ⟨h.1.nul_notMem, ih h.2⟩

/-- A text whose parameters are readable is one word between double quotes, with the parts of its
segments. -/
theorem tokenizes_body (hstand : Stand [] segs) (hread : ∀ seg ∈ segs, seg.Readable) :
    ∃ lx tok, Tokenizes (lexerCreateWithInput (quotedText (segmentsText segs))) (.ok, lx, [tok]) ∧
      IsWord tok (segs.foldl Segment.add []) := by
  obtain ⟨lx₁, hquotes, hstart⟩ := tokenizes_quotedText hstand.nul_notMem
  obtain ⟨lx₂, k, hquotes₂, hk, hinside⟩ := hquotes.segments (by simp) hstand.dquote hread
    hquotes.length_lt_turns
  obtain ⟨lx, tok, hclose, hword⟩ := hquotes₂.close (Nat.zero_lt_of_lt hk)
  exact ⟨lx, tok, hstart _ (hinside _ hclose), hword⟩

/-- Any other text is an error. -/
theorem tokenizes_unreadable (hstand : Stand [] segs) (hread : ¬ ∀ seg ∈ segs, seg.Readable) :
    ∃ lx, Tokenizes (lexerCreateWithInput (quotedText (segmentsText segs))) (.error, lx, []) := by
  obtain ⟨before, seg, after, rfl, hbefore, hseg⟩ : ∃ before seg after,
      segs = before ++ seg :: after ∧ (∀ seg ∈ before, seg.Readable) ∧ ¬ seg.Readable := by
    clear hstand
    induction segs with
    | nil => exact absurd (fun _ hmem => absurd hmem List.not_mem_nil) hread
    | cons seg segs ih =>
      by_cases hseg : seg.Readable
      · obtain ⟨before, seg', after, rfl, hbefore, hseg'⟩ := ih fun hall =>
          hread (List.forall_mem_cons.mpr ⟨hseg, hall⟩)
        exact ⟨seg :: before, seg', after, rfl, List.forall_mem_cons.mpr ⟨hseg, hbefore⟩, hseg'⟩
      · exact ⟨[], seg, segs, rfl, nofun, hseg⟩
  obtain ⟨lx₁, hquotes, hstart⟩ := tokenizes_quotedText hstand.nul_notMem
  obtain ⟨hfirst, -⟩ := stand_append.mp hstand.dquote
  rw [segmentsText_append, List.append_assoc] at hquotes
  obtain ⟨lx₂, k, hquotes₂, hk, hinside⟩ := hquotes.segments (by simp) hfirst hbefore
    hquotes.length_lt_turns
  obtain ⟨p, more, hp, htext⟩ : ∃ (p : Parameter) (more : List Char), ¬ p.Readable ∧
      segmentsText (seg :: after) ++ [dquote] = '$' :: lbrace :: (p.text ++ more) := by
    cases seg with
    | char | bare => exact absurd trivial hseg
    | braced p =>
      exact ⟨p, rbrace :: (segmentsText after ++ [dquote]), hseg,
        by simp [Segment.text, bracedParameter]⟩
    | operator p op w =>
      exact ⟨p, op.text ++ (w ++ rbrace :: (segmentsText after ++ [dquote])), hseg,
        by simp [Segment.text, expansionText]⟩
  rw [htext] at hquotes₂
  obtain ⟨lx, herror⟩ := hquotes₂.unreadable hp (Nat.zero_lt_of_lt hk)
  exact ⟨lx, hstart _ (hinside _ herror)⟩

theorem tokenizes_unique {answer answer' : Tokenized} (h : Tokenizes lx answer)
    (h' : Tokenizes lx answer') : answer = answer' := by
  obtain ⟨n, hn⟩ := h
  obtain ⟨m, hm⟩ := h'
  exact iterate_unique hn hm

end Migash.Lexer
