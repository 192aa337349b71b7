import Migash.Lexer.Quoted
import Migash.Lexer.Traps
import Migash.Library.Brackets
import Migash.Library.Gives

/-! # Expansions within a word

How an expansion becomes one part of a word: a call of the function of the mode
around it enters the mode of the expansion, and a call of the function of that
mode reads up to its end.
-/

namespace Migash.Lexer

open Library

variable {lx lx' lx₁ : Lexer} {mode : LexMode} {opener text more : List Char} {part : Part}

/-! ## What is read -/

/-- The parts of the word under construction. -/
def parts (lx : Lexer) : List Part := (lx.currentToken.map Token.parts).getD []

/-- Where an expansion may stand: between words, in a word or in double quotes. -/
def MeetsExpansions (lx : Lexer) : Prop :=
  lx.lexerCurrentMode = .normal ∨ lx.lexerCurrentMode = .doubleQuote

/-- The lexer is `n` characters further, its word is one part longer, and it is in the modes of
the given stack. -/
structure Adds (lx lx' : Lexer) (stack : List LexMode) (n : ℕ) (part : Part) : Prop where
  input : lx'.input = lx.input
  pos : lx'.pos = lx.pos + n
  modeStack : lx'.modeStack = stack
  tokens : lx'.tokens = lx.tokens
  inWord : lx'.inWord = true
  parts : lx'.parts = lx.parts ++ [part]

/-- The text at the current position becomes one part of the word, and the lexer is behind it: the
mode that it opens is entered and left again. -/
def ReadsAs (lx : Lexer) (text : List Char) (part : Part) : Prop :=
  ∃ lx₁ lx₂, lx.lexerProcessMode = .ok (.incomplete, lx₁) ∧
    lx₁.lexerProcessMode = .ok (.ok, lx₂) ∧
    Adds lx lx₂ lx.modeStack text.length (lx.quotedIn part)

theorem readsAs_iff (h : lx.lexerProcessMode = .ok (.incomplete, lx₁)) :
    ReadsAs lx text part ↔ ∃ lx₂, lx₁.lexerProcessMode = .ok (.ok, lx₂) ∧
      Adds lx lx₂ lx.modeStack text.length (lx.quotedIn part) := by
  constructor
  · rintro ⟨lx₁', lx₂, hfirst, hsecond, hadds⟩
    rw [h] at hfirst
    cases hfirst
    exact ⟨lx₂, hsecond, hadds⟩
  · rintro ⟨lx₂, hsecond, hadds⟩
    exact ⟨lx₁, lx₂, h, hsecond, hadds⟩

/-- What is read is determined by where the lexer is and by its word. -/
theorem Adds.iff {stack : List LexMode} {m n : ℕ} {part' : Part} (h : Adds lx lx' stack m part) :
    Adds lx lx' stack n part' ↔ m = n ∧ part = part' := by
  constructor
  · intro h'
    have hpos := h.pos.symm.trans h'.pos
    exact ⟨by omega, List.singleton_inj.mp (List.append_cancel_left (h.parts.symm.trans h'.parts))⟩
  · rintro ⟨rfl, rfl⟩
    exact h

/-! ## The start of an expansion -/

/-- What opens an expansion before a text. -/
inductive Opens : List Char → List Char → LexMode → Prop
  | braced {more : List Char} : Opens ['$', lbrace] more .paramExpBraced
  | arith {more : List Char} : Opens ['$', '(', '('] more .arithExp
  | paren {more : List Char} (h : more.head? ≠ some '(') : Opens ['$', '('] more .cmdSubstParen
  | unbraced {c : Char} {more : List Char}
      (h : (isNameStartChar c || isSpecialParamChar c) = true) :
      Opens ['$'] (c :: more) .paramExpUnbraced

theorem lexerPeekAhead_eq (lx : Lexer) (n : ℕ) : lx.lexerPeekAhead n = lx.rest.getD n nul := by
  simp [lexerPeekAhead, rest, List.getElem?_drop]

theorem Opens.peek (h : Opens opener more mode) (hrest : lx.rest = opener ++ more) :
    lx.lexerPeek = '$' ∧ lx.lexerPeekAhead 1 ≠ nul := by
  cases h with
  | braced => exact ⟨lexerPeek_of_rest hrest, by rw [lexerPeekAhead_of_rest hrest]; decide⟩
  | arith => exact ⟨lexerPeek_of_rest hrest, by rw [lexerPeekAhead_of_rest hrest]; decide⟩
  | paren => exact ⟨lexerPeek_of_rest hrest, by rw [lexerPeekAhead_of_rest hrest]; decide⟩
  | unbraced hc =>
    refine ⟨lexerPeek_of_rest hrest, ?_⟩
    rw [lexerPeekAhead_of_rest hrest]
    rintro rfl
    exact absurd hc (by decide)

theorem Opens.expansionAt (h : Opens opener more mode) (hrest : lx.rest = opener ++ more)
    {canStart : Char → Bool}
    (hstart : ∀ c, (isNameStartChar c || isSpecialParamChar c) = true → canStart c = true) :
    lx.expansionAt? canStart = some (mode, opener.length) := by
  have hparen : '(' ≠ lbrace := by decide
  cases h with
  | braced =>
    rw [expansionAt?, lexerPeekAhead_of_rest hrest]
    simp
  | arith =>
    rw [expansionAt?, lexerPeekAhead_of_rest hrest, lexerPeekAhead_eq lx 2, hrest]
    simp [hparen]
  | paren hmore =>
    have hnext : lx.lexerPeekAhead 2 ≠ '(' := by
      rw [lexerPeekAhead_eq, hrest]
      cases more with
      | nil => decide
      | cons c more => simpa using hmore
    rw [expansionAt?, lexerPeekAhead_of_rest hrest]
    simp [hparen, hnext]
  | @unbraced c _ hc =>
    have hbrace : c ≠ lbrace := by
      rintro rfl
      exact absurd hc (by decide)
    have hopen : c ≠ '(' := by
      rintro rfl
      exact absurd hc (by decide)
    rw [expansionAt?, lexerPeekAhead_of_rest hrest]
    simp [hbrace, hopen, hstart c hc]

theorem Opens.length_pos (h : Opens opener more mode) : 0 < opener.length := by
  cases h <;> simp

theorem Opens.ne_nil (h : Opens opener more mode) : opener ≠ [] :=
  List.length_pos_iff.mp h.length_pos

theorem Opens.mode_ne (h : Opens opener more mode) :
    mode ≠ .normal ∧ mode ≠ .heredocBody ∧ mode ≠ .doubleQuote := by
  cases h <;> decide

/-- The mode of the expansion is entered behind what opens it. -/
structure Entered (lx lx₁ : Lexer) (mode : LexMode) (n : ℕ) : Prop where
  sound : Sound lx₁
  input : lx₁.input = lx.input
  pos : lx₁.pos = lx.pos + n
  modeStack : lx₁.modeStack = mode :: lx.modeStack
  tokens : lx₁.tokens = lx.tokens
  parts : lx₁.parts = lx.parts

/-- The lexer with another mode, `n` characters further. -/
theorem Sound.entered (h : Sound lx) (hstack : ∀ mode ∈ lx.modeStack, mode = .doubleQuote)
    (hopens : Opens opener more mode) (hrest : lx.rest = opener ++ more) :
    Entered lx ((lx.lexerPushMode mode).advancedBy opener.length) mode opener.length where
  sound := (h.answered_enter hstack hopens.mode_ne.1 hopens.mode_ne.2.1 hopens.length_pos
    (length_le_of_rest hrest (.inl hopens.ne_nil))).sound
  input := by simp
  pos := by simp
  modeStack := by simp [lexerPushMode]
  tokens := by simp [lexerPushMode]
  parts := by simp [Lexer.parts, lexerPushMode]

theorem enter_of_opens (hopens : Opens opener more mode) (hrest : lx.rest = opener ++ more) :
    lx.enter mode opener.length =
      .ok (.done (.incomplete, (lx.lexerPushMode mode).advancedBy opener.length)) := by
  have hrun : (lx.lexerPushMode mode).lexerAdvanceNChars opener.length =
      .ok ((lx.lexerPushMode mode).advancedBy opener.length) :=
    if_pos (length_le_of_rest hrest (.inl hopens.ne_nil))
  rw [enter, hrun]
  rfl

theorem isWordChar_of_start {c : Char} (h : isNameStartChar c = true) : isWordChar c = true := by
  have hstart : ∀ d, isNameStartChar d = false → d ≠ c := by
    rintro d hd rfl
    rw [h] at hd
    cases hd
  have hdelimiter : isDelimiterChar c = false := by
    rw [isDelimiterChar, List.contains_eq_mem, decide_eq_false_iff_not]
    intro hmem
    have hall : ([' ', tab, newline, ';', '&', '|', '<', '>', '(', ')'].all fun d =>
        !isNameStartChar d) = true := by decide
    exact hstart c (by simpa using List.all_eq_true.mp hall c hmem) rfl
  simp [isWordChar, hdelimiter, Ne.symm (hstart nul (by decide))]

theorem normalTurn_of_opens (hopens : Opens opener more mode) (hrest : lx.rest = opener ++ more) :
    normalTurn lx =
      .ok (.done (.incomplete, (lx.lexerPushMode mode).advancedBy opener.length)) := by
  obtain ⟨hpeek, hnext⟩ := hopens.peek hrest
  have hpos := pos_lt_of_peek hpeek (by decide)
  have hend : ¬ lx.lexerAtEnd = true := by rw [lexerAtEnd_iff]; omega
  have hturn := redirectionTurn_eq_characterTurn hpos (by rw [hpeek]; decide)
    (by rw [hpeek]; decide) (by rw [hpeek]; decide)
  have hstart : ∀ c, (isNameStartChar c || isSpecialParamChar c) = true →
      (isWordChar c || isSpecialParamChar c) = true := by
    intro c hc
    rw [Bool.or_eq_true] at hc ⊢
    exact hc.imp_left isWordChar_of_start
  have hexpansion := hopens.expansionAt hrest hstart
  simp +decide [normalTurn, hend, hpeek, hturn, characterTurn, hnext, hexpansion,
    enter_of_opens hopens hrest]

theorem dquoteTurn_of_opens (hopens : Opens opener more mode) (hrest : lx.rest = opener ++ more) :
    dquoteTurn lx =
      .ok (.done (.incomplete, (lx.lexerPushMode mode).advancedBy opener.length)) := by
  obtain ⟨hpeek, hnext⟩ := hopens.peek hrest
  have hpos := pos_lt_of_peek hpeek (by decide)
  have hend : ¬ lx.lexerAtEnd = true := by rw [lexerAtEnd_iff]; omega
  have hexpansion := hopens.expansionAt hrest (fun c hc => hc)
  simp +decide [dquoteTurn, hend, hpeek, hnext, hexpansion, enter_of_opens hopens hrest]

/-! ## The start of a word -/

theorem parts_ensureWord (h : lx.ensureWord = .ok lx') : lx'.parts = lx.parts := by
  unfold ensureWord at h
  split_ifs at h with hword
  · cases h
    rfl
  · unfold lexerStartWord at h
    split_ifs at h with htok
    cases h
    rw [not_ne_iff] at htok
    simp [Lexer.parts, htok]

theorem parts_startQuoted (h : lx.startQuoted = .ok lx') : lx'.parts = lx.parts := by
  unfold startQuoted at h
  cases hensure : lx.ensureWord with
  | error e =>
    rw [hensure] at h
    cases h
  | ok lx₁ =>
    rw [hensure] at h
    rw [← parts_ensureWord hensure]
    simp only [bind, Except.bind, onWord] at h
    cases htok : lx₁.currentToken with
    | none =>
      rw [htok] at h
      cases h
    | some tok =>
      rw [htok] at h
      cases h
      simp [Lexer.parts, htok]

theorem Started.rest (h : Started lx lx') : lx'.rest = lx.rest := by
  rw [Lexer.rest, h.input, h.pos]
  rfl

/-- The mode of an expansion is entered. -/
theorem Sound.enters (h : Sound lx) (hmeets : lx.MeetsExpansions)
    (hopens : Opens opener more mode) (hrest : lx.rest = opener ++ more) :
    ∃ lx₁, lx.lexerProcessMode = .ok (.incomplete, lx₁) ∧
      Entered lx lx₁ mode opener.length := by
  rcases hmeets with hmode | hmode
  · refine ⟨_, ?_, h.entered (by simp [h.modeStack_eq_nil hmode]) hopens hrest⟩
    rw [lexerProcessMode, hmode]
    exact iterate_done (normalTurn_of_opens hopens hrest) _
  · obtain ⟨lx', hstart, hstarted⟩ := h.holds_startQuoted (by rw [hmode]; decide)
    have hrest' : lx'.rest = opener ++ more := hstarted.rest.trans hrest
    have hstack : ∀ mode ∈ lx'.modeStack, mode = .doubleQuote := by
      rw [hstarted.modeStack]
      exact h.doubleQuote_stack hmode
    have hentered := hstarted.sound.entered hstack hopens hrest'
    refine ⟨_, ?_, hentered.sound, hentered.input.trans hstarted.input, ?_, ?_,
      hentered.tokens.trans hstarted.tokens, hentered.parts.trans (parts_startQuoted hstart)⟩
    · rw [lexerProcessMode, hmode]
      simp only [lexerProcessDquote, hstart, bind, Except.bind]
      exact iterate_done (dquoteTurn_of_opens hopens hrest') _
    · rw [hentered.pos, hstarted.pos]
    · rw [hentered.modeStack, hstarted.modeStack]

/-! ## How a text nests -/

/-- The groups of a text of the shell. -/
inductive Group where
  | paren | brace
  deriving DecidableEq, Repr

/-- A character that means nothing to the nesting of a text. -/
def isOrdinary (c : Char) : Bool :=
  !(['(', ')', lbrace, rbrace, '$', '#', squote, dquote, backtick, backslash].contains c)

/-- What is quoted or escaped stands for itself, whatever brackets it contains. -/
def shellText : Brackets Char Group where
  atom a _ := (∃ c, isOrdinary c = true ∧ a = [c]) ∨ (∃ c, a = [backslash, c]) ∨
    ∃ (q : Quoting) (s : List Char), (q = .single → squote ∉ s) ∧ a = q.text s
  stray _ := False
  opening
    | .paren, o => o = ['('] ∨ o = ['$', '(']
    | .brace, o => o = ['$', lbrace]
  closing
    | .paren, c => c = [')']
    | .brace, c => c = [rbrace]
  atom_closing _ := Iff.rfl

theorem matched_ordinary {top : Bool} {s t : List Char} (hs : ∀ c ∈ s, isOrdinary c = true)
    (ht : shellText.Matched top t) : shellText.Matched top (s ++ t) := by
  induction s with
  | nil => exact ht
  | cons c s ih =>
    exact .atom (a := [c]) (.inl ⟨c, hs c List.mem_cons_self, rfl⟩)
      (ih fun d hd => hs d (List.mem_cons_of_mem _ hd))

/-! ## Moving on -/

theorem sameContext_advanced (lx : Lexer) : SameContext lx lx.advanced := sameContext_advancedBy 1 lx

theorem sameContext_countLine (lx : Lexer) : SameContext lx lx.countLine :=
  ⟨rfl, rfl, rfl, rfl, rfl, rfl, rfl⟩

theorem quotedIn_congr (h : lx'.modeStack = lx.modeStack) (part : Part) :
    lx'.quotedIn part = lx.quotedIn part := by
  rw [quotedIn, quotedIn, lexerInMode, lexerInMode, h]

@[simp] theorem quotedIn_paramKind (lx : Lexer) (part : Part) :
    (lx.quotedIn part).paramKind = part.paramKind := by
  rw [quotedIn]
  split <;> rfl

/-- The mode of an expansion is no quote. -/
theorem quotedIn_cons (h : lx'.modeStack = mode :: lx.modeStack) (hmode : mode ≠ .doubleQuote)
    (part : Part) : lx'.quotedIn part = lx.quotedIn part := by
  simp [quotedIn, lexerInMode, h, hmode.symm]

/-- Characters that are passed over are among those that are read. -/
theorem adds_moved {stack : List LexMode} {m n : ℕ} (h : SameContext lx lx₁)
    (hpos : lx₁.pos = lx.pos + m) :
    Adds lx lx' stack (m + n) part ↔ Adds lx₁ lx' stack n part := by
  have hparts : lx₁.parts = lx.parts := by rw [Lexer.parts, h.currentToken]; rfl
  constructor
  · rintro ⟨hinput, hend, hstack, htokens, hword, hadded⟩
    exact ⟨hinput.trans h.input.symm, by omega, hstack, htokens.trans h.tokens.symm, hword,
      by rw [hadded, hparts]⟩
  · rintro ⟨hinput, hend, hstack, htokens, hword, hadded⟩
    exact ⟨hinput.trans h.input, by omega, hstack, htokens.trans h.tokens, hword,
      by rw [hadded, hparts]⟩

theorem adds_closeExpansion {type : PartType} {text : List Char} (hword : lx.inWord = true)
    (h : lx.closeExpansion type text = .ok lx') :
    Adds lx lx' lx.modeStack.tail 0
      (lx.quotedIn { type, text := some (String.ofList text) }) := by
  obtain ⟨u, hu, hpop⟩ := except_bind_eq_ok.mp h
  unfold onWord at hu
  cases hpop
  cases htok : lx.currentToken with
  | none =>
    rw [htok] at hu
    cases hu
  | some tok =>
    rw [htok] at hu
    cases hu
    refine ⟨rfl, rfl, rfl, rfl, hword, ?_⟩
    simp [Lexer.parts, lexerPopMode, htok, Token.addPart]

theorem Sound.closeExpansion (h : Sound lx) (hword : lx.inWord = true) (type : PartType)
    (text : List Char) : ∃ lx', lx.closeExpansion type text = .ok lx' := by
  obtain ⟨tok, htok⟩ := h.currentToken hword
  exact ⟨_, by rw [Lexer.closeExpansion, onWord, htok]; rfl⟩

theorem lexerAdvance_eq {t : Lexer} (h : lx.lexerAdvance = .ok t) : t = lx.advanced := by
  unfold lexerAdvance at h
  split_ifs at h
  exact (Except.ok.inj h).symm

/-- The function of the mode builds on the word that is there, or on a new one. -/
theorem Entered.ensureWord {k : ℕ} (h : Entered lx lx₁ mode k)
    (hmode : mode ≠ .heredocBody ∧ mode ≠ .doubleQuote) :
    ∃ lx₀, lx₁.ensureWord = .ok lx₀ ∧ Started lx₁ lx₀ ∧ ∀ lx₂ n part,
      Adds lx lx₂ lx.modeStack (k + n) (lx.quotedIn part) ↔
        Adds lx₀ lx₂ lx₀.modeStack.tail n (lx₀.quotedIn part) := by
  have hcurrent : lx₁.lexerCurrentMode = mode := by simp [lexerCurrentMode, h.modeStack]
  obtain ⟨lx₀, hensure, hstarted⟩ := h.sound.holds_ensureWord (by rw [hcurrent]; exact hmode.1)
  have hstack : lx₀.modeStack = mode :: lx.modeStack := hstarted.modeStack.trans h.modeStack
  have hpos : lx₀.pos = lx.pos + k := hstarted.pos.trans h.pos
  have hinput : lx₀.input = lx.input := hstarted.input.trans h.input
  have htokens : lx₀.tokens = lx.tokens := hstarted.tokens.trans h.tokens
  have hparts : lx₀.parts = lx.parts := (parts_ensureWord hensure).trans h.parts
  refine ⟨lx₀, hensure, hstarted, fun lx₂ n part => ?_⟩
  rw [quotedIn_cons hstack hmode.2, hstack, List.tail_cons]
  constructor
  · rintro ⟨hi, hp, hs, ht, hw, ha⟩
    exact ⟨hi.trans hinput.symm, by omega, hs, ht.trans htokens.symm, hw, by rw [ha, hparts]⟩
  · rintro ⟨hi, hp, hs, ht, hw, ha⟩
    exact ⟨hi.trans hinput, by omega, hs, ht.trans htokens, hw, by rw [ha, hparts]⟩

theorem Entered.rest {k : ℕ} (h : Entered lx lx₁ mode k) : lx₁.rest = lx.rest.drop k := by
  rw [Lexer.rest, Lexer.rest, h.input, h.pos, List.drop_drop]

/-! ## Loops that read an expansion -/

section loops

variable {τ : Type} {turn : τ → Except Fault (Next τ Answer)} {l : τ → Lexer} {s t : τ} {m n : ℕ}

/-- The loop ends `n` characters further, where the expansion has become the given part. -/
def Closes (turn : τ → Except Fault (Next τ Answer)) (l : τ → Lexer) (s : τ) (n : ℕ)
    (part : Part) : Prop :=
  ∃ k lx', iterate turn k s = .ok (.ok, lx') ∧
    Adds (l s) lx' (l s).modeStack.tail n ((l s).quotedIn part)

theorem closes_again (hturn : turn s = .ok (.again t)) (h : SameContext (l s) (l t))
    (hpos : (l t).pos = (l s).pos + m) :
    Closes turn l s (m + n) part ↔ Closes turn l t n part := by
  have hquoted := quotedIn_congr h.modeStack part
  constructor
  · rintro ⟨k, lx', hrun, hadds⟩
    cases k with
    | zero => cases hrun
    | succ k =>
      rw [iterate_again hturn] at hrun
      refine ⟨k, lx', hrun, ?_⟩
      rw [h.modeStack, hquoted]
      exact (adds_moved h hpos).mp hadds
  · rintro ⟨k, lx', hrun, hadds⟩
    rw [h.modeStack, hquoted] at hadds
    exact ⟨k + 1, lx', (iterate_again hturn k).trans hrun, (adds_moved h hpos).mpr hadds⟩

theorem closes_done (hturn : turn s = .ok (.done (.ok, lx'))) :
    Closes turn l s n part ↔ Adds (l s) lx' (l s).modeStack.tail n ((l s).quotedIn part) := by
  constructor
  · rintro ⟨k, lx'', hrun, hadds⟩
    cases k with
    | zero => cases hrun
    | succ k =>
      rw [iterate_done hturn] at hrun
      cases hrun
      exact hadds
  · exact fun hadds => ⟨1, lx', iterate_done hturn 0, hadds⟩

/-- A loop that reports something else does not end so. -/
theorem not_closes {status : LexStatus} (hturn : turn s = .ok (.done (status, lx')))
    (hstatus : status ≠ .ok) : ¬ Closes turn l s n part := by
  rintro ⟨k, lx'', hrun, -⟩
  cases k with
  | zero => cases hrun
  | succ k =>
    rw [iterate_done hturn] at hrun
    cases hrun
    exact hstatus rfl

/-- The function of a mode that consists of such a loop. -/
theorem Entered.reads_iff_closes {start : Lexer → τ} {k : ℕ} (h : Entered lx lx₁ mode k) (n : ℕ)
    (part : Part) (hmode : mode ≠ .heredocBody ∧ mode ≠ .doubleQuote)
    (hprocess : lx₁.lexerProcessMode = lx₁.ensureWord >>= fun lx => iterate turn lx.turns (start lx))
    (hstart : ∀ lx, l (start lx) = lx)
    (hagain : ∀ s t, Sound (l s) → (l s).inWord = true → turn s = .ok (.again t) →
      Goes (l s) (l t) ∧ (l t).inWord = true) :
    ∃ lx₀, Started lx₁ lx₀ ∧ ((∃ lx₂, lx₁.lexerProcessMode = .ok (.ok, lx₂) ∧
        Adds lx lx₂ lx.modeStack (k + n) (lx.quotedIn part)) ↔
      Closes turn l (start lx₀) n part) := by
  obtain ⟨lx₀, hensure, hstarted, hadds⟩ := h.ensureWord hmode
  refine ⟨lx₀, hstarted, ?_⟩
  rw [hprocess, hensure]
  simp only [bind, Except.bind, hadds _ n part, Closes, hstart]
  constructor
  · rintro ⟨lx₂, hrun, hread⟩
    exact ⟨_, lx₂, hrun, hread⟩
  · rintro ⟨n, lx₂, hrun, hread⟩
    refine ⟨lx₂, ?_, hread⟩
    refine iterate_enough (I := fun s => Sound (l s) ∧ (l s).inWord = true ∧
        (l s).input = lx₀.input) (fun s => (l s).input.length - (l s).pos) ?_ ?_ hrun ?_
    · rintro s t ⟨hsound, hword, hin⟩ hturn
      obtain ⟨hgoes, hword'⟩ := hagain s t hsound hword hturn
      refine ⟨⟨hgoes.sound, hword', hgoes.input.trans hin⟩, ?_⟩
      have hlt := hgoes.pos
      have hle := hgoes.sound.inside
      rw [hgoes.input] at hle ⊢
      omega
    · rw [hstart]
      exact ⟨hstarted.sound, hstarted.inWord, rfl⟩
    · rw [hstart, turns]
      omega

end loops

end Migash.Lexer
