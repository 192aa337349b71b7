import Migash.Lexer.Assignments
import Migash.Lexer.PlainWord

/-! # Quoted values of variables

`set` prints a variable with the shortest of three quoted forms of its value. The line
is an assignment of the value again unless the value is empty, or has a newline and
the form with backslashes is the shortest: a backslash in front of a newline is a line
continuation.
-/

namespace Migash.Lexer

open Library

/-! ## The three forms -/

/-- `needs_backslash_escape`. -/
def needsBackslashEscape (c : Char) : Bool :=
  ['|', '&', ';', '<', '>', '(', ')', '$', backtick, backslash, dquote, squote, ' ', tab, newline,
    '*', '?', '[', ']', '#', '~', lbrace, rbrace].contains c

/-- The characters that `quote_double` puts a backslash before. -/
def needsDoubleEscape (c : Char) : Bool := c = '$' ∨ c = backtick ∨ c = backslash

/-- A backslash before each of the characters that need one. -/
def escapeWith (needs : Char → Bool) (value : List Char) : List Char :=
  value.flatMap fun c => if needs c then [backslash, c] else [c]

/-- `quote_backslash`. -/
def quoteBackslash (value : List Char) : List Char := escapeWith needsBackslashEscape value

/-- `can_single_quote`. -/
def canSingleQuote (value : List Char) : Bool := !value.contains squote

/-- `quote_single`. -/
def quoteSingle (value : List Char) : List Char := squote :: (value ++ [squote])

/-- `can_double_quote`. -/
def canDoubleQuote (value : List Char) : Bool := !value.contains dquote

/-- `quote_double`. -/
def quoteDouble (value : List Char) : List Char :=
  dquote :: (escapeWith needsDoubleEscape value ++ [dquote])

/-- The shorter one of two forms, the first one if they are equally long. -/
def shorter (shortest form : List Char) : List Char :=
  if form.length < shortest.length then form else shortest

/-- The value as `lib_quote` quotes it. -/
def quoteShortest (value : List Char) : List Char :=
  let shortest := quoteBackslash value
  let shortest := if canDoubleQuote value then shorter shortest (quoteDouble value) else shortest
  if canSingleQuote value then shorter shortest (quoteSingle value) else shortest

/-- `lib_quote`. -/
def libQuote (key value : List Char) : List Char := key ++ '=' :: quoteShortest value

/-! ## Which form is the shortest -/

section Lengths

variable {value : List Char}

theorem length_escapeWith (needs : Char → Bool) (value : List Char) :
    (escapeWith needs value).length = value.length + value.countP needs := by
  induction value with
  | nil => rfl
  | cons c cs ih =>
    have hcons : escapeWith needs (c :: cs) =
        (if needs c then [backslash, c] else [c]) ++ escapeWith needs cs := rfl
    rw [hcons, List.length_append, ih, List.length_cons, List.countP_cons]
    split_ifs <;> simp only [List.length_cons, List.length_nil] <;> omega

/-- The form with backslashes is no longer than the others that are possible. -/
def PrefersBackslash (value : List Char) : Prop :=
  (dquote ∈ value ∨
    value.countP needsBackslashEscape ≤ value.countP needsDoubleEscape + 2) ∧
  (squote ∈ value ∨ value.countP needsBackslashEscape ≤ 2)

theorem length_quoteDouble :
    (quoteDouble value).length = value.length + value.countP needsDoubleEscape + 2 := by
  simp only [quoteDouble, List.length_cons, List.length_append, length_escapeWith, List.length_nil]

theorem length_quoteSingle : (quoteSingle value).length = value.length + 2 := by
  simp only [quoteSingle, List.length_cons, List.length_append, List.length_nil]

theorem shorter_cases (shortest form : List Char) :
    (form.length < shortest.length ∧ shorter shortest form = form) ∨
      (shortest.length ≤ form.length ∧ shorter shortest form = shortest) := by
  unfold shorter
  split_ifs with h
  · exact .inl ⟨h, rfl⟩
  · exact .inr ⟨Nat.le_of_not_lt h, rfl⟩

/-- The form that is chosen. -/
theorem quoteShortest_cases (value : List Char) :
    (PrefersBackslash value ∧ quoteShortest value = quoteBackslash value) ∨
      (¬ PrefersBackslash value ∧ dquote ∉ value ∧ quoteShortest value = quoteDouble value) ∨
      (¬ PrefersBackslash value ∧ squote ∉ value ∧ quoteShortest value = quoteSingle value) := by
  have hbackslash : (quoteBackslash value).length =
    value.length + value.countP needsBackslashEscape := length_escapeWith _ _
  have hdouble := @length_quoteDouble value
  have hsingle := @length_quoteSingle value
  unfold quoteShortest canDoubleQuote canSingleQuote PrefersBackslash
  by_cases hd : dquote ∈ value <;> by_cases hs : squote ∈ value <;>
    simp only [List.contains_eq_mem, hd, hs, decide_true, decide_false, Bool.not_true, Bool.not_false,
      if_true, if_false, Bool.false_eq_true, true_or, false_or, true_and, and_true, not_true,
      not_false_iff, false_and, and_false, or_false]
  · obtain ⟨h, hform⟩ | ⟨h, hform⟩ := shorter_cases (quoteBackslash value) (quoteSingle value)
    · exact .inr ⟨by omega, hform⟩
    · exact .inl ⟨by omega, hform⟩
  · obtain ⟨h, hform⟩ | ⟨h, hform⟩ := shorter_cases (quoteBackslash value) (quoteDouble value)
    · exact .inr ⟨by omega, hform⟩
    · exact .inl ⟨by omega, hform⟩
  · obtain ⟨h, hform⟩ | ⟨h, hform⟩ := shorter_cases (quoteBackslash value) (quoteDouble value)
    · rw [hform]
      obtain ⟨h', hform'⟩ | ⟨h', hform'⟩ := shorter_cases (quoteDouble value) (quoteSingle value)
      · exact .inr (.inr ⟨by omega, hform'⟩)
      · exact .inr (.inl ⟨by omega, hform'⟩)
    · rw [hform]
      obtain ⟨h', hform'⟩ | ⟨h', hform'⟩ := shorter_cases (quoteBackslash value) (quoteSingle value)
      · exact .inr (.inr ⟨by omega, hform'⟩)
      · exact .inl ⟨by omega, hform'⟩

end Lengths

/-! ## Numbers -/

section Numbers

variable {lx : Lexer} {c : Char} {cs more : List Char}

/-- The digits at the start do not stand in front of a redirection. -/
def NumberFree (cs : List Char) : Prop :=
  ∀ c, (cs.dropWhile Char.isDigit).head? = some c → isRedirectionStartChar c = false

theorem lexerPeekInteger_go (value count : ℕ) (cs : List Char) :
    ∃ n ≤ (cs.takeWhile Char.isDigit).length,
      (lexerPeekInteger.go value count cs).2 = count + n := by
  induction cs generalizing value count with
  | nil => exact ⟨0, Nat.le_refl _, rfl⟩
  | cons c cs ih =>
    rw [lexerPeekInteger.go]
    split_ifs with h
    · exact ⟨0, Nat.zero_le _, rfl⟩
    · rw [not_or, Bool.not_eq_true, Bool.not_eq_false'] at h
      obtain ⟨n, hn, hcount⟩ := ih (value * 10 + (c.toNat - 48)) (count + 1)
      rw [List.takeWhile_cons_of_pos h.1, hcount]
      exact ⟨n + 1, by simpa using hn, by omega⟩

theorem getElem?_takeWhile_digits {n : ℕ} (hn : n ≤ (cs.takeWhile Char.isDigit).length)
    (h : NumberFree cs) (hget : cs[n]? = some c) : isRedirectionStartChar c = false := by
  rw [← List.takeWhile_append_dropWhile (p := Char.isDigit) (l := cs)] at hget
  rcases Nat.lt_or_eq_of_le hn with hlt | rfl
  · rw [List.getElem?_append_left hlt] at hget
    have hdigit := List.mem_takeWhile_imp (List.mem_of_getElem? hget)
    simp only [isRedirectionStartChar, decide_eq_false_iff_not]
    rintro (rfl | rfl)
    · exact absurd hdigit (by decide)
    · exact absurd hdigit (by decide)
  · rw [List.getElem?_append_right (Nat.le_refl _), Nat.sub_self, ← List.head?_eq_getElem?] at hget
    exact h c hget

theorem ioNumber?_none_of_numberFree (h : NumberFree lx.rest) : lx.ioNumber? = none := by
  have hnone : lx.integerBeforeRedirection? = none := by
    unfold integerBeforeRedirection?
    refine if_neg fun hcond => ?_
    obtain ⟨n, hn, hcount⟩ := lexerPeekInteger_go 0 0 lx.rest
    have hdigits : lx.lexerPeekInteger.2 = n := hcount.trans (Nat.zero_add n)
    have hpeek : isRedirectionStartChar (lx.lexerPeekAhead lx.lexerPeekInteger.2) = false := by
      rw [hdigits, lexerPeekAhead_eq, List.getD_eq_getElem?_getD]
      cases hget : lx.rest[n]? with
      | none => decide
      | some c => exact getElem?_takeWhile_digits hn h hget
    exact Bool.false_ne_true (hpeek.symm.trans hcond.2)
  unfold ioNumber?
  rw [hnone, ite_self]

theorem NumberFree.cons_of_ordinary (hc : isOrdinaryChar c = true) (h : NumberFree cs) :
    NumberFree (c :: cs) := by
  intro d hd
  by_cases hdigit : c.isDigit = true
  · rw [List.dropWhile_cons_of_pos hdigit] at hd
    exact h d hd
  · rw [List.dropWhile_cons_of_neg hdigit, List.head?_cons, Option.some.injEq] at hd
    subst hd
    have hmeta := (isWordChar_iff.mp (isOrdinaryChar_iff.mp hc).1).2.2.2.1
    simp only [lexerIsMetachar, List.contains_eq_mem, List.mem_cons, List.not_mem_nil, or_false,
      decide_eq_false_iff_not, not_or] at hmeta
    simp [isRedirectionStartChar, hmeta]

theorem numberFree_nil : NumberFree [] := nofun

theorem numberFree_cons (hdigit : c.isDigit = false) (hc : isRedirectionStartChar c = false) :
    NumberFree (c :: cs) := by
  intro d hd
  rw [List.dropWhile_cons_of_neg (by rw [hdigit]; decide), List.head?_cons, Option.some.injEq] at hd
  exact hd ▸ hc

/-- In the form with backslashes no redirection follows a digit. -/
theorem numberFree_quoteBackslash {value : List Char} (h : ∀ c ∈ value, needsBackslashEscape c = false →
    isOrdinaryChar c = true) : NumberFree (quoteBackslash value) := by
  induction value with
  | nil => exact numberFree_nil
  | cons c cs ih =>
    have hcons : quoteBackslash (c :: cs) =
        (if needsBackslashEscape c then [backslash, c] else [c]) ++ quoteBackslash cs := rfl
    rw [hcons]
    split_ifs with hc
    · exact numberFree_cons rfl rfl
    · exact (ih fun d hd => h d (List.mem_cons_of_mem c hd)).cons_of_ordinary
        (h c List.mem_cons_self (by simpa using hc))

end Numbers

/-! ## The word under construction -/

/-- The word that holds the text of an assignment so far. -/
def assigning (text : List Char) (quoted : Bool) : Token :=
  { Token.ordinary text with hasEqualsBeforeQuote := true, wasQuoted := quoted }

/-- The lexer in the middle of the word, with the text in front of the given rest. -/
structure Assigning (text more : List Char) (lx : Lexer) : Prop where
  rest : lx.rest = more
  modeStack : lx.modeStack = []
  inWord : lx.inWord = true
  tokens : lx.tokens = []
  currentToken : ∃ quoted, lx.currentToken = some (assigning text quoted)

section Reading

variable {lx : Lexer} {c : Char} {text more name value : List Char}

theorem appendChar_assigning (text : List Char) (quoted : Bool) (c : Char) :
    (assigning text quoted).appendChar false false c = assigning (text ++ [c]) quoted := by
  simp only [assigning, Token.ordinary, Token.appendChar, List.getLast?_singleton, and_self, if_true,
    List.dropLast_singleton, List.nil_append, Option.map_some]
  rw [String.push_eq_append, String.singleton_eq_ofList, ← String.ofList_append]

theorem addOrdinary_assigning (text : List Char) (quoted : Bool) (c : Char) :
    (assigning text quoted).addOrdinary c = assigning (text ++ [c]) quoted :=
  appendChar_assigning text quoted c

/-- A character that stands for itself goes into the word. -/
theorem Assigning.ordinary (h : Assigning text (c :: more) lx) (hc : isOrdinaryChar c = true)
    (hfree : NumberFree (c :: more)) :
    ∃ lx', normalTurn lx = .ok (.again lx') ∧ Assigning (text ++ [c]) more lx' := by
  obtain ⟨quoted, htok⟩ := h.currentToken
  have hword : WordInStep lx := by rw [WordInStep, h.inWord, htok]; rfl
  obtain ⟨lx', hturn, hread⟩ := normalTurn_ordinary hword h.rest hc
    (ioNumber?_none_of_numberFree (h.rest ▸ hfree))
  refine ⟨lx', hturn, ?_, hread.modeStack.trans h.modeStack, hread.inWord,
    hread.tokens.trans h.tokens, quoted, ?_⟩
  · have hrest := hread.rest
    rw [h.rest] at hrest
    exact (List.cons.inj hrest).2.symm
  · rw [hread.currentToken, htok]
    exact congrArg some (addOrdinary_assigning text quoted c)

/-- So does a character behind a backslash. -/
theorem Assigning.escaped (h : Assigning text (backslash :: c :: more) lx) (hnewline : c ≠ newline)
    (hnul : c ≠ nul) :
    ∃ lx', normalTurn lx = .ok (.again lx') ∧ Assigning (text ++ [c]) more lx' := by
  obtain ⟨quoted, htok⟩ := h.currentToken
  have hpeek := lexerPeek_of_rest h.rest
  have hahead := lexerPeekAhead_of_rest h.rest
  have hnumber : lx.ioNumber? = none :=
    ioNumber?_none_of_numberFree (h.rest ▸ numberFree_cons rfl rfl)
  have hadvance := lexerAdvance_of_rest h.rest
  have hrest : lx.advanced.rest = c :: more := rest_advanced h.rest
  let lx₁ : Lexer := { lx.advanced with currentToken := some (assigning (text ++ [c]) true) }
  have happend : (lx.advanced.onWord fun tok =>
      { tok.appendChar false false c with wasQuoted := true }) = .ok lx₁ := by
    rw [onWord, advanced_currentToken, htok]
    dsimp only
    rw [appendChar_assigning]
    rfl
  have hrest₁ : lx₁.rest = c :: more := hrest
  have hturn := redirectionTurn_of_ioNumber?_none (pos_lt_of_rest h.rest) hnumber
    (by rw [hpeek]; decide) (by rw [hpeek]; decide)
  have hcharacter : lx.characterTurn = .ok (.again lx₁.advanced) := by
    rw [characterTurn, hpeek, hahead]
    simp only [if_true, if_neg hnul, ensureWord, if_pos h.inWord, hadvance, happend,
      lexerAdvance_of_rest hrest₁, bind, Except.bind, pure, Except.pure]
  refine ⟨lx₁.advanced, ?_, rest_advanced hrest₁, ?_, ?_, ?_, true, ?_⟩
  · rw [normalTurn, lexerAtEnd_of_rest h.rest, hpeek, hahead]
    simp only [Bool.false_eq_true, if_false, hnewline, and_false, hturn, hcharacter]
    rfl
  · rw [advanced_modeStack]
    exact advanced_modeStack.trans h.modeStack
  · rw [advanced_inWord]
    exact advanced_inWord.trans h.inWord
  · rw [advanced_tokens]
    exact advanced_tokens.trans h.tokens
  · rw [advanced_currentToken]

/-- A newline behind a backslash goes away, and the word goes on unless the input ends there. -/
theorem Assigning.continued (h : Assigning text (backslash :: newline :: more) lx) :
    ∃ lx', Assigning text more lx' ∧
      normalTurn lx = .ok (if more = [] then .done (.incomplete, lx') else .again lx') := by
  have hadvance := lexerAdvance_of_rest h.rest
  have hrest : lx.advanced.rest = newline :: more := rest_advanced h.rest
  have hrest₁ : lx.advanced.advanced.rest = more := rest_advanced hrest
  refine ⟨lx.advanced.advanced, ⟨hrest₁, ?_, ?_, ?_, ?_⟩, ?_⟩
  · rw [advanced_modeStack, advanced_modeStack, h.modeStack]
  · rw [advanced_inWord, advanced_inWord, h.inWord]
  · rw [advanced_tokens, advanced_tokens, h.tokens]
  · rw [advanced_currentToken, advanced_currentToken]
    exact h.currentToken
  · rw [normalTurn, lexerAtEnd_of_rest h.rest, lexerPeek_of_rest h.rest,
      lexerPeekAhead_of_rest h.rest]
    simp only [Bool.false_eq_true, if_false, and_self, if_true, hadvance, lexerAdvance_of_rest hrest,
      bind, Except.bind, pure, Except.pure]
    by_cases hmore : more = []
    · rw [lexerAtEnd_of_rest_nil (hrest₁.trans hmore), if_pos hmore]
      rfl
    · obtain ⟨d, ds, rfl⟩ := List.exists_cons_of_ne_nil hmore
      rw [lexerAtEnd_of_rest hrest₁, if_neg hmore]
      rfl

/-- A run of turns, each of which takes at least a character. -/
def Reaches (lx : Lexer) (length : ℕ) (lx' : Lexer) : Prop :=
  ∃ k ≤ length, ∀ n, iterate normalTurn (k + n) lx = iterate normalTurn n lx'

theorem Reaches.refl (lx : Lexer) : Reaches lx 0 lx := ⟨0, Nat.le_refl 0, fun n => by rw [Nat.zero_add]⟩

theorem Reaches.head {lx' lx'' : Lexer} {length m : ℕ} (hturn : normalTurn lx = .ok (.again lx'))
    (h : Reaches lx' length lx'') (hm : length < m) : Reaches lx m lx'' := by
  obtain ⟨k, hk, hrun⟩ := h
  refine ⟨k + 1, by omega, fun n => ?_⟩
  rw [Nat.add_right_comm, iterate_again hturn, hrun]

theorem isOrdinaryChar_of_isNameChar (h : isNameChar c = true) : isOrdinaryChar c = true := by
  have hne : ∀ d, isNameChar d = false → c ≠ d := by
    rintro d hd rfl
    exact Bool.false_ne_true (hd.symm.trans h)
  refine isOrdinaryChar_iff.mpr ⟨isWordChar_iff.mpr ⟨hne _ rfl, hne _ rfl, hne _ rfl, ?_, hne _ rfl⟩,
    hne _ rfl, hne _ rfl, hne _ rfl, hne _ rfl, hne _ rfl, hne _ rfl, hne _ rfl⟩
  simp only [lexerIsMetachar, List.contains_eq_mem, List.mem_cons, List.not_mem_nil, or_false,
    decide_eq_false_iff_not, not_or]
  exact ⟨hne _ rfl, hne _ rfl, hne _ rfl, hne _ rfl, hne _ rfl, hne _ rfl, hne _ rfl⟩

theorem isNameChar_of_isName (h : isName name = true) : ∀ c ∈ name, isNameChar c = true := by
  cases name with
  | nil => exact fun c hc => absurd hc List.not_mem_nil
  | cons first others =>
    simp only [isName, Bool.and_eq_true, List.all_eq_true] at h
    intro c hc
    rcases List.mem_cons.mp hc with rfl | hc
    · exact isNameChar_of_start h.1
    · exact h.2 c hc

theorem numberFree_name (hname : ∀ c ∈ name, isNameChar c = true) (more : List Char) :
    NumberFree (name ++ '=' :: more) := by
  induction name with
  | nil => exact numberFree_cons rfl rfl
  | cons c cs ih =>
    rw [List.cons_append]
    exact (ih fun d hd => hname d (List.mem_cons_of_mem c hd)).cons_of_ordinary
      (isOrdinaryChar_of_isNameChar (hname c List.mem_cons_self))

/-- The name and the equals sign are read. -/
theorem reaches_name (hword : WordInStep lx) (hrest : lx.rest = name ++ '=' :: more)
    (hname : ∀ c ∈ name, isNameChar c = true) :
    ∃ lx', HasRead lx (name ++ ['=']) lx' ∧ Reaches lx (name.length + 1) lx' := by
  induction name generalizing lx with
  | nil =>
    obtain ⟨lx', hturn, hread⟩ := normalTurn_ordinary hword hrest (by decide)
      (ioNumber?_none_of_numberFree (by rw [hrest]; exact numberFree_name hname more))
    exact ⟨lx', hread, (Reaches.refl lx').head hturn Nat.zero_lt_one⟩
  | cons c cs ih =>
    obtain ⟨lx₁, hturn, hread⟩ := normalTurn_ordinary hword hrest
      (isOrdinaryChar_of_isNameChar (hname c List.mem_cons_self))
      (ioNumber?_none_of_numberFree (by rw [hrest]; exact numberFree_name hname more))
    have hrest₁ : lx₁.rest = cs ++ '=' :: more := by
      have := hread.rest
      rw [hrest] at this
      exact (List.cons.inj this).2.symm
    obtain ⟨lx', hread', hreaches⟩ := ih hread.wordInStep hrest₁
      fun d hd => hname d (List.mem_cons_of_mem c hd)
    exact ⟨lx', hread.trans hread', hreaches.head hturn (Nat.lt_succ_self _)⟩

theorem exists_assigning (hname : isName name = true) (more : List Char) :
    ∃ lx, Reaches (lexerCreateWithInput (name ++ '=' :: more)) (name.length + 1) lx ∧
      Assigning (name ++ ['=']) more lx ∧ lx.turns = name.length + more.length + 2 := by
  have hword : WordInStep (lexerCreateWithInput (name ++ '=' :: more)) := rfl
  have hrest : (lexerCreateWithInput (name ++ '=' :: more)).rest = name ++ '=' :: more := rfl
  obtain ⟨lx, hread, hreaches⟩ := reaches_name hword hrest (isNameChar_of_isName hname)
  refine ⟨lx, hreaches, ⟨?_, hread.modeStack, hread.inWord, hread.tokens, false, ?_⟩, ?_⟩
  · have hread' := hread.rest
    rw [hrest, List.append_cons name '=' more] at hread'
    exact (List.append_cancel_left hread').symm
  · rw [hread.currentToken]
    cases name with
    | nil => cases hname
    | cons c cs =>
      refine congrArg some ((Token.foldl_addOrdinary c (cs ++ ['='])).trans ?_)
      simp [assigning, Token.ordinary, List.contains_eq_mem]
  · rw [turns, hread.input]
    simp only [lexerCreateWithInput, List.length_append, List.length_cons]
    omega

/-! ## The form with backslashes -/

theorem isOrdinaryChar_of_unescaped (hc : needsBackslashEscape c = false) (hnul : c ≠ nul) :
    isOrdinaryChar c = true := by
  simp only [needsBackslashEscape, List.contains_eq_mem, List.mem_cons, List.not_mem_nil, or_false,
    decide_eq_false_iff_not, not_or] at hc
  simp only [isOrdinaryChar_iff, isWordChar_iff, lexerIsMetachar, List.contains_eq_mem, List.mem_cons,
    List.not_mem_nil, or_false, decide_eq_false_iff_not, not_or]
  tauto

/-- What is left of a value in the form with backslashes. -/
def withoutNewlines (value : List Char) : List Char := value.filter fun c => c ≠ newline

/-- The form with backslashes is read to its end, without the newlines. -/
theorem Assigning.backslashes (h : Assigning text (quoteBackslash value) lx) (hnul : nul ∉ value)
    (hlast : value.getLast? ≠ some newline) :
    ∃ lx', Reaches lx (quoteBackslash value).length lx' ∧
      Assigning (text ++ withoutNewlines value) [] lx' := by
  induction value generalizing text lx with
  | nil => exact ⟨lx, .refl lx, by rwa [withoutNewlines, List.filter_nil, List.append_nil]⟩
  | cons c cs ih =>
    rw [List.mem_cons, not_or] at hnul
    have hcons : quoteBackslash (c :: cs) =
        (if needsBackslashEscape c then [backslash, c] else [c]) ++ quoteBackslash cs := rfl
    have hlength : (quoteBackslash cs).length < (quoteBackslash (c :: cs)).length := by
      rw [hcons, List.length_append]
      split_ifs <;> simp
    have hlast' : cs.getLast? ≠ some newline := by
      cases cs with
      | nil => exact fun h => absurd h.symm (Option.some_ne_none _)
      | cons d ds => rwa [List.getLast?_cons_cons] at hlast
    by_cases hnewline : c = newline
    · subst hnewline
      have hmore : quoteBackslash cs ≠ [] := by
        cases cs with
        | nil => exact absurd rfl hlast
        | cons d ds =>
          intro hnil
          have := congrArg List.length hnil
          rw [quoteBackslash, length_escapeWith] at this
          simp at this
      have h' : Assigning text (backslash :: newline :: quoteBackslash cs) lx := h
      obtain ⟨lx₁, hassigning, hturn⟩ := h'.continued
      rw [if_neg hmore] at hturn
      obtain ⟨lx', hreaches, hend⟩ := ih hassigning hnul.2 hlast'
      exact ⟨lx', hreaches.head hturn hlength, hend⟩
    · have hstep : ∃ lx₁, normalTurn lx = .ok (.again lx₁) ∧
          Assigning (text ++ [c]) (quoteBackslash cs) lx₁ := by
        by_cases hc : needsBackslashEscape c = true
        · rw [hcons, if_pos hc] at h
          exact h.escaped hnewline (Ne.symm hnul.1)
        · have hordinary := isOrdinaryChar_of_unescaped (by simpa using hc) (Ne.symm hnul.1)
          rw [hcons, if_neg hc] at h
          refine h.ordinary hordinary (NumberFree.cons_of_ordinary hordinary ?_)
          exact numberFree_quoteBackslash fun d hd hneeds =>
            isOrdinaryChar_of_unescaped hneeds fun hd' => hnul.2 (hd' ▸ hd)
      obtain ⟨lx₁, hturn, hassigning⟩ := hstep
      obtain ⟨lx', hreaches, hend⟩ := ih hassigning hnul.2 hlast'
      refine ⟨lx', hreaches.head hturn hlength, ?_⟩
      rwa [List.append_assoc, List.singleton_append,
        show c :: withoutNewlines cs = withoutNewlines (c :: cs) by simp [withoutNewlines, hnewline]]
        at hend

/-- A newline at the end asks for more text. -/
theorem Assigning.unfinished (h : Assigning text (quoteBackslash (value ++ [newline])) lx)
    (hnul : nul ∉ value) :
    ∃ lx' lx'', Reaches lx (quoteBackslash value).length lx' ∧
      normalTurn lx' = .ok (.done (.incomplete, lx'')) ∧ lx''.tokens = [] ∧ lx''.rest = [] := by
  induction value generalizing text lx with
  | nil =>
    have h' : Assigning text [backslash, newline] lx := h
    obtain ⟨lx', hassigning, hturn⟩ := h'.continued
    exact ⟨lx, lx', .refl lx, hturn, hassigning.tokens, hassigning.rest⟩
  | cons c cs ih =>
    rw [List.mem_cons, not_or] at hnul
    have hcons (cs : List Char) : quoteBackslash (c :: cs) =
        (if needsBackslashEscape c then [backslash, c] else [c]) ++ quoteBackslash cs := rfl
    have hlength : (quoteBackslash cs).length < (quoteBackslash (c :: cs)).length := by
      rw [hcons, List.length_append]
      split_ifs <;> simp
    have hmore : quoteBackslash (cs ++ [newline]) ≠ [] := by
      intro hnil
      have := congrArg List.length hnil
      rw [quoteBackslash, length_escapeWith] at this
      simp at this
    have hstep : ∃ text' lx₁, normalTurn lx = .ok (.again lx₁) ∧
        Assigning text' (quoteBackslash (cs ++ [newline])) lx₁ := by
      rw [List.cons_append, hcons] at h
      by_cases hnewline : c = newline
      · subst hnewline
        have h' : Assigning text (backslash :: newline :: quoteBackslash (cs ++ [newline])) lx := h
        obtain ⟨lx₁, hassigning, hturn⟩ := h'.continued
        rw [if_neg hmore] at hturn
        exact ⟨text, lx₁, hturn, hassigning⟩
      · by_cases hc : needsBackslashEscape c = true
        · rw [if_pos hc] at h
          exact ⟨_, h.escaped hnewline (Ne.symm hnul.1)⟩
        · have hordinary := isOrdinaryChar_of_unescaped (by simpa using hc) (Ne.symm hnul.1)
          rw [if_neg hc] at h
          refine ⟨_, h.ordinary hordinary (NumberFree.cons_of_ordinary hordinary ?_)⟩
          refine numberFree_quoteBackslash fun d hd hneeds =>
            isOrdinaryChar_of_unescaped hneeds fun hd' => ?_
          rcases List.mem_append.mp hd with hmem | hmem
          · exact hnul.2 (hd' ▸ hmem)
          · exact absurd (hd'.symm.trans (List.mem_singleton.mp hmem)) (by decide)
    obtain ⟨text', lx₁, hturn, hassigning⟩ := hstep
    obtain ⟨lx', lx'', hreaches, hend⟩ := ih hassigning hnul.2
    exact ⟨lx', lx'', hreaches.head hturn hlength, hend⟩

/-! ## The forms with quotes -/

theorem quoteDouble_eq (h : dquote ∉ value) : quoteDouble value = Quoting.double.text value := by
  have hescape : escapeWith needsDoubleEscape value = Quoting.double.escape value := by
    induction value with
    | nil => rfl
    | cons c cs ih =>
      rw [List.mem_cons, not_or] at h
      have hspecial : needsDoubleEscape c = Quoting.isSpecial c := by
        simp [needsDoubleEscape, Quoting.isSpecial, List.contains_eq_mem, Ne.symm h.1]
      rw [escape_cons, ← ih h.2, Quoting.escapeChar, ← hspecial]
      rfl
  rw [quoteDouble, hescape]
  rfl

theorem quoteSingle_eq (value : List Char) : quoteSingle value = Quoting.single.text value := by
  have hescape : Quoting.single.escape value = value := by
    induction value with
    | nil => rfl
    | cons c cs ih => rw [escape_cons, ih]; rfl
  rw [Quoting.text, hescape]
  rfl

/-- A quote in a word starts a quoted text. -/
theorem Assigning.quote {q : Quoting} (h : Assigning text (q.mark :: more) lx) :
    normalTurn lx = .ok (.done (.incomplete, (lx.lexerPushMode q.mode).advancedBy 1)) := by
  have hpeek := lexerPeek_of_rest h.rest
  have hnumber : lx.ioNumber? = none :=
    ioNumber?_none_of_numberFree (h.rest ▸ numberFree_cons (by cases q <;> rfl) (by cases q <;> rfl))
  have hturn := redirectionTurn_of_ioNumber?_none (pos_lt_of_rest h.rest) hnumber
    (by rw [hpeek]; cases q <;> decide) (by rw [hpeek]; cases q <;> decide)
  have henter : lx.enter q.mode 1 =
      .ok (.done (.incomplete, (lx.lexerPushMode q.mode).advancedBy 1)) := by
    have hrest : (lx.lexerPushMode q.mode).rest = [q.mark] ++ more := h.rest
    have hadvance : (lx.lexerPushMode q.mode).lexerAdvanceNChars 1 =
        .ok ((lx.lexerPushMode q.mode).advancedBy 1) := lexerAdvanceNChars_of_rest hrest (by simp)
    rw [enter, hadvance]
    rfl
  have hcharacter : lx.characterTurn =
      .ok (.done (.incomplete, (lx.lexerPushMode q.mode).advancedBy 1)) := by
    rw [← henter, characterTurn, hpeek]
    cases q <;> simp +decide [Quoting.mode]
  rw [normalTurn, lexerAtEnd_of_rest h.rest, hpeek, hturn, hcharacter]
  cases q <;> simp +decide

/-- The function for the quotes reads up to the closing quote. -/
theorem Assigning.quoted {q : Quoting} (h : Assigning text (q.text value) lx)
    (hvalue : q = .single → squote ∉ value) :
    ∃ base lx', (∃ flag, base = assigning text flag) ∧
      ((lx.lexerPushMode q.mode).advancedBy 1).lexerProcessMode = .ok (.ok, lx'.lexerPopMode) ∧
      Building q base value [] lx' := by
  obtain ⟨flag, htok⟩ := h.currentToken
  let lx₀ := (lx.lexerPushMode q.mode).advancedBy 1
  have hrest : lx₀.rest = q.escape value ++ q.mark :: [] := by
    have hpushed : (lx.lexerPushMode q.mode).rest = [q.mark] ++ (q.escape value ++ [q.mark]) := h.rest
    exact rest_advancedBy_length hpushed
  have htok₀ : lx₀.currentToken = some (assigning text flag) := by
    rw [show lx₀ = (lx.lexerPushMode q.mode).advancedBy 1 from rfl]
    simp [lexerPushMode, htok]
  have hstack : lx₀.modeStack = [q.mode] := by
    rw [show lx₀ = (lx.lexerPushMode q.mode).advancedBy 1 from rfl]
    simp [lexerPushMode, h.modeStack]
  have hword : lx₀.inWord = true := by
    rw [show lx₀ = (lx.lexerPushMode q.mode).advancedBy 1 from rfl]
    simp [lexerPushMode, h.inWord]
  have htokens : lx₀.tokens = [] := by
    rw [show lx₀ = (lx.lexerPushMode q.mode).advancedBy 1 from rfl]
    simp [lexerPushMode, h.tokens]
  let lx₁ : Lexer := { lx₀ with currentToken := some (q.onto (assigning text flag) []) }
  have hstart : lx₀.startQuoted = .ok lx₁ := by
    have honto : { assigning text flag with wasQuoted := true } =
        q.onto (assigning text flag) [] := by
      simp [Quoting.onto, Quoting.parts]
    rw [startQuoted, ensureWord, if_pos hword]
    change lx₀.onWord _ = _
    rw [onWord, htok₀]
    dsimp only
    rw [honto]
  have hunquoted : Unquoted (assigning text flag) := by
    rintro part ⟨⟩
    exact ⟨rfl, rfl⟩
  have hbuilding : Building q (assigning text flag) [] (q.escape value ++ q.mark :: []) lx₁ :=
    ⟨hunquoted, hrest, hstack, rfl, hword, htokens⟩
  obtain ⟨k, hk⟩ : ∃ k, lx₁.turns = value.length + 1 + k := by
    have hlen := congrArg List.length hbuilding.rest
    rw [rest_length, List.length_append, List.length_singleton] at hlen
    have := @length_le_escape q value
    exact ⟨lx₁.turns - (value.length + 1), by rw [turns]; omega⟩
  obtain ⟨lx', hrun, hbuilt⟩ := iterate_turn hvalue hbuilding k
  refine ⟨_, lx', ⟨flag, rfl⟩, ?_, hbuilt⟩
  have hmode : lx₀.lexerProcessMode = (lx₀.startQuoted >>= fun lx => iterate q.turn lx.turns lx) := by
    rw [lexerProcessMode, lexerCurrentMode, hstack]
    cases q <;> rfl
  rw [← hk] at hrun
  rw [hmode, hstart]
  exact hrun

/-! ## The assignment that is read -/

/-- The token assigns the value to the name, all of it as it is. -/
structure IsAssignment (name value : List Char) (tok : Token) : Prop where
  type : tok.type = .assignmentWord
  name : tok.assignmentName = some (String.ofList name)
  literal : ∀ part ∈ tok.assignmentValue, part.type = .literal
  value : (tok.assignmentValue.flatMap fun part => (part.text.getD "").toList) = value

/-- The line for a variable is one word, the assignment of its value. -/
def ReadsBack (name value : List Char) : Prop :=
  ∃ lx tok, Tokenizes (lexerCreateWithInput (libQuote name value)) (.ok, lx, [tok]) ∧
    IsAssignment name value tok

/-- What `lexer_finalize_word` makes of a word that begins with a name and an equals sign. -/
theorem finalized_assignment (lx : Lexer) {tok : Token} {others : List Part}
    (hflag : tok.hasEqualsBeforeQuote = true) (hname : isName name = true)
    (hparts : tok.parts =
      { type := .literal, text := some (String.ofList (name ++ '=' :: value)) } :: others) :
    (lx.finalized tok).type = (if value = [] ∧ others = [] then .word else .assignmentWord) ∧
      (¬ (value = [] ∧ others = []) →
        (lx.finalized tok).assignmentName = some (String.ofList name) ∧
        (lx.finalized tok).assignmentValue =
          if value = [] then others
          else { type := .literal, text := some (String.ofList value) } :: others) := by
  have htake : (name ++ '=' :: value).takeWhile (· ≠ '=') = name :=
    takeWhile_equals (isName_noEquals hname)
  have hdrop : (name ++ '=' :: value).drop (name.length + 1) = value := by
    rw [List.drop_append]
    simp
  have hne : name ≠ [] := by
    rintro rfl
    cases hname
  unfold finalized
  by_cases hempty : value = [] ∧ others = []
  · have hpromote : tok.tryPromoteToAssignment = { tok with type := .word } := by
      simp only [Token.tryPromoteToAssignment, hflag, hparts, Option.getD_some, String.toList_ofList,
        htake, hdrop]
      rw [if_pos (.inr (.inr (.inr hempty)))]
    rw [hpromote, if_pos hempty]
    exact ⟨rfl, fun h => absurd hempty h⟩
  · have hpromote : tok.tryPromoteToAssignment =
        { tok with
          type := .assignmentWord
          parts := []
          assignmentName := some (String.ofList name)
          assignmentValue :=
            if value = [] then others
            else { type := .literal, text := some (String.ofList value) } :: others } := by
      simp only [Token.tryPromoteToAssignment, hflag, hparts, Option.getD_some, String.toList_ofList,
        htake, hdrop]
      rw [if_neg]
      simp [hne, hempty]
    rw [hpromote, if_neg hempty]
    exact ⟨rfl, fun _ => ⟨rfl, rfl⟩⟩

/-- The first call of the function for the normal mode, up to a turn that leaves it. -/
theorem lexerProcessMode_of_reaches {lx' : Lexer} {length : ℕ} {r : Answer} (hmode : lx.modeStack = [])
    (hreaches : Reaches lx length lx') (hlength : length < lx.turns)
    (hturn : normalTurn lx' = .ok (.done r)) : lx.lexerProcessMode = .ok r := by
  obtain ⟨k, hk, hrun⟩ := hreaches
  obtain ⟨n, hn⟩ : ∃ n, lx.turns = k + (n + 1) := ⟨lx.turns - (k + 1), by omega⟩
  rw [lexerProcessMode, lexerCurrentMode, hmode]
  change iterate normalTurn lx.turns lx = _
  rw [hn, hrun]
  exact iterate_done hturn n

/-- The word is handed over where the input ends. -/
theorem tokenizes_finalized {lx' : Lexer} {tok : Token} {length : ℕ} (hmode : lx.modeStack = [])
    (htokens : lx.tokens = []) (hreaches : Reaches lx length lx') (hlength : length < lx.turns)
    (hrest : lx'.rest = []) (hword : lx'.inWord = true) (htok : lx'.currentToken = some tok)
    (htokens' : lx'.tokens = []) (htype : (lx'.finalized tok).type ≠ .eof) :
    ∃ lx'', Tokenizes lx (.ok, lx'', [lx'.finalized tok]) := by
  have hprocess := lexerProcessMode_of_reaches hmode hreaches hlength
    (normalTurn_end hrest hword htok htokens')
  obtain ⟨lx'', hturn⟩ := tokenizeTurn_ended hprocess htype
  exact ⟨lx'', (tokenizes_iff htokens).mpr ⟨1, iterate_done hturn 0⟩⟩

/-- What is read of the form with backslashes, unless a newline ends it. -/
theorem tokenizes_backslashes (hname : isName name = true) (hnul : nul ∉ value)
    (hlast : value.getLast? ≠ some newline) :
    ∃ lx tok, Tokenizes (lexerCreateWithInput (name ++ '=' :: quoteBackslash value))
        (.ok, lx, [tok]) ∧
      (withoutNewlines value = [] → tok.type = .word) ∧
      (withoutNewlines value ≠ [] → IsAssignment name (withoutNewlines value) tok) := by
  obtain ⟨lx₁, ⟨k₁, hk₁, hrun₁⟩, hassigning, -⟩ := exists_assigning hname (quoteBackslash value)
  obtain ⟨lx₂, ⟨k₂, hk₂, hrun₂⟩, hend⟩ := hassigning.backslashes hnul hlast
  obtain ⟨flag, htok⟩ := hend.currentToken
  have hreaches : Reaches (lexerCreateWithInput (name ++ '=' :: quoteBackslash value))
      (name.length + 1 + (quoteBackslash value).length) lx₂ :=
    ⟨k₁ + k₂, by omega, fun n => by rw [Nat.add_assoc, hrun₁, hrun₂]⟩
  have hparts : (assigning (name ++ ['='] ++ withoutNewlines value) flag).parts =
      [{ type := .literal,
         text := some (String.ofList (name ++ '=' :: withoutNewlines value)) }] := by
    rw [← List.append_cons]
    rfl
  obtain ⟨htype, hassigned⟩ := finalized_assignment lx₂ rfl hname hparts
  obtain ⟨lx', htokenizes⟩ := tokenizes_finalized rfl rfl hreaches
    (by
      simp only [turns, lexerCreateWithInput, List.length_append, List.length_cons]
      omega)
    hend.rest hend.inWord htok hend.tokens (by rw [htype]; split_ifs <;> decide)
  refine ⟨lx', _, htokenizes, fun hempty => ?_, fun hne => ?_⟩
  · rw [htype, if_pos ⟨hempty, rfl⟩]
  · have hkept : ¬ (withoutNewlines value = [] ∧ ([] : List Part) = []) := fun h => hne h.1
    obtain ⟨hassignmentName, hassignmentValue⟩ := hassigned hkept
    refine ⟨by rw [htype, if_neg hkept], hassignmentName, ?_, ?_⟩
    · rw [hassignmentValue, if_neg hne]
      intro part hpart
      rw [List.mem_singleton.mp hpart]
    · rw [hassignmentValue, if_neg hne]
      simp

/-- A form with backslashes that a newline ends is not finished. -/
theorem tokenizes_unfinished (hname : isName name = true) (hnul : nul ∉ value) :
    ∃ lx, Tokenizes (lexerCreateWithInput (name ++ '=' :: quoteBackslash (value ++ [newline])))
      (.incomplete, lx, []) := by
  obtain ⟨lx₁, ⟨k₁, hk₁, hrun₁⟩, hassigning, -⟩ :=
    exists_assigning hname (quoteBackslash (value ++ [newline]))
  obtain ⟨lx₂, lx₃, ⟨k₂, hk₂, hrun₂⟩, hturn, htokens, hrest⟩ := hassigning.unfinished hnul
  have hlonger : (quoteBackslash value).length ≤ (quoteBackslash (value ++ [newline])).length := by
    simp only [quoteBackslash, length_escapeWith, List.length_append, List.countP_append]
    omega
  have hreaches : Reaches (lexerCreateWithInput (name ++ '=' :: quoteBackslash (value ++ [newline])))
      (name.length + 1 + (quoteBackslash value).length) lx₂ :=
    ⟨k₁ + k₂, by omega, fun n => by rw [Nat.add_assoc, hrun₁, hrun₂]⟩
  have hprocess := lexerProcessMode_of_reaches rfl hreaches
    (by
      simp only [turns, lexerCreateWithInput, List.length_append, List.length_cons]
      omega) hturn
  refine ⟨lx₃, (tokenizes_iff rfl).mpr ⟨1, iterate_done ?_ 0⟩⟩
  rw [tokenizeTurn, oneTokenTurn, hprocess]
  simp only [bind, Except.bind, pure, Except.pure, htokens, lexerAtEnd_of_rest_nil hrest,
    List.length_nil, lt_irrefl, if_false, if_true]

/-- Both forms with quotes are read as they are. -/
theorem tokenizes_quotes (q : Quoting) (hname : isName name = true) (hne : value ≠ [])
    (hvalue : q = .single → squote ∉ value) :
    ∃ lx tok, Tokenizes (lexerCreateWithInput (name ++ '=' :: q.text value)) (.ok, lx, [tok]) ∧
      IsAssignment name value tok := by
  obtain ⟨lx₁, hreaches, hassigning, -⟩ := exists_assigning hname (q.text value)
  have hprocess := lexerProcessMode_of_reaches rfl hreaches
    (by
      simp only [turns, lexerCreateWithInput, List.length_append, List.length_cons]
      omega) hassigning.quote
  obtain ⟨base, lx₃, ⟨flag, rfl⟩, hquotes, hbuilt⟩ := hassigning.quoted hvalue
  have hpushed : (lx₁.lexerPushMode q.mode).rest = [q.mark] ++ (q.escape value ++ [q.mark]) :=
    hassigning.rest
  have hrest : ((lx₁.lexerPushMode q.mode).advancedBy 1).rest = q.escape value ++ [q.mark] :=
    rest_advancedBy_length hpushed
  have hend : ((lx₁.lexerPushMode q.mode).advancedBy 1).lexerAtEnd = false := by
    obtain ⟨c, cs, hcons⟩ := List.exists_cons_of_ne_nil
      (show q.escape value ++ [q.mark] ≠ [] by simp)
    exact lexerAtEnd_of_rest (hrest.trans hcons)
  have htokens : ((lx₁.lexerPushMode q.mode).advancedBy 1).tokens = [] := by
    simp [lexerPushMode, hassigning.tokens]
  have hparts : (q.onto (assigning (name ++ ['=']) flag) value).parts =
      { type := .literal, text := some (String.ofList (name ++ '=' :: [])) } :: q.parts value := rfl
  have hkept : ¬ (([] : List Char) = [] ∧ q.parts value = []) := by
    rintro ⟨-, hnil⟩
    rw [Quoting.parts, if_neg hne] at hnil
    cases hnil
  obtain ⟨htype, hassigned⟩ := finalized_assignment lx₃.lexerPopMode rfl hname hparts
  obtain ⟨hassignmentName, hassignmentValue⟩ := hassigned hkept
  rw [if_neg hkept] at htype
  rw [if_pos rfl] at hassignmentValue
  have hpopped : lx₃.lexerPopMode.modeStack = [] := congrArg List.tail hbuilt.modeStack
  have hpoppedTokens : lx₃.lexerPopMode.tokens = [] := hbuilt.tokens
  have hpoppedWord : lx₃.lexerPopMode.inWord = true := hbuilt.inWord
  obtain ⟨lx', htokenizes⟩ := tokenizes_finalized hpopped hpoppedTokens (.refl lx₃.lexerPopMode)
    (Nat.succ_pos _) hbuilt.rest hpoppedWord hbuilt.currentToken hpoppedTokens
    (by rw [htype]; decide)
  refine ⟨lx', _, ?_, htype, hassignmentName, ?_, ?_⟩
  · have hinside := (Continues.inWord hpoppedTokens hpoppedWord htokenizes).tokenizes htokens hquotes
    exact (Continues.incomplete htokens hend hinside).tokenizes rfl hprocess
  · rw [hassignmentValue]
    exact fun part hpart => (flags_of_mem_parts hpart).1
  · rw [hassignmentValue, Quoting.parts, if_neg hne]
    simp

end Reading

/-! ## The line -/

section Line

variable {name value : List Char}

theorem withoutNewlines_eq (h : newline ∉ value) : withoutNewlines value = value := by
  rw [withoutNewlines, List.filter_eq_self]
  intro c hc
  exact decide_eq_true fun heq => h (heq ▸ hc)

theorem IsAssignment.unique {tok : Token} {value' : List Char} (h : IsAssignment name value tok)
    (h' : IsAssignment name value' tok) : value = value' := h.value.symm.trans h'.value

/-- The line that `set` prints for a variable is the assignment of its value unless the value is empty
or has a newline that the form with backslashes is to keep. -/
theorem readsBack_iff (hname : isName name = true) (hnul : nul ∉ value) :
    ReadsBack name value ↔ value ≠ [] ∧ (newline ∈ value → ¬ PrefersBackslash value) := by
  unfold ReadsBack libQuote
  obtain ⟨hprefers, hform⟩ | ⟨hprefers, hno, hform⟩ | ⟨hprefers, hno, hform⟩ :=
    quoteShortest_cases value
  · rw [hform]
    constructor
    · rintro ⟨lx, tok, htokenizes, hassignment⟩
      have hkeeps : value.getLast? ≠ some newline := by
        intro hlast
        obtain ⟨front, rfl⟩ := List.getLast?_eq_some_iff.mp hlast
        obtain ⟨lx', hunfinished⟩ := tokenizes_unfinished hname
          fun h => hnul (List.mem_append_left _ h)
        cases tokenizes_unique htokenizes hunfinished
      obtain ⟨lx', tok', htokenizes', hword, hassigned⟩ := tokenizes_backslashes hname hnul hkeeps
      cases tokenizes_unique htokenizes htokenizes'
      have hne : withoutNewlines value ≠ [] := by
        intro hnil
        have htype := hassignment.type
        rw [hword hnil] at htype
        cases htype
      have heq : withoutNewlines value = value := (hassigned hne).unique hassignment
      refine ⟨fun hnil => hne (by rw [hnil]; rfl), fun hnewline => ?_⟩
      rw [← heq, withoutNewlines, List.mem_filter] at hnewline
      exact absurd rfl (of_decide_eq_true hnewline.2)
    · rintro ⟨hne, hnewline⟩
      have hplain : newline ∉ value := fun h => hnewline h hprefers
      obtain ⟨lx, tok, htokenizes, -, hassigned⟩ := tokenizes_backslashes hname hnul
        fun hlast => hplain (List.mem_of_getLast? hlast)
      rw [withoutNewlines_eq hplain] at hassigned
      exact ⟨lx, tok, htokenizes, hassigned hne⟩
  · have hne : value ≠ [] := by
      rintro rfl
      exact hprefers ⟨.inr (Nat.zero_le _), .inr (Nat.zero_le _)⟩
    rw [hform, quoteDouble_eq hno]
    exact iff_of_true (tokenizes_quotes .double hname hne nofun) ⟨hne, fun _ => hprefers⟩
  · have hne : value ≠ [] := by
      rintro rfl
      exact hprefers ⟨.inr (Nat.zero_le _), .inr (Nat.zero_le _)⟩
    rw [hform, quoteSingle_eq]
    exact iff_of_true (tokenizes_quotes .single hname hne fun _ => hno) ⟨hne, fun _ => hprefers⟩

/-- A value with blanks and quotes. -/
theorem readsBack_blanks :
    isName ['x'] = true ∧ nul ∉ ['a', ' ', squote, 'b'] ∧ (ReadsBack ['x'] ['a', ' ', squote, 'b'] ↔
      ['a', ' ', squote, 'b'] ≠ [] ∧
        (newline ∈ ['a', ' ', squote, 'b'] → ¬ PrefersBackslash ['a', ' ', squote, 'b'])) :=
  ⟨by decide, by decide, readsBack_iff (by decide) (by decide)⟩

/-- A newline at the end of a value is lost, and so is an assignment of nothing. -/
theorem newline_not_readsBack :
    libQuote ['x'] ['a', newline, 'b'] = ['x', '=', 'a', backslash, newline, 'b'] ∧
      ¬ ReadsBack ['x'] ['a', newline, 'b'] ∧ ¬ ReadsBack ['x'] [] := by
  refine ⟨by decide, ?_, ?_⟩
  · rintro ⟨lx, tok, htokenizes, hassignment⟩
    obtain ⟨lx', tok', htokenizes', -, hassigned⟩ :=
      @tokenizes_backslashes ['x'] ['a', newline, 'b'] (by decide) (by decide) (by decide)
    cases tokenizes_unique htokenizes htokenizes'
    exact absurd ((hassigned (by decide)).unique hassignment) (by decide)
  · rintro ⟨lx, tok, htokenizes, hassignment⟩
    obtain ⟨lx', tok', htokenizes', hword, -⟩ :=
      @tokenizes_backslashes ['x'] [] (by decide) (by decide) (by decide)
    cases tokenizes_unique htokenizes htokenizes'
    exact absurd ((hword rfl).symm.trans hassignment.type) (by decide)

end Line

end Migash.Lexer
