import Migash.Lexer.Braced

/-! # Quoted words

How a quoted text that makes up the whole input is read: as one word, whose
parts hold the text that was quoted.
-/

namespace Migash.Lexer

open Library

/-! ## Texts -/

/-- The two kinds of quotes. -/
inductive Quoting where
  | single | double
  deriving DecidableEq, Repr

namespace Quoting

def mark : Quoting → Char
  | single => squote
  | double => dquote

def mode : Quoting → LexMode
  | single => .singleQuote
  | double => .doubleQuote

/-- A character between double quotes that needs a backslash to stand for itself. -/
def isSpecial (c : Char) : Bool := ['$', backtick, dquote, backslash].contains c

/-- A character between the quotes. -/
def escapeChar : Quoting → Char → List Char
  | single, c => [c]
  | double, c => if isSpecial c then [backslash, c] else [c]

def escape (q : Quoting) (s : List Char) : List Char := s.flatMap q.escapeChar

/-- The text of the quoted word. -/
def text (q : Quoting) (s : List Char) : List Char := q.mark :: (q.escape s ++ [q.mark])

/-- A part is a literal with the flag of these quotes. -/
def Flags (q : Quoting) (part : Part) : Prop :=
  part.type = .literal ∧ part.wasSingleQuoted = (q = single : Bool) ∧
    part.wasDoubleQuoted = (q = double : Bool)

/-- The parts for a text: none for the empty one. -/
def parts (q : Quoting) (s : List Char) : List Part :=
  if s = [] then []
  else [{ type := .literal, text := some (String.ofList s), wasSingleQuoted := q = single,
          wasDoubleQuoted := q = double }]

/-- The word for a text. -/
def word (q : Quoting) (s : List Char) : Token :=
  { type := .word, parts := q.parts s, wasQuoted := true }

/-- The word with the quoted text behind what it holds. -/
def onto (q : Quoting) (base : Token) (s : List Char) : Token :=
  { base with parts := base.parts ++ q.parts s, wasQuoted := true }

/-- The turns of the loop that reads what is between the quotes. -/
def turn : Quoting → Lexer → Except Fault (Next Lexer Answer)
  | single => squoteTurn
  | double => dquoteTurn

end Quoting

variable {q : Quoting} {base : Token} {s read more : List Char} {c : Char} {lx : Lexer}

theorem escape_cons : q.escape (c :: s) = q.escapeChar c ++ q.escape s := rfl

theorem length_le_escape : s.length ≤ (q.escape s).length := by
  induction s with
  | nil => rfl
  | cons c s ih =>
    have hc : 1 ≤ (q.escapeChar c).length := by
      cases q with
      | single => rfl
      | double =>
        rw [Quoting.escapeChar]
        split <;> simp
    rw [escape_cons, List.length_append, List.length_cons]
    omega

/-- The quoted text stands behind unquoted parts, if there are any. -/
def Unquoted (base : Token) : Prop :=
  ∀ part, base.parts.getLast? = some part →
    part.wasSingleQuoted = false ∧ part.wasDoubleQuoted = false

theorem unquoted_fresh : Unquoted { type := .word } := nofun

/-- One more character goes into the part that is there. -/
theorem appendChar_onto (q : Quoting) {base : Token} (hbase : Unquoted base) (read : List Char)
    (c : Char) :
    (q.onto base read).appendChar (q = .single) (q = .double) c = q.onto base (read ++ [c]) := by
  have hne : read ++ [c] ≠ [] := by simp
  have hpush : (String.ofList read).push c = String.ofList (read ++ [c]) := by
    apply String.toList_injective
    simp
  by_cases hread : read = []
  · subst hread
    simp only [Token.appendChar, Quoting.onto, Quoting.parts, if_true, List.append_nil,
      List.nil_append, List.cons_ne_nil, if_false]
    cases hlast : base.parts.getLast? with
    | none =>
      rw [List.getLast?_eq_none_iff.mp hlast]
      rfl
    | some part =>
      obtain ⟨hsingle, hdouble⟩ := hbase part hlast
      dsimp only
      rw [if_neg]
      cases q <;> simp [hsingle, hdouble]
  · simp only [Token.appendChar, Quoting.onto, Quoting.parts, if_neg hread, if_neg hne,
      List.getLast?_concat, and_self, if_true, List.dropLast_concat, Option.map_some, hpush]

theorem flags_of_mem_parts {part : Part} (h : part ∈ q.parts s) : q.Flags part := by
  rw [Quoting.parts] at h
  split at h
  · cases h
  · rw [List.mem_singleton] at h
    subst h
    exact ⟨rfl, rfl, rfl⟩

theorem getAllText_word (q : Quoting) (s : List Char) :
    (q.word s).getAllText = String.ofList s := by
  by_cases hs : s = []
  · subst hs
    cases q <;> rfl
  · simp [Token.getAllText, Quoting.word, Quoting.parts, hs, String.join]

/-! ## Between the quotes -/

/-- The lexer between quotes, with `read` behind the quote and the word of before in front of it. -/
structure Building (q : Quoting) (base : Token) (read more : List Char) (lx : Lexer) : Prop where
  unquoted : Unquoted base
  rest : lx.rest = more
  modeStack : lx.modeStack = [q.mode]
  currentToken : lx.currentToken = some (q.onto base read)
  inWord : lx.inWord = true
  tokens : lx.tokens = []

theorem Building.advanced (h : Building q base read (c :: more) lx) :
    Building q base read more lx.advanced where
  unquoted := h.unquoted
  rest := rest_advanced h.rest
  modeStack := by rw [advanced_modeStack, h.modeStack]
  currentToken := by rw [advanced_currentToken, h.currentToken]
  inWord := by rw [advanced_inWord, h.inWord]
  tokens := by rw [advanced_tokens, h.tokens]

/-- The lexer with another character in its word. -/
def withRead (lx : Lexer) (q : Quoting) (base : Token) (read : List Char) : Lexer :=
  { lx with currentToken := some (q.onto base read) }

theorem Building.onWord (h : Building q base read more lx) (c : Char) :
    (lx.onWord fun tok => tok.appendChar (q = .single) (q = .double) c) =
      .ok (lx.withRead q base (read ++ [c])) := by
  rw [Lexer.onWord, h.currentToken]
  exact congrArg Except.ok (congrArg (fun tok => { lx with currentToken := some tok })
    (appendChar_onto q h.unquoted read c))

theorem Building.withRead (h : Building q base read more lx) (c : Char) :
    Building q base (read ++ [c]) more (lx.withRead q base (read ++ [c])) :=
  ⟨h.unquoted, h.rest, h.modeStack, rfl, h.inWord, h.tokens⟩

/-- A character between single quotes stands for itself. -/
theorem squoteTurn_char (h : Building .single base read (c :: more) lx) (hc : c ≠ squote) :
    ∃ lx', squoteTurn lx = .ok (.again lx') ∧ Building .single base (read ++ [c]) more lx' := by
  have happend := h.onWord c
  have hnext := h.withRead c
  refine ⟨_, ?_, hnext.advanced⟩
  rw [squoteTurn, lexerAtEnd_of_rest h.rest, lexerPeek_of_rest h.rest]
  simp only [decide_true, decide_false, reduceCtorEq] at happend
  simp only [Bool.false_eq_true, if_false, if_neg hc, happend, lexerAdvance_of_rest hnext.rest, bind,
    Except.bind, pure, Except.pure]

/-- So does one between double quotes, a backslash before it if it needs one. -/
theorem dquoteTurn_char (h : Building .double base read (Quoting.double.escapeChar c ++ more) lx) :
    ∃ lx', dquoteTurn lx = .ok (.again lx') ∧ Building .double base (read ++ [c]) more lx' := by
  by_cases hc : Quoting.isSpecial c = true
  · rw [Quoting.escapeChar, if_pos hc] at h
    have hescapable : isDquoteEscapable c = true ∧ c ≠ newline ∧ c ≠ nul := by
      rw [Quoting.isSpecial, List.contains_iff_mem] at hc
      simp only [List.mem_cons, List.not_mem_nil, or_false] at hc
      rcases hc with rfl | rfl | rfl | rfl <;> decide
    have hadvanced := h.advanced
    have happend := hadvanced.onWord c
    have hnext := hadvanced.withRead c
    have hbackslash : backslash ≠ dquote := by decide
    refine ⟨_, ?_, hnext.advanced⟩
    rw [dquoteTurn, lexerAtEnd_of_rest h.rest, lexerPeek_of_rest h.rest,
      lexerPeekAhead_of_rest h.rest]
    simp only [decide_true, decide_false, reduceCtorEq] at happend
    simp only [Bool.false_eq_true, if_false, if_neg hbackslash, if_true, if_neg hescapable.2.2,
      lexerAdvance_of_rest h.rest, hescapable.1, if_neg hescapable.2.1,
      lexerAppendDquoteCharToWord, happend, lexerAdvance_of_rest hnext.rest, bind, Except.bind,
      pure, Except.pure]
  · rw [Quoting.escapeChar, if_neg hc] at h
    have hother : ∀ d ∈ ['$', backtick, dquote, backslash], c ≠ d := by
      rintro d hd rfl
      exact hc (List.contains_iff_mem.mpr hd)
    have happend := h.onWord c
    have hnext := h.withRead c
    refine ⟨_, ?_, hnext.advanced⟩
    rw [dquoteTurn, lexerAtEnd_of_rest h.rest, lexerPeek_of_rest h.rest]
    simp only [decide_true, decide_false, reduceCtorEq] at happend
    simp only [Bool.false_eq_true, if_false, if_neg (hother dquote (by simp)),
      if_neg (hother backslash (by simp)), if_neg (hother backtick (by simp)),
      if_neg (hother '$' (by simp)), lexerAppendDquoteCharToWord, happend,
      lexerAdvance_of_rest hnext.rest, bind, Except.bind, pure, Except.pure]

/-- A character of the text takes one turn. -/
theorem turn_char (h : Building q base read (q.escapeChar c ++ more) lx)
    (hc : q = .single → c ≠ squote) :
    ∃ lx', q.turn lx = .ok (.again lx') ∧ Building q base (read ++ [c]) more lx' := by
  cases q with
  | single => exact squoteTurn_char h (hc rfl)
  | double => exact dquoteTurn_char h

/-- The closing quote ends the loop. -/
theorem turn_mark (h : Building q base read (q.mark :: more) lx) :
    q.turn lx = .ok (.done (.ok, lx.advanced.lexerPopMode)) := by
  have hend := lexerAtEnd_of_rest h.rest
  have hpeek := lexerPeek_of_rest h.rest
  have hadvance := lexerAdvance_of_rest h.rest
  cases q with
  | single =>
    rw [Quoting.turn, squoteTurn, hend, hpeek]
    simp only [Bool.false_eq_true, if_false, Quoting.mark, if_true, hadvance, bind, Except.bind,
      pure, Except.pure]
  | double =>
    rw [Quoting.turn, dquoteTurn, hend, hpeek]
    simp only [Bool.false_eq_true, if_false, Quoting.mark, if_true, hadvance, bind, Except.bind,
      pure, Except.pure]

/-- The loop reads the text up to the closing quote. -/
theorem iterate_turn (hs : q = .single → squote ∉ s)
    (h : Building q base read (q.escape s ++ q.mark :: more) lx) (k : ℕ) :
    ∃ lx', iterate q.turn (s.length + 1 + k) lx = .ok (.ok, lx'.lexerPopMode) ∧
      Building q base (read ++ s) more lx' := by
  induction s generalizing read lx with
  | nil =>
    refine ⟨lx.advanced, ?_, ?_⟩
    · rw [List.length_nil, Nat.zero_add, Nat.add_comm]
      exact iterate_done (turn_mark h) k
    · rw [List.append_nil]
      exact h.advanced
  | cons c s ih =>
    rw [escape_cons, List.append_assoc] at h
    obtain ⟨lx₁, hturn, hbuilding⟩ := turn_char h fun hq =>
      (Ne.symm (List.ne_of_not_mem_cons (hs hq)))
    obtain ⟨lx', hrun, hbuilding⟩ := ih
      (fun hq => List.not_mem_of_not_mem_cons (hs hq)) hbuilding
    refine ⟨lx', ?_, ?_⟩
    · rw [List.length_cons, show s.length + 1 + 1 + k = s.length + 1 + k + 1 by omega]
      exact (iterate_again hturn _).trans hrun
    · rwa [List.append_assoc, List.singleton_append] at hbuilding

/-! ## The run -/

/-- The lexer behind the opening quote at the start of its input. -/
def insideQuotes (q : Quoting) (cs : List Char) : Lexer where
  input := q.mark :: cs
  pos := 1
  colNo := 2
  modeStack := [q.mode]

/-- The function for the quotes starts the word and reads up to the closing quote. -/
theorem lexerProcessMode_insideQuotes (hs : q = .single → squote ∉ s) :
    ∃ lx, (insideQuotes q (q.escape s ++ [q.mark])).lexerProcessMode = .ok (.ok, lx.lexerPopMode) ∧
      Building q { type := .word } s [] lx := by
  let lx₀ := insideQuotes q (q.escape s ++ [q.mark])
  let lx₁ : Lexer := { lx₀ with currentToken := some (q.word []), tokStartCol := 2, inWord := true }
  have hstart : lx₀.startQuoted = .ok lx₁ := by cases q <;> rfl
  have hbuilding : Building q { type := .word } [] (q.escape s ++ q.mark :: []) lx₁ :=
    ⟨unquoted_fresh, rfl, rfl, rfl, rfl, rfl⟩
  obtain ⟨k, hk⟩ : ∃ k, lx₁.turns = s.length + 1 + k := by
    have hlen : lx₁.turns = (q.escape s).length + 3 := by
      simp [turns, lx₁, lx₀, insideQuotes]
    have := length_le_escape (q := q) (s := s)
    exact ⟨lx₁.turns - (s.length + 1), by omega⟩
  obtain ⟨lx, hrun, hbuilt⟩ := iterate_turn hs hbuilding k
  refine ⟨lx, ?_, hbuilt⟩
  rw [← hk] at hrun
  have hmode : lx₀.lexerProcessMode = (lx₀.startQuoted >>= fun lx => iterate q.turn lx.turns lx) := by
    cases q <;> rfl
  rw [hmode, hstart]
  exact hrun

/-- No location of a redirection starts without a brace. -/
theorem bracedIoLocation?_of_ne {cs : List Char} (hrest : lx.rest = c :: cs) (hc : c ≠ lbrace) :
    lx.bracedIoLocation? = none := by
  rw [bracedIoLocation?, hrest]
  simp only [hc, false_and, if_false]
  split <;> rfl

/-- A quote at the start of the input starts a quoted text. -/
theorem normalTurn_mark (q : Quoting) (cs : List Char) :
    normalTurn (lexerCreateWithInput (q.mark :: cs)) =
      .ok (.done (.incomplete, insideQuotes q cs)) := by
  have hrest : (lexerCreateWithInput (q.mark :: cs)).rest = q.mark :: cs := rfl
  have hlocation := bracedIoLocation?_of_ne hrest (by cases q <;> decide)
  have hredirection : normalTurn (lexerCreateWithInput (q.mark :: cs)) =
      (lexerCreateWithInput (q.mark :: cs)).redirectionTurn := by cases q <;> rfl
  have hnumber : (lexerCreateWithInput (q.mark :: cs)).ioNumber? = none := by cases q <;> rfl
  rw [hredirection, redirectionTurn, hnumber]
  simp only [hlocation]
  cases q <;> rfl

theorem tokenizeTurn_mark (q : Quoting) (cs : List Char) (hcs : cs ≠ []) :
    tokenizeTurn { lx := lexerCreateWithInput (q.mark :: cs) } =
      .ok (.again { lx := insideQuotes q cs }) := by
  obtain ⟨c, cs, rfl⟩ := List.exists_cons_of_ne_nil hcs
  have hrest : (insideQuotes q (c :: cs)).rest = c :: cs := rfl
  have hmode : (lexerCreateWithInput (q.mark :: c :: cs)).lexerProcessMode =
      .ok (.incomplete, insideQuotes q (c :: cs)) := iterate_done (normalTurn_mark q (c :: cs)) _
  exact tokenizeTurn_incomplete hmode (lexerAtEnd_of_rest hrest) rfl

/-- A quoted text is read as one word: its parts hold the text, all flagged as quoted. -/
theorem lexerTokenize_quoted (q : Quoting) (s : List Char) (hs : q = .single → squote ∉ s)
    (n : ℕ) :
    ∃ lx tok, lexerTokenize (n + 3) (lexerCreateWithInput (q.text s)) = .ok (.ok, lx, [tok]) ∧
      tok.type = .word ∧ tok.wasQuoted = true ∧ tok.getAllText = String.ofList s ∧
      ∀ part ∈ tok.parts, q.Flags part := by
  obtain ⟨lx, hprocess, hbuilt⟩ := lexerProcessMode_insideQuotes hs
  have hrest : lx.lexerPopMode.rest = [] := hbuilt.rest
  have hword : lx.lexerPopMode.inWord = true := hbuilt.inWord
  have htokens : lx.lexerPopMode.tokens = [] := hbuilt.tokens
  have hpopped : lx.lexerPopMode.modeStack = [] := congrArg List.tail hbuilt.modeStack
  have hsecond : tokenizeTurn { lx := insideQuotes q (q.escape s ++ [q.mark]) } =
      .ok (.again { lx := lx.lexerPopMode }) := tokenizeTurn_inWord hprocess hword htokens
  obtain ⟨lx', hthird⟩ := tokenizeTurn_end hrest hpopped hword hbuilt.currentToken htokens rfl
  refine ⟨lx', lx.lexerPopMode.finalized (q.word s), ?_, rfl, rfl, getAllText_word q s,
    fun part hpart => flags_of_mem_parts hpart⟩
  rw [Quoting.text, lexerTokenize]
  exact (iterate_again (tokenizeTurn_mark q _ (by simp)) _).trans
    ((iterate_again hsecond _).trans (iterate_done hthird n))

/-- A text with every kind of character that double quotes treat in a way of their own. -/
theorem lexerTokenize_quoted_special :
    ∃ lx tok, lexerTokenize 3
        (lexerCreateWithInput (Quoting.double.text ['$', backtick, backslash, newline, dquote])) =
        .ok (.ok, lx, [tok]) ∧
      tok.type = .word ∧ tok.wasQuoted = true ∧
      tok.getAllText = String.ofList ['$', backtick, backslash, newline, dquote] ∧
      ∀ part ∈ tok.parts, Quoting.double.Flags part :=
  lexerTokenize_quoted .double ['$', backtick, backslash, newline, dquote] nofun 0

end Migash.Lexer
