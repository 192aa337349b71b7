import Migash.Lexer.Expansions

/-! # Braced parameter expansions

Where the scan for the word of `${name` and an operator comes to its end: one
counter for parentheses and braces, which passes over quotes and escapes.
-/

namespace Migash.Lexer

open Library

/-! ## The nesting of a word -/

namespace ParamWord

variable {stack : List Unit} {w more s : List Char} {c d quote : Char} {depth n : ℕ}

/-- A character that means nothing to the scan. -/
def isPassed (c : Char) : Bool :=
  !(['(', ')', rbrace, '$', squote, dquote, backslash].contains c)

/-- What is between two quotes of a kind. -/
inductive Inside (quote : Char) : List Char → Prop
  | nil : Inside quote []
  | char {c : Char} {s : List Char} (hquote : c ≠ quote) (hescape : ¬ (c = backslash ∧ quote = dquote))
      (hs : Inside quote s) : Inside quote (c :: s)
  | escape {c : Char} {s : List Char} (hquote : quote = dquote) (hs : Inside quote s) :
      Inside quote (backslash :: c :: s)

/-- Parentheses, `$(` and `${` open a group each; the next `)` or `}` closes it, whichever it is. A
`)` outside of groups counts for nothing. -/
def counted : Brackets Char Unit where
  atom a t := (∃ c, isPassed c = true ∧ a = [c]) ∨
    a = ['$'] ∧ t.head? ≠ some lbrace ∧ t.head? ≠ some '(' ∨ (∃ c, a = [backslash, c]) ∨
    ∃ quote s, (quote = squote ∨ quote = dquote) ∧ Inside quote s ∧ a = quote :: (s ++ [quote])
  stray a := a = [')']
  opening _ o := o = ['$', lbrace] ∨ o = ['$', '('] ∨ o = ['(']
  closing _ c := c = [')'] ∨ c = [rbrace]
  atom_closing {a s c u k} h := by
    cases s with
    | nil => rcases h with rfl | rfl <;> simp [lbrace, rbrace]
    | cons d s => rfl

/-! ## The scan -/

theorem isPassed_iff : isPassed c = true ↔ c ≠ '(' ∧ c ≠ ')' ∧ c ≠ rbrace ∧ c ≠ '$' ∧ c ≠ squote ∧
    c ≠ dquote ∧ c ≠ backslash := by
  simp [isPassed]

theorem wordLength?_passed (hc : isPassed c = true) :
    wordLength? none depth (c :: s) = (wordLength? none depth s).map (· + 1) := by
  obtain ⟨hopen, hclose, hbrace, hdollar, hsquote, hdquote, hescape⟩ := isPassed_iff.mp hc
  rw [wordLength?.eq_def]
  simp only [hopen, hclose, hbrace, hdollar, hsquote, hdquote, hescape, or_self, if_false]

theorem wordLength?_escape (depth : ℕ) (s : List Char) :
    wordLength? none depth (backslash :: c :: s) = (wordLength? none depth s).map (· + 2) := by
  rw [wordLength?.eq_def]
  rfl

theorem wordLength?_quote (hquote : quote = squote ∨ quote = dquote) :
    wordLength? none depth (quote :: s) = (wordLength? (some quote) depth s).map (· + 1) := by
  rw [wordLength?.eq_def]
  rcases hquote with rfl | rfl <;> rfl

theorem wordLength?_dollar (hbrace : c ≠ lbrace) (hopen : c ≠ '(') :
    wordLength? none depth ('$' :: c :: s) = (wordLength? none depth (c :: s)).map (· + 1) := by
  have hdollar : '$' ≠ rbrace := by decide
  conv_lhs => rw [wordLength?.eq_def]
  simp only [hdollar, if_false, if_true, hbrace, hopen, or_self]

theorem wordLength?_opening {o : List Char} (ho : counted.opening () o) (depth : ℕ) (s : List Char) :
    wordLength? none depth (o ++ s) = (wordLength? none (depth + 1) s).map (· + o.length) := by
  rcases ho with rfl | rfl | rfl <;> (rw [wordLength?.eq_def]; rfl)

theorem wordLength?_closing {o : List Char} (ho : counted.closing () o) (depth : ℕ) (s : List Char) :
    wordLength? none (depth + 1) (o ++ s) = (wordLength? none depth s).map (· + 1) := by
  rcases ho with rfl | rfl <;> (rw [wordLength?.eq_def]; rfl)

theorem wordLength?_stray :
    wordLength? none 0 (')' :: s) = (wordLength? none 0 s).map (· + 1) := by
  rw [wordLength?.eq_def]
  rfl

theorem wordLength?_rbrace : wordLength? none 0 (rbrace :: s) = some 0 := by
  rw [wordLength?.eq_def]
  rfl

/-- The inside of quotes is passed over. -/
theorem wordLength?_inside (hs : Inside quote s) :
    wordLength? (some quote) depth (s ++ quote :: more) =
      (wordLength? none depth more).map (· + (s.length + 1)) := by
  induction hs with
  | nil =>
    rw [List.nil_append, wordLength?.eq_def]
    simp
  | @char c s hquote hescape hs ih =>
    rw [List.cons_append, wordLength?.eq_def]
    simp only [hquote, hescape, if_false, ih, Option.map_map]
    rfl
  | @escape c s hquote hs ih =>
    subst hquote
    have hne : backslash ≠ dquote := by decide
    rw [List.cons_append, List.cons_append, wordLength?.eq_def]
    simp only [hne, if_false, and_self, if_true, ih, Option.map_map]
    rfl

/-- A scan that finds the end of quoted text has found the quote before. -/
theorem inside_of_wordLength? (h : wordLength? (some quote) depth w = some n) :
    ∃ s t, Inside quote s ∧ w = s ++ quote :: t ∧
      ∃ m, wordLength? none depth t = some m ∧ n = s.length + 1 + m := by
  induction hlen : w.length using Nat.strong_induction_on generalizing w n with
  | _ k ih =>
    subst hlen
    rw [wordLength?.eq_def] at h
    cases w with
    | nil => cases h
    | cons c w =>
      dsimp only at h
      split_ifs at h with hquote hescape
      · subst hquote
        obtain ⟨m, hm, rfl⟩ := Option.map_eq_some_iff.mp h
        exact ⟨[], w, .nil, rfl, m, hm, by simp; omega⟩
      · obtain ⟨rfl, rfl⟩ := hescape
        cases w with
        | nil => cases h
        | cons d w =>
          obtain ⟨m, hm, rfl⟩ := Option.map_eq_some_iff.mp h
          obtain ⟨s, t, hs, rfl, l, hl, rfl⟩ := ih w.length (by simp only [List.length_cons]; omega) hm rfl
          exact ⟨backslash :: d :: s, t, .escape rfl hs, rfl, l, hl, by simp; omega⟩
      · obtain ⟨m, hm, rfl⟩ := Option.map_eq_some_iff.mp h
        obtain ⟨s, t, hs, rfl, l, hl, rfl⟩ := ih w.length (by simp) hm rfl
        exact ⟨c :: s, t, .char hquote hescape hs, rfl, l, hl, by simp; omega⟩

/-- A text that closes what is open has its end at the brace behind it. -/
theorem wordLength?_of_nested (h : counted.Nested stack w) :
    wordLength? none stack.length (w ++ rbrace :: more) = some w.length := by
  induction h with
  | nil => exact wordLength?_rbrace
  | @atom stack a t ha ht ih =>
    rcases ha with ⟨c, hc, rfl⟩ | ⟨rfl, hbrace, hopen⟩ | ⟨c, rfl⟩ | ⟨quote, s, hquote, hs, rfl⟩
    · rw [List.append_assoc, List.singleton_append, wordLength?_passed hc, ih]
      rfl
    · have hnext : wordLength? none stack.length ('$' :: (t ++ rbrace :: more)) =
          (wordLength? none stack.length (t ++ rbrace :: more)).map (· + 1) := by
        cases t with
        | nil => exact wordLength?_dollar (by decide) (by decide)
        | cons c t => exact wordLength?_dollar (by simpa using hbrace) (by simpa using hopen)
      rw [List.append_assoc, List.singleton_append, hnext, ih]
      rfl
    · rw [List.append_assoc, List.cons_append, List.singleton_append, wordLength?_escape, ih]
      rfl
    · rw [List.append_assoc, List.cons_append, List.append_assoc, wordLength?_quote hquote,
        List.singleton_append, wordLength?_inside hs, ih]
      simp
      omega
  | stray ha ht ih =>
    cases ha
    rw [List.length_nil] at ih ⊢
    rw [List.append_assoc, List.singleton_append, wordLength?_stray, ih]
    rfl
  | opening ho ht ih =>
    rw [List.length_cons] at ih
    rw [List.append_assoc, wordLength?_opening ho, ih]
    simp [Nat.add_comm]
  | closing hc ht ih =>
    rw [List.append_assoc, List.length_cons, wordLength?_closing hc, ih]
    rcases hc with rfl | rfl <;> simp

theorem special_of_not_isPassed (h : ¬ isPassed c = true) : c = '(' ∨ c = ')' ∨ c = rbrace ∨
    c = '$' ∨ (c = squote ∨ c = dquote) ∨ c = backslash := by
  by_contra hnone
  simp only [not_or] at hnone
  obtain ⟨hopen, hclose, hbrace, hdollar, hquote, hescape⟩ := hnone
  exact h (isPassed_iff.mpr ⟨hopen, hclose, hbrace, hdollar, hquote.1, hquote.2, hescape⟩)

/-- The scan finds the end of the text from every stack that the text closes. -/
def Found (more w : List Char) : Prop :=
  ∀ stack : List Unit, wordLength? none stack.length (w ++ rbrace :: more) = some w.length →
    counted.Nested stack w

/-- What the scan passes over is not part of what is left. -/
theorem Found.of_map {k : ℕ} (hfound : Found more w) (stack : List Unit)
    (h : (wordLength? none stack.length (w ++ rbrace :: more)).map (· + k) = some (w.length + k)) :
    counted.Nested stack w := by
  obtain ⟨m, hm, hk⟩ := Option.map_eq_some_iff.mp h
  exact hfound stack (by rw [hm, Nat.add_right_cancel hk])

/-- A dollar stands for itself or opens a group. -/
theorem Found.dollar (hfound : Found more w) (htail : Found more w.tail)
    (h : wordLength? none stack.length ('$' :: (w ++ rbrace :: more)) = some (w.length + 1)) :
    counted.Nested stack ('$' :: w) := by
  by_cases hopens : w.head? = some lbrace ∨ w.head? = some '('
  · obtain ⟨c, w, rfl⟩ : ∃ c cs, w = c :: cs := by
      cases w with
      | nil => simp at hopens
      | cons c w => exact ⟨c, w, rfl⟩
    have ho : counted.opening () ['$', c] := by
      rcases hopens with hc | hc
      · exact .inl (by simpa using hc)
      · exact .inr (.inl (by simpa using hc))
    have hnext := (wordLength?_opening ho stack.length (w ++ rbrace :: more)).symm.trans h
    exact .opening ho (htail.of_map (() :: stack) (k := 2) hnext)
  · rw [not_or] at hopens
    have hnext : wordLength? none stack.length ('$' :: (w ++ rbrace :: more)) =
        (wordLength? none stack.length (w ++ rbrace :: more)).map (· + 1) := by
      cases w with
      | nil => exact wordLength?_dollar (by decide) (by decide)
      | cons c w => exact wordLength?_dollar (by simpa using hopens.1) (by simpa using hopens.2)
    exact .atom (a := ['$']) (.inr (.inl ⟨rfl, hopens.1, hopens.2⟩)) (hfound.of_map stack (hnext.symm.trans h))

/-- So it does if it does for every shorter text. -/
theorem found_of_shorter (ih : ∀ w', w'.length < w.length → Found more w') : Found more w := by
  intro stack h
  cases w with
  | nil =>
    cases stack with
    | nil => exact .nil
    | cons _ stack =>
      have hclosing := wordLength?_closing (o := [rbrace]) (.inr rfl) stack.length more
      obtain ⟨m, -, hm⟩ := Option.map_eq_some_iff.mp (hclosing.symm.trans h)
      cases hm
  | cons c w =>
    have hfound : Found more w := ih w (by simp)
    by_cases hpassed : isPassed c = true
    · exact .atom (a := [c]) (.inl ⟨c, hpassed, rfl⟩)
        (hfound.of_map stack ((wordLength?_passed hpassed).symm.trans h))
    rcases special_of_not_isPassed hpassed with rfl | rfl | rfl | rfl | hquote | rfl
    · have hnext := wordLength?_opening (o := ['(']) (.inr (.inr rfl)) stack.length
        (w ++ rbrace :: more)
      exact .opening (k := ()) (o := ['(']) (.inr (.inr rfl))
        (hfound.of_map (() :: stack) (hnext.symm.trans h))
    · cases stack with
      | nil => exact .stray (a := [')']) rfl (hfound.of_map [] (wordLength?_stray.symm.trans h))
      | cons _ stack =>
        have hnext := wordLength?_closing (o := [')']) (.inl rfl) stack.length
          (w ++ rbrace :: more)
        exact .closing (k := ()) (c := [')']) (.inl rfl) (hfound.of_map stack (hnext.symm.trans h))
    · cases stack with
      | nil => cases wordLength?_rbrace.symm.trans h
      | cons _ stack =>
        have hnext := wordLength?_closing (o := [rbrace]) (.inr rfl) stack.length
          (w ++ rbrace :: more)
        exact .closing (k := ()) (c := [rbrace]) (.inr rfl) (hfound.of_map stack (hnext.symm.trans h))
    · exact hfound.dollar (ih w.tail (by rw [List.length_tail, List.length_cons]; omega)) h
    · obtain ⟨n, hn, hlen⟩ := Option.map_eq_some_iff.mp ((wordLength?_quote hquote).symm.trans h)
      obtain ⟨s, t, hs, hsplit, m, hm, rfl⟩ := inside_of_wordLength? hn
      rw [List.length_cons] at hlen
      rcases List.append_eq_append_iff.mp hsplit with ⟨a, rfl, -⟩ | ⟨a, rfl, ha⟩
      · rw [List.length_append] at hlen
        omega
      · rw [List.length_append] at hlen
        cases a with
        | nil =>
          rw [List.length_nil] at hlen
          omega
        | cons d w =>
          cases ha
          rw [List.length_cons] at hlen
          obtain rfl : m = w.length := by omega
          have hrest := ih w (by simp; omega) stack hm
          have hatom : counted.Nested stack ((c :: (s ++ [c])) ++ w) :=
            .atom (.inr (.inr (.inr ⟨c, s, hquote, hs, rfl⟩))) hrest
          simpa using hatom
    · cases w with
      | nil =>
        obtain ⟨m, -, hm⟩ := Option.map_eq_some_iff.mp ((wordLength?_escape ..).symm.trans h)
        simp at hm
      | cons d w =>
        have hnext := wordLength?_escape (c := d) stack.length (w ++ rbrace :: more)
        exact .atom (a := [backslash, d]) (.inr (.inr (.inl ⟨d, rfl⟩)))
          ((ih w (by simp only [List.length_cons]; omega)).of_map stack (k := 2) (hnext.symm.trans h))

theorem found (more w : List Char) : Found more w := by
  induction hlen : w.length using Nat.strong_induction_on generalizing w with
  | _ n ih =>
    subst hlen
    exact found_of_shorter fun w' hlt => ih w'.length hlt w' rfl

/-- The scan finds the end of the text if and only if its groups are closed. -/
theorem wordLength?_eq_iff (more : List Char) :
    wordLength? none 0 (w ++ rbrace :: more) = some w.length ↔ counted.Matched true w := by
  rw [← Brackets.nested_iff_matched]
  exact ⟨found more w [], wordLength?_of_nested⟩

end ParamWord

/-! ## Operators -/

/-- The operators that remove what a pattern accepts. -/
inductive PatternOp where
  | smallSuffix | largeSuffix | smallPrefix | largePrefix
  deriving DecidableEq, Repr

namespace PatternOp

def char : PatternOp → Char
  | smallSuffix | largeSuffix => '%'
  | smallPrefix | largePrefix => '#'

def isLarge : PatternOp → Bool
  | largeSuffix | largePrefix => true
  | smallSuffix | smallPrefix => false

def text (op : PatternOp) : List Char := if op.isLarge then [op.char, op.char] else [op.char]

def kind : PatternOp → ParamSubtype
  | smallSuffix => .removeSmallSuffix
  | largeSuffix => .removeLargeSuffix
  | smallPrefix => .removeSmallPrefix
  | largePrefix => .removeLargePrefix

end PatternOp

/-- The operators of a braced expansion. -/
inductive Operator where
  | modifier (colon : Bool) (op : Modifier)
  | pattern (op : PatternOp)
  deriving DecidableEq, Repr

namespace Operator

def hasColon : Operator → Bool
  | modifier colon _ => colon
  | pattern _ => false

/-- The operator without its colon. -/
def symbol : Operator → List Char
  | modifier _ op => [op.char]
  | pattern op => op.text

def colon (op : Operator) : List Char := if op.hasColon then [':'] else []

def text (op : Operator) : List Char := op.colon ++ op.symbol

def kind : Operator → ParamSubtype
  | modifier _ op => op.kind
  | pattern op => op.kind

/-- A single `%` or `#` before a word that starts with another one would be the longer operator. -/
def Separate (op : Operator) (w : List Char) : Prop :=
  ∀ pop, op = pattern pop → pop.isLarge = false → w.head? ≠ some pop.char

end Operator

/-- The expansion of a parameter with an operator and its word. -/
def expansionText (p : Parameter) (op : Operator) (w : List Char) : List Char :=
  '$' :: lbrace :: (p.text ++ (op.text ++ (w ++ [rbrace])))

/-- The part for an expansion. -/
def paramPart (name : List Char) (kind : ParamSubtype) (hasColon : Bool)
    (word : Option (List Char)) : Part :=
  { type := .parameter, paramName := some (String.ofList name), paramKind := kind, hasColon,
    word := word.map String.ofList }

/-- The empty word is none. -/
def wordOf (w : List Char) : Option (List Char) := if w = [] then none else some w

section operators

variable {lx lx' : Lexer} {p : Parameter} {op : Operator} {w more name text : List Char} {c : Char}
variable {n length : ℕ} {kind : ParamSubtype} {colon : Bool}

theorem operatorAt?_percent (hpeek : lx.lexerPeek = '%') :
    lx.operatorAt? false = if lx.lexerPeekAhead 1 = '%' then some (.removeLargeSuffix, 2)
      else some (.removeSmallSuffix, 1) := by
  simp +decide [operatorAt?, hpeek]

theorem operatorAt?_hash (hpeek : lx.lexerPeek = '#') :
    lx.operatorAt? false = if lx.lexerPeekAhead 1 = '#' then some (.removeLargePrefix, 2)
      else some (.removeSmallPrefix, 1) := by
  simp +decide [operatorAt?, hpeek]

/-- The character behind the first one is that of the word, or the closing brace. -/
theorem next_ne (hrest : lx.rest = c :: (w ++ rbrace :: more)) (hhead : w.head? ≠ some c)
    (hc : c ≠ rbrace) : lx.lexerPeekAhead 1 ≠ c := by
  cases w with
  | nil =>
    rw [lexerPeekAhead_of_rest hrest]
    exact hc.symm
  | cons d w =>
    rw [lexerPeekAhead_of_rest hrest]
    simpa using hhead

theorem operatorAt?_separate (hrest : lx.rest = op.symbol ++ (w ++ rbrace :: more))
    (hseparate : op.Separate w) :
    lx.operatorAt? op.hasColon = some (op.kind, op.symbol.length) := by
  cases op with
  | modifier colon op => exact operatorAt?_of_rest hrest
  | pattern pop =>
    cases pop with
    | smallSuffix =>
      have hhead : lx.lexerPeekAhead 1 ≠ '%' := next_ne hrest (hseparate _ rfl rfl) (by decide)
      rw [Operator.hasColon, operatorAt?_percent (lexerPeek_of_rest hrest), if_neg hhead]
      rfl
    | smallPrefix =>
      have hhead : lx.lexerPeekAhead 1 ≠ '#' := next_ne hrest (hseparate _ rfl rfl) (by decide)
      rw [Operator.hasColon, operatorAt?_hash (lexerPeek_of_rest hrest), if_neg hhead]
      rfl
    | largeSuffix =>
      have hnext : lx.lexerPeekAhead 1 = '%' := lexerPeekAhead_of_rest hrest
      rw [Operator.hasColon, operatorAt?_percent (lexerPeek_of_rest hrest), if_pos hnext]
      rfl
    | largePrefix =>
      have hnext : lx.lexerPeekAhead 1 = '#' := lexerPeekAhead_of_rest hrest
      rw [Operator.hasColon, operatorAt?_hash (lexerPeek_of_rest hrest), if_pos hnext]
      rfl

/-- Otherwise the longer operator is found. -/
theorem operatorAt?_not_separate (more : List Char) (hseparate : ¬ op.Separate w) :
    ∃ kind text w', op.symbol ++ w = text ++ w' ∧ text ≠ [] ∧ kind ≠ op.kind ∧
      ∀ lx : Lexer, lx.rest = text ++ (w' ++ rbrace :: more) →
        lx.operatorAt? op.hasColon = some (kind, text.length) := by
  rw [Operator.Separate] at hseparate
  push Not at hseparate
  obtain ⟨pop, rfl, hsmall, hhead⟩ := hseparate
  obtain ⟨w, rfl⟩ := List.head?_eq_some_iff.mp hhead
  cases pop with
  | largeSuffix | largePrefix => cases hsmall
  | smallSuffix =>
    refine ⟨.removeLargeSuffix, ['%', '%'], w, rfl, nofun, nofun, fun lx hrest => ?_⟩
    have hnext : lx.lexerPeekAhead 1 = '%' := lexerPeekAhead_of_rest hrest
    rw [Operator.hasColon, operatorAt?_percent (lexerPeek_of_rest hrest), if_pos hnext]
    rfl
  | smallPrefix =>
    refine ⟨.removeLargePrefix, ['#', '#'], w, rfl, nofun, nofun, fun lx hrest => ?_⟩
    have hnext : lx.lexerPeekAhead 1 = '#' := lexerPeekAhead_of_rest hrest
    rw [Operator.hasColon, operatorAt?_hash (lexerPeek_of_rest hrest), if_pos hnext]
    rfl

/-! ## The functions -/

theorem Sound.adds_lexerAddParamPart (h : Sound lx) (hword : lx.inWord = true) (name : List Char)
    (kind : ParamSubtype) (colon : Bool) (word : Option (List Char)) :
    ∃ lx', lx.lexerAddParamPart name kind colon word = .ok lx' ∧
      Adds lx lx'.lexerPopMode lx.modeStack.tail 0
        (lx.quotedIn (paramPart name kind colon word)) := by
  obtain ⟨tok, htok⟩ := h.currentToken hword
  let tok' := tok.addPart (lx.quotedIn (paramPart name kind colon word))
  refine ⟨{ lx with currentToken := some tok' }, ?_, rfl, rfl, rfl, rfl, hword, ?_⟩
  · rw [lexerAddParamPart, onWord, htok]
    rfl
  · simp [Lexer.parts, lexerPopMode, htok, tok', Token.addPart]

theorem Sound.advancedBy (h : Sound lx) (hle : lx.pos + n ≤ lx.input.length) :
    Sound (lx.advancedBy n) := by
  have hsame := sameContext_advancedBy n lx
  exact h.congr hsame.input (by simpa using hle) hsame.modeStack hsame.inWord
    (by rw [hsame.currentToken]) hsame.heredocQueue hsame.heredocIndex

/-- The word of an operator that is read, as far as the scan goes. -/
theorem bracedOperator_some (name : List Char) (h : Sound lx) (hword : lx.inWord = true)
    (hrest : lx.rest = text ++ more) (htext : text ≠ []) (hop : lx.operatorAt? colon = some (kind, text.length))
    (hlength : wordLength? none 0 more = some length) :
    ∃ lx', lx.bracedOperator colon name = .ok (.ok, lx') ∧
      Adds lx lx' lx.modeStack.tail (text.length + (length + 1))
        (lx.quotedIn (paramPart name kind colon (wordOf (more.take length)))) := by
  obtain ⟨c, cs, rfl⟩ := List.exists_cons_of_ne_nil htext
  have hle : lx.pos + (c :: cs).length ≤ lx.input.length := length_le_of_rest hrest (.inl htext)
  have hsound₁ := h.advancedBy hle
  have hrest₁ : (lx.advancedBy (c :: cs).length).rest = more := rest_advancedBy_length hrest
  have hsame₁ := sameContext_advancedBy (c :: cs).length lx
  have hpos₁ : (lx.advancedBy (c :: cs).length).pos = lx.pos + (c :: cs).length := by simp
  have hadvance := lexerAdvanceNChars_of_rest hrest htext
  generalize lx.advancedBy (c :: cs).length = lx₁ at hsound₁ hrest₁ hsame₁ hpos₁ hadvance
  have hle₁ : lx₁.pos + (length + 1) ≤ lx₁.input.length := by
    have hlt : length < more.length := wordLength?_lt hlength
    have hinside := hsound₁.inside
    have hlen := congrArg List.length hrest₁
    rw [rest_length] at hlen
    omega
  have hadvance₁ : lx₁.lexerAdvanceNChars (length + 1) = .ok (lx₁.advancedBy (length + 1)) :=
    if_pos hle₁
  have hsame := hsame₁.trans (sameContext_advancedBy (length + 1) lx₁)
  obtain ⟨lx', hpart, hadds⟩ := (hsound₁.advancedBy hle₁).adds_lexerAddParamPart
    (hsame.inWord.trans hword) name kind colon (wordOf (more.take length))
  rw [hsame.modeStack, quotedIn_congr hsame.modeStack] at hadds
  rw [wordOf] at hpart
  have hpos : (lx₁.advancedBy (length + 1)).pos = lx.pos + ((c :: cs).length + (length + 1)) := by
    rw [advancedBy_pos, hpos₁]
    omega
  refine ⟨lx'.lexerPopMode, ?_, (adds_moved hsame hpos (n := 0)).mpr hadds⟩
  rw [bracedOperator, lexerAtEnd_of_rest hrest, hop]
  simp only [Bool.false_eq_true, if_false, hadvance, bind, Except.bind, hrest₁, hlength, hadvance₁,
    hpart, pure, Except.pure]

/-- A word without an end is incomplete. -/
theorem bracedOperator_none (name : List Char) (hrest : lx.rest = text ++ more) (htext : text ≠ [])
    (hop : lx.operatorAt? colon = some (kind, text.length))
    (hlength : wordLength? none 0 more = none) :
    ∃ lx', lx.bracedOperator colon name = .ok (.incomplete, lx') := by
  obtain ⟨c, cs, rfl⟩ := List.exists_cons_of_ne_nil htext
  have hrest₁ : (lx.advancedBy (c :: cs).length).rest = more := rest_advancedBy_length hrest
  refine ⟨(lx.advancedBy (c :: cs).length).advancedBy more.length, ?_⟩
  rw [bracedOperator, lexerAtEnd_of_rest hrest, hop]
  simp only [Bool.false_eq_true, if_false, lexerAdvanceNChars_of_rest hrest htext, bind, Except.bind,
    hrest₁, hlength, pure, Except.pure]

theorem Operator.symbol_head (op : Operator) :
    ∃ c cs, op.symbol = c :: cs ∧ c ∈ ['-', '=', '?', '+', '%', '#'] := by
  cases op with
  | modifier colon op => exact ⟨op.char, [], rfl, by cases op <;> decide⟩
  | pattern pop =>
    cases pop with
    | smallSuffix => exact ⟨'%', [], rfl, by decide⟩
    | largeSuffix => exact ⟨'%', ['%'], rfl, by decide⟩
    | smallPrefix => exact ⟨'#', [], rfl, by decide⟩
    | largePrefix => exact ⟨'#', ['#'], rfl, by decide⟩

/-- Behind the parameter stand the colon, if there is one, and the operator. -/
theorem bracedTail_operator (hrest : lx.rest = op.text ++ more) :
    lx.bracedTail false name = (lx.advancedBy op.colon.length).bracedOperator op.hasColon name := by
  cases hcolon : op.hasColon with
  | false =>
    have hnone : op.colon = [] := by simp [Operator.colon, hcolon]
    obtain ⟨c, cs, hsymbol, hc⟩ := op.symbol_head
    rw [Operator.text, hnone, List.nil_append, hsymbol] at hrest
    have hne : c ≠ rbrace ∧ c ≠ ':' := by
      constructor <;> (rintro rfl; exact absurd hc (by decide))
    rw [bracedTail, lexerAtEnd_of_rest hrest, lexerPeek_of_rest hrest, hnone]
    simp only [Bool.false_eq_true, if_false, hne, List.length_nil, Lexer.advancedBy]
  | true =>
    have hone : op.colon = [':'] := by simp [Operator.colon, hcolon]
    rw [Operator.text, hone] at hrest
    have hne : ':' ≠ rbrace := by decide
    rw [bracedTail, lexerAtEnd_of_rest hrest, lexerPeek_of_rest hrest, hone]
    simp only [Bool.false_eq_true, if_false, hne, if_true, lexerAdvance_of_rest hrest, bind,
      Except.bind]
    rfl

/-- A character that ends the text of a parameter between braces. -/
def EndsParameter (c : Char) : Prop := isNameChar c = false ∧ c ≠ '@' ∧ c ≠ '*'

theorem takeWhile_name_of_ends {first : Char} {others cs : List Char}
    (start : isNameStartChar first = true) (valid : ∀ c ∈ others, isNameChar c = true)
    (hc : isNameChar c = false) :
    ((first :: others) ++ c :: cs).takeWhile isNameChar = first :: others := by
  have hall : ∀ d ∈ first :: others, isNameChar d = true := by
    intro d hd
    rcases List.mem_cons.mp hd with rfl | hd
    · exact isNameChar_of_start start
    · exact valid d hd
  rw [List.takeWhile_append_of_pos hall, List.takeWhile_cons_of_neg (by simp [hc]), List.append_nil]

/-- The parameter is read, unless it is a number of several digits. -/
theorem bracedName_tail {cs : List Char} (hp : p.Readable) (hrest : lx.rest = p.text ++ c :: cs)
    (hc : isNameChar c = false) :
    lx.bracedName false = (lx.advancedBy p.text.length).bracedTail false p.text := by
  have hone : ∀ d, p.text = [d] → isSpecialParamChar d = true →
      lx.bracedName false = (lx.advancedBy p.text.length).bracedTail false p.text := by
    intro d htext hd
    rw [htext, List.singleton_append] at hrest
    rw [bracedName, lexerAtEnd_of_rest hrest, lexerPeek_of_rest hrest]
    simp only [Bool.false_eq_true, if_false, hd, if_true, lexerAdvance_of_rest hrest, htext, bind,
      Except.bind]
    rfl
  cases p with
  | name first others start valid =>
    have hadvance := lexerAdvanceNChars_of_rest hrest (by simp [Parameter.text])
    rw [Parameter.text] at hrest hadvance ⊢
    have hend : lx.lexerAtEnd = false := lexerAtEnd_of_rest hrest
    have hpeek : lx.lexerPeek = first := lexerPeek_of_rest hrest
    rw [bracedName, hend, hpeek]
    simp only [Bool.false_eq_true, if_false, not_isSpecialParamChar_of_start start, start, if_true,
      hrest, takeWhile_name_of_ends start valid hc, hadvance, bind, Except.bind]
  | positional first others valid positive =>
    cases hp
    exact hone first rfl (by simp [isSpecialParamChar, valid first List.mem_cons_self])
  | special d valid =>
    refine hone d rfl ?_
    simp only [List.mem_cons, List.not_mem_nil, or_false] at valid
    rcases valid with rfl | rfl | rfl | rfl | rfl | rfl | rfl | rfl <;> decide

/-- A `#` that is the parameter asks for no length. -/
theorem not_length_of_ends {cs : List Char} (hp : p.Readable) (hrest : lx.rest = p.text ++ c :: cs)
    (hc : EndsParameter c) :
    ¬ (lx.lexerPeek = '#' ∧ (isNameStartChar (lx.lexerPeekAhead 1) ||
      (lx.lexerPeekAhead 1).isDigit || lx.lexerPeekAhead 1 = '@' || lx.lexerPeekAhead 1 = '*') =
        true) := by
  rintro ⟨hpeek, hnext⟩
  cases p with
  | name first others start valid =>
    have hfirst : lx.lexerPeek = first := lexerPeek_of_rest hrest
    rw [hpeek] at hfirst
    rw [← hfirst] at start
    exact absurd start (by decide)
  | positional first others valid positive =>
    have hfirst : lx.lexerPeek = first := lexerPeek_of_rest hrest
    have hdigit := valid first List.mem_cons_self
    rw [← hfirst, hpeek] at hdigit
    exact absurd hdigit (by decide)
  | special d valid =>
    rw [Parameter.text, List.singleton_append] at hrest
    rw [lexerPeekAhead_of_rest hrest] at hnext
    obtain ⟨hname, hat, hstar⟩ := hc
    have hstart : isNameStartChar c = false := by
      by_contra h
      rw [isNameChar_of_start (by simpa using h)] at hname
      cases hname
    have hdigit : c.isDigit = false := by
      by_contra h
      rw [Bool.not_eq_false] at h
      simp [isNameChar, Char.isAlphanum, h] at hname
    simp [hstart, hdigit, hat, hstar] at hnext

theorem lexerProcessParamExpBraced_tail {lx₀ : Lexer} {cs : List Char}
    (hensure : lx.ensureWord = .ok lx₀) (hp : p.Readable) (hrest : lx₀.rest = p.text ++ c :: cs)
    (hc : EndsParameter c) :
    lx.lexerProcessParamExpBraced =
      (lx₀.advancedBy p.text.length).bracedTail false p.text := by
  have hend : lx₀.lexerAtEnd = false := by
    obtain ⟨d, ds, htext⟩ : ∃ d ds, p.text = d :: ds := by cases p <;> exact ⟨_, _, rfl⟩
    rw [htext] at hrest
    exact lexerAtEnd_of_rest hrest
  rw [lexerProcessParamExpBraced, hensure]
  simp only [bind, Except.bind, hend, Bool.false_eq_true, if_false,
    if_neg (not_length_of_ends hp hrest hc)]
  exact bracedName_tail hp hrest hc.1

/-! ## The expansion -/

theorem Operator.text_head (op : Operator) :
    ∃ c cs, op.text = c :: cs ∧ EndsParameter c := by
  cases hcolon : op.hasColon with
  | false =>
    obtain ⟨c, cs, hsymbol, hc⟩ := op.symbol_head
    refine ⟨c, cs, by simp [Operator.text, Operator.colon, hcolon, hsymbol], ?_⟩
    simp only [List.mem_cons, List.not_mem_nil, or_false] at hc
    rcases hc with rfl | rfl | rfl | rfl | rfl | rfl <;> exact ⟨by decide, by decide, by decide⟩
  | true =>
    refine ⟨':', op.symbol, by simp [Operator.text, Operator.colon, hcolon], ?_⟩
    exact ⟨by decide, by decide, by decide⟩

/-- The function of the mode, for an expansion that starts at the current position. -/
theorem Sound.enters_braced (h : Sound lx) (hmeets : lx.MeetsExpansions)
    (hrest : lx.rest = '$' :: lbrace :: more) :
    ∃ lx₁ lx₀, lx.lexerProcessMode = .ok (.incomplete, lx₁) ∧
      lx₁.lexerProcessMode = lx₁.lexerProcessParamExpBraced ∧ lx₁.ensureWord = .ok lx₀ ∧
      Sound lx₀ ∧ lx₀.inWord = true ∧ lx₀.rest = more ∧
      (∀ part, lx₀.quotedIn part = lx.quotedIn part) ∧ ∀ lx₂ n part,
        Adds lx lx₂ lx.modeStack (2 + n) (lx.quotedIn part) ↔
          Adds lx₀ lx₂ lx₀.modeStack.tail n (lx₀.quotedIn part) := by
  obtain ⟨lx₁, hfirst, hentered⟩ := h.enters hmeets (.braced : Opens ['$', lbrace] _ _) hrest
  have hmode : lx₁.lexerCurrentMode = .paramExpBraced := by
    simp [lexerCurrentMode, hentered.modeStack]
  obtain ⟨lx₀, hensure, hstarted, hadds⟩ := hentered.ensureWord ⟨by decide, by decide⟩
  refine ⟨lx₁, lx₀, hfirst, by rw [lexerProcessMode, hmode], hensure, hstarted.sound,
    hstarted.inWord, ?_, fun part => ?_, hadds⟩
  · rw [hstarted.rest, hentered.rest, hrest]
    rfl
  · exact quotedIn_cons (hstarted.modeStack.trans hentered.modeStack) (by decide) part

/-- What becomes of an expansion whose operator is taken to be the given text. -/
theorem readsAs_of_operator {w' : List Char} (part : Part) (h : Sound lx)
    (hmeets : lx.MeetsExpansions) (hp : p.Readable)
    (hrest : lx.rest = expansionText p op w ++ more) (hsplit : op.symbol ++ w = text ++ w')
    (htext : text ≠ []) (hop : ∀ lx : Lexer, lx.rest = text ++ (w' ++ rbrace :: more) →
      lx.operatorAt? op.hasColon = some (kind, text.length)) :
    ReadsAs lx (expansionText p op w) part ↔
      wordLength? none 0 (w' ++ rbrace :: more) = some w'.length ∧
        lx.quotedIn (paramPart p.text kind op.hasColon (wordOf w')) = lx.quotedIn part := by
  have hafter : lx.rest = '$' :: lbrace :: (p.text ++ (op.text ++ (w ++ rbrace :: more))) := by
    simpa [expansionText] using hrest
  obtain ⟨lx₁, lx₀, hfirst, hfunction, hensure, hsound, hword, hrest₀, hquoted, hadds⟩ :=
    h.enters_braced hmeets hafter
  obtain ⟨c, cs, hhead, hends⟩ := op.text_head
  have htail : lx₁.lexerProcessMode = (lx₀.advancedBy p.text.length).bracedTail false p.text := by
    have hhead₀ : lx₀.rest = p.text ++ c :: (cs ++ (w ++ rbrace :: more)) := by
      rw [hrest₀, hhead]
      rfl
    rw [hfunction]
    exact lexerProcessParamExpBraced_tail hensure hp hhead₀ hends
  have hrest₁ : (lx₀.advancedBy p.text.length).rest = op.text ++ (w ++ rbrace :: more) :=
    rest_advancedBy_length hrest₀
  rw [bracedTail_operator hrest₁] at htail
  let lx₃ := (lx₀.advancedBy p.text.length).advancedBy op.colon.length
  have hrest₃ : lx₃.rest = text ++ (w' ++ rbrace :: more) := by
    rw [Operator.text, List.append_assoc] at hrest₁
    rw [rest_advancedBy_length hrest₁, ← List.append_assoc, hsplit, List.append_assoc]
  have hsame : SameContext lx₀ lx₃ :=
    (sameContext_advancedBy _ lx₀).trans (sameContext_advancedBy _ _)
  have hpos : lx₃.pos = lx₀.pos + (p.text.length + op.colon.length) := by
    simp [lx₃]
    omega
  have hsound₃ : Sound lx₃ := by
    have hle := length_le_of_rest hrest₃ (.inl htext)
    refine hsound.congr hsame.input ?_ hsame.modeStack hsame.inWord (by rw [hsame.currentToken])
      hsame.heredocQueue hsame.heredocIndex
    rw [hsame.input] at hle
    omega
  rw [readsAs_iff hfirst, htail]
  cases hlength : wordLength? none 0 (w' ++ rbrace :: more) with
  | none =>
    obtain ⟨lx', hrun⟩ := bracedOperator_none p.text hrest₃ htext (hop lx₃ hrest₃) hlength
    refine iff_of_false ?_ (by simp)
    rintro ⟨lx₂, hsecond, -⟩
    cases hrun.symm.trans hsecond
  | some length =>
    obtain ⟨lx', hrun, hread⟩ := bracedOperator_some p.text hsound₃
      (hsame.inWord.trans hword) hrest₃ htext (hop lx₃ hrest₃) hlength
    have hsize : (expansionText p op w).length =
        2 + (p.text.length + op.colon.length + (text.length + (w'.length + 1))) := by
      have := congrArg List.length hsplit
      simp only [List.length_append] at this
      simp [expansionText, Operator.text]
      omega
    rw [hsame.modeStack, quotedIn_congr hsame.modeStack, hquoted] at hread
    have hiff : Adds lx lx' lx.modeStack (expansionText p op w).length (lx.quotedIn part) ↔
        length = w'.length ∧ lx.quotedIn (paramPart p.text kind op.hasColon
          (wordOf ((w' ++ rbrace :: more).take length))) = lx.quotedIn part := by
      rw [hsize, hadds, adds_moved hsame hpos, hquoted, hread.iff]
      refine and_congr_left fun _ => ?_
      omega
    constructor
    · rintro ⟨lx₂, hsecond, hadded⟩
      cases hrun.symm.trans hsecond
      obtain ⟨rfl, hpart⟩ := hiff.mp hadded
      exact ⟨rfl, by rwa [List.take_left] at hpart⟩
    · rintro ⟨hlen, hpart⟩
      cases hlen
      exact ⟨lx', hrun, hiff.mpr ⟨rfl, by rwa [List.take_left]⟩⟩

/-- The part says what the expansion says. -/
structure Describes (part : Part) (p : Parameter) (op : Operator) (w : List Char) : Prop where
  type : part.type = .parameter
  paramName : part.paramName = some (String.ofList p.text)
  paramKind : part.paramKind = op.kind
  hasColon : part.hasColon = op.hasColon
  word : part.word.getD "" = String.ofList w

theorem describes_paramPart (p : Parameter) (op : Operator) (w : List Char) :
    Describes (paramPart p.text op.kind op.hasColon (wordOf w)) p op w where
  type := rfl
  paramName := rfl
  paramKind := rfl
  hasColon := rfl
  word := by
    rw [paramPart, wordOf]
    split
    · next h =>
      subst h
      rfl
    · rfl

theorem not_readsAs_digits {part : Part} (h : Sound lx) (hmeets : lx.MeetsExpansions)
    (hp : ¬ p.Readable) (hrest : lx.rest = '$' :: lbrace :: (p.text ++ more)) :
    ¬ ReadsAs lx text part := by
  cases p with
  | name | special => exact absurd trivial hp
  | positional first others valid positive =>
    cases others with
    | nil => exact absurd rfl hp
    | cons second others =>
      obtain ⟨lx₁, lx₀, hfirst, hfunction, hensure, -, -, hrest₀, -⟩ := h.enters_braced hmeets hrest
      obtain ⟨lx', herror⟩ := lexerProcessParamExpBraced_digits hensure hrest₀
        (valid first List.mem_cons_self)
        (valid second (List.mem_cons_of_mem _ List.mem_cons_self))
      rw [readsAs_iff hfirst, hfunction, herror]
      rintro ⟨lx₂, hsecond, -⟩
      cases hsecond

/-- An expansion is read as one part that says the same if and only if its parameter is no number
of several digits, its operator is not followed by its own character, and the groups of its word
are closed, where parentheses and braces are counted alike. -/
theorem readsAs_expansionText_iff (h : Sound lx) (hmeets : lx.MeetsExpansions)
    (hrest : lx.rest = expansionText p op w ++ more) :
    (∃ part, ReadsAs lx (expansionText p op w) part ∧ Describes part p op w) ↔
      p.Readable ∧ op.Separate w ∧ ParamWord.counted.Matched true w := by
  by_cases hp : p.Readable
  · by_cases hseparate : op.Separate w
    · have hreads (part : Part) := readsAs_of_operator part h hmeets hp hrest rfl
        (by obtain ⟨c, cs, hsymbol, -⟩ := op.symbol_head; simp [hsymbol])
        fun lx hrest => operatorAt?_separate hrest hseparate
      rw [and_iff_right hp, and_iff_right hseparate, ← ParamWord.wordLength?_eq_iff more]
      constructor
      · rintro ⟨part, hread, -⟩
        exact ((hreads part).mp hread).1
      · exact fun hlength => ⟨_, (hreads _).mpr ⟨hlength, rfl⟩, describes_paramPart p op w⟩
    · refine iff_of_false ?_ fun hand => hseparate hand.2.1
      rintro ⟨part, hread, hdescribes⟩
      obtain ⟨kind, text, w', hsplit, htext, hkind, hop⟩ :=
        operatorAt?_not_separate more hseparate
      obtain ⟨-, hpart⟩ := (readsAs_of_operator part h hmeets hp hrest hsplit htext hop).mp hread
      have hsame := congrArg Part.paramKind hpart
      rw [quotedIn_paramKind, quotedIn_paramKind, hdescribes.paramKind] at hsame
      exact hkind hsame
  · refine iff_of_false ?_ fun hand => hp hand.1
    rintro ⟨part, hread, -⟩
    have hdigits : lx.rest = '$' :: lbrace :: (p.text ++ (op.text ++ (w ++ rbrace :: more))) := by
      simpa [expansionText] using hrest
    exact not_readsAs_digits h hmeets hp hdigits hread

/-- The parameter `x`. -/
def xParameter : Parameter := .name 'x' [] rfl nofun

theorem readsAs_expansionText_quoted_brace : ∃ part,
    ReadsAs (lexerCreateWithInput
        (expansionText xParameter (.pattern .largePrefix) [squote, rbrace, squote]))
      (expansionText xParameter (.pattern .largePrefix) [squote, rbrace, squote]) part ∧
    Describes part xParameter (.pattern .largePrefix) [squote, rbrace, squote] := by
  have hinside : ParamWord.Inside squote [rbrace] := .char (by decide) (by decide) .nil
  have hmatched : ParamWord.counted.Matched true [squote, rbrace, squote] :=
    .atom (a := [squote, rbrace, squote])
      (.inr (.inr (.inr ⟨squote, [rbrace], .inl rfl, hinside, rfl⟩))) .nil
  have hseparate : (Operator.pattern .largePrefix).Separate [squote, rbrace, squote] := by
    rintro pop heq hsmall
    cases heq
    cases hsmall
  exact (readsAs_expansionText_iff (sound_create (by decide)) (.inl rfl)
    (List.append_nil _).symm).mpr ⟨trivial, hseparate, hmatched⟩

/-- The words of an expansion: texts of the shell in which a single parenthesis stands for
itself. -/
def wordText : Brackets Char Group :=
  { shellText with
    atom := fun a t => shellText.atom a t ∨ a = ['('] ∨ a = [')']
    atom_closing := fun _ => Iff.rfl }

/-- The parenthesis in `${x:-${y:-)}}` closes the inner expansion, so that the brace behind it
closes the outer one. -/
theorem expansionText_single_paren : ∃ p op w, wordText.Matched true w ∧
    Sound (lexerCreateWithInput (expansionText p op w)) ∧
    ¬ ∃ part, ReadsAs (lexerCreateWithInput (expansionText p op w)) (expansionText p op w) part ∧
      Describes part p op w := by
  let w := ['$', lbrace, 'y', ':', '-', ')', rbrace]
  refine ⟨xParameter, .modifier true .useDefault, w, ?_, sound_create (by decide), ?_⟩
  · have hplain {c : Char} (hc : isOrdinary c = true) : wordText.atom [c] [] :=
      .inl (.inl ⟨c, hc, rfl⟩)
    have hinner : wordText.Matched false ['y', ':', '-', ')'] :=
      .atom (a := ['y']) (hplain rfl) (.atom (a := [':']) (hplain rfl)
        (.atom (a := ['-']) (hplain rfl) (.atom (a := [')']) (.inr (.inr rfl)) .nil)))
    have hopening : wordText.opening .brace ['$', lbrace] := rfl
    have hclosing : wordText.closing .brace [rbrace] := rfl
    exact .group hopening hinner hclosing .nil
  · rintro ⟨part, ⟨lx₁, lx₂, hfirst, hsecond, hadds⟩, -⟩
    have hlast : ((lexerCreateWithInput (expansionText xParameter (.modifier true .useDefault)
        w)).lexerProcessMode.bind
          fun answer => answer.2.lexerProcessMode.map fun answer => answer.2.pos) = .ok 12 := by
      decide +kernel
    rw [hfirst] at hlast
    simp only [Except.bind, hsecond, Except.map, hadds.pos] at hlast
    cases hlast

end operators

end Migash.Lexer
