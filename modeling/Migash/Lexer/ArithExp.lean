import Migash.Lexer.Expansions
import Migash.Library.Brackets

/-! # Arithmetic expansions

Where the scan for the end of `$((` comes to its end: its stack counts every
bracket of the text, those in quotes as well.
-/

namespace Migash.Lexer

open Library

variable {lx : Lexer} {e more : List Char} {c : Char}

/-! ## Brackets -/

/-- The brackets that the scan has on its stack. -/
inductive Bracket where
  | paren | brace
  deriving DecidableEq, Repr

namespace Bracket

def opening : Bracket → Char
  | paren => '('
  | brace => lbrace

def closing : Bracket → Char
  | paren => ')'
  | brace => rbrace

/-- Any opening or closing bracket. -/
def isBracket (c : Char) : Bool := ['(', ')', lbrace, rbrace].contains c

/-- Every bracket counts, wherever it stands. -/
def counted : Brackets Char Bracket where
  atom a _ := ∃ c, isBracket c = false ∧ a = [c]
  stray _ := False
  opening k o := o = [k.opening]
  closing k c := c = [k.closing]
  atom_closing _ := Iff.rfl

variable {stack : List Bracket} {k : Bracket}

theorem bracket_or (c : Char) :
    (∃ k, c = opening k) ∨ (∃ k, c = closing k) ∨ isBracket c = false := by
  by_cases hc : isBracket c = true
  · simp only [isBracket, List.contains_iff_mem, List.mem_cons, List.not_mem_nil, or_false] at hc
    rcases hc with rfl | rfl | rfl | rfl
    · exact .inl ⟨.paren, rfl⟩
    · exact .inr (.inl ⟨.paren, rfl⟩)
    · exact .inl ⟨.brace, rfl⟩
    · exact .inr (.inl ⟨.brace, rfl⟩)
  · exact .inr (.inr (Bool.not_eq_true _ ▸ hc))

theorem ne_of_isBracket (h : isBracket c = false) :
    c ≠ '(' ∧ c ≠ ')' ∧ c ≠ lbrace ∧ c ≠ rbrace := by
  simpa [isBracket] using h

theorem isBracket_opening (k : Bracket) : isBracket k.opening = true := by cases k <;> decide

theorem isBracket_closing (k : Bracket) : isBracket k.closing = true := by cases k <;> decide

theorem opening_ne_closing (k k' : Bracket) : k.opening ≠ k'.closing := by
  cases k <;> cases k' <;> decide

theorem opening_injective {k k' : Bracket} (h : k.opening = k'.opening) : k = k' := by
  cases k <;> cases k' <;> first | rfl | exact absurd h (by decide)

theorem closing_injective {k k' : Bracket} (h : k.closing = k'.closing) : k = k' := by
  cases k <;> cases k' <;> first | rfl | exact absurd h (by decide)

/-- What a first character makes of the stack. -/
theorem nested_cons : counted.Nested stack (c :: e) ↔
    (isBracket c = false ∧ counted.Nested stack e) ∨
      (∃ k, c = opening k ∧ counted.Nested (k :: stack) e) ∨
      ∃ k rest, c = closing k ∧ stack = k :: rest ∧ counted.Nested rest e := by
  constructor
  · intro h
    generalize htext : c :: e = text at h
    cases h with
    | nil => cases htext
    | atom ha ht =>
      obtain ⟨d, hd, rfl⟩ := ha
      cases htext
      exact .inl ⟨hd, ht⟩
    | stray ha ht => exact ha.elim
    | @opening _ k _ _ ho ht =>
      cases ho
      cases htext
      exact .inr (.inl ⟨k, rfl, ht⟩)
    | @closing _ k _ _ hc ht =>
      cases hc
      cases htext
      exact .inr (.inr ⟨k, _, rfl, rfl, ht⟩)
  · rintro (⟨hc, ht⟩ | ⟨k, rfl, ht⟩ | ⟨k, rest, rfl, rfl, ht⟩)
    · exact .atom (a := [c]) ⟨c, hc, rfl⟩ ht
    · exact .opening rfl ht
    · exact .closing rfl ht

theorem nested_nil : counted.Nested stack [] ↔ stack = [] := by
  constructor
  · intro h
    generalize htext : ([] : List Char) = text at h
    cases h with
    | nil => rfl
    | atom ha ht =>
      obtain ⟨d, -, rfl⟩ := ha
      cases htext
    | stray ha ht => exact ha.elim
    | opening ho ht =>
      cases ho
      cases htext
    | closing hc ht =>
      cases hc
      cases htext
  · rintro rfl
    exact .nil

theorem nested_atom (hc : isBracket c = false) :
    counted.Nested stack (c :: e) ↔ counted.Nested stack e := by
  rw [nested_cons]
  constructor
  · rintro (⟨-, ht⟩ | ⟨k, rfl, -⟩ | ⟨k, rest, rfl, -⟩)
    · exact ht
    · rw [isBracket_opening] at hc
      cases hc
    · rw [isBracket_closing] at hc
      cases hc
  · exact fun ht => .inl ⟨hc, ht⟩

theorem nested_opening :
    counted.Nested stack (k.opening :: e) ↔ counted.Nested (k :: stack) e := by
  rw [nested_cons]
  constructor
  · rintro (⟨hc, -⟩ | ⟨k', hk, ht⟩ | ⟨k', rest, hk, -⟩)
    · rw [isBracket_opening] at hc
      cases hc
    · cases opening_injective hk
      exact ht
    · exact absurd hk (opening_ne_closing k k')
  · exact fun ht => .inr (.inl ⟨k, rfl, ht⟩)

theorem nested_closing :
    counted.Nested stack (k.closing :: e) ↔ ∃ rest, stack = k :: rest ∧ counted.Nested rest e := by
  rw [nested_cons]
  constructor
  · rintro (⟨hc, -⟩ | ⟨k', hk, ht⟩ | ⟨k', rest, hk, hstack, ht⟩)
    · rw [isBracket_closing] at hc
      cases hc
    · exact absurd hk.symm (opening_ne_closing k' k)
    · cases closing_injective hk
      exact ⟨rest, hstack, ht⟩
  · rintro ⟨rest, hstack, ht⟩
    exact .inr (.inr ⟨k, rest, rfl, hstack, ht⟩)

end Bracket

/-! ## The turns -/

section turns

variable {s : ArithScan} {cs : List Char} {k : Bracket}

/-- The scan with some characters read and another stack. -/
def ArithScan.read (s : ArithScan) (lx : Lexer) (text stack : List Char) : ArithScan :=
  { lx, text := s.text ++ text, stack }

open Bracket

/-- A character that is no bracket, and none of those that look at the next one. -/
theorem arithTurn_char (hrest : s.lx.rest = c :: cs) (hbracket : isBracket c = false)
    (hc : c ≠ backslash) (hdollar : c = '$' → ∀ k cs', cs ≠ opening k :: cs') :
    arithTurn s = .ok (.again (s.read s.lx.advanced [c] s.stack)) := by
  obtain ⟨hopen, hclose, hlbrace, hrbrace⟩ := ne_of_isBracket hbracket
  have hnext : ¬ (c = '$' ∧ (s.lx.lexerPeekAhead 1 = '(' ∨ s.lx.lexerPeekAhead 1 = lbrace)) := by
    rintro ⟨rfl, hor⟩
    cases cs with
    | nil =>
      rw [lexerPeekAhead_eq, hrest] at hor
      exact absurd hor (by decide)
    | cons d cs =>
      rw [lexerPeekAhead_of_rest hrest] at hor
      rcases hor with rfl | rfl
      · exact hdollar rfl .paren cs rfl
      · exact hdollar rfl .brace cs rfl
  rw [arithTurn, lexerAtEnd_of_rest hrest, lexerPeek_of_rest hrest]
  simp only [Bool.false_eq_true, if_false, hopen, hclose, hlbrace, hrbrace, hc, hnext, false_and,
    or_false, lexerAdvance_of_rest hrest, bind, Except.bind, pure, Except.pure]
  rfl

theorem arithTurn_opening (hrest : s.lx.rest = k.opening :: cs) :
    arithTurn s = .ok (.again (s.read s.lx.advanced [k.opening] (k.opening :: s.stack))) := by
  have hopen : k.opening = '(' ∨ k.opening = lbrace := by cases k <;> simp [opening]
  have hclose : k.opening ≠ ')' := by cases k <;> decide
  rw [arithTurn, lexerAtEnd_of_rest hrest, lexerPeek_of_rest hrest]
  simp only [Bool.false_eq_true, if_false, hopen, hclose, if_true, false_and,
    lexerAdvance_of_rest hrest, bind, Except.bind, pure, Except.pure]
  rfl

/-- A dollar goes with the bracket behind it. -/
theorem arithTurn_dollar (hrest : s.lx.rest = '$' :: k.opening :: cs) :
    arithTurn s = .ok (.again
      (s.read s.lx.advanced.advanced ['$', k.opening] (k.opening :: s.stack))) := by
  have hopen : k.opening = '(' ∨ k.opening = lbrace := by cases k <;> simp [opening]
  have hdollar : '$' ≠ '(' ∧ '$' ≠ ')' ∧ '$' ≠ lbrace ∧ '$' ≠ rbrace ∧ '$' ≠ backslash := by decide
  obtain ⟨h₁, h₂, h₃, h₄, h₅⟩ := hdollar
  have hrest' : s.lx.advanced.rest = k.opening :: cs := rest_advanced hrest
  rw [arithTurn, lexerAtEnd_of_rest hrest, lexerPeek_of_rest hrest, lexerPeekAhead_of_rest hrest]
  simp only [Bool.false_eq_true, if_false, h₁, h₂, h₃, h₄, h₅, false_and, or_self, hopen, and_self,
    if_true, lexerAdvance_of_rest hrest, lexerAdvance_of_rest hrest', bind, Except.bind, pure,
    Except.pure]
  rfl

theorem arithTurn_closing {stack : List Char} (hrest : s.lx.rest = k.closing :: cs)
    (hstack : s.stack = k.opening :: stack) :
    arithTurn s = .ok (.again (s.read s.lx.advanced [k.closing] stack)) := by
  have hopen : ¬ (k.closing = '(' ∨ k.closing = lbrace) := by cases k <;> decide
  have hclose : k.closing = ')' ∨ k.closing = rbrace := by cases k <;> simp [closing]
  have hfits : ¬ (k.opening = '(' ∧ k.closing ≠ ')' ∨ k.opening = lbrace ∧ k.closing ≠ rbrace) := by
    cases k <;> decide
  rw [arithTurn, lexerAtEnd_of_rest hrest, lexerPeek_of_rest hrest]
  simp only [Bool.false_eq_true, if_false, hstack, reduceCtorEq, and_false, hopen, hclose, if_true,
    hfits, lexerAdvance_of_rest hrest, bind, Except.bind, pure, Except.pure]
  rfl

/-- A bracket that closes one of the other kind, or none, is an error. -/
theorem arithTurn_unbalanced (stack : List Bracket) (hrest : s.lx.rest = k.closing :: cs)
    (hstack : s.stack = stack.map opening) (hother : stack.head? ≠ some k)
    (hend : stack = [] → k = .paren → cs.head? ≠ some ')') :
    ∃ lx', arithTurn s = .ok (.done (.error, lx')) := by
  have hopen : ¬ (k.closing = '(' ∨ k.closing = lbrace) := by cases k <;> decide
  have hclose : k.closing = ')' ∨ k.closing = rbrace := by cases k <;> simp [closing]
  rw [arithTurn, lexerAtEnd_of_rest hrest, lexerPeek_of_rest hrest]
  cases stack with
  | nil =>
    cases k with
    | paren =>
      have hnext : s.lx.lexerPeekAhead 1 ≠ ')' := by
        rw [lexerPeekAhead_eq, hrest]
        cases cs with
        | nil => decide
        | cons d cs => simpa using hend rfl rfl
      simp only [Bool.false_eq_true, if_false, hstack, List.map_nil, closing, and_self, if_true,
        hnext, bind, Except.bind, pure, Except.pure]
      split
      · exact ⟨_, rfl⟩
      · exact ⟨_, rfl⟩
    | brace =>
      have hparen : rbrace ≠ ')' := by decide
      simp only [closing] at hopen
      simp only [Bool.false_eq_true, if_false, hstack, List.map_nil, closing, hparen, false_and,
        hopen, or_true, if_true, bind, Except.bind, pure, Except.pure]
      exact ⟨_, rfl⟩
  | cons k' stack =>
    have hne : k' ≠ k := by simpa using hother
    have hfits : k'.opening = '(' ∧ k.closing ≠ ')' ∨ k'.opening = lbrace ∧ k.closing ≠ rbrace := by
      cases k <;> cases k' <;> first | exact absurd rfl hne | decide
    simp only [Bool.false_eq_true, if_false, hstack, List.map_cons, reduceCtorEq, and_false, hopen,
      hclose, if_true, hfits, bind, Except.bind, pure, Except.pure]
    exact ⟨_, rfl⟩

/-- Two parentheses where no bracket is open are the end. -/
theorem arithTurn_end (h : Sound s.lx) (hword : s.lx.inWord = true)
    (hrest : s.lx.rest = ')' :: ')' :: cs) (hstack : s.stack = []) :
    ∃ lx', arithTurn s = .ok (.done (.ok, lx')) ∧
      Adds s.lx lx' s.lx.modeStack.tail 2
        (s.lx.quotedIn { type := .arithmetic, text := some (String.ofList s.text) }) := by
  have hrest₁ : s.lx.advanced.rest = ')' :: cs := rest_advanced hrest
  have hsame := (sameContext_advanced s.lx).trans (sameContext_advanced s.lx.advanced)
  have hle : s.lx.pos + 2 ≤ s.lx.input.length := by
    have := congrArg List.length hrest
    rw [rest_length] at this
    simp only [List.length_cons] at this
    omega
  have hsound : Sound s.lx.advanced.advanced := h.congr hsame.input
    (by rw [advanced_pos, advanced_pos]; exact hle) hsame.modeStack hsame.inWord (by rw [hsame.currentToken]) hsame.heredocQueue hsame.heredocIndex
  obtain ⟨lx', hclose⟩ := hsound.closeExpansion (hsame.inWord.trans hword) .arithmetic s.text
  have hadds := adds_closeExpansion (hsame.inWord.trans hword) hclose
  rw [hsame.modeStack, quotedIn_congr hsame.modeStack] at hadds
  refine ⟨lx', ?_, (adds_moved hsame (m := 2) (n := 0) (by simp)).mpr hadds⟩
  rw [arithTurn, lexerAtEnd_of_rest hrest, lexerPeek_of_rest hrest, lexerPeekAhead_of_rest hrest]
  simp only [Bool.false_eq_true, if_false, hstack, and_self, if_true, lexerAdvance_of_rest hrest,
    lexerAdvance_of_rest hrest₁, hclose, bind, Except.bind, pure, Except.pure]

end turns

/-! ## The run -/

section run

open Bracket

variable {s : ArithScan} {stack : List Bracket}

theorem Sound.goes_arithTurn (h : Sound s.lx) (hword : s.lx.inWord = true) {t : ArithScan}
    (hturn : arithTurn s = .ok (.again t)) : Goes s.lx t.lx ∧ t.lx.inWord = true :=
  (h.holds_arithTurn hword).of_eq hturn

/-- The part for the text of an expression. -/
def arithPart (text : List Char) : Part :=
  { type := .arithmetic, text := some (String.ofList text) }

/-- The expansion of an expression. -/
def arithText (e : List Char) : List Char := '$' :: '(' :: '(' :: (e ++ [')', ')'])

/-- The turns that go on, and the one that ends the scan well. -/
theorem arithTurn_either (hword : s.lx.inWord = true) {x : Next ArithScan Answer}
    (hturn : arithTurn s = .ok x) :
    x.Either (fun t => SameContext s.lx t.lx ∧ s.lx.pos < t.lx.pos) fun answer =>
      answer.1 = .ok →
        Adds s.lx answer.2 s.lx.modeStack.tail 2 (s.lx.quotedIn (arithPart s.text)) := by
  have hone {t : Lexer} (ht : s.lx.lexerAdvance = .ok t) :
      SameContext s.lx t ∧ s.lx.pos < t.pos := by
    rw [lexerAdvance_eq ht]
    exact ⟨sameContext_advanced _, by simp⟩
  have htwo {t u : Lexer} (ht : s.lx.lexerAdvance = .ok t) (hu : t.lexerAdvance = .ok u) :
      SameContext s.lx u ∧ s.lx.pos < u.pos := by
    rw [lexerAdvance_eq hu, lexerAdvance_eq ht]
    exact ⟨(sameContext_advanced _).trans (sameContext_advanced _),
      by rw [advanced_pos, advanced_pos]; omega⟩
  unfold arithTurn at hturn
  dsimp only at hturn
  split_ifs at hturn
  · cases hturn
    exact nofun
  · simp only [except_bind_eq_ok] at hturn
    obtain ⟨t, ht, u, hu, v, hv, hdone⟩ := hturn
    cases hdone
    intro _
    have hsame := (htwo ht hu).1
    have hadds := adds_closeExpansion (hsame.inWord.trans hword) hv
    rw [hsame.modeStack, quotedIn_congr hsame.modeStack] at hadds
    refine (adds_moved hsame (m := 2) (n := 0) ?_).mpr hadds
    rw [lexerAdvance_eq hu, lexerAdvance_eq ht, advanced_pos, advanced_pos]
  · cases hturn
    exact nofun
  · cases hturn
    exact nofun
  · obtain ⟨t, ht, hagain⟩ := except_bind_eq_ok.mp hturn
    cases hagain
    exact hone ht
  · cases hstack : s.stack with
    | nil =>
      rw [hstack] at hturn
      cases hturn
      exact nofun
    | cons o stack =>
      rw [hstack] at hturn
      dsimp only at hturn
      split_ifs at hturn
      · cases hturn
        exact nofun
      · obtain ⟨t, ht, hagain⟩ := except_bind_eq_ok.mp hturn
        cases hagain
        exact hone ht
  all_goals simp only [except_bind_eq_ok] at hturn
  · obtain ⟨t, ht, u, hu, hagain⟩ := hturn
    cases hagain
    exact htwo ht hu
  · obtain ⟨t, ht, u, hu, hagain⟩ := hturn
    cases hagain
    exact htwo ht hu
  · obtain ⟨t, ht, u, hu, hagain⟩ := hturn
    cases hagain
    exact htwo ht hu
  · obtain ⟨t, ht, hagain⟩ := hturn
    cases hagain
    exact hone ht

/-- A scan that ends well has read the two parentheses, and makes an arithmetic part. -/
theorem arith_end {n : ℕ} {lx' : Lexer} (hword : s.lx.inWord = true)
    (hrun : iterate arithTurn n s = .ok (.ok, lx')) :
    s.lx.pos + 2 ≤ lx'.pos ∧
      ∃ text, lx'.parts = s.lx.parts ++ [s.lx.quotedIn (arithPart text)] := by
  have hall := iterate_rule
    (I := fun t : ArithScan => SameContext s.lx t.lx ∧ s.lx.pos ≤ t.lx.pos)
    (Q := fun a : Answer => a.1 = .ok → s.lx.pos + 2 ≤ a.2.pos ∧
      ∃ text, a.2.parts = s.lx.parts ++ [s.lx.quotedIn (arithPart text)])
    ?_ ?_ ⟨sameContext_advancedBy 0 s.lx, le_refl _⟩ hrun
  · exact hall rfl
  · rintro t u ⟨hsame, hle⟩ hturn
    obtain ⟨hnext, hlt⟩ := arithTurn_either (hsame.inWord.trans hword) hturn
    exact ⟨hsame.trans hnext, hle.trans (Nat.le_of_lt hlt)⟩
  · rintro t answer ⟨hsame, hle⟩ hturn hok
    have hadds := arithTurn_either (hsame.inWord.trans hword) hturn hok
    refine ⟨by rw [hadds.pos]; omega, t.text, ?_⟩
    rw [hadds.parts, quotedIn_congr hsame.modeStack, Lexer.parts, hsame.currentToken]
    rfl

/-- Another part of the text takes one turn. -/
theorem closes_read {t : ArithScan} {piece : List Char} (hturn : arithTurn s = .ok (.again t))
    (hsame : SameContext s.lx t.lx) (hpos : t.lx.pos = s.lx.pos + piece.length)
    (htext : t.text = s.text ++ piece) :
    Closes arithTurn (fun s => s.lx) s ((piece ++ e).length + 2) (arithPart (s.text ++ (piece ++ e))) ↔
      Closes arithTurn (fun s => s.lx) t (e.length + 2) (arithPart (t.text ++ e)) := by
  rw [htext, List.append_assoc, List.length_append, Nat.add_assoc]
  exact closes_again hturn hsame hpos

/-- The scan ends behind the text if and only if the text closes what is open. -/
def EndsBehind (more e : List Char) : Prop :=
  ∀ (s : ArithScan) (stack : List Bracket), Sound s.lx → s.lx.inWord = true →
    s.stack = stack.map opening → s.lx.rest = e ++ ')' :: ')' :: more →
      (Closes arithTurn (fun s => s.lx) s (e.length + 2) (arithPart (s.text ++ e)) ↔
        counted.Nested stack e)

/-- The rest of the text is left to the next turn. -/
theorem EndsBehind.again (hends : EndsBehind more e) (piece : List Char) (stack : List Bracket)
    {lx : Lexer} (h : Sound s.lx) (hword : s.lx.inWord = true) (hrest : s.lx.rest = piece ++ (e ++ ')' :: ')' :: more))
    (hturn : arithTurn s = .ok (.again (s.read lx piece (stack.map opening))))
    (hsame : SameContext s.lx lx) (hpos : lx.pos = s.lx.pos + piece.length) :
    Closes arithTurn (fun s => s.lx) s ((piece ++ e).length + 2) (arithPart (s.text ++ (piece ++ e))) ↔
      counted.Nested stack e := by
  obtain ⟨hgoes, hword'⟩ := h.goes_arithTurn hword hturn
  have hrest' : lx.rest = e ++ ')' :: ')' :: more := by
    rw [Lexer.rest, hsame.input, hpos, ← List.drop_drop]
    change s.lx.rest.drop piece.length = _
    rw [hrest, List.drop_left]
  rw [closes_read hturn hsame hpos rfl]
  exact hends _ _ hgoes.sound hword' rfl hrest'

/-- So it does if it does with every shorter text. -/
theorem endsBehind_of_shorter (hnone : backslash ∉ e)
    (ih : ∀ e', e'.length < e.length → backslash ∉ e' → EndsBehind more e') :
    EndsBehind more e := by
  intro s stack h hword hstack hrest
  have hsame := sameContext_advanced s.lx
  have hpos : s.lx.advanced.pos = s.lx.pos + 1 := advanced_pos
  cases e with
  | nil =>
    rw [nested_nil]
    cases stack with
    | nil =>
      obtain ⟨lx', hturn, hadds⟩ := arithTurn_end h hword hrest hstack
      simpa [closes_done hturn, arithPart] using hadds
    | cons k stack =>
      refine iff_of_false ?_ (by simp)
      by_cases hk : k = .paren
      · subst hk
        have hturn := arithTurn_closing (k := .paren) hrest hstack
        rw [show ([] : List Char).length + 2 = 1 + 1 from rfl, closes_again hturn hsame hpos]
        rintro ⟨n, lx', hrun, hadds⟩
        obtain ⟨hgoes, hword'⟩ := h.goes_arithTurn hword hturn
        have hle := (arith_end hword' hrun).1
        have heq := hadds.pos
        dsimp only at heq
        omega
      · obtain ⟨lx', hturn⟩ := arithTurn_unbalanced (k := .paren) (k :: stack) hrest hstack
          (by simpa using hk) nofun
        exact not_closes hturn nofun
  | cons c e =>
    have hshort : EndsBehind more e :=
      ih e (by simp) (List.not_mem_of_not_mem_cons hnone)
    rcases bracket_or c with ⟨k, rfl⟩ | ⟨k, rfl⟩ | hbracket
    · rw [nested_opening]
      exact hshort.again [k.opening] (k :: stack) h hword hrest
        (by rw [arithTurn_opening hrest, hstack]; rfl) hsame hpos
    · cases stack with
      | nil =>
        refine iff_of_false ?_ (by rw [nested_closing]; simp)
        by_cases hend : k = .paren ∧ (e ++ ')' :: ')' :: more).head? = some ')'
        · obtain ⟨rfl, hhead⟩ := hend
          obtain ⟨cs, hcs⟩ := List.head?_eq_some_iff.mp hhead
          rw [List.cons_append, hcs] at hrest
          obtain ⟨lx', hturn, hadds⟩ := arithTurn_end h hword hrest hstack
          rw [closes_done hturn]
          intro hadds'
          have := hadds.pos.symm.trans hadds'.pos
          rw [List.length_cons] at this
          omega
        · obtain ⟨lx', hturn⟩ := arithTurn_unbalanced [] hrest hstack nofun
            (fun _ hk hhead => hend ⟨hk, hhead⟩)
          exact not_closes hturn nofun
      | cons k' stack =>
        rw [nested_closing]
        by_cases hk : k' = k
        · subst hk
          have hagain := hshort.again [k'.closing] stack h hword hrest
            (arithTurn_closing hrest hstack) hsame hpos
          simpa using hagain
        · refine iff_of_false ?_ (by simp [hk])
          obtain ⟨lx', hturn⟩ := arithTurn_unbalanced (k' :: stack) hrest hstack (by simpa using hk) nofun
          exact not_closes hturn nofun
    · rw [nested_atom hbracket]
      by_cases hdollar : c = '$' ∧ ∃ k e', e = opening k :: e'
      · obtain ⟨rfl, k, e', rfl⟩ := hdollar
        rw [nested_opening]
        have hrest' : EndsBehind more e' := ih e' (by simp only [List.length_cons]; omega) (fun hmem => hnone (by simp [hmem]))
        exact hrest'.again ['$', k.opening] (k :: stack) h hword hrest
          (by rw [arithTurn_dollar hrest, hstack]; rfl)
          (hsame.trans (sameContext_advanced _)) (by simp)
      · have hnext : c = '$' → ∀ k cs', e ++ ')' :: ')' :: more ≠ opening k :: cs' := by
          rintro hc k cs' heq
          cases e with
          | nil => cases k <;> simp [opening, lbrace] at heq
          | cons d e' =>
            cases heq
            exact hdollar ⟨hc, k, e', rfl⟩
        exact hshort.again [c] stack h hword hrest
          (by rw [arithTurn_char hrest hbracket (Ne.symm (List.ne_of_not_mem_cons hnone)) hnext, hstack])
          hsame hpos

theorem endsBehind (hnone : backslash ∉ e) : EndsBehind more e := by
  induction hlen : e.length using Nat.strong_induction_on generalizing e with
  | _ n ih =>
    subst hlen
    exact endsBehind_of_shorter hnone fun e' hlt hnone' => ih e'.length hlt hnone' rfl

/-- An expression is read as one part that holds it if and only if every bracket in it, in quotes
or not, has its partner. -/
theorem readsAs_arithText_iff (h : Sound lx) (hmeets : lx.MeetsExpansions) (hnone : backslash ∉ e)
    (hrest : lx.rest = arithText e ++ more) :
    ReadsAs lx (arithText e) (arithPart e) ↔ counted.Matched true e := by
  have hrest' : lx.rest = ['$', '(', '('] ++ (e ++ ')' :: ')' :: more) := by simpa [arithText] using hrest
  obtain ⟨lx₁, hfirst, hentered⟩ := h.enters hmeets .arith hrest'
  have hmode : lx₁.lexerCurrentMode = .arithExp := by simp [lexerCurrentMode, hentered.modeStack]
  have hprocess : lx₁.lexerProcessMode =
      lx₁.ensureWord >>= fun lx => iterate arithTurn lx.turns { lx } := by
    rw [lexerProcessMode, hmode]
    rfl
  obtain ⟨lx₀, hstarted, hreads⟩ := hentered.reads_iff_closes (e.length + 2) (arithPart e)
    (l := fun s : ArithScan => s.lx) ⟨by decide, by decide⟩ hprocess (fun _ => rfl)
    (fun s t hs hword hturn => hs.goes_arithTurn hword hturn)
  have hbehind : lx₁.rest = e ++ ')' :: ')' :: more := by
    rw [hentered.rest, hrest']
    rfl
  have hlength : (arithText e).length = 3 + (e.length + 2) := by
    simp [arithText]
    omega
  rw [readsAs_iff hfirst, hlength, ← Brackets.nested_iff_matched]
  exact hreads.trans (endsBehind hnone { lx := lx₀ } [] hstarted.sound hstarted.inWord rfl
    (hstarted.rest.trans hbehind))

theorem readsAs_arithText_sum : ReadsAs (lexerCreateWithInput (arithText ['1', '+', '2']))
    (arithText ['1', '+', '2']) (arithPart ['1', '+', '2']) := by
  have hnone : backslash ∉ ['1', '+', '2'] := by decide
  have hmatched : counted.Matched true ['1', '+', '2'] :=
    .atom (a := ['1']) ⟨'1', rfl, rfl⟩ (.atom (a := ['+']) ⟨'+', rfl, rfl⟩
      (.atom (a := ['2']) ⟨'2', rfl, rfl⟩ .nil))
  exact (readsAs_arithText_iff (sound_create (by decide)) (.inl rfl) hnone
    (List.append_nil _).symm).mpr hmatched

/-- The parenthesis in the quotes of the substitution `$(echo ")")` takes part in the count. -/
theorem arithText_quoted_paren : ∃ e, shellText.Matched true e ∧ backslash ∉ e ∧
    Sound (lexerCreateWithInput (arithText e)) ∧
    ¬ ReadsAs (lexerCreateWithInput (arithText e)) (arithText e) (arithPart e) := by
  let e := ['$', '(', 'e', 'c', 'h', 'o', ' ', dquote, ')', dquote, ')']
  refine ⟨e, ?_, by decide, sound_create (by decide), ?_⟩
  · have hopening : shellText.opening .paren ['$', '('] := .inr rfl
    exact .group hopening (matched_ordinary (s := ['e', 'c', 'h', 'o', ' ']) (List.all_eq_true.mp rfl)
      (.atom (a := [dquote, ')', dquote]) (.inr (.inr ⟨.double, [')'], nofun, rfl⟩)) .nil)) rfl .nil
  · rintro ⟨lx₁, lx₂, hfirst, hsecond, hadds⟩
    have hlast : ((lexerCreateWithInput (arithText e)).lexerProcessMode.bind
        fun answer => answer.2.lexerProcessMode.map fun answer => answer.2.pos) = .ok 15 := by
      decide +kernel
    rw [hfirst] at hlast
    simp only [Except.bind, hsecond, Except.map, hadds.pos] at hlast
    cases hlast

end run

end Migash.Lexer
