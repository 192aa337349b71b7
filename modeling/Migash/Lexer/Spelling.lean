import Migash.Lexer.Lexemes

/-! # Writing lexemes

A text that is written lexeme by lexeme falls into just these lexemes, in any layout
that keeps the words apart and lets no operator grow together with the next.
-/

namespace Migash.Lexer

variable {w text more : List Char} {c : Char} {ls : List Lexeme} {type : TokenType}

/-! ## Words -/

/-- The text does not go on with a word. -/
def EndsWord (more : List Char) : Prop := ∀ c ∈ more.head?, isWordChar c = false

theorem endsWord_nil : EndsWord [] := by rintro _ ⟨⟩

theorem endsWord_cons (h : isWordChar c = false) : EndsWord (c :: text) := by
  rintro _ ⟨⟩
  exact h

/-- Where no character of a word follows, a begun word ends. -/
theorem Lexes.ends (h : Lexes [] more ls) (hmore : EndsWord more) :
    Lexes w more (begun w ++ ls) := by
  cases h with
  | end_ =>
    change Lexes w [] (begun w ++ [])
    rw [List.append_nil]
    exact .end_ w
  | blank hc hrest => exact .blank hc hrest
  | newline hrest => exact .newline hrest
  | operator hfound hheredoc hrest => exact .operator hfound hheredoc hrest
  | @character _ _ c _ hc _ _ =>
    have hword := (isWordChar_of_standsIn hc).1
    rw [hmore c rfl] at hword
    cases hword

/-- A text that is a word by itself. -/
structure IsPlain (text : List Char) : Prop where
  nonempty : text ≠ []
  ordinary : ∀ c ∈ text, isOrdinaryChar c = true

theorem isPlain_cons (h : (c :: text).all isOrdinaryChar = true) : IsPlain (c :: text) :=
  ⟨List.cons_ne_nil c text, List.all_eq_true.mp h⟩

/-- No number in front of a redirection begins in the text. -/
def NumbersApart (text more : List Char) : Prop :=
  ∀ rest, rest <:+ text → rest ≠ [] → NumberFree (rest ++ more)

theorem NumbersApart.tail (h : NumbersApart (c :: text) more) : NumbersApart text more :=
  fun rest hrest hne => h rest (hrest.trans (List.suffix_cons c text)) hne

theorem EndsWord.not_isDigit (h : EndsWord more) : ∀ c ∈ more.head?, c.isDigit = false := by
  intro c hc
  have hdelimiter : c ∈ nul :: [' ', tab, newline, ';', '&', '|', '<', '>', '(', ')'] := by
    have hword := h c hc
    simp only [isWordChar, isDelimiterChar, List.contains_eq_mem, Bool.not_eq_false',
      Bool.or_eq_true, decide_eq_true_eq] at hword
    exact List.mem_cons.mpr hword.symm
  have hall : (nul :: [' ', tab, newline, ';', '&', '|', '<', '>', '(', ')']).all
      (fun c => !c.isDigit) = true := rfl
  simpa using List.all_eq_true.mp hall c hdelimiter

theorem numbersApart_of_more (h : ∀ c ∈ text, isOrdinaryChar c = true) (hends : EndsWord more)
    (hmore : ∀ c ∈ more.head?, isRedirectionStartChar c = false) : NumbersApart text more := by
  have hfree : NumberFree more := by
    cases more with
    | nil => exact numberFree_nil
    | cons c more => exact numberFree_cons (hends.not_isDigit c rfl) (hmore c rfl)
  intro rest hrest hne
  have hordinary : ∀ c ∈ rest, isOrdinaryChar c = true := fun c hc => h c (hrest.subset hc)
  clear hrest hne
  induction rest with
  | nil => exact hfree
  | cons c rest ih =>
    rw [List.forall_mem_cons] at hordinary
    exact (ih hordinary.2).cons_of_ordinary hordinary.1

theorem numbersApart_of_last (h : ∀ c ∈ text, isOrdinaryChar c = true)
    (hlast : ∀ c ∈ text.getLast?, c.isDigit = false) : NumbersApart text more := by
  intro rest hrest hne
  induction rest with
  | nil => exact absurd rfl hne
  | cons c rest ih =>
    have hc : isOrdinaryChar c = true := h c (hrest.subset List.mem_cons_self)
    by_cases hnil : rest = []
    · subst hnil
      obtain ⟨front, rfl⟩ := hrest
      have hdigit : c.isDigit = false := hlast c (by simp)
      have hmeta := (isWordChar_iff.mp (isOrdinaryChar_iff.mp hc).1).2.2.2.1
      refine numberFree_cons hdigit ?_
      rw [isRedirectionStartChar, decide_eq_false_iff_not]
      rintro (rfl | rfl)
      all_goals exact absurd hmeta (by decide)
    · exact (ih ((List.suffix_cons c rest).trans hrest) hnil).cons_of_ordinary hc

theorem lexes_ordinary (h : ∀ c ∈ text, isOrdinaryChar c = true) (hnumbers : NumbersApart text more)
    (hmore : Lexes [] more ls) (hends : EndsWord more) :
    Lexes w (text ++ more) (begun (w ++ text) ++ ls) := by
  induction text generalizing w with
  | nil =>
    rw [List.append_nil]
    exact hmore.ends hends
  | cons c text ih =>
    have hnumber : NumberFree (c :: (text ++ more)) :=
      hnumbers (c :: text) (List.suffix_refl _) (List.cons_ne_nil _ _)
    rw [List.forall_mem_cons] at h
    have hrest := ih (w := w ++ [c]) h.2 hnumbers.tail
    rw [List.append_assoc] at hrest
    exact .character (.inl h.1) hnumber hrest

theorem IsPlain.lexes (h : IsPlain text) (hnumbers : NumbersApart text more)
    (hmore : Lexes [] more ls) (hends : EndsWord more) :
    Lexes [] (text ++ more) (.word text :: ls) := by
  have hword := lexes_ordinary (w := []) h.ordinary hnumbers hmore hends
  rwa [List.nil_append, begun, if_neg h.nonempty] at hword

/-! ## Operators -/

/-- The characters with which an operator may go on. -/
def goesOn : List Char := ['<', '>', '&', '|', ';']

theorem isPrefixOf_of_goesOn {rest : List Char} (hmore : ∀ c ∈ more.head?, c ∉ goesOn)
    (hc : c ∈ goesOn) : (c :: rest).isPrefixOf more = false := by
  cases more with
  | nil => rfl
  | cons d more =>
    have hd : c ≠ d := by
      rintro rfl
      exact hmore c rfl hc
    simp [List.isPrefixOf, hd]

/-- An operator in front of what it does not grow together with. -/
theorem operatorOf?_append {op : List Char} (hop : (op, type) ∈ normalModeOperators)
    (hheredoc : type ≠ .dless ∧ type ≠ .dlessdash) (hmore : ∀ c ∈ more.head?, c ∉ goesOn) :
    operatorOf? (op ++ more) = some (op, type) := by
  have hnot {c : Char} {rest : List Char} := @isPrefixOf_of_goesOn more c rest hmore
  simp only [goesOn, List.mem_cons, List.not_mem_nil, or_false] at hnot
  simp only [normalModeOperators, List.mem_cons, Prod.mk.injEq, List.not_mem_nil, or_false] at hop
  rcases hop with ⟨rfl, rfl⟩ | ⟨rfl, rfl⟩ | ⟨rfl, rfl⟩ | ⟨rfl, rfl⟩ | ⟨rfl, rfl⟩ | ⟨rfl, rfl⟩ |
    ⟨rfl, rfl⟩ | ⟨rfl, rfl⟩ | ⟨rfl, rfl⟩ | ⟨rfl, rfl⟩ | ⟨rfl, rfl⟩ | ⟨rfl, rfl⟩ | ⟨rfl, rfl⟩ |
    ⟨rfl, rfl⟩ | ⟨rfl, rfl⟩ | ⟨rfl, rfl⟩ | ⟨rfl, rfl⟩
  all_goals simp [operatorOf?, normalModeOperators, List.find?, List.isPrefixOf, hnot] at *

/-! ## Any layout -/

/-- The text consists of the lexemes, in any layout that keeps them apart. -/
inductive Spelled : List Char → List Lexeme → Prop where
  | end_ : Spelled [] []
  | blank {c : Char} {text : List Char} {ls : List Lexeme} (isBlank : c = ' ' ∨ c = tab)
      (more : Spelled text ls) : Spelled (c :: text) ls
  | newline {text : List Char} {ls : List Lexeme} (more : Spelled text ls) :
      Spelled (newline :: text) (.operator .newline :: ls)
  | operator {op text : List Char} {type : TokenType} {ls : List Lexeme}
      (listed : (op, type) ∈ normalModeOperators) (noHeredoc : type ≠ .dless ∧ type ≠ .dlessdash)
      (apart : ∀ c ∈ text.head?, c ∉ goesOn) (more : Spelled text ls) :
      Spelled (op ++ text) (.operator type :: ls)
  | word {w text : List Char} {ls : List Lexeme} (plain : IsPlain w) (apart : EndsWord text)
      (noNumber : (∀ c ∈ text.head?, isRedirectionStartChar c = false) ∨
        ∀ c ∈ w.getLast?, c.isDigit = false)
      (more : Spelled text ls) : Spelled (w ++ text) (.word w :: ls)

theorem Spelled.lexes (h : Spelled text ls) : Lexes [] text ls := by
  induction h with
  | end_ => exact .end_ []
  | blank hblank _ ih => exact .blank hblank ih
  | newline _ ih => exact .newline ih
  | operator hop hheredoc hapart _ ih =>
    exact .operator (operatorOf?_append hop hheredoc hapart) hheredoc ih
  | word hplain hends hnumber _ ih =>
    refine hplain.lexes ?_ ih hends
    rcases hnumber with hmore | hlast
    · exact numbersApart_of_more hplain.ordinary hends hmore
    · exact numbersApart_of_last hplain.ordinary hlast

end Migash.Lexer
