import Mathlib.Data.List.TakeWhile
import Migash.Arithmetic.Expression

/-! # Reading what is written

Every literal, name and operator of a written expression is read back by
`get_token`, since what follows it cannot make it longer.
-/

namespace Migash.Arithmetic

variable {text rest : List Char} {c : Char}

/-! ## Characters -/

theorem char_le_iff {a b : Char} : a ≤ b ↔ a.toNat ≤ b.toNat := Iff.rfl

theorem isAlnumOrUnderscore_iff :
    isAlnumOrUnderscore c = true ↔ c.isAlpha = true ∨ c.isDigit = true ∨ c = '_' := by
  simp [isAlnumOrUnderscore, Char.isAlphanum, or_assoc]

theorem isspace_of_isAlnumOrUnderscore (h : isAlnumOrUnderscore c = true) : isspace c = false := by
  have hlow : 48 ≤ c.toNat := by
    rcases isAlnumOrUnderscore_iff.mp h with h | h | rfl
    · rcases isAlpha_iff.mp h with h | h <;> omega
    · exact (isDigit_iff.mp h).1
    · decide
  rw [← Bool.not_eq_true]
  intro hspace
  simp only [isspace, Bool.or_eq_true, decide_eq_true_eq, Bool.and_eq_true] at hspace
  rcases hspace with rfl | ⟨-, hle⟩
  · exact absurd hlow (by decide)
  · omega

theorem isAlnumOrUnderscore_of_digit (r : Radix) (h : r.digit c = true) :
    isAlnumOrUnderscore c = true := by
  have hoctal : isOctalDigit c = true → c.isDigit = true := by
    intro h
    simp only [isOctalDigit, Bool.and_eq_true, decide_eq_true_eq, char_le_iff] at h
    have h0 : '0'.toNat = 48 := rfl
    have h7 : '7'.toNat = 55 := rfl
    exact isDigit_iff.mpr (by omega)
  have hhex : isHexDigit c = true → c.isAlpha = true ∨ c.isDigit = true := by
    intro h
    simp only [isHexDigit, Bool.or_eq_true, Bool.and_eq_true, decide_eq_true_eq,
      char_le_iff] at h
    have ha : 'a'.toNat = 97 := rfl
    have hf : 'f'.toNat = 102 := rfl
    have hA : 'A'.toNat = 65 := rfl
    have hF : 'F'.toNat = 70 := rfl
    rcases h with (h | h) | h
    · exact .inr h
    · exact .inl (isAlpha_iff.mpr (by omega))
    · exact .inl (isAlpha_iff.mpr (by omega))
  rw [isAlnumOrUnderscore_iff]
  cases r with
  | decimal => exact .inr (.inl h)
  | octal => exact .inr (.inl (hoctal h))
  | hex => exact (hhex h).imp_right .inl
  | hexUpper => exact (hhex h).imp_right .inl

theorem takeWhile_append {p : Char → Bool} (htext : ∀ c ∈ text, p c = true)
    (hrest : ∀ c ∈ rest.head?, p c = false) :
    (text ++ rest).takeWhile p = text ∧ (text ++ rest).dropWhile p = rest := by
  rw [List.takeWhile_append_of_pos htext, List.dropWhile_append_of_pos htext]
  cases rest with
  | nil => simp
  | cons c rest => simp [hrest c rfl]

/-- The rest of the text does not go on with a letter, a digit or an underscore. -/
def EndsWord (rest : List Char) : Prop := ∀ c ∈ rest.head?, isAlnumOrUnderscore c = false

/-- The rest of the text makes no operator longer. -/
def EndsOperator (rest : List Char) : Prop :=
  ∀ c ∈ rest.head?, c ∉ ['=', '<', '>', '&', '|']

set_option linter.unusedSimpArgs false in
theorem getToken_spelling {type : MathTokenType} (htype : type.spelling ≠ [])
    (h : EndsOperator rest) : getToken (type.spelling ++ rest) = ({ type }, rest) := by
  cases rest with
  | nil => cases type <;> first | exact absurd rfl htype | rfl
  | cons c rest =>
    have hc := h c rfl
    simp only [List.mem_cons, List.not_mem_nil, or_false, not_or] at hc
    obtain ⟨heq, hlt, hgt, hamp, hbar⟩ := hc
    cases type <;> first
      | exact absurd rfl htype
      | simp +decide [getToken, MathTokenType.spelling, getOperator, heq, hlt, hgt, hamp, hbar,
          isspace, isAlphaOrUnderscore]

theorem getToken_name (x : Name) (h : EndsWord rest) :
    getToken (x.text ++ rest) = ({ type := .variable, name := x.text }, rest) := by
  have hfirst : isAlnumOrUnderscore x.first = true := by
    have := x.start
    simp only [isAlphaOrUnderscore, Bool.or_eq_true, decide_eq_true_eq] at this
    rw [isAlnumOrUnderscore_iff]
    exact this.imp_right .inr
  have hdigit : x.first.isDigit = false := by
    rw [← Bool.not_eq_true]
    intro hdigit
    have hrange := isDigit_iff.mp hdigit
    have := x.start
    simp only [isAlphaOrUnderscore, Bool.or_eq_true, decide_eq_true_eq] at this
    rcases this with halpha | hunder
    · have := isAlpha_iff.mp halpha
      omega
    · rw [hunder] at hrange
      exact absurd hrange (by decide)
  have hall : ∀ c ∈ x.text, isAlnumOrUnderscore c = true := by
    rw [Name.text]
    simpa using ⟨hfirst, x.valid⟩
  obtain ⟨htake, hdrop⟩ := takeWhile_append hall h
  have hspace := isspace_of_isAlnumOrUnderscore hfirst
  rw [Name.text, List.cons_append] at htake hdrop ⊢
  rw [getToken, List.dropWhile_cons_of_neg (by simp [hspace])]
  simp only [hdigit, x.start, Bool.false_eq_true, if_false, if_true]
  rw [htake, hdrop]

/-- A number made of all the digits up to the end of the word. -/
theorem numberToken_append (r : Radix) {digits : List Char}
    (hdigits : ∀ c ∈ digits, r.digit c = true) (h : EndsWord rest) :
    numberToken r.base r.digit (digits ++ rest) =
      ({ type := .number, number := wrapLong (digitsValue r.base digits) }, rest) := by
  have hrest : ∀ c ∈ rest.head?, r.digit c = false := by
    intro c hc
    rw [← Bool.not_eq_true]
    intro hdigit
    have := h c hc
    rw [isAlnumOrUnderscore_of_digit r hdigit] at this
    cases this
  obtain ⟨htake, hdrop⟩ := takeWhile_append hdigits hrest
  rw [numberToken, htake, hdrop]

theorem getNumber_zero (next : Char) (digits : List Char) :
    getNumber ('0' :: next :: digits) =
      if next = 'x' ∨ next = 'X' then numberToken 16 isHexDigit digits
      else if isOctalDigit next then numberToken 8 isOctalDigit (next :: digits)
      else ({ type := .number }, next :: digits) := rfl

theorem getNumber_of_ne {d : Char} (hd : d ≠ '0') (digits : List Char) :
    getNumber (d :: digits) = numberToken 10 Char.isDigit (d :: digits) := by
  unfold getNumber
  split
  · rename_i heq
    exact absurd (List.cons.inj heq).1 hd
  · rfl

theorem getNumber_literal (l : Literal) (h : EndsWord rest) :
    getNumber (l.text ++ rest) = ({ type := .number, number := wrapLong l.value }, rest) := by
  obtain ⟨radix, digits, hne, hvalid, hdecimal⟩ := l
  have hnumber := numberToken_append radix hvalid h
  cases radix with
  | hex => exact hnumber
  | hexUpper => exact hnumber
  | octal =>
    cases digits with
    | nil => exact absurd rfl hne
    | cons d digits =>
      have hd : isOctalDigit d = true := hvalid d List.mem_cons_self
      have hx : ¬ (d = 'x' ∨ d = 'X') := by
        rintro (rfl | rfl) <;> exact absurd hd (by decide)
      rw [Literal.text, Radix.lead, List.append_assoc, List.singleton_append, List.cons_append,
        getNumber_zero, if_neg hx, if_pos hd]
      exact hnumber
  | decimal =>
    rcases hdecimal rfl with rfl | hhead
    · have hzero : wrapLong (digitsValue 10 ['0']) = 0 := by
        have hvalue : digitsValue 10 ['0'] = 0 := rfl
        simp [hvalue, wrapLong]
      rw [Literal.value, Radix.base, hzero]
      cases rest with
      | nil => rfl
      | cons c rest =>
        have hc := h c rfl
        have hx : ¬ (c = 'x' ∨ c = 'X') := by
          rintro (rfl | rfl) <;> exact absurd hc (by decide)
        have hoctal : isOctalDigit c = false := by
          rw [← Bool.not_eq_true]
          intro hoctal
          rw [isAlnumOrUnderscore_of_digit .octal hoctal] at hc
          cases hc
        rw [Literal.text, Radix.lead, List.nil_append, List.singleton_append, getNumber_zero,
          if_neg hx, hoctal]
        rfl
    · cases digits with
      | nil => exact absurd rfl hne
      | cons d digits =>
        have hd : d ≠ '0' := by simpa using hhead
        rw [Literal.text, Radix.lead, List.nil_append, List.cons_append, getNumber_of_ne hd]
        exact hnumber

theorem Literal.text_eq_cons (l : Literal) : ∃ c cs, l.text = c :: cs ∧ c.isDigit = true := by
  obtain ⟨radix, digits, hne, hvalid, -⟩ := l
  cases radix with
  | decimal =>
    cases digits with
    | nil => exact absurd rfl hne
    | cons d digits => exact ⟨d, digits, rfl, hvalid d List.mem_cons_self⟩
  | octal => exact ⟨'0', digits, rfl, rfl⟩
  | hex => exact ⟨'0', 'x' :: digits, rfl, rfl⟩
  | hexUpper => exact ⟨'0', 'X' :: digits, rfl, rfl⟩

theorem getToken_literal (l : Literal) (h : EndsWord rest) :
    getToken (l.text ++ rest) = ({ type := .number, number := wrapLong l.value }, rest) := by
  obtain ⟨c, cs, htext, hdigit⟩ := l.text_eq_cons
  have hspace := isspace_of_isAlnumOrUnderscore
    (isAlnumOrUnderscore_of_digit .decimal (c := c) hdigit)
  have hnumber := getNumber_literal l h
  rw [htext, List.cons_append] at hnumber ⊢
  rw [getToken, List.dropWhile_cons_of_neg (by simp [hspace])]
  simp only [hdigit, if_true]
  exact hnumber

end Migash.Arithmetic
