import Migash.Lexer.NormalTotal

/-! # Reading a text

The operations on the input of the lexer, in terms of the text that is left.
-/

namespace Migash.Lexer

open Library

variable {lx : Lexer} {c d : Char} {cs text more : List Char}

/-! ## One character -/

theorem pos_lt_of_rest (h : lx.rest = c :: cs) : lx.pos < lx.input.length := by
  have := congrArg List.length h
  rw [rest_length, List.length_cons] at this
  omega

theorem lexerPeek_of_rest (h : lx.rest = c :: cs) : lx.lexerPeek = c := by
  rw [rest_eq_cons (pos_lt_of_rest h)] at h
  exact (List.cons.inj h).1

theorem lexerPeekAhead_of_rest (h : lx.rest = c :: d :: cs) : lx.lexerPeekAhead 1 = d := by
  have := congrArg (fun text => text.getD 1 nul) h
  simpa [rest, lexerPeekAhead, List.getElem?_drop] using this

theorem lexerAtEnd_of_rest (h : lx.rest = c :: cs) : lx.lexerAtEnd = false := by
  rw [lexerAtEnd, decide_eq_false_iff_not]
  exact not_le.mpr (pos_lt_of_rest h)

theorem lexerAtEnd_of_rest_nil (h : lx.rest = []) : lx.lexerAtEnd = true := by
  rw [lexerAtEnd_iff]
  exact List.drop_eq_nil_iff.mp h

theorem lexerAdvance_of_rest (h : lx.rest = c :: cs) : lx.lexerAdvance = .ok lx.advanced :=
  if_pos (pos_lt_of_rest h)

theorem rest_advanced (h : lx.rest = c :: cs) : lx.advanced.rest = cs := by
  have := rest_advancedBy 1 lx
  rwa [h] at this

theorem colNo_advanced (h : lx.rest = c :: cs) :
    lx.advanced.colNo = if c = newline then 1 else lx.colNo + 1 := by
  rw [advanced, lexerPeek_of_rest h]
  split <;> rfl

/-! ## Several characters -/

theorem length_le_of_rest (h : lx.rest = text ++ more) :
    text ≠ [] ∨ lx.pos ≤ lx.input.length → lx.pos + text.length ≤ lx.input.length := by
  have := congrArg List.length h
  rw [rest_length, List.length_append] at this
  rintro (hne | hle)
  · have := List.length_pos_iff.mpr hne
    omega
  · omega

theorem rest_advancedBy_length (h : lx.rest = text ++ more) :
    (lx.advancedBy text.length).rest = more := by
  rw [rest_advancedBy, h, List.drop_left]

theorem lexerAdvanceNChars_of_rest (h : lx.rest = text ++ more) (hne : text ≠ []) :
    lx.lexerAdvanceNChars text.length = .ok (lx.advancedBy text.length) :=
  if_pos (length_le_of_rest h (.inl hne))

/-- Within a line, the column counts the characters. -/
theorem colNo_advancedBy (h : lx.rest = text ++ more) (hline : newline ∉ text) :
    (lx.advancedBy text.length).colNo = lx.colNo + text.length := by
  induction text generalizing lx with
  | nil => rfl
  | cons c text ih =>
    rw [List.mem_cons, not_or] at hline
    rw [List.length_cons, advancedBy, ih (rest_advanced h) hline.2, colNo_advanced h,
      if_neg (Ne.symm hline.1)]
    omega

end Migash.Lexer
