import Migash.Expander.Modifiers
import Migash.Expander.Segments
import Mathlib.Data.Nat.Notation

/-! # Numbers of positional parameters

What becomes of the decimal numeral of a number behind a dollar sign, with and
without braces, in a word and in a here-document.
-/

namespace Migash.Expander

open Exec (Shell PositionalParams)
open Library Lexer

variable {δ W : Type} {n : ℕ}

/-- The decimal numeral of a number. -/
def numeral (n : ℕ) : List Char := Nat.toDigits 10 n

/-- The numeral between braces. -/
def bracedNumeral (n : ℕ) : List Char := '$' :: lbrace :: (numeral n ++ [rbrace])

/-- The numeral behind a dollar sign. -/
def bareNumeral (n : ℕ) : List Char := '$' :: numeral n

/-- The part for a parameter with the given name. -/
def namedPart (name : List Char) : Part := paramPart name .plain false none

/-- The parts for a text that stands for itself. -/
def literalParts (text : List Char) : List Part :=
  if text = [] then [] else [{ type := .literal, text := some (String.ofList text) }]

/-- The scanners read numerals as they should: all of it is the name of the parameter between
braces, and its first digit otherwise. -/
structure ReadsNumeral (δ W : Type) (n : ℕ) : Prop where
  braced : ∀ lx more, Sound lx → lx.MeetsExpansions → lx.rest = bracedNumeral n ++ more →
    ReadsAs lx (bracedNumeral n) (namedPart (numeral n))
  value : ∀ (env : Env δ W) (s : Shell δ W) params text, s.frame.positionalParams = some params →
    params.params[n - 1]? = some text →
      (expandPart env (namedPart (numeral n))).run s = .ok (text, s)
  bare : ∀ lx more first others, Sound lx → lx.MeetsExpansions → numeral n = first :: others →
    lx.rest = bareNumeral n ++ more → ReadsAs lx ['$', first] (namedPart [first])
  literal : ∀ first others, numeral n = first :: others → ∃ lx tok,
    Tokenizes (lexerCreateWithInput (bareNumeral n)) (.ok, lx, [tok]) ∧ tok.type = .word ∧
      tok.parts = namedPart [first] :: literalParts others
  bracedDocument : ∀ (env : Env δ W) (s : Shell δ W), Agrees env s (bracedNumeral n)
  bareDocument : ∀ (env : Env δ W) (s : Shell δ W), Agrees env s (bareNumeral n)

theorem decimalValue_numeral (n : ℕ) : decimalValue (numeral n) = n := by
  calc decimalValue (numeral n) = Nat.ofDigitChars 10 (Nat.toDigits 10 n) 0 := by
        rw [Nat.ofDigitChars_eq_foldl]
        simp only [decimalValue, numeral, Nat.mul_comm]
    _ = n := Nat.ofDigitChars_ten_toDigits

/-- The numeral of a number from 1 on is that of a positional parameter. -/
theorem exists_positional (hn : 1 ≤ n) : ∃ first others,
    ∃ (valid : ∀ c ∈ first :: others, c.isDigit = true)
      (positive : 0 < decimalValue (first :: others)),
      (Parameter.positional first others valid positive).text = numeral n ∧
        ((Parameter.positional first others valid positive).Readable ↔ n < 10) := by
  obtain ⟨first, others, htext⟩ : ∃ first others, numeral n = first :: others :=
    List.exists_cons_of_ne_nil Nat.toDigits_ne_nil
  have hvalue := decimalValue_numeral n
  have hlength := Nat.length_toDigits_le_iff (n := n) (b := 10) (k := 1) (by omega) (by omega)
  rw [← numeral, htext] at hlength
  rw [htext] at hvalue
  refine ⟨first, others, ?_, by omega, htext.symm, ?_⟩
  · intro c hc
    rw [← htext] at hc
    exact Nat.isDigit_of_mem_toDigits (by omega) le_rfl hc
  · simpa [Parameter.Readable] using hlength

/-- A parameter that makes up the whole input is a word with one part. -/
theorem tokenizes_bareParameter {p : Parameter} (hp : p.Readable) (hstands : nul ∉ p.text) :
    ∃ lx tok, Tokenizes (lexerCreateWithInput (bareParameter p)) (.ok, lx, [tok]) ∧
      tok.type = .word ∧ tok.parts = [plainPart p] := by
  obtain ⟨c, cs, htext⟩ := p.text_eq_cons
  let lx := lexerCreateWithInput (bareParameter p)
  have hsound : Sound lx := by
    refine sound_create ?_
    rw [bareParameter, List.mem_cons, not_or]
    exact ⟨by decide, hstands⟩
  have hends : p.EndsBefore [] := by
    cases p with
    | name => exact endsName_nil
    | positional | special => trivial
  have hopens : Opens ['$'] (c :: cs) .paramExpUnbraced := .unbraced (p.head_starts htext)
  have hwhole : lx.rest = bareParameter p ++ [] := (List.append_nil _).symm
  have hrest : lx.rest = ['$'] ++ c :: cs := by
    rw [hwhole, List.append_nil, bareParameter, htext]
    rfl
  have hfirst : lx.lexerProcessMode =
      .ok (.incomplete, (lx.lexerPushMode .paramExpUnbraced).advancedBy 1) :=
    iterate_done (normalTurn_of_opens hopens hrest) _
  have hentered := hsound.entered (by simp [lx, lexerCreateWithInput]) hopens hrest
  have hrest₁ : ((lx.lexerPushMode .paramExpUnbraced).advancedBy 1).rest = c :: cs :=
    hentered.rest.trans (by rw [hrest]; rfl)
  have hunassigned : Unassigned ((lx.lexerPushMode .paramExpUnbraced).advancedBy 1) := by
    have hnone : Unassigned lx := by
      intro tok htok
      have hempty : lx.currentToken = none := rfl
      rw [hempty] at htok
      cases htok
    exact hnone.congr (advancedBy_currentToken ..)
  obtain ⟨lx₂, hadds, hsound₂, hunassigned₂, hcontinues⟩ := hentered.reads hunassigned (.inr rfl) rfl
    hrest₁ hfirst (readsAs_bareParameter hsound (.inl rfl) hp hends hwhole)
  obtain ⟨lx', tok, htokenizes, hword⟩ := tokenizes_end (hadds.rest hwhole) hadds.modeStack
    hadds.inWord hsound₂ hadds.tokens hunassigned₂
  exact ⟨lx', tok, (hcontinues _ htokenizes).tokenizes rfl hfirst, hword.type,
    hword.parts.trans hadds.parts⟩

/-- A plain segment alone expands to the same text in both places. -/
theorem agrees_segment (seg : Segment) (hstands : seg.Stands []) (hread : seg.Readable)
    (hplain : seg.IsPlain) (env : Env δ W) (s : Shell δ W) : Agrees env s seg.text := by
  have halike : ReadAlike [seg] := {
    readable := List.forall_mem_singleton.mpr hread
    plain := List.forall_mem_singleton.mpr hplain
    delimited := by
      refine ⟨?_, trivial⟩
      cases seg with
      | bare p => cases p <;> first | trivial | exact endsName_nil
      | char | braced | operator => trivial }
  have hagrees : Agrees env s (segmentsText [seg]) := halike.agrees ⟨hstands, trivial⟩
  rwa [segmentsText_cons, segmentsText_nil, List.append_nil] at hagrees

/-- Numerals are read as they should be if and only if they consist of one digit. -/
theorem readsNumeral_iff (hn : 1 ≤ n) : ReadsNumeral δ W n ↔ n < 10 := by
  obtain ⟨first, others, valid, positive, htext, hreadable⟩ := exists_positional hn
  have hvalue : decimalValue (first :: others) = n := by
    rw [← decimalValue_numeral n, ← htext]
    rfl
  have hbraced : bracedParameter (.positional first others valid positive) = bracedNumeral n := by
    rw [bracedParameter, htext, bracedNumeral]
  have hbare : bareParameter (.positional first others valid positive) = bareNumeral n := by
    rw [bareParameter, htext, bareNumeral]
  have hpart : plainPart (.positional first others valid positive) = namedPart (numeral n) := by
    rw [plainPart, htext, namedPart]
  have hnul : nul ∉ (Parameter.positional first others valid positive).text := by
    intro hmem
    exact absurd (valid _ hmem) (by decide)
  generalize hp : Parameter.positional first others valid positive = p at *
  constructor
  · intro h
    rw [← hreadable]
    by_contra hunreadable
    have hsound : Sound (lexerCreateWithInput (bracedNumeral n)) := by
      refine sound_create ?_
      rw [← hbraced]
      have hstands : (Segment.braced p).Stands [] := trivial
      exact hstands.nul_notMem
    have hrest : (lexerCreateWithInput (bracedNumeral n)).rest = bracedNumeral n ++ [] :=
      (List.append_nil _).symm
    have hdigits : (lexerCreateWithInput (bracedNumeral n)).rest =
        '$' :: lbrace :: (p.text ++ [rbrace]) := by
      rw [hrest, List.append_nil, ← hbraced]
      rfl
    exact not_readsAs_digits hsound (.inl rfl) hunreadable hdigits
      (h.braced _ [] hsound (.inl rfl) hrest)
  · intro hlt
    have hread := hreadable.mpr hlt
    have hone : others = [] := by
      subst hp
      exact hread
    have hnumeral : numeral n = [first] := by
      rw [← htext, ← hp, Parameter.text, hone]
    exact {
      braced := by
        intro lx more hsound hmeets hrest
        rw [← hbraced, ← hpart] at *
        exact readsAs_bracedParameter hsound hmeets hread hrest
      value := by
        intro env s params text hparams htext'
        have hget := getParameterValue_getD env (s := s) hread
        have hparameter : parameterValue env p s = some text := by
          rw [← hp, parameterValue, hparams, hvalue]
          exact htext'
        rw [hparameter, htext] at hget
        change Except.ok ((getParameterValue env s (String.ofList (numeral n))).getD "", s) = _
        rw [hget]
        rfl
      bare := by
        intro lx more first' others' hsound hmeets hfirst hrest
        cases hnumeral.symm.trans hfirst
        have hends : p.EndsBefore more := by subst hp; trivial
        have hread := readsAs_bareParameter hsound hmeets hread hends
          (hrest.trans (by rw [hbare]))
        rwa [hbare, hpart, bareNumeral, hnumeral] at hread
      literal := by
        intro first' others' hfirst
        cases hnumeral.symm.trans hfirst
        obtain ⟨lx, tok, htokenizes, htype, hparts⟩ := tokenizes_bareParameter hread hnul
        rw [hbare] at htokenizes
        refine ⟨lx, tok, htokenizes, htype, ?_⟩
        rw [hparts, hpart, hnumeral]
        rfl
      bracedDocument := by
        intro env s
        have hagrees : Agrees env s (bracedParameter p) :=
          agrees_segment (.braced p) trivial hread trivial env s
        rwa [hbraced] at hagrees
      bareDocument := by
        intro env s
        have hends : p.EndsBefore [] := by subst hp; trivial
        have hagrees : Agrees env s (bareParameter p) :=
          agrees_segment (.bare p) ⟨hread, hends⟩ trivial trivial env s
        rwa [hbare] at hagrees }

theorem readsNumeral_nine : ReadsNumeral Unit Unit 9 ↔ 9 < 10 := readsNumeral_iff (by decide)

/-- `${10}` is an error of the lexer. -/
theorem not_readsNumeral_ten : ¬ ReadsNumeral Unit Unit 10 := by
  intro h
  let lx := lexerCreateWithInput (bracedNumeral 10)
  have herror : (lx.lexerProcessMode.bind fun answer => answer.2.lexerProcessMode.map Prod.fst) =
      .ok .error := by decide +kernel
  obtain ⟨lx₁, lx₂, hfirst, hsecond, -⟩ :=
    h.braced lx [] (sound_create (by decide)) (.inl rfl) (List.append_nil _).symm
  rw [hfirst] at herror
  simp only [Except.bind, hsecond, Except.map] at herror
  cases herror

end Migash.Expander
