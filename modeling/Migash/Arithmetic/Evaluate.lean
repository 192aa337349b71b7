import Migash.Arithmetic.Climbing
import Migash.Arithmetic.Exact
import Migash.Expander.Words
import Migash.Lexer.PlainWord
import Migash.Tokenizer.Process

/-! # The result of an arithmetic expansion

`expand_arithmetic` and `arithmetic_evaluate`: the text is read as words of the
shell, the expanded words are put together without anything between them, and
the evaluator runs on that. The value it finds is a `long`; what the expansion
writes is the `int` it is cast to. The numeral of any `long` evaluates to it.
-/

namespace Migash.Arithmetic

open Exec (Shell)
open Expander (ExpandM execFrameExpanderExpandWord)
open Library Lexer

variable {δ W : Type}

/-! ## The functions -/

/-- The words of the tokens, expanded and put together. -/
def expandTokens (env : Expander.Env δ W) : List Token → ExpandM δ W String
  | [] => return ""
  | tok :: toks => do
    let words ← if tok.type = .word then execFrameExpanderExpandWord env tok else pure none
    let rest ← expandTokens env toks
    return String.join (words.getD []) ++ rest

/-- The tokenizer of `arithmetic_expand_expression` has an empty alias store, so it never reads the
value of an alias. -/
def withoutAliases : Tokenizer.Env where
  aliases := some []
  lex := fun _ => .ok []

/-- `arithmetic_expand_expression`, at most `n` turns of each of its loops. What the tokenizer
answers is ignored. -/
def arithmeticExpandExpression (env : Expander.Env δ W) (n : ℕ) (exprText : String) :
    ExpandM δ W (Option String) := do
  let (status, _, tokens) ← lexerTokenize n (lexerAppendInput { input := [] } exprText.toList)
  if status ≠ .ok then return none
  let (_, tokenizer) ← Tokenizer.tokenizerProcess withoutAliases n {} tokens []
  return some (← expandTokens env tokenizer.outputTokens)

/-- `arithmetic_evaluate`: the value, or the text of the error. -/
def arithmeticEvaluate (env : Expander.Env δ W) (n : ℕ) (expression : String) :
    ExpandM δ W (Except String ℤ) := do
  match ← arithmeticExpandExpression env n expression with
  | none => return .error "Failed to expand arithmetic expression"
  | some expanded =>
    if expanded = "" then return .ok 0
    else
      match evaluateText n { text := expanded.toList, frame := ← get } with
      | .ok value s =>
        set s.frame
        return .ok value
      | .fail message s =>
        set s.frame
        return .error message
      | .fault cause => throw cause

/-- The conversion of a `long` to `int`. -/
def intOfLong (value : ℤ) : ℤ := Int.bmod value (2 ^ 32)

/-- `string_from_int`. -/
def stringFromInt (value : ℤ) : String := toString value

/-- `expand_arithmetic`. -/
def expandArithmetic (env : Expander.Env δ W) (n : ℕ) (expression : Option String) :
    ExpandM δ W String := do
  match expression with
  | none => return "0"
  | some expression =>
    match ← arithmeticEvaluate env n expression with
    | .error _ =>
      modify fun s => s.setLastExitStatus 1
      return "0"
    | .ok value => return stringFromInt (intOfLong value)

/-! ## Numerals -/

/-- The decimal numeral of an integer. -/
def decimalText (v : ℤ) : List Char :=
  (if v < 0 then ['-'] else []) ++ Nat.toDigits 10 v.natAbs

theorem toString_eq_decimalText (v : ℤ) : toString v = String.ofList (decimalText v) := by
  rw [Int.toString_eq_repr, Int.repr_eq_if, decimalText]
  by_cases hv : v < 0
  · have habs : (-v).toNat = v.natAbs := by omega
    rw [if_neg (by omega), if_pos hv, habs, Nat.repr_eq_ofList_toDigits, String.ofList_append]
  · have habs : v.toNat = v.natAbs := by omega
    rw [if_pos (by omega), if_neg hv, habs, Nat.repr_eq_ofList_toDigits, List.nil_append]

theorem isDigit_of_mem_digits {n : ℕ} {c : Char} (hc : c ∈ Nat.toDigits 10 n) : c.isDigit = true :=
  Nat.isDigit_of_mem_toDigits (by decide) (le_refl _) hc

theorem natAbs_of_digits {m n : ℕ} (h : Nat.toDigits 10 m = Nat.toDigits 10 n) : m = n := by
  rw [← Nat.ofDigitChars_ten_toDigits (n := m), h, Nat.ofDigitChars_ten_toDigits]

theorem decimalText_injective {v w : ℤ} (h : decimalText v = decimalText w) : v = w := by
  have hminus : ∀ n : ℕ, '-' ∉ Nat.toDigits 10 n := fun n hmem =>
    absurd (isDigit_of_mem_digits hmem) (by decide)
  unfold decimalText at h
  split_ifs at h with hv hw hw
  · have := natAbs_of_digits (List.cons.inj h).2
    omega
  · exact absurd (h ▸ List.mem_cons_self : '-' ∈ [] ++ Nat.toDigits 10 w.natAbs) (hminus _)
  · exact absurd (h ▸ List.mem_cons_self : '-' ∈ [] ++ Nat.toDigits 10 v.natAbs) (hminus _)
  · have := natAbs_of_digits h
    omega

theorem head?_toDigits {n : ℕ} (hn : 0 < n) : (Nat.toDigits 10 n).head? ≠ some '0' := by
  have hdigit : ∀ d < 10, 0 < d → [Nat.digitChar d].head? ≠ some '0' := by decide
  induction n using Nat.strong_induction_on with
  | _ n ih =>
    rw [Nat.toDigits_eq_if (by decide)]
    split
    · next hlt => exact hdigit n hlt hn
    · next hge =>
      rw [List.head?_append_of_ne_nil _ Nat.toDigits_ne_nil]
      exact ih (n / 10) (by omega) (by omega)

theorem digitsValue_toDigits (n : ℕ) : digitsValue 10 (Nat.toDigits 10 n) = n := by
  have hfold : ∀ (digits : List Char) (start : ℕ), (∀ c ∈ digits, c.isDigit = true) →
      digits.foldl (fun n d => n * 10 + digitValue d) start =
        digits.foldl (fun n d => 10 * n + (d.toNat - '0'.toNat)) start := by
    intro digits
    induction digits with
    | nil => exact fun _ _ => rfl
    | cons d digits ih =>
      intro start hdigits
      have hd := isDigit_iff.mp (hdigits d List.mem_cons_self)
      have hvalue : digitValue d = d.toNat - '0'.toNat := by
        unfold digitValue
        have hlower : ('a' ≤ d) = False := by rw [char_le_iff]; simp; omega
        have hupper : ('A' ≤ d) = False := by rw [char_le_iff]; simp; omega
        simp [hlower, hupper]
      rw [List.foldl_cons, List.foldl_cons, hvalue, Nat.mul_comm start,
        ih _ fun c hc => hdigits c (List.mem_cons_of_mem d hc)]
  rw [digitsValue, hfold _ _ fun c hc => isDigit_of_mem_digits hc, ← Nat.ofDigitChars_eq_foldl,
    Nat.ofDigitChars_ten_toDigits]

/-- The digits of a number, as they stand in an expression. -/
def digitsLiteral (n : ℕ) : Literal where
  radix := .decimal
  digits := Nat.toDigits 10 n
  nonempty := Nat.toDigits_ne_nil
  valid := fun _ hc => isDigit_of_mem_digits hc
  decimal := by
    intro _
    rcases Nat.eq_zero_or_pos n with rfl | hn
    · exact .inl (Nat.toDigits_zero 10)
    · exact .inr (head?_toDigits hn)

theorem digitsLiteral_value (n : ℕ) : (digitsLiteral n).value = n :=
  congrArg Nat.cast (digitsValue_toDigits n)

theorem digitsLiteral_text (n : ℕ) : (digitsLiteral n).text = Nat.toDigits 10 n := rfl

/-- The negation of a magnitude that may be one too large for a `long`. -/
theorem wrapLong_neg {m : ℕ} (hm : (m : ℤ) ≤ 2 ^ 63) : wrapLong (-wrapLong m) = -m := by
  have hpos : longMin = -2 ^ 63 ∧ longMax = 2 ^ 63 - 1 := ⟨rfl, rfl⟩
  by_cases hlarge : (m : ℤ) = 2 ^ 63
  · rw [hlarge]
    decide
  · rw [wrapLong_of_mem (v := m) (by omega), wrapLong_of_mem (by omega)]

/-- The numeral of a `long` evaluates to it. -/
theorem evaluateText_decimalText {v : ℤ} (hv : longMin ≤ v ∧ v ≤ longMax) (s : Shell δ W) (n : ℕ) :
    evaluateText (n + 3) { text := decimalText v, frame := s } = .ok v { text := [], frame := s } := by
  have hlong : longMin = -2 ^ 63 ∧ longMax = 2 ^ 63 - 1 := ⟨rfl, rfl⟩
  have hend : EndsWord [] := fun c hc => by cases hc
  have heof : nextPrecedence [] = -1 := rfl
  have hstop : ∀ (k : ℕ) (m left : ℤ), -1 < m →
      parseOperators (k + 1) m left ({ text := [], frame := s } : MathParser δ W) =
        .ok left { text := [], frame := s } := fun k m left hm =>
    parseOperators_stop (Nat.succ_pos k) (by rw [heof]; exact hm)
  have hparse : parseExpression (n + 3) 0 ({ text := decimalText v, frame := s } : MathParser δ W) =
      .ok v { text := [], frame := s } := by
    have hliteral : ∀ (k : ℕ) (m : ℤ), -1 < m →
        parseExpression (k + 2) m
            ({ text := Nat.toDigits 10 v.natAbs, frame := s } : MathParser δ W) =
          .ok (wrapLong v.natAbs) { text := [], frame := s } := by
      intro k m hm
      have hread := parseExpression_literal (n := k) (m := m) (s := s) (digitsLiteral v.natAbs) hend
      rw [List.append_nil, digitsLiteral_text, digitsLiteral_value] at hread
      rw [hread, hstop k m _ hm]
    by_cases hneg : v < 0
    · have hunary := parseExpression_unary (n := n + 2) (m := 0) (s := s) .minus
        (digitsLiteral v.natAbs).startsOperand
      have hvalue : applyUnary .minus (wrapLong v.natAbs) = v := by
        have hmagnitude := wrapLong_neg (m := v.natAbs) (by omega)
        rw [applyUnary, hmagnitude]
        omega
      rw [decimalText, if_pos hneg]
      rw [digitsLiteral_text, hliteral n 14 (by decide)] at hunary
      refine hunary.trans ?_
      rw [Reply.bind_ok, UnaryOp.type, hvalue, hstop (n + 1) 0 v (by decide)]
    · have hvalue : wrapLong v.natAbs = v := by
        rw [wrapLong_of_mem (by omega)]
        omega
      rw [decimalText, if_neg hneg, List.nil_append, hliteral (n + 1) 0 (by decide), hvalue]
  rw [evaluateText, hparse]
  rfl

/-! ## The text of a numeral as words of the shell -/

theorem isDigit_of_mem_decimalText {v : ℤ} {c : Char} (hc : c ∈ decimalText v) :
    c.isDigit = true ∨ c = '-' := by
  rcases List.mem_append.mp hc with hsign | hdigit
  · by_cases hv : v < 0
    · rw [if_pos hv, List.mem_singleton] at hsign
      exact .inr hsign
    · rw [if_neg hv] at hsign
      cases hsign
  · exact .inl (isDigit_of_mem_digits hdigit)

theorem ne_of_mem_decimalText {v : ℤ} {c d : Char} (hc : c ∈ decimalText v) (hd : d.isDigit = false)
    (hminus : d ≠ '-') : c ≠ d := by
  rintro rfl
  rcases isDigit_of_mem_decimalText hc with hdigit | heq
  · exact Bool.false_ne_true (hd.symm.trans hdigit)
  · exact hminus heq

theorem isOrdinaryChar_of_mem_decimalText {v : ℤ} {c : Char} (hc : c ∈ decimalText v) :
    isOrdinaryChar c = true := by
  have hne : ∀ d : Char, d.isDigit = false → d ≠ '-' → c ≠ d := fun _ => ne_of_mem_decimalText hc
  rw [isOrdinaryChar_iff, isWordChar_iff]
  simp only [lexerIsMetachar, List.contains_eq_mem, List.mem_cons, List.not_mem_nil, or_false,
    decide_eq_false_iff_not, not_or]
  refine ⟨⟨?_, ?_, ?_, ⟨?_, ?_, ?_, ?_, ?_, ?_, ?_⟩, ?_⟩, ?_, ?_, ?_, ?_, ?_, ?_, ?_⟩ <;>
    exact hne _ (by decide) (by decide)

theorem decimalText_ne_nil (v : ℤ) : decimalText v ≠ [] :=
  List.append_ne_nil_of_right_ne_nil _ Nat.toDigits_ne_nil

/-- No reserved word is made of digits. -/
theorem ofReservedWord?_decimalText (v : ℤ) :
    TokenType.ofReservedWord? (String.ofList (decimalText v)) = none := by
  have hmem : ∀ word : String, TokenType.ofReservedWord? word ≠ none →
      ∃ c ∈ word.toList, c.isDigit = false ∧ c ≠ '-' := by
    intro word h
    unfold TokenType.ofReservedWord? at h
    split at h <;> first | exact absurd rfl h | exact ⟨_, List.mem_cons_self, by decide, by decide⟩
  by_contra h
  obtain ⟨c, hc, hdigit, hminus⟩ := hmem _ h
  rw [String.toList_ofList] at hc
  exact ne_of_mem_decimalText hc hdigit hminus rfl

/-- One plain word passes through the tokenizer. -/
theorem tokenizerProcess_word {tok : Token} {text : List Char}
    (hword : IsWord tok (Token.ordinary text).parts)
    (hreserved : TokenType.ofReservedWord? (String.ofList text) = none) (n : ℕ) :
    ∃ t, Tokenizer.tokenizerProcess withoutAliases (n + 2) {} [tok] [] = .ok (.ok, t) ∧
      t.outputTokens = [tok] := by
  let start : Tokenizer := ({} : Tokenizer).start [tok] []
  have htext : tok.extractWordText? = some (String.ofList text) := by
    unfold Token.extractWordText?
    rw [hword.type, hword.parts]
    rfl
  have halias : start.aliasFor? withoutAliases tok = none := by
    unfold Tokenizer.aliasFor?
    rw [htext]
    exact ite_self none
  have hnone : start.reservedType? tok [] = none := by
    unfold Tokenizer.reservedType?
    rw [htext, Option.bind_some, hreserved]
    exact ite_self none
  have hnumber : Tokenizer.numberBefore? tok none = none := by
    unfold Tokenizer.numberBefore?
    rw [htext]
  have hadd : start.addToken tok [] = (.ok, { start with
      inputTokens := [], outputTokens := [tok], atCommandPosition := false }) := by
    unfold Tokenizer.addToken
    rw [hword.type]
    have hcommand : tok.type ∉ Tokenizer.commandStarters := by rw [hword.type]; decide
    exact congrArg (Prod.mk Tokenizer.TokStatus.ok) (if_neg hcommand)
  have hstep : Tokenizer.Step withoutAliases start { start with
      inputTokens := [], outputTokens := [tok], atCommandPosition := false } := by
    refine ⟨List.cons_ne_nil _ _, ?_⟩
    rw [← hadd]
    unfold Tokenizer.tokenizerProcessOneToken
    simp only [start, Tokenizer.start, List.map_cons, List.map_nil, List.head?_nil, Option.map_none]
      at halias hnone ⊢
    rw [halias]
    simp only [hnone, hnumber]
  refine ⟨_, (Tokenizer.processTokens_step hstep).trans (Tokenizer.processTokens_nil rfl), ?_⟩
  rfl

/-! ## The round trip -/

/-- A plain word without the characters of a pattern expands to its own text. -/
theorem expandWord_ordinary (env : Expander.Env δ W) {tok : Token} {text : List Char}
    (hword : IsWord tok (Token.ordinary text).parts)
    (hall : ∀ c ∈ text, c ≠ '*' ∧ c ≠ '?' ∧ c ≠ '[') (s : Shell δ W) :
    (execFrameExpanderExpandWord env tok).run s = .ok (some [String.ofList text], s) := by
  have hpathname : tok.needsPathnameExpansion = false := by
    rw [hword.needsPathnameExpansion]
    simpa [Token.recomputeExpansionFlags, Token.ordinary] using fun c hc => hall c hc
  have hsplit : tok.needsFieldSplitting = false := hword.needsFieldSplitting
  have hexpansion : tok.needsExpansion = false := hword.needsExpansion
  have hfields : (Expander.wordFields env tok).run s = .ok ([String.ofList text], s) := by
    unfold Expander.wordFields
    rw [hexpansion, hsplit, hpathname, Token.getAllText, hword.parts]
    simp [Token.ordinary]
    rfl
  unfold execFrameExpanderExpandWord
  rw [if_neg (not_not.mpr hword.type)]
  refine (Stateful.run_bind_ok hfields).trans ?_
  rw [hpathname]
  rfl

/-- The numeral of a `long` comes out of the shell's own reading as it is. -/
theorem arithmeticExpandExpression_decimalText (env : Expander.Env δ W) (v : ℤ) (s : Shell δ W) :
    ∃ m, ∀ k, (arithmeticExpandExpression env (m + k) (String.ofList (decimalText v))).run s =
      .ok (some (String.ofList (decimalText v)), s) := by
  obtain ⟨lx, tok, ⟨m, htokens⟩, hword⟩ := tokenizes_ordinary (decimalText_ne_nil v)
    (fun c hc => isOrdinaryChar_of_mem_decimalText hc)
    (fun hmem => ne_of_mem_decimalText hmem (by decide) (by decide) rfl)
  refine ⟨m + 2, fun k => ?_⟩
  obtain ⟨t, hprocess, houtput⟩ := tokenizerProcess_word hword (ofReservedWord?_decimalText v) (m + k)
  have hlexer : lexerTokenize (m + 2 + k) (lexerAppendInput { input := [] }
      (String.ofList (decimalText v)).toList) = .ok (.ok, lx, [tok]) := by
    rw [String.toList_ofList, Nat.add_assoc]
    exact iterate_add htokens (2 + k)
  have hexpand : (expandTokens env [tok]).run s = .ok (String.ofList (decimalText v), s) := by
    have hfields := expandWord_ordinary env hword
      (fun c hc => ⟨ne_of_mem_decimalText hc (by decide) (by decide),
        ne_of_mem_decimalText hc (by decide) (by decide),
        ne_of_mem_decimalText hc (by decide) (by decide)⟩) s
    rw [expandTokens, if_pos hword.type, Stateful.run_bind_ok hfields]
    simp only [expandTokens, Option.getD_some, String.join_cons, String.join_nil,
      String.append_empty, pure_bind, Stateful.run_pure_eq]
  rw [Nat.add_right_comm m k 2] at hprocess
  have hlexed : (liftM (lexerTokenize (m + 2 + k) (lexerAppendInput { input := [] }
      (String.ofList (decimalText v)).toList)) : ExpandM δ W Tokenized).run s =
        .ok ((.ok, lx, [tok]), s) := by
    rw [hlexer]
    rfl
  have hprocessed : (liftM (Tokenizer.tokenizerProcess withoutAliases (m + 2 + k) {} [tok] []) :
      ExpandM δ W (Tokenizer.TokStatus × Tokenizer)).run s = .ok ((.ok, t), s) := by
    rw [hprocess]
    rfl
  rw [arithmeticExpandExpression]
  refine (Stateful.run_bind_ok hlexed).trans ?_
  refine (Stateful.run_bind_ok hprocessed).trans ?_
  dsimp only
  rw [houtput]
  exact (Stateful.run_bind_ok hexpand).trans rfl

/-- The numeral of a `long` evaluates to it, in every shell. -/
theorem arithmeticEvaluate_decimalText (env : Expander.Env δ W) {v : ℤ}
    (hv : longMin ≤ v ∧ v ≤ longMax) (s : Shell δ W) :
    ∃ m, (arithmeticEvaluate env m (String.ofList (decimalText v))).run s = .ok (.ok v, s) := by
  obtain ⟨m, hexpand⟩ := arithmeticExpandExpression_decimalText env v s
  refine ⟨m + 3, (Stateful.run_bind_ok (hexpand 3)).trans ?_⟩
  have hne : String.ofList (decimalText v) ≠ "" := fun h =>
    decimalText_ne_nil v (String.ofList_inj.mp (h.trans String.ofList_nil.symm))
  dsimp only
  rw [if_neg hne, Stateful.run_bind_ok (Stateful.run_get_eq s), String.toList_ofList,
    evaluateText_decimalText hv s m]
  rfl

theorem expandArithmetic_run {env : Expander.Env δ W} {n : ℕ} {expression : String}
    {s t : Shell δ W} {v : ℤ} (h : (arithmeticEvaluate env n expression).run s = .ok (.ok v, t)) :
    (expandArithmetic env n (some expression)).run s =
      .ok (String.ofList (decimalText (intOfLong v)), t) := by
  rw [expandArithmetic, Stateful.run_bind_ok h, ← toString_eq_decimalText]
  rfl

theorem intOfLong_eq_iff {v : ℤ} : intOfLong v = v ↔ -2 ^ 31 ≤ v ∧ v < 2 ^ 31 := by
  have hbounds : (-((2 ^ 32 : ℕ) : ℤ) / 2 = -2 ^ 31) ∧ ((((2 ^ 32 : ℕ) : ℤ) + 1) / 2 = 2 ^ 31) := by
    decide
  rw [intOfLong, Int.bmod_eq_iff (by decide), Int.sub_self]
  simp only [Int.dvd_zero, and_true]
  omega

/-- What an assignment stores is the numeral of its value. -/
theorem parsePrimary_assignment {n : ℕ} {p q : MathParser δ W} {v : ℤ}
    (hname : p.next.1.type = .variable) (hassign : isAssignment p.next.2.next.1.type = true)
    (h : parsePrimary (n + 1) p = .ok v q) :
    ∃ u : Shell δ W, q.frame = u.writeVar
      { name := String.ofList p.next.1.name
        value := String.ofList (decimalText v)
        arithmetic := true } := by
  rw [parsePrimary] at h
  simp only [hname, hassign, if_true] at h
  obtain ⟨right, r, -, h⟩ := Reply.bind_eq_ok.mp h
  obtain ⟨value, u, -, h⟩ := Reply.bind_eq_ok.mp h
  cases h
  exact ⟨u.frame, by rw [setVariable, stringFromLong, toString_eq_decimalText]⟩

/-- The value that an expression has when it is expanded: the expansion writes its numeral, an
assignment of it stores that numeral, and the numeral has the same value wherever it is evaluated. -/
structure RoundTrips (env : Expander.Env δ W) (n : ℕ) (expression : String) (s t : Shell δ W)
    (v : ℤ) : Prop where
  produced : (expandArithmetic env n (some expression)).run s =
    .ok (String.ofList (decimalText v), t)
  assigned : ∀ (k : ℕ) (p q : MathParser δ W), p.next.1.type = .variable →
    isAssignment p.next.2.next.1.type = true → parsePrimary (k + 1) p = .ok v q →
      ∃ u : Shell δ W, q.frame = u.writeVar
        { name := String.ofList p.next.1.name
          value := String.ofList (decimalText v)
          arithmetic := true }
  again : ∀ u, ∃ m, (arithmeticEvaluate env m (String.ofList (decimalText v))).run u =
    .ok (.ok v, u)

/-- The value of an expression survives its expansion if and only if it is an `int`. -/
theorem roundTrips_iff {env : Expander.Env δ W} {n : ℕ} {expression : String} {s t : Shell δ W}
    {v : ℤ} (h : (arithmeticEvaluate env n expression).run s = .ok (.ok v, t)) :
    RoundTrips env n expression s t v ↔ -2 ^ 31 ≤ v ∧ v < 2 ^ 31 := by
  rw [← intOfLong_eq_iff]
  constructor
  · intro hround
    have htext := hround.produced.symm.trans (expandArithmetic_run h)
    exact decimalText_injective (String.ofList_inj.mp (Prod.mk.inj (Except.ok.inj htext)).1).symm
  · intro hint
    have hv : longMin ≤ v ∧ v ≤ longMax := by
      have hrange := intOfLong_eq_iff.mp hint
      have hlong : longMin = -2 ^ 63 ∧ longMax = 2 ^ 63 - 1 := ⟨rfl, rfl⟩
      omega
    constructor
    case produced => rw [expandArithmetic_run h, hint]
    case assigned => exact fun _ _ _ => parsePrimary_assignment
    case again => exact arithmeticEvaluate_decimalText env hv

theorem roundTrips_iff_forty : ∃ n,
    RoundTrips (Expander.Env.plain Unit Unit) n "-40" (Shell.initial ()) (Shell.initial ()) (-40) ↔
      -2 ^ 31 ≤ (-40 : ℤ) ∧ (-40 : ℤ) < 2 ^ 31 := by
  obtain ⟨n, h⟩ := arithmeticEvaluate_decimalText (Expander.Env.plain Unit Unit) (v := -40)
    (by decide) (Shell.initial ())
  exact ⟨n, roundTrips_iff h⟩

/-- The first `long` that is no `int` is written as the least `int`. -/
theorem expandArithmetic_wraps : ∃ n,
    (arithmeticEvaluate (Expander.Env.plain Unit Unit) n "2147483648").run (Shell.initial ()) =
      .ok (.ok 2147483648, Shell.initial ()) ∧
    (expandArithmetic (Expander.Env.plain Unit Unit) n (some "2147483648")).run (Shell.initial ()) =
      .ok ("-2147483648", Shell.initial ()) ∧
    ¬ RoundTrips (Expander.Env.plain Unit Unit) n "2147483648" (Shell.initial ())
      (Shell.initial ()) 2147483648 := by
  obtain ⟨n, h⟩ := arithmeticEvaluate_decimalText (Expander.Env.plain Unit Unit) (v := 2147483648)
    (by decide) (Shell.initial ())
  have hproduced : (expandArithmetic (Expander.Env.plain Unit Unit) n (some "2147483648")).run
      (Shell.initial ()) = .ok ("-2147483648", Shell.initial ()) := expandArithmetic_run h
  refine ⟨n, h, hproduced, fun hround => ?_⟩
  have htext := (Prod.mk.inj (Except.ok.inj (hproduced.symm.trans hround.produced))).1
  exact absurd htext (by decide)

end Migash.Arithmetic
