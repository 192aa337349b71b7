import Migash.Arithmetic.Exact
import Migash.Arithmetic.Operations

/-! # Evaluation over the integers

The evaluator once more, with integers in place of `long`s. It goes no further
than the first number or result that is no `long`, shift by an amount that is no
bit of a `long`, or shift to the left of a negative number. Up to there it is the
evaluator of the source, and there the source leaves what C defines.
-/

namespace Migash.Arithmetic

open Exec (Shell)
open Library

variable {δ W : Type}

/-! ## Exact evaluation -/

/-- No exact result. -/
def undefined : Result δ W := .fault (.contract "undefined")

/-- The number at the start of the text, if there is one, is a `long`. -/
def NumeralFits (text : List Char) : Prop :=
  ∀ number ∈ numeral? text, (digitsValue number.1 number.2 : ℤ) ≤ longMax

instance (text : List Char) : Decidable (NumeralFits text) :=
  inferInstanceAs (Decidable (∀ number ∈ numeral? text, _))

/-- An exact quotient or remainder. -/
def integerDivided (message : String) (op : ℤ → ℤ → ℤ) (a b : ℤ) : Option Outcome :=
  if b = 0 then some (.error message)
  else if a = longMin ∧ b = -1 then none
  else some (.value (op a b))

/-- An exact shift to the left. -/
def integerShiftLeft (a b : ℤ) : Option Outcome :=
  if (0 ≤ b ∧ b ≤ 63) ∧ 0 ≤ a then (inLong (a * 2 ^ b.toNat)).map .value else none

/-- An exact shift to the right. -/
def integerShiftRight (a b : ℤ) : Option Outcome :=
  if 0 ≤ b ∧ b ≤ 63 then some (.value (a / 2 ^ b.toNat)) else none

/-- The unary operators on integers. -/
def integerUnary (op : MathTokenType) (a : ℤ) : Option Outcome :=
  if op = .minus then (inLong (-a)).map .value else some (.value (applyUnary op a))

/-- The binary operators on integers. -/
def integerBinary (op : MathTokenType) (a b : ℤ) : Option Outcome :=
  match op with
  | .multiply => (inLong (a * b)).map .value
  | .divide => integerDivided "Division by zero" Int.tdiv a b
  | .modulo => integerDivided "Modulo by zero" Int.tmod a b
  | .plus => (inLong (a + b)).map .value
  | .minus => (inLong (a - b)).map .value
  | .leftShift => integerShiftLeft a b
  | .rightShift => integerShiftRight a b
  | _ => some (applyBinary op a b)

/-- The assignments on integers. -/
def integerAssigned (op : MathTokenType) (old value : ℤ) : Option Outcome :=
  match op with
  | .multiplyAssign => (inLong (old * value)).map .value
  | .divideAssign => integerDivided "Division by zero in assignment" Int.tdiv old value
  | .moduloAssign => integerDivided "Modulo by zero in assignment" Int.tmod old value
  | .plusAssign => (inLong (old + value)).map .value
  | .minusAssign => (inLong (old - value)).map .value
  | .leftShiftAssign => integerShiftLeft old value
  | .rightShiftAssign => integerShiftRight old value
  | _ => some (assignedValue op old value)

def exactReply (o : Option Outcome) (s : MathParser δ W) : Result δ W :=
  match o with
  | some o => o.reply s
  | none => undefined

mutual

def integerExpression : ℕ → ℤ → MathParser δ W → Result δ W
  | 0, _, _ => .fault .fuel
  | n + 1, minPrecedence, s =>
    let (token, rest) := s.next
    if NumeralFits s.text then
      let left :=
        if isUnary token.type then
          (integerExpression n 14 rest).bind fun value t =>
            exactReply (integerUnary token.type value) t
        else integerPrimary n s
      left.bind fun left t => integerOperators n minPrecedence left t
    else undefined

def integerOperators : ℕ → ℤ → ℤ → MathParser δ W → Result δ W
  | 0, _, _, _ => .fault .fuel
  | n + 1, minPrecedence, left, s =>
    let (token, rest) := s.next
    let prec := getPrecedence token.type
    let nextMinPrec := if isRightAssociative token.type then prec else prec + 1
    if NumeralFits s.text then
      if prec < minPrecedence then .ok left s
      else if token.type = .comma then
        (integerExpression n nextMinPrec rest).bind fun _ t =>
          integerOperators n minPrecedence left t
      else if token.type = .question then
        (integerExpression n 0 rest).bind fun trueValue s =>
          if NumeralFits s.text then
            if s.next.1.type ≠ .colon then .fail "Expected ':' in ternary expression" s.next.2
            else
              (integerExpression n prec s.next.2).bind fun falseValue t =>
                integerOperators n minPrecedence (if left ≠ 0 then trueValue else falseValue) t
          else undefined
      else if token.type = .logicalOr ∧ left ≠ 0 then .ok left rest
      else if token.type = .logicalAnd ∧ left = 0 then .ok left rest
      else
        (integerExpression n nextMinPrec rest).bind fun right t =>
          (exactReply (integerBinary token.type left right) t).bind fun value u =>
            integerOperators n minPrecedence value u
    else undefined

def integerPrimary : ℕ → MathParser δ W → Result δ W
  | 0, _ => .fault .fuel
  | n + 1, s =>
    let (token, rest) := s.next
    if NumeralFits s.text then
      match token.type with
      | .number => .ok token.number rest
      | .variable =>
        let name := String.ofList token.name
        if NumeralFits rest.text then
          if isAssignment rest.next.1.type then
            (integerExpression n 0 rest.next.2).bind fun right t =>
              (exactReply
                (integerAssigned rest.next.1.type (readVariable t.frame name) right) t).bind
                fun value t => .ok value { t with frame := setVariable t.frame name value }
          else .ok (readVariable rest.frame name) rest
        else undefined
      | .lparen =>
        (integerExpression n 0 rest).bind fun value t =>
          if NumeralFits t.text then
            if t.next.1.type ≠ .rparen then .fail "Expected ')'" t.next.2
            else .ok value t.next.2
          else undefined
      | _ => .fail "Expected number, variable, or '('" rest
    else undefined

end

/-- The whole text, with the token behind it. -/
def integerText (n : ℕ) (s : MathParser δ W) : Result δ W :=
  match integerExpression n 0 s with
  | .ok value t =>
    if NumeralFits t.text then
      if t.next.1.type ≠ .eof then .fail "Unexpected tokens after expression" t.next.2
      else .ok value t
    else undefined
  | .fail message t => if NumeralFits t.text then .fail message t else undefined
  | .fault cause => .fault cause

/-! ## Following the source -/

theorem allDefined_nil : AllDefined [] := by rintro p ⟨⟩

theorem allDefined_singleton {p : Primitive} : AllDefined [p] ↔ p.Defined := by
  simp [AllDefined]

theorem allDefined_append {xs ys : List Primitive} :
    AllDefined (xs ++ ys) ↔ AllDefined xs ∧ AllDefined ys :=
  List.forall_mem_append

/-- The exact result `x` is the result `r` of the source if the source performs only operations that
C defines, and otherwise there is none. -/
structure Mirrors (operations : List Primitive) (r x : Result δ W) : Prop where
  same : AllDefined operations → x = r
  stops : ¬ AllDefined operations → x = undefined
  result : r ≠ undefined

namespace Mirrors

variable {operations tokens : List Primitive} {r x : Result δ W}

theorem iff (h : Mirrors operations r x) : AllDefined operations ↔ x ≠ undefined := by
  constructor
  · intro hall
    rw [h.same hall]
    exact h.result
  · intro hx
    by_contra hno
    exact hx (h.stops hno)

theorem refl (h : r ≠ undefined) : Mirrors [] r r :=
  ⟨fun _ => rfl, fun hno => absurd allDefined_nil hno, h⟩

/-- First a test that the operations before are defined. -/
theorem guard {p : Prop} [Decidable p] (hp : AllDefined tokens ↔ p)
    (h : Mirrors operations r x) :
    Mirrors (tokens ++ operations) r (if p then x else undefined) where
  same hall := by
    obtain ⟨htokens, hoperations⟩ := allDefined_append.mp hall
    rw [if_pos (hp.mp htokens)]
    exact h.same hoperations
  stops hno := by
    split_ifs with hif
    · exact h.stops fun hoperations => hno (allDefined_append.mpr ⟨hp.mpr hif, hoperations⟩)
    · rfl
  result := h.result

theorem ite {p : Prop} [Decidable p] {operations' : List Primitive} {r' x' : Result δ W}
    (hpos : p → Mirrors operations r x) (hneg : ¬ p → Mirrors operations' r' x') :
    Mirrors (if p then operations else operations') (if p then r else r')
      (if p then x else x') := by
  by_cases hp : p
  · simp only [if_pos hp, hpos hp]
  · simp only [if_neg hp, hneg hp]

/-- What comes behind the operations, where it stops with them. -/
theorem behind {more : List Primitive} {y : Result δ W} {f : Result δ W → Result δ W}
    (h : Mirrors operations r x) (hf : f undefined = undefined) (hmore : Mirrors more y (f r)) :
    Mirrors (operations ++ more) y (f x) where
  same hall := by
    obtain ⟨hoperations, hrest⟩ := allDefined_append.mp hall
    rw [h.same hoperations]
    exact hmore.same hrest
  stops hno := by
    by_cases hoperations : AllDefined operations
    · rw [h.same hoperations]
      exact hmore.stops fun hrest => hno (allDefined_append.mpr ⟨hoperations, hrest⟩)
    · rw [h.stops hoperations]
      exact hf
  result := hmore.result

theorem bind {f g : ℤ → MathParser δ W → Result δ W} {more : ℤ → MathParser δ W → List Primitive}
    (h : Mirrors operations r x) (hf : ∀ v t, Mirrors (more v t) (f v t) (g v t)) :
    Mirrors (operations ++ r.after more) (r.bind f) (x.bind g) := by
  have hresult := h.result
  refine h.behind (f := fun x => x.bind g) rfl ?_
  cases r with
  | ok v t => exact hf v t
  | fail e t => exact refl (by rintro ⟨⟩)
  | fault c => exact refl hresult

/-- Last a test that the operations before are defined. -/
theorem guarded {p : Prop} [Decidable p] (hp : AllDefined tokens ↔ p) (h : r ≠ undefined) :
    Mirrors tokens r (if p then r else undefined) := by
  simpa using (refl h).guard hp

/-- Nothing undefined is left to do. -/
theorem map {f : ℤ → MathParser δ W → Result δ W} (h : Mirrors operations r x)
    (hf : ∀ v t, f v t ≠ undefined) : Mirrors operations (r.bind f) (x.bind f) := by
  have hafter : r.after (fun _ _ => []) = [] := by cases r <;> rfl
  simpa [hafter] using h.bind fun v t => refl (hf v t)

/-- An operator without an effect on the text. -/
theorem reply {o : Outcome} {unbounded? : Option Outcome} (s : MathParser δ W)
    (hsame : AllDefined operations → unbounded? = some o)
    (hstops : ¬ AllDefined operations → unbounded? = none) :
    Mirrors operations (o.reply s) (exactReply unbounded? s) where
  same hall := by rw [hsame hall]; rfl
  stops hno := by rw [hstops hno]; rfl
  result := by cases o <;> simp [Outcome.reply, undefined]

end Mirrors

/-! ## Numbers -/

theorem le_foldl_digits {base : ℕ} (hbase : 0 < base) (digits : List Char) (v : ℕ) :
    v ≤ digits.foldl (fun n d => n * base + digitValue d) v := by
  induction digits generalizing v with
  | nil => exact le_refl v
  | cons d digits ih =>
    have hmul : v ≤ v * base := Nat.le_mul_of_pos_right v hbase
    exact (hmul.trans (Nat.le_add_right _ _)).trans (ih _)

/-- The digits of a number overflow nowhere if the number does not. -/
theorem digitOperations_defined {base : ℕ} (hbase : 0 < base) (digits : List Char) {v : ℕ}
    (hv : (v : ℤ) ≤ longMax) : AllDefined (digitOperations base v digits) ↔
      ((digits.foldl (fun n d => n * base + digitValue d) v : ℕ) : ℤ) ≤ longMax := by
  have hlong (w : ℕ) : IsLong w ↔ (w : ℤ) ≤ longMax := by
    refine and_iff_right ?_
    rw [longMin]
    omega
  induction digits generalizing v with
  | nil => exact iff_of_true allDefined_nil hv
  | cons d digits ih =>
    have hmono := le_foldl_digits hbase digits (v * base + digitValue d)
    have hmul : Primitive.Defined (.mul v base) ↔ ((v * base : ℕ) : ℤ) ≤ longMax := by
      rw [← hlong, Int.natCast_mul]
      rfl
    have hcons (p q : Primitive) (ps : List Primitive) :
        AllDefined (p :: q :: ps) ↔ p.Defined ∧ q.Defined ∧ AllDefined ps := by
      simp [AllDefined]
    rw [digitOperations, hcons, hmul, List.foldl_cons]
    by_cases hfits : ((v * base : ℕ) : ℤ) ≤ longMax
    · have hwrap : wrapLong (v * base) = ((v * base : ℕ) : ℤ) := by
        rw [← Int.natCast_mul]
        exact wrapLong_of_mem ((hlong _).mpr hfits)
      have hadd : Primitive.Defined (.add (v * base : ℕ) (digitValue d)) ↔
          ((v * base + digitValue d : ℕ) : ℤ) ≤ longMax := by
        rw [← hlong, Int.natCast_add]
        rfl
      rw [hwrap, hadd, and_iff_right hfits]
      by_cases hfits' : ((v * base + digitValue d : ℕ) : ℤ) ≤ longMax
      · have hwrap' : wrapLong (((v * base : ℕ) : ℤ) + digitValue d) =
            ((v * base + digitValue d : ℕ) : ℤ) := by
          rw [← Int.natCast_add]
          exact wrapLong_of_mem ((hlong _).mpr hfits')
        rw [hwrap', and_iff_right hfits']
        exact ih hfits'
      · exact iff_of_false (fun hall => hfits' hall.1) (by omega)
    · exact iff_of_false (fun hall => hfits hall.1) (by omega)

theorem numeral_base (text : List Char) : 0 < (numeral text).1 := by
  unfold numeral
  split
  · split
    · split_ifs <;> simp
    · simp
  · simp

theorem tokenOperations_defined (text : List Char) :
    AllDefined (tokenOperations text) ↔ NumeralFits text := by
  unfold tokenOperations NumeralFits
  cases hnumber : numeral? text with
  | none => simp [allDefined_nil]
  | some number =>
    have hbase : 0 < number.1 := by
      unfold numeral? at hnumber
      dsimp only at hnumber
      split_ifs at hnumber
      cases hnumber
      exact numeral_base _
    simpa [digitsValue] using
      digitOperations_defined hbase number.2 (v := 0) (by decide)

/-! ## Operators -/

section Operators

variable {a b : ℤ}

theorem inLong_of_isLong {v : ℤ} (h : IsLong v) : inLong v = some v := if_pos h

theorem inLong_of_not_isLong {v : ℤ} (h : ¬ IsLong v) : inLong v = none := if_neg h

/-- An operation that C defines where its exact result is a `long`. -/
theorem Mirrors.wrapped {p : Primitive} {v : ℤ} (hp : p.Defined ↔ IsLong v)
    (s : MathParser δ W) :
    Mirrors [p] ((Outcome.value (wrapLong v)).reply s) (exactReply ((inLong v).map .value) s) := by
  refine .reply s (fun hall => ?_) fun hno => ?_
  · have hlong := hp.mp (allDefined_singleton.mp hall)
    rw [inLong_of_isLong hlong, wrapLong_of_mem hlong]
    rfl
  · rw [inLong_of_not_isLong fun hlong => hno (allDefined_singleton.mpr (hp.mpr hlong))]
    rfl

theorem Mirrors.divided (message : String) (op : ℤ → ℤ → ℤ) {p : Primitive}
    (hp : p.Defined ↔ b ≠ 0 ∧ ¬ (a = longMin ∧ b = -1)) (s : MathParser δ W) :
    Mirrors (if b = 0 then [] else [p]) ((Arithmetic.divided message op a b).reply s)
      (exactReply (integerDivided message op a b) s) := by
  unfold Arithmetic.divided integerDivided
  by_cases hb : b = 0
  · simp only [if_pos hb]
    exact .refl (by rintro ⟨⟩)
  · simp only [if_neg hb]
    refine .reply s (fun hall => ?_) fun hno => ?_
    · have hsignal := (hp.mp (allDefined_singleton.mp hall)).2
      rw [if_neg hsignal, if_neg hsignal]
    · by_cases hsignal : a = longMin ∧ b = -1
      · rw [if_pos hsignal]
      · exact absurd (allDefined_singleton.mpr (hp.mpr ⟨hb, hsignal⟩)) hno

theorem Mirrors.shiftLeft (a b : ℤ) (s : MathParser δ W) :
    Mirrors [.shl a b] ((Outcome.value (shiftLeft a b)).reply s)
      (exactReply (integerShiftLeft a b) s) := by
  have hlong (h : 0 ≤ a) : IsLong (a * 2 ^ b.toNat) ↔ a * 2 ^ b.toNat ≤ longMax := by
    refine and_iff_right ?_
    have : 0 ≤ a * 2 ^ b.toNat := Int.mul_nonneg h (Int.pow_nonneg (by decide))
    rw [longMin]
    omega
  unfold integerShiftLeft
  refine .reply s (fun hall => ?_) fun hno => ?_
  · obtain ⟨hcount, hleft, hfits⟩ := allDefined_singleton.mp hall
    have hlong := (hlong hleft).mpr hfits
    rw [if_pos ⟨hcount, hleft⟩, inLong_of_isLong hlong, Arithmetic.shiftLeft,
      emod_of_mem hcount, wrapLong_of_mem hlong]
    rfl
  · split_ifs with hif
    · rw [inLong_of_not_isLong fun hfits =>
        hno (allDefined_singleton.mpr ⟨hif.1, hif.2, (hlong hif.2).mp hfits⟩)]
      rfl
    · rfl

theorem Mirrors.shiftRight (a b : ℤ) (s : MathParser δ W) :
    Mirrors [.shr a b] ((Outcome.value (shiftRight a b)).reply s)
      (exactReply (integerShiftRight a b) s) := by
  unfold integerShiftRight
  refine .reply s (fun hall => ?_) fun hno => ?_
  · have hcount : 0 ≤ b ∧ b ≤ 63 := allDefined_singleton.mp hall
    rw [if_pos hcount, Arithmetic.shiftRight, emod_of_mem hcount]
  · have hcount : ¬ (0 ≤ b ∧ b ≤ 63) := fun hcount => hno (allDefined_singleton.mpr hcount)
    rw [if_neg hcount]

theorem reply_ne_undefined (o : Outcome) (s : MathParser δ W) : o.reply s ≠ undefined := by
  cases o <;> simp [Outcome.reply, undefined]

theorem Mirrors.unary (op : MathTokenType) (a : ℤ) (s : MathParser δ W) :
    Mirrors (unaryOperations op a) (.ok (applyUnary op a) s)
      (exactReply (integerUnary op a) s) := by
  unfold unaryOperations integerUnary
  by_cases hop : op = .minus
  · subst hop
    rw [if_pos rfl, if_pos rfl]
    exact .wrapped Iff.rfl s
  · rw [if_neg hop, if_neg hop]
    exact .refl (by rintro ⟨⟩)

theorem Mirrors.binary (op : MathTokenType) (a b : ℤ) (s : MathParser δ W) :
    Mirrors (binaryOperations op a b) ((applyBinary op a b).reply s)
      (exactReply (integerBinary op a b) s) := by
  cases op with
  | multiply | plus | minus => exact .wrapped Iff.rfl s
  | divide | modulo => exact .divided _ _ Iff.rfl s
  | leftShift => exact .shiftLeft a b s
  | rightShift => exact .shiftRight a b s
  | _ => exact .refl (reply_ne_undefined _ s)

theorem Mirrors.assigned (op : MathTokenType) (old value : ℤ) (s : MathParser δ W) :
    Mirrors (assignOperations op old value) ((assignedValue op old value).reply s)
      (exactReply (integerAssigned op old value) s) := by
  cases op with
  | multiplyAssign | plusAssign | minusAssign => exact .wrapped Iff.rfl s
  | divideAssign | moduloAssign => exact .divided _ _ Iff.rfl s
  | leftShiftAssign => exact .shiftLeft old value s
  | rightShiftAssign => exact .shiftRight old value s
  | _ => exact .refl (reply_ne_undefined _ s)

end Operators

/-! ## Expressions -/

theorem expression_mirrors (n : ℕ) :
    (∀ m (s : MathParser δ W),
      Mirrors (expressionOperations n m s) (parseExpression n m s) (integerExpression n m s)) ∧
    (∀ m left (s : MathParser δ W), Mirrors (operatorsOperations n m left s)
      (parseOperators n m left s) (integerOperators n m left s)) ∧
    ∀ s : MathParser δ W,
      Mirrors (primaryOperations n s) (parsePrimary n s) (integerPrimary n s) := by
  induction n with
  | zero =>
    have hfuel : (.fault .fuel : Result δ W) ≠ undefined := by rintro ⟨⟩
    exact ⟨fun m s => .refl hfuel, fun m left s => .refl hfuel, fun s => .refl hfuel⟩
  | succ n ih =>
    obtain ⟨hexpression, hoperators, hprimary⟩ := ih
    refine ⟨fun m s => ?_, fun m left s => ?_, fun s => ?_⟩
    · simp only [expressionOperations, parseExpression, integerExpression]
      refine .guard (tokenOperations_defined s.text) ?_
      by_cases hunary : isUnary s.next.1.type
      · simp only [if_pos hunary, Reply.bind_assoc, Reply.bind_ok]
        refine (hexpression 14 _).bind fun value t => ?_
        exact (Mirrors.unary s.next.1.type value t).bind fun value t => hoperators m value t
      · simp only [if_neg hunary]
        exact (hprimary s).bind fun left t => hoperators m left t
    · simp only [operatorsOperations, parseOperators, integerOperators]
      refine .guard (tokenOperations_defined s.text) ?_
      refine .ite (fun _ => .refl (by rintro ⟨⟩)) fun _ => ?_
      refine .ite (fun _ => (hexpression _ _).bind fun _ t => hoperators m left t) fun _ => ?_
      refine .ite (fun _ => (hexpression 0 _).bind fun trueValue t => ?_) fun _ => ?_
      · refine .guard (tokenOperations_defined t.text) ?_
        refine .ite (fun _ => .refl (by rintro ⟨⟩)) fun _ => ?_
        exact (hexpression _ _).bind fun falseValue u => hoperators m _ u
      · refine .ite (fun _ => .refl (by rintro ⟨⟩)) fun _ => ?_
        refine .ite (fun _ => .refl (by rintro ⟨⟩)) fun _ => ?_
        refine (hexpression _ _).bind fun right t => ?_
        exact (Mirrors.binary s.next.1.type left right t).bind fun value u => hoperators m value u
    · simp only [primaryOperations, parsePrimary, integerPrimary]
      refine .guard (tokenOperations_defined s.text) ?_
      cases s.next.1.type with
      | number => exact .refl (by rintro ⟨⟩)
      | «variable» =>
        refine .guard (tokenOperations_defined _) ?_
        refine .ite (fun _ => (hexpression 0 _).bind fun right t => ?_)
          fun _ => .refl (by rintro ⟨⟩)
        exact (Mirrors.assigned _ _ right t).map fun value u => by rintro ⟨⟩
      | lparen =>
        refine (hexpression 0 _).bind fun value t => .guarded (tokenOperations_defined t.text) ?_
        split_ifs <;> rintro ⟨⟩
      | _ => exact .refl (by rintro ⟨⟩)

/-- The end of `integerText`: the token behind the expression. -/
def integerEnd : Result δ W → Result δ W
  | .ok value t =>
    if NumeralFits t.text then
      if t.next.1.type ≠ .eof then .fail "Unexpected tokens after expression" t.next.2
      else .ok value t
    else undefined
  | .fail message t => if NumeralFits t.text then .fail message t else undefined
  | .fault cause => .fault cause

theorem text_mirrors (n : ℕ) (s : MathParser δ W) :
    Mirrors (textOperations n s) (evaluateText n s) (integerText n s) := by
  have hexpression := (expression_mirrors n).1 0 s
  have hresult := hexpression.result
  change Mirrors (textOperations n s) (evaluateText n s) (integerEnd (integerExpression n 0 s))
  unfold textOperations evaluateText
  refine hexpression.behind rfl ?_
  cases hparse : parseExpression n 0 s with
  | ok value t =>
    rw [Reply.bind_ok]
    refine .guarded (tokenOperations_defined t.text) ?_
    split_ifs <;> rintro ⟨⟩
  | fail message t => exact .guarded (tokenOperations_defined t.text) (by rintro ⟨⟩)
  | fault cause =>
    rw [hparse] at hresult
    exact .refl hresult

end Migash.Arithmetic
