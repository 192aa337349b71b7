import Mathlib.Algebra.Order.Group.Int
import Migash.Arithmetic.Spelling

/-! # Precedence climbing

Reading the text of an expression leads to the loop over operators behind it,
with the value of the expression on the left. What follows the text binds less
tightly, so that every operand ends where it was written to end.
-/

namespace Migash.Arithmetic

open Exec (Shell)
open Library

variable {δ W : Type} {rest : List Char}

/-! ## What stands between operands -/

/-- The precedence of the next operator, -1 if there is none. -/
def nextPrecedence (text : List Char) : ℤ := getPrecedence (getToken text).1.type

theorem getPrecedence_le (type : MathTokenType) : getPrecedence type ≤ 13 := by
  cases type <;> decide

/-- What may follow an operand of level `l`. Nothing is written behind an assignment or a `?:`
except what ends the operand of every operator around it. -/
structure Follows (l : ℤ) (rest : List Char) : Prop where
  endsWord : EndsWord rest
  notAssignment : isAssignment (getToken rest).1.type = false
  precedence : nextPrecedence rest ≤ l
  low : l ≤ 3 → nextPrecedence rest < 0

theorem Follows.mono {l l' : ℤ} (h : Follows l rest) (hle : l ≤ l') : Follows l' rest where
  endsWord := h.endsWord
  notAssignment := h.notAssignment
  precedence := h.precedence.trans hle
  low := fun hlow => h.low (hle.trans hlow)

theorem endsWord_spelling (type : MathTokenType) (h : type.spelling ≠ []) :
    EndsWord (type.spelling ++ rest) := by
  intro c hc
  cases type <;> first
    | exact absurd rfl h
    | (cases hc; decide)

theorem Follows.spelling {type : MathTokenType} (hspelling : type.spelling ≠ [])
    (hend : EndsOperator rest) (hassign : isAssignment type = false) {l : ℤ}
    (hprec : getPrecedence type ≤ l) (hlow : l ≤ 3 → getPrecedence type < 0) :
    Follows l (type.spelling ++ rest) where
  endsWord := endsWord_spelling _ hspelling
  notAssignment := by rw [getToken_spelling hspelling hend]; exact hassign
  precedence := by rw [nextPrecedence, getToken_spelling hspelling hend]; exact hprec
  low := by rw [nextPrecedence, getToken_spelling hspelling hend]; exact hlow

theorem Follows.close {l : ℤ} (hl : 0 ≤ l) : Follows l (')' :: rest) where
  endsWord := endsWord_spelling .rparen (by decide)
  notAssignment := rfl
  precedence := le_trans (by decide : (-1 : ℤ) ≤ 0) hl
  low := fun _ => (by decide : (-1 : ℤ) < 0)

theorem Follows.colon {l : ℤ} (hl : 0 ≤ l) : Follows l (':' :: rest) where
  endsWord := endsWord_spelling .colon (by decide)
  notAssignment := rfl
  precedence := le_trans (by decide : (-1 : ℤ) ≤ 0) hl
  low := fun _ => (by decide : (-1 : ℤ) < 0)

theorem Follows.question {l : ℤ} (hl : 3 < l) : Follows l ('?' :: rest) where
  endsWord := endsWord_spelling .question (by decide)
  notAssignment := rfl
  precedence := hl.le
  low := fun hle => absurd hl (not_lt.mpr hle)

theorem Follows.nil {l : ℤ} (hl : 0 ≤ l) : Follows l [] where
  endsWord := by intro c hc; cases hc
  notAssignment := rfl
  precedence := le_trans (by decide : (-1 : ℤ) ≤ 0) hl
  low := fun _ => (by decide : (-1 : ℤ) < 0)

/-- A text that starts an operand. -/
def StartsOperand (text : List Char) : Prop :=
  ∃ c ∈ text.head?, c ∉ ['=', '<', '>', '&', '|']

theorem StartsOperand.append {text : List Char} (h : StartsOperand text) (rest : List Char) :
    StartsOperand (text ++ rest) := by
  obtain ⟨c, hc, hmem⟩ := h
  cases text with
  | nil => cases hc
  | cons d text => exact ⟨c, hc, hmem⟩

theorem StartsOperand.endsOperator {text : List Char} (h : StartsOperand text) :
    EndsOperator text := by
  obtain ⟨c, hc, hmem⟩ := h
  intro d hd
  rw [Option.mem_def] at hc hd
  rw [hc, Option.some.injEq] at hd
  exact hd ▸ hmem

theorem StartsOperand.wrap {text : List Char} (h : StartsOperand text) (p l : ℤ) :
    StartsOperand (Expr.wrap p l text) := by
  unfold Expr.wrap
  split_ifs
  · exact ⟨'(', rfl, by decide⟩
  · exact h

theorem startsOperand_of_alnum {c : Char} {text : List Char} (h : isAlnumOrUnderscore c = true) :
    StartsOperand (c :: text) := by
  refine ⟨c, rfl, fun hmem => ?_⟩
  simp only [List.mem_cons, List.not_mem_nil, or_false] at hmem
  rcases hmem with rfl | rfl | rfl | rfl | rfl <;> exact absurd h (by decide)

theorem Name.startsOperand (x : Name) : StartsOperand x.text := by
  refine startsOperand_of_alnum (isAlnumOrUnderscore_iff.mpr ?_)
  have := x.start
  simp only [isAlphaOrUnderscore, Bool.or_eq_true, decide_eq_true_eq] at this
  exact this.imp_right .inr

theorem Literal.startsOperand (l : Literal) : StartsOperand l.text := by
  obtain ⟨radix, digits, hne, hvalid, -⟩ := l
  cases radix with
  | decimal =>
    cases digits with
    | nil => exact absurd rfl hne
    | cons d digits =>
      exact startsOperand_of_alnum
        (isAlnumOrUnderscore_of_digit .decimal (hvalid d List.mem_cons_self))
  | octal => exact startsOperand_of_alnum (by decide)
  | hex => exact startsOperand_of_alnum (by decide)
  | hexUpper => exact startsOperand_of_alnum (by decide)

theorem Expr.startsOperand (e : Expr) : StartsOperand e.text := by
  induction e with
  | literal l => exact l.startsOperand
  | var x => exact x.startsOperand
  | paren e => exact ⟨'(', rfl, by decide⟩
  | unary op e => cases op <;> exact ⟨_, rfl, by decide⟩
  | binary op a b iha => exact (iha.wrap _ _).append _
  | and a b iha => exact (iha.wrap _ _).append _
  | or a b iha => exact (iha.wrap _ _).append _
  | cond c a b ihc => exact (ihc.wrap _ _).append _
  | assign x op e => exact x.startsOperand.append _

/-- The precedences of the binary operators. -/
theorem BinaryOp.precedence (op : BinaryOp) :
    6 ≤ getPrecedence op.type ∧ getPrecedence op.type ≤ 13 := by
  cases op <;> decide

theorem Expr.level_pos (e : Expr) : 2 ≤ e.level := by
  cases e with
  | binary op a b =>
    have := op.precedence
    simp only [level]
    omega
  | _ => simp [level, getPrecedence]

/-! ## Steps of the parser -/

theorem parseOperators_stop {n : ℕ} {m left : ℤ} {s : MathParser δ W} (hn : 0 < n)
    (h : nextPrecedence s.text < m) : parseOperators n m left s = .ok left s := by
  cases n with
  | zero => exact absurd hn (Nat.lt_irrefl 0)
  | succ n =>
    rw [parseOperators]
    exact if_pos h

/-- An operator that reads its right operand. -/
theorem parseOperators_operand {n : ℕ} {m left : ℤ} {text : List Char} {s : Shell δ W}
    {type : MathTokenType} (htype : type.spelling ≠ []) (htext : StartsOperand text)
    (hprec : m ≤ getPrecedence type) (hcomma : type ≠ .comma) (hquestion : type ≠ .question)
    (hor : type = .logicalOr → left = 0) (hand : type = .logicalAnd → left ≠ 0) :
    parseOperators (n + 1) m left ⟨type.spelling ++ text, s⟩ =
      (parseExpression n (getPrecedence type + 1) ⟨text, s⟩).bind fun right s =>
        ((applyBinary type left right).reply s).bind fun v s => parseOperators n m v s := by
  have hnext : (⟨type.spelling ++ text, s⟩ : MathParser δ W).next = ({ type }, ⟨text, s⟩) := by
    rw [MathParser.next, getToken_spelling htype htext.endsOperator]
  have hassoc : isRightAssociative type = false := by simpa [isRightAssociative] using hquestion
  rw [parseOperators, hnext]
  simp only [hassoc, Bool.false_eq_true, if_false, if_neg (not_lt.mpr hprec), if_neg hcomma,
    if_neg hquestion]
  rw [if_neg fun h => h.2 (hor h.1), if_neg fun h => hand h.1 h.2]

/-- `&&` and `||` return before their right operand where they do not need it. -/
theorem parseOperators_skip {n : ℕ} {m left : ℤ} {text : List Char} {s : Shell δ W}
    {type : MathTokenType} (htext : StartsOperand text) (hprec : m ≤ getPrecedence type)
    (hskip : type = .logicalOr ∧ left ≠ 0 ∨ type = .logicalAnd ∧ left = 0) :
    parseOperators (n + 1) m left ⟨type.spelling ++ text, s⟩ = .ok left ⟨text, s⟩ := by
  have htype : type.spelling ≠ [] := by
    rcases hskip with ⟨rfl, -⟩ | ⟨rfl, -⟩ <;> decide
  have hnext : (⟨type.spelling ++ text, s⟩ : MathParser δ W).next = ({ type }, ⟨text, s⟩) := by
    rw [MathParser.next, getToken_spelling htype htext.endsOperator]
  rw [parseOperators, hnext]
  simp only [if_neg (not_lt.mpr hprec)]
  rcases hskip with ⟨rfl, hleft⟩ | ⟨rfl, hleft⟩ <;> simp [hleft]

theorem parseOperators_question {n : ℕ} {m left : ℤ} {text : List Char} {s : Shell δ W}
    (hm : m ≤ 3) :
    parseOperators (n + 1) m left ⟨'?' :: text, s⟩ =
      (parseExpression n 0 ⟨text, s⟩).bind fun trueValue s =>
        if s.next.1.type ≠ .colon then .fail "Expected ':' in ternary expression" s.next.2
        else
          (parseExpression n 3 s.next.2).bind fun falseValue s =>
            parseOperators n m (if left ≠ 0 then trueValue else falseValue) s := by
  rw [parseOperators]
  exact if_neg (not_lt.mpr hm)

theorem parseExpression_unary {n : ℕ} {m : ℤ} {text : List Char} {s : Shell δ W} (op : UnaryOp)
    (htext : StartsOperand text) :
    parseExpression (n + 1) m ⟨op.type.spelling ++ text, s⟩ =
      (parseExpression n 14 ⟨text, s⟩).bind fun v s =>
        parseOperators n m (applyUnary op.type v) s := by
  have htype : op.type.spelling ≠ [] := by cases op <;> decide
  have hnext : (⟨op.type.spelling ++ text, s⟩ : MathParser δ W).next =
      ({ type := op.type }, ⟨text, s⟩) := by
    rw [MathParser.next, getToken_spelling htype htext.endsOperator]
  have hunary : isUnary op.type = true := by cases op <;> rfl
  rw [parseExpression, hnext]
  simp only [hunary, if_true]
  rw [Reply.bind_assoc]
  rfl

theorem parseExpression_primary {n : ℕ} {m : ℤ} {s : MathParser δ W}
    (h : isUnary (getToken s.text).1.type = false) :
    parseExpression (n + 1) m s =
      (parsePrimary n s).bind fun v s => parseOperators n m v s := by
  rw [parseExpression]
  simp only [MathParser.next, h, Bool.false_eq_true, if_false]

theorem parseExpression_literal {n : ℕ} {m : ℤ} {s : Shell δ W} (l : Literal)
    (h : EndsWord rest) :
    parseExpression (n + 2) m ⟨l.text ++ rest, s⟩ =
      parseOperators (n + 1) m (wrapLong l.value) ⟨rest, s⟩ := by
  have htoken := getToken_literal l h
  rw [parseExpression_primary (by rw [htoken]; rfl), parsePrimary]
  simp only [MathParser.next, htoken, Reply.bind_ok]

theorem parseExpression_var {n : ℕ} {m : ℤ} {s : Shell δ W} (x : Name) (h : EndsWord rest)
    (hassign : isAssignment (getToken rest).1.type = false) :
    parseExpression (n + 2) m ⟨x.text ++ rest, s⟩ =
      parseOperators (n + 1) m (readVariable s x.toString) ⟨rest, s⟩ := by
  have htoken := getToken_name x h
  rw [parseExpression_primary (by rw [htoken]; rfl), parsePrimary]
  simp only [MathParser.next, htoken, hassign, Bool.false_eq_true, if_false, Reply.bind_ok]
  rfl

theorem parseExpression_assign {n : ℕ} {m : ℤ} {text : List Char} {s : Shell δ W} (x : Name)
    (op : AssignOp) (htext : StartsOperand text) :
    parseExpression (n + 2) m ⟨x.text ++ (op.type.spelling ++ text), s⟩ =
      (parseExpression n 0 ⟨text, s⟩).bind fun right s =>
        ((assignedValue op.type (readVariable s.frame x.toString) right).reply s).bind fun v s =>
          parseOperators (n + 1) m v ⟨s.text, setVariable s.frame x.toString v⟩ := by
  have htype : op.type.spelling ≠ [] := by cases op <;> decide
  have hassign : isAssignment op.type = true := by cases op <;> rfl
  have hend : EndsWord (op.type.spelling ++ text) := endsWord_spelling _ htype
  have htoken := getToken_name x hend
  have hnext := getToken_spelling htype htext.endsOperator
  rw [parseExpression_primary (by rw [htoken]; rfl), parsePrimary]
  simp only [MathParser.next, htoken, hnext, hassign, if_true]
  rw [Reply.bind_assoc]
  congr 1
  funext right s
  rw [Reply.bind_assoc]
  rfl

theorem parseExpression_paren {n : ℕ} {m : ℤ} {text : List Char} {s : Shell δ W} :
    parseExpression (n + 2) m ⟨'(' :: text, s⟩ =
      ((parseExpression n 0 ⟨text, s⟩).bind fun v s =>
        if s.next.1.type ≠ .rparen then .fail "Expected ')'" s.next.2
        else .ok v s.next.2).bind fun v s => parseOperators (n + 1) m v s := by
  rw [parseExpression_primary rfl, parsePrimary]
  rfl

/-! ## Climbing -/

/-- From the text on, whatever follows it, the parser gets to its loop over operators behind the
text with `v` on the left. -/
def Climbs (p : ℤ) (text : List Char) (s : Shell δ W) (v : ℤ) (t : Shell δ W) : Prop :=
  ∀ m rest n, 0 ≤ m → m ≤ p → Follows p rest → 2 * (text ++ rest).length + 1 < n →
    ∃ k, 2 * rest.length < k ∧
      parseExpression n m ⟨text ++ rest, s⟩ = parseOperators k m v ⟨rest, t⟩

section Climbs

variable {p : ℤ} {text : List Char} {s t : Shell δ W} {v : ℤ}

/-- Where the next operator binds less tightly, the expression ends. -/
theorem Climbs.parse (h : Climbs p text s v t) {m : ℤ} {n : ℕ} (hm : 0 ≤ m) (hmp : m ≤ p)
    (hrest : Follows p rest) (hend : nextPrecedence rest < m)
    (hn : 2 * (text ++ rest).length + 1 < n) :
    parseExpression n m ⟨text ++ rest, s⟩ = .ok v ⟨rest, t⟩ := by
  obtain ⟨k, hk, hrun⟩ := h m rest n hm hmp hrest hn
  rw [hrun]
  exact parseOperators_stop (by omega) hend

theorem Climbs.paren {l : ℤ} (h : Climbs l text s v t) (hl : 0 ≤ l) (p : ℤ) :
    Climbs p ('(' :: (text ++ [')'])) s v t := by
  intro m rest n hm hmp hrest hn
  obtain ⟨n, rfl⟩ : ∃ k, n = k + 2 := ⟨n - 2, by omega⟩
  have hinner : parseExpression n 0 ⟨text ++ (')' :: rest), s⟩ = .ok v ⟨')' :: rest, t⟩ := by
    refine h.parse (le_refl 0) hl (.close hl) (by decide : (-1 : ℤ) < 0) ?_
    simp only [List.length_append, List.length_cons, List.length_nil] at hn ⊢
    omega
  refine ⟨n + 1, ?_, ?_⟩
  · simp only [List.length_append, List.length_cons, List.length_nil] at hn
    omega
  · rw [List.cons_append, List.append_assoc, List.singleton_append, parseExpression_paren, hinner]
    rfl

theorem Climbs.wrap {l : ℤ} (h : Climbs l text s v t) (hl : 0 ≤ l) (p : ℤ) :
    Climbs p (Expr.wrap p l text) s v t := by
  unfold Expr.wrap
  split_ifs with hlt
  · exact h.paren hl p
  · intro m rest n hm hmp hrest hn
    have hle := not_lt.mp hlt
    exact h m rest n hm (hmp.trans hle) (hrest.mono hle) hn

theorem length_spelling {type : MathTokenType} (h : type.spelling ≠ []) :
    1 ≤ type.spelling.length := List.length_pos_iff.mpr h

/-- Two operands and the operator between them. -/
theorem Climbs.operator (type : MathTokenType) {left right : ℤ} {text' : List Char}
    {u : Shell δ W} (htype : type.spelling ≠ []) (hlow : 3 < getPrecedence type)
    (hassign : isAssignment type = false) (ha : Climbs (getPrecedence type) text s left u)
    (hb : Climbs (getPrecedence type + 1) text' u right t) (hstart : StartsOperand text')
    (hor : type = .logicalOr → left = 0) (hand : type = .logicalAnd → left ≠ 0)
    (hv : applyBinary type left right = .value v) :
    Climbs (getPrecedence type) (text ++ (type.spelling ++ text')) s v t := by
  intro m rest n hm hmp hrest hn
  have hlen := length_spelling htype
  have hstart' := hstart.append rest
  have hfollows : Follows (getPrecedence type) (type.spelling ++ (text' ++ rest)) :=
    .spelling htype hstart'.endsOperator hassign (le_refl _) fun hle => absurd hlow (by omega)
  simp only [List.length_append] at hn
  obtain ⟨k, hk, hrun⟩ := ha m (type.spelling ++ (text' ++ rest)) n hm hmp hfollows
    (by simp only [List.length_append]; omega)
  simp only [List.length_append] at hk
  obtain ⟨k, rfl⟩ : ∃ j, k = j + 1 := ⟨k - 1, by omega⟩
  have hright := hb.parse (m := getPrecedence type + 1) (n := k) (by omega) (le_refl _)
    (hrest.mono (by omega)) (by have := hrest.precedence; omega)
    (by simp only [List.length_append]; omega)
  refine ⟨k, by omega, ?_⟩
  rw [List.append_assoc, List.append_assoc, hrun,
    parseOperators_operand htype hstart' hmp (by rintro rfl; cases hlow)
      (by rintro rfl; exact absurd hlow (by decide)) hor hand, hright]
  simp only [Reply.bind_ok, hv, Outcome.reply]

/-- `?:`, whose branches are both read. -/
theorem Climbs.cond {la value trueValue falseValue : ℤ} {ta tb : List Char} {u w : Shell δ W}
    (hc : Climbs 4 text s value u) (ha : Climbs la ta u trueValue w)
    (hb : Climbs 3 tb w falseValue t) (hla : 2 ≤ la) :
    Climbs 3 (text ++ ('?' :: (ta ++ (':' :: tb)))) s
      (if value ≠ 0 then trueValue else falseValue) t := by
  intro m rest n hm hmp hrest hn
  simp only [List.length_append, List.length_cons] at hn
  obtain ⟨k, hk, hrun⟩ := hc m ('?' :: (ta ++ (':' :: (tb ++ rest)))) n hm (by omega)
    (.question (by decide))
    (by simp only [List.length_append, List.length_cons]; omega)
  simp only [List.length_append, List.length_cons] at hk
  obtain ⟨k, rfl⟩ : ∃ j, k = j + 1 := ⟨k - 1, by omega⟩
  have hfollows : Follows la (':' :: (tb ++ rest)) := .colon (by omega)
  have htrue := ha.parse (m := 0) (n := k) (le_refl _) (by omega) hfollows (by decide : (-1 : ℤ) < 0)
    (by simp only [List.length_append, List.length_cons]; omega)
  have hlow := hrest.low (le_refl 3)
  have hfalse := hb.parse (m := 3) (n := k) (by decide) (le_refl _) hrest (by omega)
    (by simp only [List.length_append]; omega)
  refine ⟨k, by omega, ?_⟩
  simp only [List.append_assoc, List.cons_append] at hrun ⊢
  rw [hrun, parseOperators_question hmp, htrue]
  have hcolon : (⟨':' :: (tb ++ rest), w⟩ : MathParser δ W).next =
      ({ type := .colon }, ⟨tb ++ rest, w⟩) := rfl
  simp only [Reply.bind_ok, hcolon, ne_eq, not_true, if_false, hfalse]

/-- An assignment. -/
theorem Climbs.assign (x : Name) (op : AssignOp) {l right : ℤ} {u : Shell δ W}
    (h : Climbs l text s right u) (hl : 2 ≤ l) (hstart : StartsOperand text)
    (hv : assignedValue op.type (readVariable u x.toString) right = .value v) :
    Climbs 2 (x.text ++ (op.type.spelling ++ text)) s v (setVariable u x.toString v) := by
  intro m rest n hm hmp hrest hn
  have hlow := hrest.low (by decide)
  simp only [Name.text, List.length_append, List.length_cons] at hn
  obtain ⟨n, rfl⟩ : ∃ k, n = k + 2 := ⟨n - 2, by omega⟩
  have hright := h.parse (m := 0) (n := n) (le_refl _) (by omega) (hrest.mono hl) hlow
    (by simp only [List.length_append]; omega)
  refine ⟨n + 1, by omega, ?_⟩
  rw [List.append_assoc, List.append_assoc, parseExpression_assign x op (hstart.append rest),
    hright]
  simp only [Reply.bind_ok, hv, Outcome.reply]

end Climbs

theorem Outcome.value?_eq {o : Outcome} {v : ℤ} : o.value? = some v ↔ o = .value v := by
  cases o <;> simp [Outcome.value?]

section Exec

attribute [local simp] Expr.exec

variable {s t : Shell δ W} {v : ℤ} {a b c : Expr}

theorem Expr.exec_and : (Expr.and a b).exec s = some (v, t) ↔
    ∃ left u right, a.exec s = some (left, u) ∧ left ≠ 0 ∧ b.exec u = some (right, t) ∧
      truth (right ≠ 0) = v := by
  simp only [exec, Option.bind_eq_bind, Option.bind_eq_some_iff, Prod.exists]
  constructor
  · rintro ⟨left, u, ha, h⟩
    by_cases hleft : left = 0
    · simp [hleft] at h
    · simp only [hleft, if_false, Option.bind_eq_some_iff, Prod.exists] at h
      obtain ⟨right, w, hb, h⟩ := h
      cases h
      exact ⟨left, u, right, ha, hleft, hb, rfl⟩
  · rintro ⟨left, u, right, ha, hleft, hb, rfl⟩
    exact ⟨left, u, ha, by simp [hleft, hb]⟩

theorem Expr.exec_or : (Expr.or a b).exec s = some (v, t) ↔
    ∃ left u right, a.exec s = some (left, u) ∧ left = 0 ∧ b.exec u = some (right, t) ∧
      truth (right ≠ 0) = v := by
  simp only [exec, Option.bind_eq_bind, Option.bind_eq_some_iff, Prod.exists]
  constructor
  · rintro ⟨left, u, ha, h⟩
    by_cases hleft : left = 0
    · simp only [hleft, ne_eq, not_true, if_false, Option.bind_eq_some_iff,
        Prod.exists] at h
      obtain ⟨right, w, hb, h⟩ := h
      cases h
      exact ⟨left, u, right, ha, hleft, hb, rfl⟩
    · simp [hleft] at h
  · rintro ⟨left, u, right, ha, rfl, hb, rfl⟩
    exact ⟨0, u, ha, by simp [hb]⟩

theorem Expr.exec_cond : (Expr.cond c a b).exec s = some (v, t) ↔
    ∃ value u trueValue w falseValue, c.exec s = some (value, u) ∧
      a.exec u = some (trueValue, w) ∧ b.exec w = some (falseValue, t) ∧
      (if value ≠ 0 then trueValue else falseValue) = v := by
  simp only [exec, Option.bind_eq_bind, Option.bind_eq_some_iff, Prod.exists, Option.pure_def,
    Option.some.injEq, Prod.mk.injEq]
  constructor
  · rintro ⟨value, u, hc, trueValue, w, ha, falseValue, t', hb, rfl, rfl⟩
    exact ⟨value, u, trueValue, w, falseValue, hc, ha, hb, rfl⟩
  · rintro ⟨value, u, trueValue, w, falseValue, hc, ha, hb, rfl⟩
    exact ⟨value, u, hc, trueValue, w, ha, falseValue, t, hb, rfl, rfl⟩

theorem Expr.exec_assign {x : Name} {op : AssignOp} :
    (Expr.assign x op a).exec s = some (v, t) ↔
      ∃ right u, a.exec s = some (right, u) ∧
        assignedValue op.type (readVariable u x.toString) right = .value v ∧
        setVariable u x.toString v = t := by
  simp only [exec, Option.bind_eq_bind, Option.bind_eq_some_iff, Prod.exists, Option.pure_def,
    Option.some.injEq, Prod.mk.injEq, Outcome.value?_eq]
  constructor
  · rintro ⟨right, u, ha, v', hv, rfl, rfl⟩
    exact ⟨right, u, ha, hv, rfl⟩
  · rintro ⟨right, u, ha, hv, rfl⟩
    exact ⟨right, u, ha, v, hv, rfl, rfl⟩

end Exec

/-- Reading an expression computes what it says, as long as every operand is evaluated. -/
theorem climbs_text (e : Expr) {s t : Shell δ W} {v : ℤ} (h : e.exec s = some (v, t)) :
    Climbs e.level e.text s v t := by
  induction e generalizing s t v with
  | literal l =>
    rw [Expr.exec, Option.some.injEq, Prod.mk.injEq] at h
    obtain ⟨rfl, rfl⟩ := h
    intro m rest n hm hmp hrest hn
    have hpos : 1 ≤ l.text.length := by
      obtain ⟨c, hc, -⟩ := l.startsOperand
      cases hl : l.text with
      | nil => rw [hl] at hc; cases hc
      | cons => simp
    simp only [List.length_append] at hn
    obtain ⟨n, rfl⟩ : ∃ k, n = k + 2 := ⟨n - 2, by omega⟩
    exact ⟨n + 1, by omega, parseExpression_literal l hrest.endsWord⟩
  | var x =>
    cases h
    intro m rest n hm hmp hrest hn
    simp only [Expr.text, Name.text, List.length_append, List.length_cons] at hn
    obtain ⟨n, rfl⟩ : ∃ k, n = k + 2 := ⟨n - 2, by omega⟩
    exact ⟨n + 1, by omega, parseExpression_var x hrest.endsWord hrest.notAssignment⟩
  | paren e ih => exact (ih h).paren (by have := e.level_pos; omega) _
  | unary op e ih =>
    rw [Expr.exec, Option.map_eq_some_iff] at h
    obtain ⟨⟨a, u⟩, ha, heq⟩ := h
    cases heq
    have hclimb := (ih ha).wrap (by have := e.level_pos; omega) 14
    have hstart := e.startsOperand.wrap 14 e.level
    have htype : op.type.spelling ≠ [] := by cases op <;> decide
    have hlen := length_spelling htype
    intro m rest n hm hmp hrest hn
    simp only [Expr.text, List.length_append] at hn
    obtain ⟨n, rfl⟩ : ∃ k, n = k + 1 := ⟨n - 1, by omega⟩
    have hprec := getPrecedence_le (getToken rest).1.type
    have hinner := hclimb.parse (m := 14) (n := n) (by decide) (le_refl _) hrest
      (by rw [nextPrecedence]; omega) (by simp only [List.length_append]; omega)
    refine ⟨n, by omega, ?_⟩
    rw [Expr.text, List.append_assoc, parseExpression_unary op (hstart.append rest), hinner]
    rfl
  | binary op a b iha ihb =>
    simp only [Expr.exec, Option.bind_eq_bind, Option.bind_eq_some_iff, Option.pure_def,
      Option.some.injEq, Prod.mk.injEq, Prod.exists] at h
    obtain ⟨left, u, ha, right, w, hb, v', hv, rfl, rfl⟩ := h
    have hprec := op.precedence
    exact Climbs.operator _ (by cases op <;> decide) (by omega) (by cases op <;> rfl)
      ((iha ha).wrap (by have := a.level_pos; omega) _)
      ((ihb hb).wrap (by have := b.level_pos; omega) _) (b.startsOperand.wrap _ _)
      (by cases op <;> simp [BinaryOp.type]) (by cases op <;> simp [BinaryOp.type])
      (Outcome.value?_eq.mp hv)
  | and a b iha ihb =>
    obtain ⟨left, u, right, ha, hleft, hb, rfl⟩ := Expr.exec_and.mp h
    exact Climbs.operator .logicalAnd (by decide) (by decide) rfl
      ((iha ha).wrap (by have := a.level_pos; omega) _)
      ((ihb hb).wrap (by have := b.level_pos; omega) _) (b.startsOperand.wrap _ _)
      (fun h => absurd h (by decide)) (fun _ => hleft) (by simp [applyBinary, hleft])
  | or a b iha ihb =>
    obtain ⟨left, u, right, ha, hleft, hb, rfl⟩ := Expr.exec_or.mp h
    exact Climbs.operator .logicalOr (by decide) (by decide) rfl
      ((iha ha).wrap (by have := a.level_pos; omega) _)
      ((ihb hb).wrap (by have := b.level_pos; omega) _) (b.startsOperand.wrap _ _)
      (fun _ => hleft) (fun h => absurd h (by decide)) (by simp [applyBinary, hleft])
  | cond c a b ihc iha ihb =>
    obtain ⟨value, u, trueValue, w, falseValue, hc, ha, hb, rfl⟩ := Expr.exec_cond.mp h
    exact Climbs.cond ((ihc hc).wrap (by have := c.level_pos; omega) _) (iha ha)
      ((ihb hb).wrap (by have := b.level_pos; omega) _) a.level_pos
  | assign x op e ih =>
    obtain ⟨right, u, hright, hv, rfl⟩ := Expr.exec_assign.mp h
    exact Climbs.assign x op (ih hright) e.level_pos e.startsOperand hv

end Migash.Arithmetic
