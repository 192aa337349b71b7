import Migash.Arithmetic.Parse

/-! # What the evaluator accepts

The grammar of arithmetic expressions, over the kinds of tokens. Precedences say
how an expression is grouped and not whether it is one, so they are left out.
Two texts are accepted that the grammar does not derive: one with a character
that starts no token, which counts as the end, and one in which nothing that
could be an operand stands behind an `&&` or `||` that needs none.
-/

namespace Migash.Arithmetic

open Exec (Shell)
open Library

variable {δ W : Type}

/-! ## The grammar -/

/-- The text consists of these tokens, and every character of it belongs to one or is a space. -/
inductive Lexes : List Char → List MathTokenType → Prop
  | nil {text : List Char} (h : text.dropWhile isspace = []) : Lexes text []
  | cons {text : List Char} {types : List MathTokenType} (h : (getToken text).1.type ≠ .eof)
      (hrest : Lexes (getToken text).2 types) : Lexes text ((getToken text).1.type :: types)

/-- An operator between two operands. -/
def isBinary (type : MathTokenType) : Bool := 0 ≤ getPrecedence type && type ≠ .question

inductive Derives : List MathTokenType → Prop
  | number : Derives [.number]
  | name : Derives [.variable]
  | paren {e : List MathTokenType} (h : Derives e) : Derives (.lparen :: (e ++ [.rparen]))
  | unary {op : MathTokenType} {e : List MathTokenType} (hop : isUnary op = true)
      (h : Derives e) : Derives (op :: e)
  | binary {op : MathTokenType} {a b : List MathTokenType} (hop : isBinary op = true)
      (ha : Derives a) (hb : Derives b) : Derives (a ++ op :: b)
  | cond {c a b : List MathTokenType} (hc : Derives c) (ha : Derives a) (hb : Derives b) :
      Derives (c ++ .question :: (a ++ .colon :: b))
  | assign {op : MathTokenType} {e : List MathTokenType} (hop : isAssignment op = true)
      (h : Derives e) : Derives (.variable :: op :: e)

/-- The text is an expression. -/
def Derivable (text : List Char) : Prop := ∃ types, Lexes text types ∧ Derives types

/-- `arithmetic_evaluate` reads the text to what it takes for the end, without an error. -/
def Accepted (s : MathParser δ W) : Prop := ∃ n v t, evaluateText n s = .ok v t

/-! ## Operands -/

def isLogical (type : MathTokenType) : Bool := type = .logicalAnd || type = .logicalOr

/-- The token can be the first of an operand. -/
def startsOperand (type : MathTokenType) : Bool :=
  type = .number || type = .variable || type = .lparen || isUnary type

/-- Behind every `&&` and `||` stands a token that can start an operand. -/
def Followed : List MathTokenType → Prop
  | [] => True
  | type :: types =>
    (isLogical type = true → types.head?.any startsOperand = true) ∧ Followed types

/-- The text consists of tokens, and behind every `&&` and `||` stands one that can start an
operand. -/
def Joined (text : List Char) : Prop := ∃ types, Lexes text types ∧ Followed types

section

variable {xs ys ts : List MathTokenType} {op : MathTokenType}

theorem Followed.suffix (h : Followed (xs ++ ts)) : Followed ts := by
  induction xs with
  | nil => exact h
  | cons x xs ih => exact ih h.2

theorem Followed.append (hxs : Followed xs) (hys : Followed ys) : Followed (xs ++ ys) := by
  induction xs with
  | nil => exact hys
  | cons x xs ih =>
    refine ⟨fun hlogical => ?_, ih hxs.2⟩
    have hhead := hxs.1 hlogical
    cases xs with
    | nil => cases hhead
    | cons y xs => exact hhead

theorem Followed.cons (hop : isLogical op = false) (h : Followed ts) : Followed (op :: ts) :=
  ⟨fun hlogical => absurd (hop.symm.trans hlogical) (by decide), h⟩

theorem isLogical_of_isUnary (h : isUnary op = true) : isLogical op = false := by
  cases op <;> first | rfl | cases h

theorem isLogical_of_isAssignment (h : isAssignment op = true) : isLogical op = false := by
  cases op <;> first | rfl | cases h

theorem Derives.starts (h : Derives xs) : ∃ t rest, xs = t :: rest ∧ startsOperand t = true := by
  induction h with
  | number => exact ⟨_, _, rfl, rfl⟩
  | name => exact ⟨_, _, rfl, rfl⟩
  | paren _ _ => exact ⟨_, _, rfl, rfl⟩
  | unary hop _ _ => exact ⟨_, _, rfl, by simp [startsOperand, hop]⟩
  | binary _ _ _ iha _ =>
    obtain ⟨t, rest, rfl, ht⟩ := iha
    exact ⟨t, _, rfl, ht⟩
  | cond _ _ _ ihc _ _ =>
    obtain ⟨t, rest, rfl, ht⟩ := ihc
    exact ⟨t, _, rfl, ht⟩
  | assign _ _ _ => exact ⟨_, _, rfl, rfl⟩

theorem Derives.followed (h : Derives xs) : Followed xs := by
  induction h with
  | number => exact .cons rfl trivial
  | name => exact .cons rfl trivial
  | paren _ ih => exact .cons rfl (ih.append (.cons rfl trivial))
  | unary hop _ ih => exact .cons (isLogical_of_isUnary hop) ih
  | binary _ _ hb iha ihb =>
    obtain ⟨t, rest, rfl, ht⟩ := hb.starts
    exact iha.append ⟨fun _ => ht, ihb⟩
  | cond _ _ _ ihc iha ihb => exact ihc.append (.cons rfl (iha.append (.cons rfl ihb)))
  | assign hop _ ih => exact .cons rfl (.cons (isLogical_of_isAssignment hop) ih)

/-! ## What has been read -/

/-- An expression, or one with an `&&` or `||` behind it whose operand is left out. -/
def Part (xs : List MathTokenType) : Prop :=
  Derives xs ∨ ∃ as op, xs = as ++ [op] ∧ isLogical op = true ∧ Derives as

/-- Where no operand can start, nothing is left out. -/
theorem Part.complete (h : Part xs) (hfollowed : Followed (xs ++ ts))
    (hts : ts.head?.any startsOperand = false) : Derives xs := by
  rcases h with h | ⟨as, op, rfl, hop, -⟩
  · exact h
  · rw [List.append_assoc] at hfollowed
    have hhead : ts.head?.any startsOperand = true := hfollowed.suffix.1 hop
    rw [hts] at hhead
    cases hhead

theorem Part.unary (hop : isUnary op = true) (h : Part xs) : Part (op :: xs) := by
  rcases h with h | ⟨as, o, rfl, ho, has⟩
  · exact .inl (.unary hop h)
  · exact .inr ⟨op :: as, o, rfl, ho, .unary hop has⟩

theorem Part.assign (hop : isAssignment op = true) (h : Part xs) :
    Part (.variable :: op :: xs) := by
  rcases h with h | ⟨as, o, rfl, ho, has⟩
  · exact .inl (.assign hop h)
  · exact .inr ⟨.variable :: op :: as, o, rfl, ho, .assign hop has⟩

theorem Derives.operator (hxs : Derives xs) (hop : isBinary op = true) (hys : Part ys) :
    Part (xs ++ op :: ys) := by
  rcases hys with hys | ⟨as, o, rfl, ho, has⟩
  · exact .inl (.binary hop hxs hys)
  · exact .inr ⟨xs ++ op :: as, o, by simp, ho, .binary hop hxs has⟩

theorem Derives.branches (hxs : Derives xs) {a : List MathTokenType} (ha : Derives a)
    (hys : Part ys) : Part (xs ++ .question :: (a ++ .colon :: ys)) := by
  rcases hys with hys | ⟨as, o, rfl, ho, has⟩
  · exact .inl (.cond hxs ha hys)
  · exact .inr ⟨xs ++ .question :: (a ++ .colon :: as), o, by simp, ho, .cond hxs ha has⟩

/-- A sign behind an operator whose operand is left out starts the operand. -/
theorem Part.operator (hxs : Part xs) (hop : isBinary op = true)
    (hfollowed : Followed (xs ++ op :: ts)) (hys : Part ys) : Part (xs ++ op :: ys) := by
  rcases hxs with hxs | ⟨as, o, rfl, ho, has⟩
  · exact hxs.operator hop hys
  · rw [List.append_assoc] at hfollowed ⊢
    have hstarts : startsOperand op = true := hfollowed.suffix.1 ho
    have hsign : isUnary op = true := by
      cases op <;> first
        | rfl
        | exact absurd hstarts (by decide)
        | exact absurd hop (by decide)
    have hbinary : isBinary o = true := by
      cases o <;> first | rfl | cases ho
    exact has.operator hbinary (hys.unary hsign)

/-- Of the tokens, the parser has read some that go on with `xs`. -/
def Leaves (xs ts : List MathTokenType) (t : MathParser δ W) : Prop :=
  ∃ ys rest, ts = ys ++ rest ∧ Lexes t.text rest ∧ Part (xs ++ ys)

theorem Leaves.append {t : MathParser δ W} (h : Leaves (xs ++ ys) ts t) : Leaves xs (ys ++ ts) t := by
  obtain ⟨zs, rest, rfl, hlexes, hpart⟩ := h
  exact ⟨ys ++ zs, rest, (List.append_assoc ..).symm, hlexes, by rwa [← List.append_assoc]⟩

theorem Lexes.next {text : List Char} (h : Lexes text ts) {type : MathTokenType}
    (htype : (getToken text).1.type = type) (hne : type ≠ .eof) :
    ∃ rest, ts = type :: rest ∧ Lexes (getToken text).2 rest := by
  subst htype
  cases h with
  | nil hspace =>
    have heof : (getToken text).1.type = .eof := by rw [getToken, hspace]
    exact absurd heof hne
  | cons _ hrest => exact ⟨_, rfl, hrest⟩

theorem Lexes.eof {text : List Char} (h : Lexes text ts) (heof : (getToken text).1.type = .eof) :
    ts = [] := by
  cases h with
  | nil _ => rfl
  | cons hne _ => exact absurd heof hne

end

/-! ## Reading -/

theorem isBinary_of_le {op : MathTokenType} {m : ℤ} (hm : 0 ≤ m) (hprec : ¬ getPrecedence op < m)
    (hquestion : op ≠ .question) : isBinary op = true := by
  rw [isBinary, Bool.and_eq_true, decide_eq_true_eq, decide_eq_true_eq]
  exact ⟨by omega, hquestion⟩

theorem reply_eq_ok {o : Outcome} {v : ℤ} {s t : MathParser δ W} (h : o.reply s = .ok v t) :
    o = .value v ∧ s = t := by
  cases o <;> cases h
  exact ⟨rfl, rfl⟩

variable (δ W) in
/-- What the readers of one level have read is a part of an expression. -/
structure ReadersLeave (n : ℕ) : Prop where
  expression : ∀ m (s t : MathParser δ W) v ts, 0 ≤ m → parseExpression n m s = .ok v t →
    Lexes s.text ts → Followed ts → Leaves [] ts t
  operators : ∀ m left (s t : MathParser δ W) v xs ts, 0 ≤ m →
    parseOperators n m left s = .ok v t → Part xs → Lexes s.text ts → Followed (xs ++ ts) →
    Leaves xs ts t
  primary : ∀ (s t : MathParser δ W) v ts, parsePrimary n s = .ok v t → Lexes s.text ts →
    Followed ts → Leaves [] ts t

namespace ReadersLeave

variable {n : ℕ} {m v left : ℤ} {s t : MathParser δ W} {xs ts : List MathTokenType}

theorem parseExpression_succ (below : ReadersLeave δ W n) (hm : 0 ≤ m)
    (h : parseExpression (n + 1) m s = .ok v t) (hlexes : Lexes s.text ts)
    (hfollowed : Followed ts) : Leaves [] ts t := by
  rw [parseExpression] at h
  obtain ⟨left, u, hleft, h⟩ := Reply.bind_eq_ok.mp h
  change (if isUnary s.next.1.type = true then _ else _) = _ at hleft
  generalize htype : s.next.1.type = type at hleft
  have hread : Leaves [] ts u := by
    split_ifs at hleft with hunary
    · obtain ⟨value, w, hoperand, hok⟩ := Reply.bind_eq_ok.mp hleft
      cases hok
      obtain ⟨rest, rfl, hrest⟩ := hlexes.next htype (by rintro rfl; cases hunary)
      obtain ⟨ys, rest', rfl, hlexes', hpart⟩ :=
        below.expression 14 _ _ _ rest (by decide) hoperand hrest hfollowed.2
      exact ⟨type :: ys, rest', rfl, hlexes', hpart.unary hunary⟩
    · exact below.primary s u left ts hleft hlexes hfollowed
  obtain ⟨ys, rest, rfl, hlexes', hpart⟩ := hread
  have hleaves : Leaves ([] ++ ys) rest t :=
    below.operators m left u t v ys rest hm h hpart hlexes' hfollowed
  exact hleaves.append

theorem parseOperators_succ (below : ReadersLeave δ W n) (hm : 0 ≤ m)
    (h : parseOperators (n + 1) m left s = .ok v t) (hxs : Part xs) (hlexes : Lexes s.text ts)
    (hfollowed : Followed (xs ++ ts)) : Leaves xs ts t := by
  rw [parseOperators] at h
  dsimp only at h
  generalize htype : s.next.1.type = type at h
  by_cases hprec : getPrecedence type < m
  · rw [if_pos hprec] at h
    cases h
    exact ⟨[], ts, rfl, hlexes, by simpa using hxs⟩
  rw [if_neg hprec] at h
  have hpos : 0 ≤ getPrecedence type := by omega
  have hne : type ≠ .eof := by
    rintro rfl
    exact absurd hpos (by decide)
  obtain ⟨rest, rfl, hrest⟩ := hlexes.next htype hne
  generalize hk : (if isRightAssociative type then getPrecedence type
    else getPrecedence type + 1) = k at h
  have hmin : 0 ≤ k := by
    rw [← hk]
    split_ifs <;> omega
  -- an operand behind the operator, and the loop behind it
  have hoperand {value left' : ℤ} {u : MathParser δ W} (hquestion : type ≠ .question)
      (hvalue : parseExpression n k s.next.2 = .ok value u)
      (hloop : parseOperators n m left' u = .ok v t) : Leaves xs (type :: rest) t := by
    obtain ⟨ys, rest', rfl, hlexes', hys⟩ :=
      below.expression k _ _ _ rest hmin hvalue hrest hfollowed.suffix.2
    have hpart := hxs.operator (isBinary_of_le hm hprec hquestion) hfollowed hys
    have hleaves : Leaves (xs ++ type :: ys) rest' t :=
      below.operators m left' u t v _ rest' hm hloop hpart hlexes' (by simpa using hfollowed)
    exact hleaves.append
  by_cases hcomma : type = .comma
  · rw [if_pos hcomma] at h
    obtain ⟨value, u, hvalue, hloop⟩ := Reply.bind_eq_ok.mp h
    exact hoperand (by rw [hcomma]; decide) hvalue hloop
  rw [if_neg hcomma] at h
  by_cases hquestion : type = .question
  · subst hquestion
    rw [if_pos rfl] at h
    obtain ⟨trueValue, u, htrue, h⟩ := Reply.bind_eq_ok.mp h
    by_cases hcolon : u.next.1.type = .colon
    · rw [if_neg (not_not.mpr hcolon)] at h
      obtain ⟨falseValue, w, hfalse, hloop⟩ := Reply.bind_eq_ok.mp h
      obtain ⟨ys, rest', rfl, hlexes', hys⟩ :=
        below.expression 0 _ _ _ rest (Int.le_refl _) htrue hrest hfollowed.suffix.2
      obtain ⟨rest', rfl, hrest'⟩ := hlexes'.next hcolon (by decide)
      have hbranches := hfollowed.suffix.2
      obtain ⟨zs, rest'', rfl, hlexes'', hzs⟩ :=
        below.expression _ _ _ _ rest' hpos hfalse hrest' hbranches.suffix.2
      have hpart := (hxs.complete hfollowed rfl).branches (hys.complete hbranches rfl) hzs
      have hleaves := below.operators m _ w t v _ rest'' hm hloop hpart hlexes''
        (by simpa using hfollowed)
      simpa using hleaves.append
    · rw [if_pos hcolon] at h
      cases h
  rw [if_neg hquestion] at h
  have hskip (hlogical : isLogical type = true) (hstarts : startsOperand type = false)
      (hok : (.ok left s.next.2 : Result δ W) = .ok v t) : Leaves xs (type :: rest) t := by
    cases hok
    have hderives := hxs.complete hfollowed hstarts
    exact ⟨[type], rest, rfl, hrest, .inr ⟨xs, type, rfl, hlogical, hderives⟩⟩
  split_ifs at h with hor hand
  · exact hskip (by rw [hor.1]; rfl) (by rw [hor.1]; rfl) h
  · exact hskip (by rw [hand.1]; rfl) (by rw [hand.1]; rfl) h
  · obtain ⟨right, u, hright, happly⟩ := Reply.bind_eq_ok.mp h
    obtain ⟨value, w, hvalue, hloop⟩ := Reply.bind_eq_ok.mp happly
    obtain ⟨-, rfl⟩ := reply_eq_ok hvalue
    exact hoperand hquestion hright hloop

theorem parsePrimary_succ (below : ReadersLeave δ W n) (h : parsePrimary (n + 1) s = .ok v t)
    (hlexes : Lexes s.text ts) (hfollowed : Followed ts) : Leaves [] ts t := by
  rw [parsePrimary] at h
  dsimp only at h
  generalize htype : s.next.1.type = type at h
  cases type with
  | number =>
    cases h
    obtain ⟨rest, rfl, hrest⟩ := hlexes.next htype (by decide)
    exact ⟨[.number], rest, rfl, hrest, .inl .number⟩
  | «variable» =>
    obtain ⟨rest, rfl, hrest⟩ := hlexes.next htype (by decide)
    dsimp only at h
    generalize hop : s.next.2.next.1.type = op at h
    split_ifs at h with hassign
    · obtain ⟨right, u, hright, h⟩ := Reply.bind_eq_ok.mp h
      obtain ⟨value, w, hvalue, hok⟩ := Reply.bind_eq_ok.mp h
      obtain ⟨-, rfl⟩ := reply_eq_ok hvalue
      cases hok
      obtain ⟨rest, rfl, hrest'⟩ := hrest.next hop (by rintro rfl; cases hassign)
      obtain ⟨ys, rest', rfl, hlexes', hys⟩ :=
        below.expression 0 _ _ _ rest (Int.le_refl _) hright hrest' hfollowed.2.2
      exact ⟨.variable :: op :: ys, rest', rfl, hlexes', hys.assign hassign⟩
    · cases h
      exact ⟨[.variable], rest, rfl, hrest, .inl .name⟩
  | lparen =>
    obtain ⟨rest, rfl, hrest⟩ := hlexes.next htype (by decide)
    obtain ⟨value, u, hvalue, h⟩ := Reply.bind_eq_ok.mp h
    by_cases hparen : u.next.1.type = .rparen
    · rw [if_neg (not_not.mpr hparen)] at h
      cases h
      obtain ⟨ys, rest', rfl, hlexes', hys⟩ :=
        below.expression 0 _ _ _ rest (Int.le_refl _) hvalue hrest hfollowed.2
      obtain ⟨rest', rfl, hrest'⟩ := hlexes'.next hparen (by decide)
      have hderives : Derives ys := hys.complete hfollowed.2 rfl
      refine ⟨MathTokenType.lparen :: (ys ++ [MathTokenType.rparen]), rest', ?_, hrest', ?_⟩
      · simp
      · exact .inl (.paren hderives)
    · rw [if_pos hparen] at h
      cases h
  | _ => cases h

end ReadersLeave

theorem readersLeave (n : ℕ) : ReadersLeave δ W n := by
  induction n with
  | zero =>
    refine ⟨?_, ?_, ?_⟩
    · rintro m s t v ts - ⟨⟩
    · rintro m left s t v xs ts - ⟨⟩
    · rintro s t v ts ⟨⟩
  | succ n ih =>
    exact
      { expression := fun m s t v ts hm h => ih.parseExpression_succ hm h
        operators := fun m left s t v xs ts hm h => ih.parseOperators_succ hm h
        primary := fun s t v ts h => ih.parsePrimary_succ h }

/-! ## Acceptance -/

/-- An accepted text is an expression if and only if it consists of tokens to its end and behind
each `&&` and `||` stands a token that can start an operand. -/
theorem derivable_iff_joined {s : MathParser δ W} (h : Accepted s) :
    Derivable s.text ↔ Joined s.text := by
  obtain ⟨n, v, t, h⟩ := h
  obtain ⟨value, u, hparse, h⟩ := Reply.bind_eq_ok.mp h
  constructor
  · rintro ⟨types, hlexes, hderives⟩
    exact ⟨types, hlexes, hderives.followed⟩
  · rintro ⟨types, hlexes, hfollowed⟩
    obtain ⟨xs, rest, rfl, hrest, hpart⟩ :=
      (readersLeave n).expression 0 _ _ _ _ (Int.le_refl _) hparse hlexes hfollowed
    have heof : u.next.1.type = .eof := by
      by_contra hne
      rw [if_pos hne] at h
      cases h
    obtain rfl := hrest.eof heof
    exact ⟨_, hlexes, by simpa using hpart.complete hfollowed rfl⟩

/-- `0` -/
theorem derivable_zero : Derivable ['0'] := by
  have haccepted : Accepted ⟨['0'], Shell.initial (δ := Unit) ()⟩ :=
    ⟨3, 0, ⟨[], Shell.initial ()⟩, rfl⟩
  have hlexes : Lexes ['0'] [.number] := .cons (by decide) (.nil rfl)
  exact (derivable_iff_joined haccepted).mpr ⟨_, hlexes, .cons rfl trivial⟩

/-- `0@` -/
theorem accepted_stray : Accepted ⟨['0', '@'], Shell.initial (δ := Unit) ()⟩ ∧
    ¬ Derivable ['0', '@'] := by
  refine ⟨⟨3, 0, ⟨['@'], Shell.initial ()⟩, rfl⟩, ?_⟩
  rintro ⟨types, hlexes, -⟩
  obtain ⟨rest, rfl, hrest⟩ : ∃ rest, types = .number :: rest ∧ Lexes ['@'] rest :=
    hlexes.next rfl (by decide)
  cases hrest with
  | nil hspace => exact absurd hspace (by decide)
  | cons hne _ => exact hne rfl

end Migash.Arithmetic
