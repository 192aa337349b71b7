import Migash.Gnode
import Migash.Library.Forward
import Mathlib.Data.List.Forall2

/-! # Parser state

The token list, the position in it and the error report of `parser_t`, with the
token access, promotion and error functions. No production ever moves behind
the position it was entered at, and tokens change only by promotion.
-/

namespace Migash

open Library

/-- `parser_t`. The position never passes the end of the token list. -/
structure Parser where
  tokens : List Token
  position : ℕ := 0
  errorMsg : String := ""
  errorLine : ℕ := 0
  errorColumn : ℕ := 0
  bounded : position ≤ tokens.length := by simp

/-- The statuses of `parse_status_t` other than `PARSE_OK`. -/
inductive ParseFailure where
  | error | incomplete | empty
  deriving DecidableEq, Repr

namespace Parser

/-- A later state of the same parse: further on, with some words promoted. -/
structure Ahead (s t : Parser) : Prop where
  position_le : s.position ≤ t.position
  promotes : List.Forall₂ Token.Promotes s.tokens t.tokens

theorem forall₂_promotes_trans {as bs cs : List Token} (hab : List.Forall₂ Token.Promotes as bs)
    (hbc : List.Forall₂ Token.Promotes bs cs) : List.Forall₂ Token.Promotes as cs := by
  induction hab generalizing cs with
  | nil => exact hbc
  | cons h _ ih =>
    cases hbc with
    | cons h' hrest => exact .cons (h.trans h') (ih hrest)

theorem forall₂_promotes_refl (as : List Token) : List.Forall₂ Token.Promotes as as :=
  List.forall₂_same.mpr fun tok _ => Token.Promotes.refl tok

instance : Measured Parser where
  le := Ahead
  le_refl s := ⟨le_refl _, forall₂_promotes_refl _⟩
  le_trans _ _ _ h h' := ⟨h.1.trans h'.1, forall₂_promotes_trans h.2 h'.2⟩
  remaining s := s.tokens.length - s.position
  remaining_anti := by
    intro s t h
    have hlen := h.promotes.length_eq
    have hpos := h.position_le
    omega

theorem remaining_eq (s : Parser) : remaining s = s.tokens.length - s.position := rfl

theorem length_eq_of_le {s t : Parser} (h : s ≤ t) : t.tokens.length = s.tokens.length :=
  h.promotes.length_eq.symm

/-! ## Token access -/

/-- `parser_current_token`. -/
def currentToken? (s : Parser) : Option Token := s.tokens[s.position]?

/-- `parser_current_token_type`. -/
def currentTokenType (s : Parser) : TokenType :=
  match s.currentToken? with
  | some tok => tok.type
  | none => .eof

/-- `parser_at_end`. -/
def atEnd (s : Parser) : Bool := s.currentToken?.isNone

/-- `parser_peek_token`. -/
def peekToken? (s : Parser) (offset : ℕ) : Option Token := s.tokens[s.position + offset]?

/-- `parser_advance`. -/
def advance (s : Parser) : Parser :=
  if h : s.position < s.tokens.length then { s with position := s.position + 1, bounded := h }
  else s

/-- `parser_rewind_to_position`: a position that is not inside the list is refused. -/
def rewindToPosition (s : Parser) (position : ℕ) : Parser :=
  if h : position < s.tokens.length then { s with position := position, bounded := h.le } else s

/-- The loop of `parser_skip_newlines`, at most `n` turns. -/
def skipNewlinesFor : ℕ → Parser → Parser
  | 0, s => s
  | n + 1, s => if s.currentTokenType = .newline then skipNewlinesFor n s.advance else s

/-- `parser_skip_newlines`. -/
def skipNewlines (s : Parser) : Parser := s.skipNewlinesFor (remaining s)

/-- `parser_set_error`: the location is that of the current token, if there is one. -/
def setError (s : Parser) (text : String) : Parser :=
  match s.currentToken? with
  | some tok =>
    { s with errorMsg := text, errorLine := tok.firstLine, errorColumn := tok.firstColumn }
  | none => { s with errorMsg := text }

/-- The `parser_token_try_promote_to_*` functions: the token at an offset is replaced if it is
the target word. -/
def tryPromote (s : Parser) (offset : ℕ) (word : String) (type : TokenType) : Parser :=
  match (s.peekToken? offset).bind (·.tryPromote word type) with
  | some tok =>
    { s with
      tokens := s.tokens.set (s.position + offset) tok
      bounded := by simpa using s.bounded }
  | none => s

/-! ## What each operation leaves behind -/

@[simp] theorem advance_tokens (s : Parser) : s.advance.tokens = s.tokens := by
  unfold advance
  split <;> rfl

theorem advance_position {s : Parser} (h : s.position < s.tokens.length) :
    s.advance.position = s.position + 1 := by simp [advance, h]

theorem currentToken?_isSome_iff (s : Parser) :
    s.currentToken?.isSome ↔ s.position < s.tokens.length := by
  simp [currentToken?]

theorem atEnd_iff (s : Parser) : s.atEnd ↔ s.position = s.tokens.length := by
  have := s.bounded
  simp only [atEnd, currentToken?, Option.isNone_iff_eq_none, List.getElem?_eq_none_iff]
  omega

theorem currentTokenType_of_atEnd {s : Parser} (h : s.atEnd) : s.currentTokenType = .eof := by
  simp only [atEnd, Option.isNone_iff_eq_none] at h
  simp [currentTokenType, h]

/-- A type other than `TOKEN_EOF` belongs to a token of the list. -/
theorem exists_token {s : Parser} (h : s.currentTokenType ≠ .eof) :
    ∃ tok, s.currentToken? = some tok ∧ tok.type = s.currentTokenType := by
  cases hc : s.currentToken? with
  | none => exact absurd (by simp [currentTokenType, hc]) h
  | some tok => exact ⟨tok, rfl, by simp [currentTokenType, hc]⟩

theorem position_lt {s : Parser} (h : s.currentTokenType ≠ .eof) :
    s.position < s.tokens.length := by
  obtain ⟨tok, htok, -⟩ := exists_token h
  exact s.currentToken?_isSome_iff.mp (by simp [htok])

theorem le_advance (s : Parser) : s ≤ s.advance := by
  refine ⟨?_, by rw [advance_tokens]; exact forall₂_promotes_refl _⟩
  by_cases h : s.position < s.tokens.length
  · rw [advance_position h]
    exact Nat.le_succ _
  · simp [advance, h]

theorem le_skipNewlinesFor (n : ℕ) (s : Parser) : s ≤ s.skipNewlinesFor n := by
  induction n generalizing s with
  | zero => exact le_refl s
  | succ n ih =>
    rw [skipNewlinesFor]
    split
    · exact (le_advance s).trans (ih _)
    · exact le_refl s

@[simp] theorem setError_tokens (s : Parser) (text : String) :
    (s.setError text).tokens = s.tokens := by
  unfold setError
  split <;> rfl

@[simp] theorem setError_position (s : Parser) (text : String) :
    (s.setError text).position = s.position := by
  unfold setError
  split <;> rfl

theorem le_setError (s : Parser) (text : String) : s ≤ s.setError text :=
  ⟨by simp, by simpa using forall₂_promotes_refl _⟩

@[simp] theorem tryPromote_position (s : Parser) (offset : ℕ) (word : String)
    (type : TokenType) : (s.tryPromote offset word type).position = s.position := by
  unfold tryPromote
  split <;> rfl

private theorem forall₂_promotes_set {as : List Token} {i : ℕ} {tok tok' : Token}
    (hi : as[i]? = some tok) (h : tok.Promotes tok') :
    List.Forall₂ Token.Promotes as (as.set i tok') := by
  induction as generalizing i with
  | nil => simp at hi
  | cons a as ih =>
    cases i with
    | zero =>
      obtain rfl : a = tok := by simpa using hi
      exact .cons h (forall₂_promotes_refl as)
    | succ i => exact .cons (Token.Promotes.refl a) (ih (by simpa using hi))

theorem le_tryPromote (s : Parser) (offset : ℕ) (word : String) {type : TokenType}
    (hr : type.IsReserved) : s ≤ s.tryPromote offset word type := by
  unfold tryPromote
  split
  · next tok' h =>
    obtain ⟨tok, htok, hp⟩ := Option.bind_eq_some_iff.mp h
    refine ⟨le_refl _, forall₂_promotes_set htok ?_⟩
    unfold Token.tryPromote at hp
    split at hp
    · next hw =>
      obtain rfl := Option.some.inj hp
      exact .inr ⟨hw.1, hr⟩
    · simp at hp
  · exact le_refl s

/-- Rewinding to the position a computation was entered at does not undo more than it did. -/
theorem le_rewindToPosition {s t : Parser} (h : s ≤ t) :
    s ≤ t.rewindToPosition s.position := by
  unfold rewindToPosition
  split
  · exact ⟨le_refl _, h.promotes⟩
  · exact h

end Parser

end Migash
