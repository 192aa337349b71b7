import Migash.Expander.Words
import Migash.Lexer.Tokenize

/-! # Parameters

What the expander makes of `"$@"` and of the modifiers with a word, from the
text of the word on.
-/

namespace Migash.Expander

open Exec (Shell PositionalParams)
open Library Lexer

variable {δ W : Type} (env : Env δ W)

/-! ## All positional parameters -/

/-- The text `"$@"`. -/
def quotedAt : List Char := [dquote, '$', '@', dquote]

def quotedAtPart : Part :=
  { type := .parameter, paramName := some "@", wasDoubleQuoted := true }

/-- The word that the lexer makes of it. -/
def quotedAtWord : Token where
  type := .word
  firstLine := 1
  firstColumn := 2
  parts := [quotedAtPart]
  needsExpansion := true
  wasQuoted := true

theorem lexerTokenize_quotedAt :
    ∃ lx, lexerTokenize 20 (lexerCreateWithInput quotedAt) = .ok (.ok, lx, [quotedAtWord]) :=
  ⟨_, rfl⟩

/-- `"$@"` expands to one field, the parameters with blanks between them. -/
theorem expandWords_quotedAt {s : Shell δ W} {params : PositionalParams}
    (h : s.frame.positionalParams = some params) :
    (expandWords env [quotedAtWord]).run s =
      .ok ([positionalParamsGetAllJoined params ' '], s) := by
  have hvalue : getParameterValue env s "@" = some (positionalParamsGetAllJoined params ' ') := by
    simp [getParameterValue, expandSpecialParam, specialParam?, h]
  have hpart : (expandPart env quotedAtPart).run s =
      .ok (positionalParamsGetAllJoined params ' ', s) := by
    change (expandParameterWithModifier env quotedAtPart).run s = _
    rw [expandParameterWithModifier, Stateful.run_bind_ok (Stateful.run_get_eq s)]
    simp only [quotedAtPart, Option.getD_some, hvalue]
    rfl
  have hparts : (expandParts env quotedAtWord.parts).run s =
      .ok ([positionalParamsGetAllJoined params ' '], s) := by
    rw [quotedAtWord, expandParts, Stateful.run_bind_ok hpart]
    rfl
  have hfields : (wordFields env quotedAtWord).run s =
      .ok ([positionalParamsGetAllJoined params ' '], s) := by
    rw [wordFields_expanded env rfl, Stateful.run_bind_ok (expandPartsToString_run env hparts)]
    simp only [quotedAtWord, Bool.false_eq_true, if_false, String.join_cons, String.join_nil,
      String.append_empty]
    rfl
  have hword : (execFrameExpanderExpandWord env quotedAtWord).run s =
      .ok (some [positionalParamsGetAllJoined params ' '], s) := by
    change (wordFields env quotedAtWord >>= _).run s = _
    rw [Stateful.run_bind_ok hfields]
    rfl
  rw [expandWords, Stateful.run_bind_ok hword]
  rfl

/-- `"$@"` expands to the list of the positional parameters exactly if there is one of them. -/
theorem expandWords_quotedAt_iff {s : Shell δ W} {params : PositionalParams}
    (h : s.frame.positionalParams = some params) :
    ∃ lx toks, lexerTokenize 20 (lexerCreateWithInput quotedAt) = .ok (.ok, lx, toks) ∧
      ∃ fields t, (expandWords env toks).run s = .ok (fields, t) ∧
        (fields = params.params ↔ params.params.length = 1) := by
  obtain ⟨lx, hlex⟩ := lexerTokenize_quotedAt
  refine ⟨lx, _, hlex, _, s, expandWords_quotedAt env h, ?_⟩
  constructor
  · intro heq
    rw [← heq]
    rfl
  · intro hone
    obtain ⟨p, hp⟩ := List.length_eq_one_iff.mp hone
    rw [positionalParamsGetAllJoined, hp]
    rfl

theorem expandWords_quotedAt_one :
    ∃ lx toks, lexerTokenize 20 (lexerCreateWithInput quotedAt) = .ok (.ok, lx, toks) ∧
      ∃ fields t, (expandWords (Env.plain Unit Unit) toks).run (shellWith ["a b"]) =
          .ok (fields, t) ∧ (fields = ["a b"] ↔ ["a b"].length = 1) :=
  expandWords_quotedAt_iff (Env.plain Unit Unit) (s := shellWith ["a b"]) rfl

/-- With the parameters `a` and `b`, `"$@"` is the one field `a b`. -/
theorem quotedAt_joins :
    ∃ lx toks, lexerTokenize 20 (lexerCreateWithInput quotedAt) = .ok (.ok, lx, toks) ∧
      (expandWords (Env.plain Unit Unit) toks).run (shellWith ["a", "b"]) =
          .ok (["a b"], shellWith ["a", "b"]) ∧
      ["a b"] ≠ ["a", "b"] := by
  obtain ⟨lx, hlex⟩ := lexerTokenize_quotedAt
  exact ⟨lx, _, hlex, rfl, by decide⟩

end Migash.Expander
