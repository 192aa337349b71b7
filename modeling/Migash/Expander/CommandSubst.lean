import Mathlib.Data.List.DropRight
import Migash.Expander.Words
import Migash.Lexer.Escapes
import Migash.Lexer.Tokenize

/-! # Command substitutions

The lexer records the text of a command substitution, and the expander runs what
it finds in the nested tokens of the part, where nobody ever puts any.
-/

namespace Migash.Expander

open Exec (Shell)
open Lexer
open Library

variable {δ W : Type}

/-! ## What the expander runs -/

/-- `part_get_nested`: the constructors of parts leave the field NULL, `part_clone` copies it, and
nothing else writes to it. -/
def partGetNested (_part : Part) : Option (List Token) := none

/-- The command of a substitution as `expand_part` puts it together, with `token_to_string`. -/
def substCommand (tokenToString : Token → String) (nested : Option (List Token)) : String :=
  " ".intercalate ((nested.getD []).map tokenToString)

/-- `strip_trailing_newlines`. -/
def stripTrailingNewlines (text : List Char) : List Char :=
  text.rdropWhile fun c => c = newline ∨ c = '\r'

/-- `popen` with the loop that reads the output: the output, the exit status, and the world. NULL
where no process could be started. -/
abbrev Popen (W : Type) := String → W → Option (List Char × ℤ) × W

/-- `expand_command_subst`. -/
def expandCommandSubst (popen : Popen W) (command : String) : ExpandM δ W String := do
  if command = "" then
    modify fun s => s.setLastExitStatus 0
    return ""
  let s ← get
  match popen command s.world with
  | (none, world) =>
    set { s.setLastExitStatus 1 with world := world }
    return ""
  | (some (output, status), world) =>
    set { s.setLastExitStatus status with world := world }
    return String.ofList (stripTrailingNewlines output)

/-- Whatever is recorded in the part, the empty command is run. -/
theorem expandPart_commandSubst (env : Env δ W) (popen : Popen W) (tokenToString : Token → String)
    {part : Part} (h : part.type = .commandSubst) :
    expandPart env part =
      expandCommandSubst popen (substCommand tokenToString (partGetNested part)) := by
  unfold expandPart
  rw [h]
  rfl

/-! ## Substitutions in the text -/

/-- The two ways to write a command substitution. -/
inductive SubstForm where
  | parentheses | backquotes
  deriving DecidableEq, Repr

/-- The command `t` as a substitution. Between backquotes a `$`, a backquote and a backslash are
escaped. -/
def SubstForm.source : SubstForm → List Char → List Char
  | parentheses, t => '$' :: '(' :: t ++ [')']
  | backquotes, t => backtick :: escapeDocument t ++ [backtick]

/-- The substitution is read as one word, and the word expands to the output of the command `t`
without the newlines at its end, in the world that the command leaves. -/
def Substitutes (env : Env δ W) (run : List Char → W → List Char × W) (s : Shell δ W)
    (form : SubstForm) (t : List Char) : Prop :=
  ∃ n lx tok u, lexerTokenize n (lexerCreateWithInput (form.source t)) = .ok (.ok, lx, [tok]) ∧
    (expandWordNosplit env tok).run s =
      .ok (some (String.ofList ((run t s.world).1.rdropWhile (· = newline))), u) ∧
    u.world = (run t s.world).2

end Migash.Expander
