import Migash.Exec.State
import Migash.Expander.FieldSplit
import Migash.Lexer.State
import Migash.Numeric

/-! # Word expansion

`exec_frame_expander_expand_word` and what it calls: parameters with their
modifiers, the parts of a word, field splitting and pathname expansion. No part
has nested tokens, so a command substitution always runs the empty command.
-/

namespace Migash.Expander

open Exec (Shell PositionalParams)
open Library

/-- What the expander uses of the rest of the program and of the system. -/
structure Env (δ W : Type) where
  getenv : String → Option String
  /-- `expand_arithmetic` -/
  arithmetic : String → Shell δ W → String × Shell δ W
  /-- `expand_tilde`, NULL for an unknown user -/
  tilde : String → Shell δ W → Option String
  /-- the functions that remove a prefix or a suffix -/
  removePattern : ParamSubtype → String → String → String
  /-- `glob_util_expand_path`, which has no matches where it gives NULL -/
  expandPath : String → List String

/-- A computation of the expander. -/
abbrev ExpandM (δ W α : Type) := Stateful (Shell δ W) Fault α

variable {δ W : Type} (env : Env δ W)

/-! ## Parameters -/

/-- `exec_frame_get_variable`. -/
def execFrameGetVariable (s : Shell δ W) (name : String) : Option String :=
  match s.frame.localVariables.bind fun store => store.getValue name with
  | some value => some value
  | none => s.variables_.getValue name

/-- `positional_params_get_all_joined`. -/
def positionalParamsGetAllJoined (params : PositionalParams) (sep : Char) : String :=
  (String.singleton sep).intercalate params.params

/-- The single characters of `expand_special_param`. -/
def specialParam? (s : Shell δ W) (c : Char) : Option String :=
  let params := s.frame.positionalParams
  match c with
  | '?' => some (toString s.frame.lastExitStatus)
  | '$' => some (toString (s.shellPid.getD 0))
  | '!' => some (toString s.frame.lastBgPid)
  | '#' => some (toString ((params.map fun p => p.params.length).getD 0))
  | '@' | '*' => some ((params.map fun p => positionalParamsGetAllJoined p ' ').getD "")
  | '-' => some ""
  | '0' => some ((params.bind PositionalParams.arg0).getD "miga")
  | _ => none

/-- `positional_params_get`. A number below 1, which the contract of the source rules out, is that of
no parameter. -/
def positionalParamsGet (params : PositionalParams) (n : ℤ) : Option String :=
  if n < 1 then none else params.params[n.toNat - 1]?

/-- The numbers of `expand_special_param`, which become an `int`. A positional parameter that is not
there is empty. -/
def positionalParam? (s : Shell δ W) (name : String) : Option String :=
  match strtol name.toList with
  | (n, []) =>
    if n < 0 then none
    else
      match s.frame.positionalParams with
      | none => some ""
      | some params =>
        if n = 0 then some (params.arg0.getD "")
        else some ((positionalParamsGet params (Int.bmod n 4294967296)).getD "")
  | _ => none

/-- `expand_special_param`. -/
def expandSpecialParam (s : Shell δ W) (name : String) : Option String :=
  match name.toList with
  | [] => none
  | [c] => (specialParam? s c).or (positionalParam? s name)
  | _ => positionalParam? s name

/-- `get_parameter_value`. -/
def getParameterValue (s : Shell δ W) (name : String) : Option String :=
  if name = "" then none
  else ((expandSpecialParam s name).or (execFrameGetVariable s name)).or (env.getenv name)

/-- `set_parameter_value`. -/
def setParameterValue (name value : String) : ExpandM δ W Unit :=
  modify fun s => s.writeVar { name, value, arithmetic := false }

/-- `get_ifs`. -/
def getIfs (s : Shell δ W) : List Char :=
  ((execFrameGetVariable s "IFS").or (env.getenv "IFS")).elim [' ', '\t', '\n'] String.toList

/-- `expand_parameter_with_modifier`. The colon of a modifier makes no difference. -/
def expandParameterWithModifier (part : Part) : ExpandM δ W String := do
  let s ← get
  let v := getParameterValue env s (part.paramName.getD "")
  let isNull := v = none ∨ v = some ""
  let word := part.word.getD ""
  match part.paramKind with
  | .plain => return v.getD ""
  | .length => return (v.map fun v => toString v.utf8ByteSize).getD "0"
  | .useDefault => return if isNull then word else v.getD ""
  | .assignDefault =>
    if isNull then
      if part.word.isSome then setParameterValue (part.paramName.getD "") word
      return word
    else return v.getD ""
  | .errorIfUnset =>
    if isNull then
      modify fun s => s.setLastExitStatus 1
      return ""
    else return v.getD ""
  | .useAlternate => return if isNull then "" else word
  | .indirect => return (v.bind (getParameterValue env s)).getD ""
  | kind => return (v.map fun v => if word = "" then v else env.removePattern kind v word).getD ""

/-! ## Words -/

/-- `expand_part`. -/
def expandPart (part : Part) : ExpandM δ W String := do
  match part.type with
  | .literal => return part.text.getD ""
  | .parameter => expandParameterWithModifier env part
  | .commandSubst =>
    modify fun s => s.setLastExitStatus 0
    return ""
  | .arithmetic =>
    let (value, s) := env.arithmetic (part.text.getD "") (← get)
    set s
    return value
  | .tilde => return (env.tilde (part.text.getD "") (← get)).getD ""

/-- The texts that `expand_parts_to_string` puts together. -/
def expandParts : List Part → ExpandM δ W (List String)
  | [] => return []
  | part :: parts => do
    let text ← expandPart env part
    return text :: (← expandParts parts)

/-- `expand_parts_to_string`. -/
def expandPartsToString (parts : List Part) : ExpandM δ W String :=
  String.join <$> expandParts env parts

/-- `expand_field_split`. -/
def fieldSplit (text : String) : ExpandM δ W (List String) := do
  match expandFieldSplit (getIfs env (← get)) text.toList with
  | .ok fields => return fields.map String.ofList
  | .error e => throw e

/-- The fields of a word before pathname expansion. -/
def wordFields (tok : Token) : ExpandM δ W (List String) := do
  if !tok.needsExpansion && !tok.needsFieldSplitting && !tok.needsPathnameExpansion then
    return [tok.getAllText]
  let expanded ← expandPartsToString env tok.parts
  if tok.needsFieldSplitting then fieldSplit env expanded
  else return [expanded]

/-- `expand_pathname`. -/
def expandPathname (pattern : String) : List String :=
  match env.expandPath pattern with
  | [] => [pattern]
  | files => files

/-- `exec_frame_expander_expand_word`. -/
def execFrameExpanderExpandWord (tok : Token) : ExpandM δ W (Option (List String)) := do
  if tok.type ≠ .word then return none
  let fields ← wordFields env tok
  if tok.needsPathnameExpansion then return some (fields.flatMap (expandPathname env))
  else return some fields

/-- `expand_word_nosplit`. -/
def expandWordNosplit (tok : Token) : ExpandM δ W (Option String) := do
  if tok.type ≠ .word then return none
  if !tok.needsExpansion then return some tok.getAllText
  return some (← expandPartsToString env tok.parts)

/-- `expand_words`. -/
def expandWords : List Token → ExpandM δ W (List String)
  | [] => return []
  | tok :: toks => do
    let fields ← execFrameExpanderExpandWord env tok
    return fields.getD [] ++ (← expandWords toks)

/-! ## Runs -/

theorem fieldSplit_run (text : String) (s : Shell δ W) :
    (fieldSplit env text).run s =
      .ok ((fieldsOf (role (getIfs env s)) .begin text.toList).map String.ofList, s) := by
  rw [fieldSplit, Stateful.run_bind_ok (Stateful.run_get_eq s), expandFieldSplit_eq]
  rfl

theorem wordFields_expanded {tok : Token}
    (h : (!tok.needsExpansion && !tok.needsFieldSplitting && !tok.needsPathnameExpansion) = false) :
    wordFields env tok = expandPartsToString env tok.parts >>= fun expanded =>
      if tok.needsFieldSplitting then fieldSplit env expanded else pure [expanded] := by
  unfold wordFields
  rw [h]
  rfl

/-- The parts of a word without an expansion stand for their own text. -/
theorem expandParts_literal {parts : List Part} (h : ∀ part ∈ parts, part.type = .literal)
    (s : Shell δ W) :
    (expandParts env parts).run s = .ok (parts.map fun part => part.text.getD "", s) := by
  induction parts with
  | nil => rfl
  | cons part parts ih =>
    have hpart : (expandPart env part).run s = .ok (part.text.getD "", s) := by
      rw [expandPart, h part List.mem_cons_self]
      rfl
    rw [expandParts, Stateful.run_bind_ok hpart,
      Stateful.run_bind_ok (ih fun p hp => h p (List.mem_cons_of_mem _ hp))]
    rfl

theorem expandPartsToString_run {parts : List Part} {s t : Shell δ W} {texts : List String}
    (h : (expandParts env parts).run s = .ok (texts, t)) :
    (expandPartsToString env parts).run s = .ok (String.join texts, t) := by
  rw [expandPartsToString, StateT.run_map, h]
  rfl

/-- A system without an environment, users and files. -/
def Env.plain (δ W : Type) : Env δ W where
  getenv _ := none
  arithmetic _ s := ("0", s)
  tilde _ _ := none
  removePattern _ v _ := v
  expandPath _ := []

/-- A shell with these positional parameters. -/
def shellWith (params : List String) : Shell Unit Unit :=
  { Shell.initial () with
    frame := { type := .topLevel, positionalParams := some ⟨some "miga", params⟩ } }

end Migash.Expander
