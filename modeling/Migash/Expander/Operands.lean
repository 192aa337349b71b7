import Migash.Expander.Modifiers
import Migash.Expander.Segments
import Migash.Lexer.CmdSubst

/-! # The word of an operator

What a word of quotes and expansions expands to, to any depth, and what the
expander takes for it: the text of the word as it is written.
-/

namespace Migash.Expander

open Exec (Shell)
open Library Lexer

variable {δ W : Type}

/-! ## Words -/

/-- The characters that do not stand for themselves, in double quotes or not. A brace ends the word of
the operator. -/
def activeChars (quoted : Bool) : List Char :=
  ['$', backtick, backslash, dquote] ++ if quoted then [] else [squote, rbrace]

/-- A text of characters, quotes and expansions, in double quotes or not, with the way it is made up.
Where the text of a command or of an arithmetic expression ends is for their own grammars to say. -/
inductive Operand : Bool → List Char → Type
  | nil {quoted : Bool} : Operand quoted []
  | char {quoted : Bool} {t : List Char} (c : Char) (hc : c ∉ activeChars quoted)
      (rest : Operand quoted t) : Operand quoted (c :: t)
  | dollar {quoted : Bool} {t : List Char} (ht : ∀ d ∈ t.head?, isExpansionStart d = false)
      (rest : Operand quoted t) : Operand quoted ('$' :: t)
  | escape {quoted : Bool} {t : List Char} (c : Char) (rest : Operand quoted t) :
      Operand quoted (backslash :: c :: t)
  | single {t : List Char} (s : List Char) (hs : squote ∉ s) (rest : Operand false t) :
      Operand false (squote :: (s ++ squote :: t))
  | double {s t : List Char} (inner : Operand true s) (rest : Operand false t) :
      Operand false (dquote :: (s ++ dquote :: t))
  | bare {quoted : Bool} {t : List Char} (p : Parameter) (hp : p.Readable) (ht : p.EndsBefore t)
      (rest : Operand quoted t) : Operand quoted (bareParameter p ++ t)
  | braced {quoted : Bool} {t : List Char} (p : Parameter) (rest : Operand quoted t) :
      Operand quoted (bracedParameter p ++ t)
  | length {quoted : Bool} {t : List Char} (p : Parameter) (rest : Operand quoted t) :
      Operand quoted ('$' :: lbrace :: '#' :: (p.text ++ rbrace :: t))
  | operator {quoted : Bool} {w t : List Char} (p : Parameter) (op : Operator) (hop : op.Separate w)
      (word : Operand false w) (rest : Operand quoted t) : Operand quoted (expansionText p op w ++ t)
  | command {quoted : Bool} {t : List Char} (s : List Char) (rest : Operand quoted t) :
      Operand quoted (cmdText s ++ t)
  | backquoted {quoted : Bool} {t : List Char} (s : List Char) (rest : Operand quoted t) :
      Operand quoted (backtick :: (s ++ backtick :: t))
  | arithmetic {quoted : Bool} {t : List Char} (e : List Char) (rest : Operand quoted t) :
      Operand quoted (arithText e ++ t)

/-! ## What they expand to -/

/-- A text and the state behind it, for every state. -/
abbrev Meaning (δ W : Type) := Shell δ W → List Char × Shell δ W

namespace Meaning

def literal (text : List Char) : Meaning δ W := fun s => (text, s)

/-- One text behind the other. -/
def append (first second : Meaning δ W) : Meaning δ W := fun s =>
  ((first s).1 ++ (second (first s).2).1, (second (first s).2).2)

end Meaning

/-- What a backslash and the character behind it stand for. -/
def escaped (quoted : Bool) (c : Char) : List Char :=
  if c = newline then []
  else if quoted ∧ c ∉ activeChars true then [backslash, c]
  else [c]

section Meanings

variable (env : Env δ W) (command : List Char → Meaning δ W)

def parameterMeaning (p : Parameter) : Meaning δ W := fun s =>
  (((parameterValue env p s).getD "").toList, s)

def lengthMeaning (p : Parameter) : Meaning δ W := fun s =>
  ((toString ((parameterValue env p s).getD "").length).toList, s)

def arithmeticMeaning (e : List Char) : Meaning δ W := fun s =>
  ((env.arithmetic (String.ofList e) s).1.toList, (env.arithmetic (String.ofList e) s).2)

/-- What an operator makes of a parameter. The word is expanded only where it is used. -/
def operatorMeaning (p : Parameter) (op : Operator) (word : Meaning δ W) : Meaning δ W := fun s =>
  let value := parameterValue env p s
  match op with
  | .modifier colon op =>
    match posixEntry op colon value with
    | .parameter => ((value.getD "").toList, s)
    | .null => ([], s)
    | .word => word s
    | .assign =>
      ((word s).1, (word s).2.writeVar
        { name := String.ofList p.text, value := String.ofList (word s).1, arithmetic := false })
    | .error => ([], (word s).2.setLastExitStatus 1)
  | .pattern op =>
    match value with
    | none => ([], s)
    | some v =>
      if (word s).1 = [] then (v.toList, (word s).2)
      else ((env.removePattern op.kind v (String.ofList (word s).1)).toList, (word s).2)

/-- What the text expands to where commands give what they are taken to give. -/
def Operand.meaning {quoted : Bool} {w : List Char} : Operand quoted w → Meaning δ W
  | .nil => .literal []
  | .char c _ rest => (Meaning.literal [c]).append rest.meaning
  | .dollar _ rest => (Meaning.literal ['$']).append rest.meaning
  | .escape c rest => (Meaning.literal (escaped quoted c)).append rest.meaning
  | .single s _ rest => (Meaning.literal s).append rest.meaning
  | .double inner rest => inner.meaning.append rest.meaning
  | .bare p _ _ rest | .braced p rest => (parameterMeaning env p).append rest.meaning
  | .length p rest => (lengthMeaning env p).append rest.meaning
  | .operator p op _ word rest => (operatorMeaning env p op word.meaning).append rest.meaning
  | .command s rest | .backquoted s rest => (command s).append rest.meaning
  | .arithmetic e rest => (arithmeticMeaning env e).append rest.meaning

end Meanings

/-! ## What the expander does with the word -/

/-- The expansion uses its word. -/
def usesWord (kind : ParamSubtype) (v : Option String) : Bool :=
  match kind with
  | .useDefault | .assignDefault | .errorIfUnset => v.getD "" = ""
  | .useAlternate => v.getD "" ≠ ""
  | .removeSmallSuffix | .removeLargeSuffix | .removeSmallPrefix | .removeLargePrefix => v.isSome
  | .plain | .length | .indirect => false

/-- What the expander does where the expansion uses its word, with the text of the part for it. -/
def useWord (env : Env δ W) (part : Part) (v : String) : ExpandM δ W String := do
  let word := part.word.getD ""
  match part.paramKind with
  | .assignDefault =>
    if part.word.isSome then setParameterValue (part.paramName.getD "") word
    return word
  | .errorIfUnset =>
    modify fun s => s.setLastExitStatus 1
    return ""
  | .useDefault | .useAlternate => return word
  | kind => return if word = "" then v else env.removePattern kind v word

/-- What `log_error` is told where a parameter is missing. -/
def errorMessage (part : Part) : String :=
  "Parameter expansion error: " ++ part.paramName.getD "" ++ ": " ++
    part.word.getD "parameter null or not set"

theorem expandParameterWithModifier_uses (env : Env δ W) {part : Part} {s : Shell δ W}
    (h : usesWord part.paramKind (getParameterValue env s (part.paramName.getD "")) = true) :
    (expandParameterWithModifier env part).run s =
      (useWord env part ((getParameterValue env s (part.paramName.getD "")).getD "")).run s := by
  generalize hv : getParameterValue env s (part.paramName.getD "") = v at h
  have hnull := getD_eq_empty (v := v)
  rw [expandParameterWithModifier, Stateful.run_bind_ok (Stateful.run_get_eq s), useWord]
  simp only [hv, ← hnull]
  cases hkind : part.paramKind with
  | plain | length | indirect =>
    rw [hkind] at h
    cases h
  | useDefault | assignDefault | errorIfUnset =>
    rw [hkind] at h
    simp only [of_decide_eq_true h, if_true]
  | useAlternate =>
    rw [hkind] at h
    simp only [of_decide_eq_true h, if_false]
  | removeSmallSuffix | removeLargeSuffix | removeSmallPrefix | removeLargePrefix =>
    rw [hkind] at h
    obtain ⟨v, rfl⟩ := Option.isSome_iff_exists.mp h
    rfl

/-- Wherever an expansion with the operator uses the word, the expander takes what the word expands
to for its text, and for that of its message. -/
def UsesMeaning (δ W : Type) (op : Operator) {w : List Char} (word : Operand false w) : Prop :=
  ∀ (env : Env δ W) (command : List Char → Meaning δ W) (p : Parameter) (part : Part)
    (s : Shell δ W), Describes part p op w →
    let v := getParameterValue env s (part.paramName.getD "")
    usesWord part.paramKind v = true →
      let expanded := { part with
        word := part.word.map fun _ => String.ofList (word.meaning env command s).1 }
      (expandParameterWithModifier env part).run s =
          (useWord env expanded (v.getD "")).run (word.meaning env command s).2 ∧
        (op.kind = .errorIfUnset → errorMessage part = errorMessage expanded)

/-! ## Plain words -/

/-- The text has no quote, no escape and no expansion. -/
def isPlainText : List Char → Bool
  | [] => true
  | c :: t =>
    !([squote, dquote, backslash, backtick].contains c) &&
      (c != '$' || t.head?.all fun d => !isExpansionStart d) && isPlainText t

section Plain

variable {quoted : Bool} {w t : List Char} {c d : Char} {env : Env δ W}
  {command : List Char → Meaning δ W} {s : Shell δ W}

theorem isPlainText_char (hc : c ∉ activeChars false) : isPlainText (c :: t) = isPlainText t := by
  simp only [activeChars, Bool.false_eq_true, if_false, List.cons_append, List.nil_append,
    List.mem_cons, List.not_mem_nil, or_false, not_or] at hc
  obtain ⟨hdollar, htick, hback, hdquote, hsquote, -⟩ := hc
  simp [isPlainText, hdollar, htick, hback, hdquote, hsquote]

theorem isPlainText_dollar (ht : ∀ d ∈ t.head?, isExpansionStart d = false) :
    isPlainText ('$' :: t) = isPlainText t := by
  have hall : (t.head?.all fun d => !isExpansionStart d) = true := by
    cases t with
    | nil => rfl
    | cons d t => simp [ht d rfl]
  have hquote : [squote, dquote, backslash, backtick].contains '$' = false := by decide
  rw [isPlainText, hquote, hall]
  simp

theorem isPlainText_quote (hc : c ∈ [squote, dquote, backslash, backtick]) :
    isPlainText (c :: t) = false := by
  rw [isPlainText, List.contains_iff_mem.mpr hc]
  rfl

theorem isPlainText_expansion (hd : isExpansionStart d = true) :
    isPlainText ('$' :: d :: t) = false := by
  simp [isPlainText, hd]

theorem isPlainText_bareParameter (p : Parameter) : isPlainText (bareParameter p ++ t) = false := by
  obtain ⟨c, cs, htext⟩ := p.text_eq_cons
  have hstart : isExpansionStart c = true := by simp [isExpansionStart, p.head_starts htext]
  rw [bareParameter, htext]
  exact isPlainText_expansion hstart

theorem isPlainText_lbrace : isPlainText ('$' :: lbrace :: t) = false :=
  isPlainText_expansion (by decide)

theorem isPlainText_paren : isPlainText ('$' :: '(' :: t) = false :=
  isPlainText_expansion (by decide)

/-- A plain word stands for itself. -/
theorem meaning_of_plain {word : Operand quoted w} (hquoted : quoted = false)
    (h : isPlainText w = true) : word.meaning env command s = (w, s) := by
  induction word generalizing s with
  | nil => rfl
  | char c hc rest ih =>
    subst hquoted
    rw [isPlainText_char hc] at h
    simp [Operand.meaning, Meaning.append, Meaning.literal, ih rfl h]
  | dollar ht rest ih =>
    rw [isPlainText_dollar ht] at h
    simp [Operand.meaning, Meaning.append, Meaning.literal, ih hquoted h]
  | escape | single | double | backquoted =>
    rw [isPlainText_quote (by decide)] at h
    cases h
  | bare =>
    rw [isPlainText_bareParameter] at h
    cases h
  | braced =>
    exact absurd h (by simp [bracedParameter, isPlainText_lbrace])
  | length =>
    rw [isPlainText_lbrace] at h
    cases h
  | operator => exact absurd h (by simp [expansionText, isPlainText_lbrace])
  | command => exact absurd h (by simp [cmdText, isPlainText_paren])
  | arithmetic => exact absurd h (by simp [arithText, isPlainText_paren])

end Plain

/-! ## A system in which every value is short -/

section Short

variable {quoted : Bool} {w : List Char} {m n : ℕ} {s : Shell δ W} {p : Parameter}

/-- Every variable is in the environment, with one character. -/
def shortEnv (δ W : Type) : Env δ W :=
  { Env.plain δ W with
    getenv := fun _ => some "a"
    removePattern := fun _ _ pattern => pattern }

/-- No parameter has more than one character, and all variables are those of the environment. -/
structure Short (s : Shell δ W) : Prop where
  positionalParams : s.frame.positionalParams = some ⟨some "", []⟩
  localVariables : s.frame.localVariables = none
  lastExitStatus : s.frame.lastExitStatus = 0 ∨ s.frame.lastExitStatus = 1
  lastBgPid : s.frame.lastBgPid = 0
  shellPid : s.shellPid = none
  unset : ∀ first others, isNameStartChar first = true →
    s.variables_.getValue (String.ofList (first :: others)) = none

theorem short_bareShell (world : W) : Short (bareShell δ world) where
  positionalParams := rfl
  localVariables := rfl
  lastExitStatus := .inl rfl
  lastBgPid := rfl
  shellPid := rfl
  unset _ _ _ := rfl

theorem Short.value_name (h : Short s) {first : Char} {others : List Char}
    (start : isNameStartChar first = true) (valid : ∀ c ∈ others, isNameChar c = true) :
    parameterValue (shortEnv δ W) (.name first others start valid) s = some "a" := by
  simp only [parameterValue, execFrameGetVariable, h.localVariables, Option.bind_none,
    h.unset first others start]
  rfl

theorem Short.value_length (h : Short s) (p : Parameter) :
    ((parameterValue (shortEnv δ W) p s).getD "").toList.length ≤ 1 := by
  cases p with
  | name first others start valid =>
    rw [h.value_name]
    decide
  | positional first others valid positive => simp [parameterValue, h.positionalParams]
  | special c valid =>
    simp only [parameterValue]
    split_ifs
    · exact Nat.zero_le _
    · unfold specialParam?
      simp only [h.positionalParams, h.lastBgPid, h.shellPid]
      simp only [List.mem_cons, List.not_mem_nil, or_false] at valid
      rcases valid with rfl | rfl | rfl | rfl | rfl | rfl | rfl | rfl
      · exact Nat.zero_le _
      · exact Nat.zero_le _
      · exact (by decide : (toString (0 : ℕ)).toList.length ≤ 1)
      · change (toString s.frame.lastExitStatus).toList.length ≤ 1
        rcases h.lastExitStatus with hstatus | hstatus <;> rw [hstatus] <;> decide
      · exact Nat.zero_le _
      · exact (by decide : (toString (0 : ℤ)).toList.length ≤ 1)
      · exact (by decide : (toString (0 : ℤ)).toList.length ≤ 1)
      · exact Nat.zero_le _

theorem Short.setLastExitStatus (h : Short s) : Short (s.setLastExitStatus 1) :=
  { h with lastExitStatus := .inr rfl }

/-- An assignment that is due sets no variable, for every variable has a value. -/
theorem Short.writeVar (h : Short s) {t : Shell δ W} (ht : Short t) {colon : Bool} {op : Modifier}
    (hassign : posixEntry op colon (parameterValue (shortEnv δ W) p s) = .assign) (value : String) :
    Short (t.writeVar { name := String.ofList p.text, value, arithmetic := false }) := by
  refine { ht with unset := fun first others start => ?_ }
  have hne : String.ofList (first :: others) ≠ String.ofList p.text := by
    rw [ne_eq, String.ofList_inj]
    intro htext
    cases p with
    | name first' others' start' valid =>
      rw [h.value_name] at hassign
      cases op <;> cases colon <;> simp [posixEntry] at hassign
    | positional first' others' valid positive =>
      cases htext
      exact Bool.false_ne_true
        ((not_isDigit_of_start start).symm.trans (valid first List.mem_cons_self))
    | special c valid =>
      cases htext
      simp only [List.mem_cons, List.not_mem_nil, or_false] at valid
      rcases valid with rfl | rfl | rfl | rfl | rfl | rfl | rfl | rfl <;>
        exact absurd (toNat_of_start start) (by decide)
  rw [writeVar_plain]
  change (VariableStore.tryAdd ..).getValue _ = none
  rw [VariableStore.getValue, VariableStore.tryAdd_get_of_ne hne]
  exact ht.unset first others start

/-- Where every value is short, so is the text, and they still are behind it. -/
def Meaning.Bounded (f : Meaning δ W) (n : ℕ) : Prop :=
  ∀ s, Short s → (f s).1.length ≤ n ∧ Short (f s).2

variable {f g word : Meaning δ W}

theorem Meaning.Bounded.mono (h : f.Bounded m) (hle : m ≤ n) : f.Bounded n := fun s hs =>
  ⟨(h s hs).1.trans hle, (h s hs).2⟩

theorem Meaning.Bounded.append (hf : f.Bounded m) (hg : g.Bounded n) :
    (f.append g).Bounded (m + n) := by
  intro s hs
  obtain ⟨hfirst, hs'⟩ := hf s hs
  obtain ⟨hsecond, ht⟩ := hg _ hs'
  refine ⟨?_, ht⟩
  rw [Meaning.append, List.length_append]
  omega

theorem bounded_literal (text : List Char) : (Meaning.literal text : Meaning δ W).Bounded text.length :=
  fun _ hs => ⟨le_rfl, hs⟩

theorem bounded_parameterMeaning (p : Parameter) : (parameterMeaning (shortEnv δ W) p).Bounded 1 :=
  fun _ hs => ⟨hs.value_length p, hs⟩

theorem bounded_lengthMeaning (p : Parameter) : (lengthMeaning (shortEnv δ W) p).Bounded 1 := by
  intro s hs
  refine ⟨?_, hs⟩
  have hlength := hs.value_length p
  change (toString ((parameterValue (shortEnv δ W) p s).getD "").length).toList.length ≤ 1
  rw [← String.length_toList]
  rcases Nat.le_one_iff_eq_zero_or_eq_one.mp hlength with h | h <;> rw [h] <;> decide

theorem bounded_arithmeticMeaning (e : List Char) :
    (arithmeticMeaning (shortEnv δ W) e).Bounded 1 := by
  intro s hs
  refine ⟨?_, hs⟩
  have hvalue : (shortEnv δ W).arithmetic (String.ofList e) s = ("0", s) := rfl
  simp only [arithmeticMeaning, hvalue]
  decide

theorem bounded_operatorMeaning (p : Parameter) (op : Operator) (hword : word.Bounded n) :
    (operatorMeaning (shortEnv δ W) p op word).Bounded (max 1 n) := by
  intro s hs
  obtain ⟨hlength, ht⟩ := hword s hs
  have hvalue := hs.value_length p
  cases op with
  | modifier colon op =>
    rw [operatorMeaning]
    cases hentry : posixEntry op colon (parameterValue (shortEnv δ W) p s) with
    | parameter => exact ⟨(le_max_left ..).trans' hvalue, hs⟩
    | null => exact ⟨Nat.zero_le _, hs⟩
    | word => exact ⟨(le_max_right ..).trans' hlength, ht⟩
    | assign => exact ⟨(le_max_right ..).trans' hlength, hs.writeVar ht hentry _⟩
    | error => exact ⟨Nat.zero_le _, ht.setLastExitStatus⟩
  | pattern op =>
    rw [operatorMeaning]
    cases hv : parameterValue (shortEnv δ W) p s with
    | none => exact ⟨Nat.zero_le _, hs⟩
    | some v =>
      rw [hv] at hvalue
      dsimp only
      split_ifs
      · exact ⟨(le_max_left ..).trans' hvalue, ht⟩
      · exact ⟨(le_max_right ..).trans' (by simpa [shortEnv] using hlength), ht⟩

/-- A system in which no command gives anything. -/
def noOutput (_ : List Char) : Meaning δ W := .literal []

theorem length_escaped_le (quoted : Bool) (c : Char) : (escaped quoted c).length ≤ 2 := by
  unfold escaped
  split_ifs <;> simp

theorem length_escaped_false (c : Char) : (escaped false c).length ≤ 1 := by
  simp only [escaped, Bool.false_eq_true, false_and, if_false]
  split_ifs <;> simp

/-- The text of a word is no longer than the word. -/
theorem bounded_meaning (word : Operand quoted w) :
    (word.meaning (shortEnv δ W) noOutput).Bounded w.length := by
  induction word with
  | nil => exact bounded_literal []
  | char c hc rest ih => exact ((bounded_literal [c]).append ih).mono (by simp; omega)
  | dollar ht rest ih => exact ((bounded_literal ['$']).append ih).mono (by simp; omega)
  | @escape quoted t c rest ih =>
    have hlength := length_escaped_le quoted c
    exact ((bounded_literal _).append ih).mono (by simp; omega)
  | single s hs rest ih => exact ((bounded_literal s).append ih).mono (by simp; omega)
  | double inner rest ihinner ih => exact (ihinner.append ih).mono (by simp; omega)
  | bare p hp ht rest ih =>
    exact ((bounded_parameterMeaning p).append ih).mono (by simp [bareParameter]; omega)
  | braced p rest ih =>
    exact ((bounded_parameterMeaning p).append ih).mono (by simp [bracedParameter]; omega)
  | length p rest ih => exact ((bounded_lengthMeaning p).append ih).mono (by simp; omega)
  | operator p op hop word rest ihword ih =>
    exact ((bounded_operatorMeaning p op ihword).append ih).mono (by simp [expansionText]; omega)
  | command s rest ih => exact ((bounded_literal []).append ih).mono (by simp [cmdText]; omega)
  | backquoted s rest ih => exact ((bounded_literal []).append ih).mono (by simp; omega)
  | arithmetic e rest ih =>
    exact ((bounded_arithmeticMeaning e).append ih).mono (by simp [arithText]; omega)

/-- The text of a word that is not plain is shorter. -/
theorem shorter_meaning (word : Operand quoted w) (hquoted : quoted = false)
    (h : isPlainText w = false) :
    ∃ n < w.length, (word.meaning (shortEnv δ W) noOutput).Bounded n := by
  induction word with
  | nil => cases h
  | char c hc rest ih =>
    subst hquoted
    rw [isPlainText_char hc] at h
    obtain ⟨n, hn, hrest⟩ := ih rfl h
    exact ⟨1 + n, by rw [List.length_cons]; omega, (bounded_literal [c]).append hrest⟩
  | dollar ht rest ih =>
    rw [isPlainText_dollar ht] at h
    obtain ⟨n, hn, hrest⟩ := ih hquoted h
    exact ⟨1 + n, by rw [List.length_cons]; omega, (bounded_literal ['$']).append hrest⟩
  | @escape quoted t c rest =>
    subst hquoted
    have hlength := length_escaped_false c
    exact ⟨_, by simp; omega, (bounded_literal _).append (bounded_meaning rest)⟩
  | single s hs rest =>
    exact ⟨_, by simp only [List.length_cons, List.length_append]; omega,
      (bounded_literal s).append (bounded_meaning rest)⟩
  | double inner rest =>
    exact ⟨_, by simp only [List.length_cons, List.length_append]; omega,
      (bounded_meaning inner).append (bounded_meaning rest)⟩
  | bare p hp ht rest =>
    have htext := List.length_pos_of_ne_nil p.text_ne_nil
    exact ⟨_, by simp [bareParameter]; omega,
      (bounded_parameterMeaning p).append (bounded_meaning rest)⟩
  | braced p rest =>
    exact ⟨_, by simp [bracedParameter]; omega,
      (bounded_parameterMeaning p).append (bounded_meaning rest)⟩
  | length p rest =>
    exact ⟨_, by simp; omega, (bounded_lengthMeaning p).append (bounded_meaning rest)⟩
  | operator p op hop word rest =>
    exact ⟨_, by simp [expansionText]; omega,
      (bounded_operatorMeaning p op (bounded_meaning word)).append (bounded_meaning rest)⟩
  | command s rest =>
    exact ⟨_, by simp [cmdText]; omega, (bounded_literal []).append (bounded_meaning rest)⟩
  | backquoted s rest =>
    exact ⟨_, by simp; omega, (bounded_literal []).append (bounded_meaning rest)⟩
  | arithmetic e rest =>
    exact ⟨_, by simp [arithText]; omega,
      (bounded_arithmeticMeaning e).append (bounded_meaning rest)⟩

end Short

/-! ## Where the word is used -/

section Uses

variable {w : List Char} {op : Operator}

/-- A parameter of which every operator uses its word, in a bare shell: one that is set for `+` and the
patterns, one that is empty for the others. -/
def usedParameter (op : Operator) : Parameter :=
  match op with
  | .modifier _ .useAlternate | .pattern _ => .special '#' (by decide)
  | _ => .special '-' (by decide)

theorem value_usedParameter (world : W) (op : Operator) :
    ∃ v, getParameterValue (shortEnv δ W) (bareShell δ world) (String.ofList (usedParameter op).text) =
        some v ∧ isPlainText v.toList = true ∧ usesWord op.kind (some v) = true := by
  have hset : getParameterValue (shortEnv δ W) (bareShell δ world) (String.ofList ['#']) =
      some "0" := by
    have hcount : toString (0 : ℕ) = "0" := by decide
    rw [getParameterValue_special (shortEnv δ W) (by decide), ← hcount]
    rfl
  have hempty : getParameterValue (shortEnv δ W) (bareShell δ world) (String.ofList ['-']) =
      some "" := rfl
  cases op with
  | modifier colon op =>
    cases op with
    | useAlternate => exact ⟨"0", hset, by decide, rfl⟩
    | useDefault | assignDefault | errorIfUnset => exact ⟨"", hempty, rfl, rfl⟩
  | pattern op => exact ⟨"0", hset, by decide, by cases op <;> rfl⟩

/-- The text is that of the word, except that a pattern that is empty leaves the value. -/
theorem useWord_text (s : Shell δ W) (part : Part) {v word : String} {u : Option String}
    (huses : usesWord part.paramKind u = true) (hkind : part.paramKind ≠ .errorIfUnset)
    (hword : part.word = some word) :
    ∃ text t, (useWord (shortEnv δ W) part v).run s = .ok (text, t) ∧
      (text = word ∨ word = "" ∧ text = v) := by
  unfold useWord
  rw [hword]
  cases hparam : part.paramKind with
  | plain | length | indirect =>
    rw [hparam] at huses
    cases huses
  | errorIfUnset => exact absurd hparam hkind
  | useDefault | useAlternate => exact ⟨word, s, rfl, .inl rfl⟩
  | assignDefault => exact ⟨word, _, rfl, .inl rfl⟩
  | removeSmallSuffix | removeLargeSuffix | removeSmallPrefix | removeLargePrefix =>
    by_cases hempty : word = ""
    · exact ⟨v, s, by simp [hempty]; rfl, .inr ⟨hempty, rfl⟩⟩
    · exact ⟨word, s, by simp [hempty]; rfl, .inl rfl⟩

theorem errorMessage_eq {part : Part} {word : String} (hword : part.word = some word) :
    errorMessage part =
      ("Parameter expansion error: " ++ part.paramName.getD "" ++ ": ") ++ word := by
  unfold errorMessage
  simp only [hword, Option.getD_some]

theorem errorMessage_injective {part expanded : Part} {word text : String}
    (h : errorMessage part = errorMessage expanded) (hname : part.paramName = expanded.paramName)
    (hword : part.word = some word) (hexpanded : expanded.word = some text) : word = text := by
  rw [errorMessage_eq hword, errorMessage_eq hexpanded, hname] at h
  exact (String.append_right_inj _).mp h

theorem with_word {part : Part} {word : Option String} (h : part.word = word) :
    { part with word := word } = part := by
  rw [← h]

theorem usesMeaning_of_plain {word : Operand false w} (h : isPlainText w = true) :
    UsesMeaning δ W op word := by
  intro env command p part s hdescribes v huses expanded
  have hmeaning : word.meaning env command s = (w, s) := meaning_of_plain rfl h
  have hword : part.word = part.word.map fun _ => String.ofList (word.meaning env command s).1 := by
    have htext := hdescribes.word
    rw [hmeaning]
    cases hword : part.word with
    | none => rfl
    | some text =>
      rw [hword, Option.getD_some] at htext
      rw [Option.map_some, htext]
  have hpart : expanded = part := with_word hword
  rw [hpart, hmeaning]
  exact ⟨expandParameterWithModifier_uses env huses, fun _ => rfl⟩

theorem plain_of_usesMeaning (world : W) {word : Operand false w} (h : UsesMeaning δ W op word) :
    isPlainText w = true := by
  by_contra hplain
  obtain ⟨n, hn, hbounded⟩ := shorter_meaning (δ := δ) (W := W) word rfl (by simpa using hplain)
  obtain ⟨hlength, -⟩ := hbounded _ (short_bareShell world)
  obtain ⟨v, hv, hvplain, huses⟩ := value_usedParameter (δ := δ) world op
  let p := usedParameter op
  let part := paramPart p.text op.kind op.hasColon (Lexer.wordOf w)
  have hword : part.word = some (String.ofList w) := by
    have hne : w ≠ [] := by
      rintro rfl
      exact hplain rfl
    simp [part, paramPart, Lexer.wordOf, hne]
  have hname : part.paramName.getD "" = String.ofList p.text := rfl
  obtain ⟨hrun, hmessage⟩ := h (shortEnv δ W) noOutput p part (bareShell δ world)
    (describes_paramPart p op w) (by rw [hname, hv]; exact huses)
  generalize word.meaning (shortEnv δ W) noOutput (bareShell δ world) = r at hlength hrun hmessage
  rw [hword, Option.map_some] at hrun hmessage
  let expanded := { part with word := some (String.ofList r.1) }
  have hdiffers : String.ofList w ≠ String.ofList r.1 := by
    rw [ne_eq, String.ofList_inj]
    rintro rfl
    omega
  by_cases hkind : op.kind = .errorIfUnset
  · exact hdiffers (errorMessage_injective (hmessage hkind) rfl hword rfl)
  · rw [expandParameterWithModifier_uses _ (by rw [hname, hv]; exact huses), hname, hv] at hrun
    obtain ⟨text, t, hraw, htext⟩ := useWord_text (bareShell δ world) part (v := v) huses hkind hword
    obtain ⟨text', t', hexpanded, htext'⟩ := useWord_text r.2 expanded (v := v) huses hkind rfl
    rw [Option.getD_some, hraw, hexpanded] at hrun
    obtain rfl := (Prod.mk.inj (Except.ok.inj hrun)).1
    have hne : String.ofList w ≠ "" := fun hempty => hplain (by rw [ofList_eq_empty.mp hempty]; rfl)
    obtain rfl : text = String.ofList w := htext.resolve_right fun h => hne h.1
    rcases htext' with hsame | ⟨-, hvalue⟩
    · exact hdiffers hsame
    · exact hplain (by rw [← hvalue, String.toList_ofList] at hvplain; exact hvplain)

/-- Every operator takes what its word expands to if and only if the word has no quote, no escape and
no expansion. -/
theorem usesMeaning_iff (world : W) (op : Operator) (word : Operand false w) :
    UsesMeaning δ W op word ↔ isPlainText w = true :=
  ⟨plain_of_usesMeaning world, usesMeaning_of_plain⟩

end Uses

/-! ## Example -/

/-- The parameter `y`. -/
def parameterY : Parameter := .name 'y' [] rfl Parameter.valid_nil

/-- The word `$y`. -/
def wordY : Operand false ['$', 'y'] := .bare parameterY trivial nofun .nil

/-- A shell in which `y` is 1. -/
def shellWithOne : Shell Unit Unit :=
  { Shell.initial () with variables_ := VariableStore.empty.tryAdd "y" (some "1") false false }

/-- With `y` set to 1, `${x:-$y}` is `$y` and not 1. -/
theorem expand_default_variable :
    ∃ lx tok, lexerTokenize 3 (lexerCreateWithInput
        (expansionText parameterX (.modifier true .useDefault) ['$', 'y'])) = .ok (.ok, lx, [tok]) ∧
      (expandPartsToString (Env.plain Unit Unit) tok.parts).run shellWithOne =
        .ok ("$y", shellWithOne) ∧
      operatorMeaning (Env.plain Unit Unit) parameterX (.modifier true .useDefault)
        (wordY.meaning (Env.plain Unit Unit) noOutput) shellWithOne = (['1'], shellWithOne) ∧
      "$y".toList ≠ ['1'] :=
  ⟨_, _, rfl, rfl, rfl, by decide⟩

end Migash.Expander
