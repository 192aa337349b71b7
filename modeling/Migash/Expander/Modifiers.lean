import Migash.Expander.Words
import Migash.Lexer.Braced

/-! # Modifiers with a word

What `-`, `=`, `?` and `+` make of a parameter that is unset, empty or not, with
and without a colon, from the text of the word on.
-/

namespace Migash.Expander

open Exec (Shell PositionalParams)
open Library Lexer

variable {δ W : Type} (env : Env δ W)

/-! ## The table -/

/-- The value of a parameter, none if it is unset. -/
def parameterValue : Parameter → Shell δ W → Option String
  | .name first others _ _, s =>
    let name := String.ofList (first :: others)
    (execFrameGetVariable s name).or (env.getenv name)
  | .positional first others _ _, s =>
    s.frame.positionalParams.bind fun params => params.params[decimalValue (first :: others) - 1]?
  | .special c _, s =>
    let none? := s.frame.positionalParams.all fun params => params.params.isEmpty
    if (c = '@' ∨ c = '*') ∧ none? then none else specialParam? s c

/-- What an expansion with a modifier is to do. -/
inductive Entry where
  | parameter | null | word | assign | error
  deriving DecidableEq, Repr

/-- The table of the standard: without a colon, an empty parameter is no missing one. -/
def posixEntry (op : Modifier) (colon : Bool) (value : Option String) : Entry :=
  let missing := value = none ∨ colon ∧ value = some ""
  match op with
  | .useDefault => if missing then .word else .parameter
  | .assignDefault => if missing then .assign else .parameter
  | .errorIfUnset => if missing then .error else .parameter
  | .useAlternate => if missing then .null else .word

/-- Only `=` assigns. -/
theorem posixEntry_eq_assign {op : Modifier} {colon : Bool} {value : Option String}
    (h : posixEntry op colon value = .assign) : op = .assignDefault := by
  cases op with
  | assignDefault => rfl
  | _ =>
    simp only [posixEntry] at h
    split at h <;> cases h

/-- The expansion gives this text and leaves this state, as its entry says. The source reports an
error by the exit status. -/
def Entry.Allows (entry : Entry) (p : Parameter) (word : List Char) (s : Shell δ W)
    (text : String) (t : Shell δ W) : Prop :=
  match entry with
  | .parameter => text = (parameterValue env p s).getD "" ∧ t = s
  | .null => text = "" ∧ t = s
  | .word => text = String.ofList word ∧ t = s
  | .assign =>
    text = String.ofList word ∧ parameterValue env p t = some (String.ofList word) ∧
      t.frame = s.frame ∧
      ∀ n, n ≠ String.ofList p.text → t.variables_.get n = s.variables_.get n
  | .error => text = "" ∧ t = s.setLastExitStatus 1

/-- A word can be assigned to the parameter: it is a variable, which no local one hides, and the
store takes the word. -/
def Assignable (p : Parameter) (word : List Char) (s : Shell δ W) : Prop :=
  match p with
  | .name first others _ _ =>
    let name := String.ofList (first :: others)
    (s.frame.localVariables.bind fun store => store.getValue name) = none ∧
      ∃ store, s.variables_.add name (some (String.ofList word)) false false = .ok store
  | _ => False

/-- Where the modifier does what its entry says. -/
def Observed (p : Parameter) (op : Modifier) (colon : Bool) (word : List Char) (s : Shell δ W) :
    Prop :=
  p.Readable ∧
    (¬ colon → parameterValue env p s = some "" →
      if op = .errorIfUnset then s.frame.lastExitStatus = 1 else word = []) ∧
    (posixEntry op colon (parameterValue env p s) = .assign →
      if word = [] then parameterValue env p s = some "" else Assignable p word s)

/-! ## The value -/

section Value

variable {p : Parameter} {s : Shell δ W}

theorem toNat_of_start {c : Char} (h : isNameStartChar c = true) : 65 ≤ c.toNat := by
  simp only [isNameStartChar, Bool.or_eq_true, isAlpha_iff, decide_eq_true_eq] at h
  rcases h with (h | h) | rfl
  · exact h.1
  · exact le_trans (by decide) h.1
  · decide

theorem ne_of_start {c d : Char} (h : isNameStartChar c = true) (hd : d.toNat < 65) : c ≠ d := by
  rintro rfl
  exact absurd (toNat_of_start h) (not_le.mpr hd)

/-- A name is no number. -/
theorem strtol_name {first : Char} {others : List Char} (start : isNameStartChar first = true) :
    strtol (first :: others) = (0, first :: others) := by
  have hspace : isspace first = false := by
    have := toNat_of_start start
    have hblank := ne_of_start start (d := ' ') (by decide)
    simp only [isspace, hblank, decide_false, Bool.false_or, Bool.and_eq_false_iff,
      decide_eq_false_iff_not]
    omega
  have hdigit := not_isDigit_of_start start
  have hminus := ne_of_start start (d := '-') (by decide)
  have hplus := ne_of_start start (d := '+') (by decide)
  rw [strtol, List.dropWhile_cons_of_neg (by simp [hspace])]
  split
  next negative digits h =>
    have hdigits : digits = first :: others := by
      split at h
      · next heq => exact absurd (List.cons.inj heq).1 hminus
      · next heq => exact absurd (List.cons.inj heq).1 hplus
      · exact (Prod.mk.inj h).2.symm
    rw [hdigits, List.takeWhile_cons_of_neg (by simp [hdigit]), if_pos rfl]

theorem specialParam?_name {c : Char} (start : isNameStartChar c = true) :
    specialParam? s c = none := by
  have hne : ∀ d ∈ ['?', '$', '!', '#', '@', '*', '-', '0'], c ≠ d := by
    intro d hd
    refine ne_of_start start ?_
    simp only [List.mem_cons, List.not_mem_nil, or_false] at hd
    rcases hd with rfl | rfl | rfl | rfl | rfl | rfl | rfl | rfl <;> decide
  unfold specialParam?
  split <;> first | rfl | exact absurd rfl (hne _ (by decide))

/-- A name is looked up among the variables. -/
theorem getParameterValue_name {first : Char} {others : List Char}
    (start : isNameStartChar first = true) (valid : ∀ c ∈ others, isNameChar c = true) :
    getParameterValue env s (String.ofList (first :: others)) =
      parameterValue env (.name first others start valid) s := by
  have hne : String.ofList (first :: others) ≠ "" := by simp
  have hnumber : positionalParam? s (String.ofList (first :: others)) = none := by
    rw [positionalParam?, String.toList_ofList, strtol_name start]
  have hnone : expandSpecialParam s (String.ofList (first :: others)) = none := by
    rw [expandSpecialParam, String.toList_ofList, hnumber]
    cases others with
    | nil => simp [specialParam?_name start]
    | cons => rfl
  rw [getParameterValue, if_neg hne, hnone, Option.none_or]
  rfl

/-- A digit from 1 on is the number of a positional parameter, and one that is not there is
empty. -/
theorem getParameterValue_positional {c : Char} (hdigit : c.isDigit = true)
    (hpos : 0 < decimalValue [c]) :
    getParameterValue env s (String.ofList [c]) =
      some ((parameterValue env (.positional c [] (by simpa using hdigit) hpos) s).getD "") := by
  have hmem : c ∈ ['1', '2', '3', '4', '5', '6', '7', '8', '9'] := by
    have hlow : 49 ≤ c.toNat := by
      have : decimalValue [c] = 0 * 10 + (c.toNat - 48) := rfl
      omega
    have hhigh : c.toNat ≤ 57 := by
      simp only [Char.isDigit, Bool.and_eq_true, decide_eq_true_eq, UInt32.le_iff_toNat_le] at hdigit
      exact hdigit.2
    have hchar : ∀ n, c.toNat = n → c = Char.ofNat n := fun n h => by rw [← h, Char.ofNat_toNat]
    rcases (by omega : c.toNat = 49 ∨ c.toNat = 50 ∨ c.toNat = 51 ∨ c.toNat = 52 ∨ c.toNat = 53 ∨
      c.toNat = 54 ∨ c.toNat = 55 ∨ c.toNat = 56 ∨ c.toNat = 57) with
      h | h | h | h | h | h | h | h | h <;> rw [hchar _ h] <;> decide
  have hspecial : specialParam? s c = none := by
    simp only [List.mem_cons, List.not_mem_nil, or_false] at hmem
    rcases hmem with rfl | rfl | rfl | rfl | rfl | rfl | rfl | rfl | rfl <;> rfl
  have hnumber : strtol [c] = ((decimalValue [c] : ℤ), ([] : List Char)) := by
    simp only [List.mem_cons, List.not_mem_nil, or_false] at hmem
    rcases hmem with rfl | rfl | rfl | rfl | rfl | rfl | rfl | rfl | rfl <;> decide
  have hvalue : positionalParam? s (String.ofList [c]) =
      some ((parameterValue env (.positional c [] (by simpa using hdigit) hpos) s).getD "") := by
    rw [positionalParam?, String.toList_ofList, hnumber]
    simp only [parameterValue]
    rw [if_neg (by omega)]
    cases s.frame.positionalParams with
    | none => rfl
    | some params =>
      have hne : (decimalValue [c] : ℤ) ≠ 0 := by omega
      have hint : Int.bmod (decimalValue [c]) 4294967296 = decimalValue [c] := by
        simp only [List.mem_cons, List.not_mem_nil, or_false] at hmem
        rcases hmem with rfl | rfl | rfl | rfl | rfl | rfl | rfl | rfl | rfl <;> decide
      have hone : ¬ (decimalValue [c] : ℤ) < 1 := by omega
      simp only [if_neg hne, Option.bind_some, hint, positionalParamsGet, if_neg hone,
        Int.toNat_natCast]
  rw [getParameterValue, if_neg (by simp), expandSpecialParam, String.toList_ofList]
  simp only [hvalue, hspecial, Option.none_or, Option.some_or]

theorem getParameterValue_special {c : Char} (valid : c ∈ ['@', '*', '#', '?', '-', '$', '!', '0']) :
    getParameterValue env s (String.ofList [c]) =
      some ((parameterValue env (.special c valid) s).getD "") := by
  obtain ⟨v, hv⟩ : ∃ v, specialParam? s c = some v := by
    simp only [List.mem_cons, List.not_mem_nil, or_false] at valid
    rcases valid with rfl | rfl | rfl | rfl | rfl | rfl | rfl | rfl <;> exact ⟨_, rfl⟩
  have hempty : (c = '@' ∨ c = '*') ∧
      s.frame.positionalParams.all (fun params => params.params.isEmpty) = true → v = "" := by
    rintro ⟨hc, hall⟩
    have hnil : (s.frame.positionalParams.map fun p => positionalParamsGetAllJoined p ' ').getD "" =
        "" := by
      cases hparams : s.frame.positionalParams with
      | none => rfl
      | some params =>
        rw [hparams, Option.all_some, List.isEmpty_iff] at hall
        simp [positionalParamsGetAllJoined, hall]
    rcases hc with rfl | rfl <;> exact Option.some.inj (hv.symm.trans (congrArg some hnil))
  have hvalue : (parameterValue env (.special c valid) s).getD "" = v := by
    simp only [parameterValue]
    split_ifs with h
    · exact (hempty h).symm
    · rw [hv]
      rfl
  rw [getParameterValue, if_neg (by simp), expandSpecialParam, String.toList_ofList, hvalue]
  simp [hv]

/-- The expander sees the value of a parameter, except that it takes every positional and every
special parameter to be set. -/
theorem getParameterValue_getD (hp : p.Readable) :
    (getParameterValue env s (String.ofList p.text)).getD "" = (parameterValue env p s).getD "" := by
  cases p with
  | name first others start valid =>
    exact congrArg (·.getD "") (getParameterValue_name env start valid)
  | positional first others valid positive =>
    cases hp
    exact congrArg (·.getD "")
      (getParameterValue_positional env (valid first List.mem_cons_self) positive)
  | special c valid => exact congrArg (·.getD "") (getParameterValue_special env valid)

theorem getD_eq_empty {v : Option String} : v.getD "" = "" ↔ v = none ∨ v = some "" := by
  cases v <;> simp

end Value

/-! ## The expansion -/

variable {p : Parameter} {op : Modifier} {colon : Bool} {word : List Char} {s : Shell δ W}

/-- What the expander makes of a modifier: the text and the state behind it. A colon makes no
difference. -/
def modified (p : Parameter) (op : Modifier) (word : List Char) (s : Shell δ W) :
    String × Shell δ W :=
  let value := (parameterValue env p s).getD ""
  let text := String.ofList word
  match op with
  | .useDefault => (if value = "" then text else value, s)
  | .assignDefault =>
    if value = "" then
      (text, if word = [] then s
        else s.writeVar { name := String.ofList p.text, value := text, arithmetic := false })
    else (value, s)
  | .errorIfUnset => if value = "" then ("", s.setLastExitStatus 1) else (value, s)
  | .useAlternate => (if value = "" then "" else text, s)

theorem expandParameterWithModifier_run (hp : p.Readable) :
    (expandParameterWithModifier env (bracedPart p colon op word)).run s =
      .ok (modified env p op word s) := by
  have hvalue := getParameterValue_getD env (s := s) hp
  have hnull := getD_eq_empty (v := getParameterValue env s (String.ofList p.text))
  have hword : (bracedPart p colon op word).word.getD "" = String.ofList word := by
    unfold bracedPart
    split_ifs with h <;> simp [h]
  have hsome : (bracedPart p colon op word).word.isSome = decide (word ≠ []) := by
    unfold bracedPart
    split_ifs with h <;> simp [h]
  rw [hvalue] at hnull
  have hname : (bracedPart p colon op word).paramName.getD "" = String.ofList p.text := rfl
  have hkind : (bracedPart p colon op word).paramKind = op.kind := rfl
  rw [expandParameterWithModifier, Stateful.run_bind_ok (Stateful.run_get_eq s)]
  simp only [hname, hkind, hword, hsome, ← hnull, hvalue]
  cases op with
  | useDefault => rfl
  | useAlternate => rfl
  | errorIfUnset =>
    simp only [Modifier.kind, modified]
    split_ifs with h <;> rfl
  | assignDefault =>
    simp only [Modifier.kind, modified]
    by_cases h : (parameterValue env p s).getD "" = ""
    · by_cases hempty : word = []
      · simp only [if_pos h, hempty, ne_eq, not_true, decide_false, Bool.false_eq_true, if_false,
          if_true]
        rfl
      · simp only [if_pos h, hempty, ne_eq, not_false_eq_true, decide_true, if_true, if_false]
        rfl
    · simp only [if_neg h]
      rfl

theorem expandPartsToString_modifier (colon : Bool) (op : Modifier) (word : List Char)
    (s : Shell δ W) (hp : p.Readable) :
    (expandPartsToString env [bracedPart p colon op word]).run s =
      .ok (modified env p op word s) := by
  have hpart : (expandPart env (bracedPart p colon op word)).run s =
      .ok (modified env p op word s) := expandParameterWithModifier_run env hp
  have hparts : (expandParts env [bracedPart p colon op word]).run s =
      .ok ([(modified env p op word s).1], (modified env p op word s).2) := by
    rw [expandParts, Stateful.run_bind_ok hpart]
    rfl
  rw [expandPartsToString_run env hparts]
  simp

/-! ## Where the table is kept -/

theorem ofList_eq_empty : String.ofList word = "" ↔ word = [] := by simp

theorem setLastExitStatus_eq_self {status : ℤ} :
    s.setLastExitStatus status = s ↔ s.frame.lastExitStatus = status := by
  constructor
  · intro h
    rw [← h]
    rfl
  · rintro rfl
    rfl

theorem writeVar_plain (s : Shell δ W) (name value : String) :
    s.writeVar { name, value, arithmetic := false } = s.assign { name, value := some value } := by
  unfold Shell.writeVar
  split
  · next h _ => cases h
  · rfl

theorem execFrameGetVariable_eq (s : Shell δ W) (name : String) :
    execFrameGetVariable s name = (s.frame.localVariables.bind fun store =>
      store.getValue name).or (s.variables_.getValue name) := by
  unfold execFrameGetVariable
  cases s.frame.localVariables.bind fun store => store.getValue name <;> rfl

/-- The assignment of a modifier reaches the parameter if it is a variable that takes it. -/
theorem parameterValue_writeVar (hnull : (parameterValue env p s).getD "" = "") (hword : word ≠ []) :
    parameterValue env p (s.writeVar
        { name := String.ofList p.text, value := String.ofList word, arithmetic := false }) =
      some (String.ofList word) ↔ Assignable p word s := by
  have hne : some (String.ofList word) ≠ parameterValue env p s := by
    intro heq
    rw [← heq, Option.getD_some, ofList_eq_empty] at hnull
    exact hword hnull
  cases p with
  | positional first others valid positive =>
    exact iff_of_false (fun h => hne h.symm) id
  | special c valid => exact iff_of_false (fun h => hne h.symm) id
  | name first others start valid =>
    let name := String.ofList (first :: others)
    let store := s.variables_.tryAdd name (some (String.ofList word)) false false
    have hwrite : parameterValue env (.name first others start valid) (s.writeVar
        { name, value := String.ofList word, arithmetic := false }) =
        ((s.frame.localVariables.bind fun store => store.getValue name).or
          (store.getValue name)).or (env.getenv name) := by
      simp only [parameterValue, writeVar_plain, execFrameGetVariable_eq]
      rfl
    have hread : parameterValue env (.name first others start valid) s =
        ((s.frame.localVariables.bind fun store => store.getValue name).or
          (s.variables_.getValue name)).or (env.getenv name) := by
      simp only [parameterValue, execFrameGetVariable_eq]
      rfl
    refine Iff.trans (Iff.of_eq (congrArg (· = _) hwrite)) ?_
    rw [hread] at hne
    cases hlocal : s.frame.localVariables.bind fun store => store.getValue name with
    | some v =>
      rw [hlocal] at hne
      refine iff_of_false (fun h => hne h.symm) fun h => ?_
      rw [h.1] at hlocal
      cases hlocal
    | none =>
      rw [hlocal] at hne
      cases hadd : s.variables_.add name (some (String.ofList word)) false false with
      | ok store' =>
        have hget : store.getValue name = some (String.ofList word) := by
          simp only [store, VariableStore.tryAdd, hadd, VariableStore.getValue,
            VariableStore.add_ok hadd, if_true, Option.map_some, Option.getD_some]
        rw [hget]
        exact iff_of_true rfl ⟨hlocal, store', hadd⟩
      | error e =>
        have hsame : store = s.variables_ := by
          simp only [store, VariableStore.tryAdd, hadd]
        rw [hsame]
        refine iff_of_false (fun h => hne h.symm) ?_
        rintro ⟨-, store', hadd'⟩
        cases hadd.symm.trans hadd'

/-- An assignment that is due is made if the parameter is a variable that takes the word, and the
word is not empty. -/
theorem allows_assign (word : List Char) (hnull : (parameterValue env p s).getD "" = "") :
    Entry.assign.Allows env p word s (String.ofList word)
        (if word = [] then s
        else s.writeVar
          { name := String.ofList p.text, value := String.ofList word, arithmetic := false }) ↔
      if word = [] then parameterValue env p s = some "" else Assignable p word s := by
  by_cases hword : word = []
  · simp [Entry.Allows, hword]
  · rw [if_neg hword, if_neg hword, ← parameterValue_writeVar env hnull hword]
    constructor
    · exact fun h => h.2.1
    · intro h
      refine ⟨rfl, h, rfl, fun n hn => ?_⟩
      exact VariableStore.tryAdd_get_of_ne hn

/-- The text and the state of a modifier are those of the table exactly where it is kept. -/
theorem allows_modified_iff :
    (posixEntry op colon (parameterValue env p s)).Allows env p word s
        (modified env p op word s).1 (modified env p op word s).2 ↔
      (¬ colon → parameterValue env p s = some "" →
        if op = .errorIfUnset then s.frame.lastExitStatus = 1 else word = []) ∧
      (posixEntry op colon (parameterValue env p s) = .assign →
        if word = [] then parameterValue env p s = some "" else Assignable p word s) := by
  by_cases hnull : (parameterValue env p s).getD "" = ""
  · have hassign := allows_assign env word hnull
    rcases getD_eq_empty.mp hnull with hunset | hempty
    · rw [hunset] at hassign ⊢
      cases op with
      | assignDefault => simpa [posixEntry, modified, hunset] using hassign
      | _ => simp [posixEntry, modified, hunset, Entry.Allows]
    · rw [hempty] at hassign ⊢
      cases colon with
      | true =>
        cases op with
        | assignDefault => simpa [posixEntry, modified, hempty] using hassign
        | _ => simp [posixEntry, modified, hempty, Entry.Allows]
      | false =>
        cases op with
        | errorIfUnset =>
          simp [posixEntry, modified, hempty, Entry.Allows, setLastExitStatus_eq_self]
        | assignDefault =>
          -- The word is the text in any case, so it has to be empty.
          by_cases hword : word = [] <;> simp [posixEntry, modified, hempty, Entry.Allows, hword]
        | _ => simp [posixEntry, modified, hempty, Entry.Allows]
  · have hset : parameterValue env p s ≠ none ∧ parameterValue env p s ≠ some "" :=
      not_or.mp (mt getD_eq_empty.mpr hnull)
    cases op <;> simp [posixEntry, modified, hnull, hset, Entry.Allows]

/-- The variable `x`. -/
def parameterX : Parameter := .name 'x' [] (by decide) Parameter.valid_nil

/-- A shell in which `x` is empty. -/
def shellWithEmpty : Shell Unit Unit :=
  { Shell.initial () with variables_ := VariableStore.empty.tryAdd "x" (some "") false false }

end Migash.Expander
