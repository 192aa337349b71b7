import Migash.Exec.Getopt
import Migash.Exec.Printf

/-! # The builtins that move operands

`echo`, `set`, `unset` and `cd` leave their options to `getopt` and go on with the
arguments from `optind` on. They look at their own list, in which nothing was
moved.
-/

namespace Migash.Exec.Getopt

open Printf (octal letterEscape)

/-! ## The loop over the options -/

/-- How a builtin ends while it reads its options. -/
inductive Halt
  /-- A return with a status and a complaint. -/
  | status (n : ℤ) (complaint : Option String)
  /-- The model has run out of turns. -/
  | fuel
  deriving DecidableEq, Repr

section

variable {σ : Type} (args : List Arg) (optstring : List UInt8) (longopts : Option (List OptionEx))
  (plusAware : Bool) (body : σ → UInt8 → GetoptState → Except Halt σ)

/-- `while ((c = getopt_r_string(…)) != -1)`, with at most `n` turns left. -/
def optionLoop : ℕ → σ → GetoptState → Except Halt (σ × GetoptState)
  | 0, _, _ => .error .fuel
  | n + 1, s, st =>
    match getoptInternal args optstring longopts plusAware st with
    | (none, st) => .ok (s, st)
    | (some c, st) => do
      let s ← body s c st
      optionLoop n s st

/-- The loop from the state of `getopt_state_init`. -/
def parseOptions (s : σ) : Except Halt (σ × GetoptState) :=
  optionLoop args optstring longopts plusAware body (weight args + 1) s {}

end

/-! ## echo -/

/-- `flag_n`, `flag_e` and `flag_err`. -/
structure EchoFlags where
  n : Bool := false
  e : Bool := false
  err : ℕ := 0
  deriving DecidableEq, Repr

/-- The options of `echo`. -/
def echoOption (flags : EchoFlags) (c : UInt8) (_ : GetoptState) : Except Halt EchoFlags :=
  .ok <| match c with
    | 110 => { flags with n := true }
    | 101 => { flags with e := true, err := 0 }
    | 63 => { flags with err := flags.err + 1 }
    | _ => flags

/-- The flags of `echo` and where its operands begin. -/
def echoOptions (args : List Arg) : Except Halt (EchoFlags × ℕ) := do
  let (flags, st) ← parseOptions args [110, 101, 69] none false echoOption {}
  if flags.err ≠ 0 then .error (.status 2 (some "usage: echo [-neE] [string ...]\n"))
  else return (flags, st.optind)

/-- The loop of `echo -e` over an argument, with at most `n` turns left: what it prints, and
whether `\c` stops it. -/
def echoEscapesLoop : ℕ → Arg → List UInt8 × Bool
  | 0, _ => ([], false)
  | _, [] => ([], false)
  | n + 1, 92 :: c :: p =>
    if c = 99 then ([], true)
    else
      let (bytes, p) :=
        if c = 48 then
          let (val, p) := octal 3 0 p
          ([val.toUInt8], p)
        else match letterEscape c with
          | some b => ([b], p)
          | none => ([92, c], p)
      let (text, stop) := echoEscapesLoop n p
      (bytes ++ text, stop)
  | n + 1, c :: p =>
    let (text, stop) := echoEscapesLoop n p
    (c :: text, stop)

/-- What `echo` prints for an argument. -/
def echoArg (flags : EchoFlags) (arg : Arg) : List UInt8 × Bool :=
  if flags.e then echoEscapesLoop arg.length arg else (arg, false)

/-- The loop of `echo` over its operands. -/
def echoArgs (flags : EchoFlags) : Bool → List Arg → List UInt8 × Bool
  | _, [] => ([], false)
  | first, arg :: rest =>
    let blank := if first then [] else [32]
    let (text, stop) := echoArg flags arg
    if stop then (blank ++ text, true)
    else
      let (more, stop) := echoArgs flags false rest
      (blank ++ text ++ more, stop)

/-- The newline of `echo`. -/
def echoNewline (flags : EchoFlags) : List UInt8 := if flags.n then [] else [10]

/-- `builtin_echo`: what it prints. -/
def builtinEcho (args : List Arg) : Except Halt (List UInt8) := do
  let (flags, optind) ← echoOptions args
  let (text, stop) := echoArgs flags true (args.drop optind)
  return if stop then text else text ++ echoNewline flags

/-! ## set -/

/-- The characters of a name. -/
def name (text : String) : Arg := text.toList.map fun c => c.toNat.toUInt8

/-- A name in a message. -/
def shown (arg : Arg) : String := String.ofList (arg.map fun c => Char.ofNat c.toNat)

/-- `builtin_set_valid_o_args`. -/
def setValidOArgs : List Arg :=
  ["allexport", "errexit", "ignoreeof", "monitor", "noclobber", "noglob", "noexec", "nounset",
    "pipefail", "verbose", "vi", "xtrace"].map name

/-- The names that `frame_set_named_option` knows. -/
def namedOptions : List Arg :=
  ["allexport", "a", "errexit", "e", "ignoreeof", "noclobber", "C", "noglob", "f", "noexec", "n",
    "nounset", "u", "pipefail", "verbose", "v", "vi", "xtrace", "x"].map name

/-- `long_options` of `builtin_set`. -/
def setOptionTable : List OptionEx :=
  [97, 98, 67, 101, 102, 104, 109, 110, 117, 118, 120].map (⟨true, true, ·⟩) ++ [⟨true, false, 111⟩]

/-- What the loop of `builtin_set` collects: `print_o_options` with `reusable_format`, and the
calls of `frame_set_named_option`. -/
structure SetOptions where
  printOptions : Option Bool := none
  named : List (Arg × Bool) := []
  deriving DecidableEq, Repr

/-- The options of `set`. -/
def setOption (s : SetOptions) (c : UInt8) (st : GetoptState) : Except Halt SetOptions :=
  if c = 0 ∨ setOptionTable.any (fun p => p.flag && p.val == c) then .ok s
  else if c = 111 then
    match st.optarg with
    | none => .ok { s with printOptions := some st.optPlusPrefix }
    | some arg =>
      if !setValidOArgs.contains arg then
        .error (.status 2 (some s!"set: invalid -o option: {shown arg}\n"))
      else if !namedOptions.contains arg then
        .error (.status 1 (some s!"set: option '{shown arg}' not supported yet\n"))
      else .ok { s with named := s.named ++ [(arg, !st.optPlusPrefix)] }
  else if c = 63 then .error (.status 2 none)
  else .error (.status 2 (some "set: internal error in option parsing\n"))

/-- What the loop of `builtin_set` leaves behind. -/
def setOptions (args : List Arg) : Except Halt (SetOptions × GetoptState) :=
  parseOptions args [97, 98, 67, 101, 102, 104, 109, 110, 117, 118, 120, 111, 58]
    (some setOptionTable) true setOption {}

/-- `flag_a` to `flag_x`: the last value that was stored, none for -1. -/
def GetoptState.flag (st : GetoptState) (val : UInt8) : Option Bool :=
  (st.writes.reverse.find? (·.1 = val)).map (·.2)

/-- The flags that `builtin_set` applies by name. -/
def appliedFlags (st : GetoptState) : List (Arg × Bool) :=
  [(97, "allexport"), (67, "noclobber"), (101, "errexit"), (102, "noglob"), (110, "noexec"),
    (117, "nounset"), (118, "verbose"), (120, "xtrace")].filterMap fun (val, option) =>
      (st.flag val).map (name option, ·)

/-- What `builtin_set` does: the options it sets, the positional parameters it replaces them
with, and what it prints. -/
structure SetAnswer where
  options : List (Arg × Bool) := []
  params : Option (List Arg) := none
  printsVariables : Bool := false
  printsOptions : Option Bool := none
  deriving DecidableEq, Repr

/-- `builtin_set`. -/
def builtinSet (args : List Arg) : Except Halt SetAnswer := do
  let sawDoubleDash := args.tail.contains [45, 45]
  let (s, st) ← setOptions args
  if s.printOptions.isSome then return { options := s.named, printsOptions := s.printOptions }
  else if st.optind < args.length ∨ sawDoubleDash then
    return { options := s.named ++ appliedFlags st, params := some (args.drop st.optind) }
  else if st.writes = [] ∧ s.named = [] then return { printsVariables := true }
  else return { options := s.named ++ appliedFlags st }

/-! ## unset and cd -/

/-- `flag_f`, `flag_v` and `flag_err`. -/
structure UnsetFlags where
  f : Bool := false
  v : Bool := false
  err : ℕ := 0
  deriving DecidableEq, Repr

/-- The options of `unset`. -/
def unsetOption (flags : UnsetFlags) (c : UInt8) (_ : GetoptState) : Except Halt UnsetFlags :=
  .ok <| match c with
    | 102 => if flags.v then { flags with err := flags.err + 1 } else { flags with f := true }
    | 118 => if flags.f then { flags with err := flags.err + 1 } else { flags with v := true }
    | 63 => { flags with err := flags.err + 1 }
    | _ => flags

/-- The flags of `unset` and where its operands begin. -/
def unsetOptions (args : List Arg) : Except Halt (UnsetFlags × ℕ) := do
  let (flags, st) ← parseOptions args [102, 118] none false unsetOption {}
  if flags.err ≠ 0 then .error (.status 2 (some "usage:"))
  else return (flags, st.optind)

/-- `builtin_unset` up to the loop over its operands: functions or variables, and their names. -/
def builtinUnset (args : List Arg) : Except Halt (Bool × List Arg) := do
  let (flags, optind) ← unsetOptions args
  return (flags.f, args.drop optind)

/-- `flag_P`, `flag_e` and `flag_err`; `flag_L` is the opposite of `flag_P`. -/
structure CdFlags where
  p : Bool := false
  e : Bool := false
  err : ℕ := 0
  deriving DecidableEq, Repr

/-- The options of `cd`. -/
def cdOption (flags : CdFlags) (c : UInt8) (_ : GetoptState) : Except Halt CdFlags :=
  .ok <| match c with
    | 76 => { flags with p := false }
    | 80 => { flags with p := true }
    | 101 => { flags with e := true }
    | 63 => { flags with err := flags.err + 1 }
    | _ => flags

/-- The flags of `cd` and where its operands begin. -/
def cdOptions (args : List Arg) : Except Halt (CdFlags × ℕ) := do
  let (flags, st) ← parseOptions args [76, 80, 101] none false cdOption {}
  if flags.err ≠ 0 then .error (.status 2 (some "usage: cd [-L|-P [-e]] [directory]\n"))
  else return ({ flags with e := flags.p && flags.e }, st.optind)

/-- `builtin_cd` up to its operand; there is none where it goes to the home directory. -/
def builtinCd (args : List Arg) : Except Halt (CdFlags × Option Arg) := do
  let (flags, optind) ← cdOptions args
  match args.drop optind with
  | [] => return (flags, none)
  | [arg] => return (flags, some arg)
  | _ => .error (.status 1 (some "cd: too many arguments\n"))

/-! ## Where the loop leaves `optind` -/

section

variable {σ : Type} {args : List Arg} {optstring : List UInt8} {longopts : Option (List OptionEx)}
  {plusAware : Bool} {body : σ → UInt8 → GetoptState → Except Halt σ} {m : ℕ}

/-- A run of the loop ends, and behind it are as many arguments as there are operands. -/
theorem Walks.optionLoop {n : ℕ} {s : σ} {st : GetoptState}
    (h : Walks optstring plusAware args m st) (hplain : orderingOf optstring = .permute)
    (hW : WFree optstring longopts) (hn : ahead args st < n) (hbody : ∀ s c st, body s c st ≠ .error .fuel) :
    (∃ s' st', optionLoop args optstring longopts plusAware body n s st = .ok (s', st') ∧
        st'.optind + m = args.length) ∨
      ∃ status complaint, optionLoop args optstring longopts plusAware body n s st =
        .error (.status status complaint) := by
  induction n generalizing s st with
  | zero => omega
  | succ n ih =>
    rw [Getopt.optionLoop]
    obtain ⟨c, st', hcall, hwalks, hless⟩ | ⟨st', hcall, hend⟩ := h.getoptInternal hplain hW
    · rw [hcall]
      dsimp only
      cases hrun : body s c st' with
      | error halt =>
        cases halt with
        | status status complaint => exact .inr ⟨status, complaint, rfl⟩
        | fuel => exact absurd hrun (hbody s c st')
      | ok s' => exact ih hwalks (by omega)
    · rw [hcall]
      exact .inl ⟨s, st', rfl, hend⟩

/-- The first call sets the state up. -/
theorem walks_startState (hargs : args ≠ []) (hplain : orderingOf optstring = .permute) :
    Walks optstring plusAware args (operandCount optstring plusAware false args.tail)
      (startState optstring {}) where
  initialized := rfl
  ordering := hplain
  noHyphen := rfl
  first_le := Nat.le_refl _
  last_le := Nat.le_refl _
  bound := List.length_pos_iff.mpr hargs
  count := by
    have hnext : (startState optstring {}).nextchar = [] := rfl
    have hnone : (startState optstring {}).found = 0 := rfl
    have hfirst : (startState optstring {}).optind = 1 := rfl
    rw [operandsLeft, if_pos hnext, hnone, hfirst, Nat.zero_add, List.drop_one]
  pos := Nat.one_pos

theorem optionLoop_startState (n : ℕ) (s : σ) (hargs : args ≠ []) :
    optionLoop args optstring longopts plusAware body (n + 1) s {} =
      optionLoop args optstring longopts plusAware body (n + 1) s (startState optstring {}) := by
  have hcall : getoptInternal args optstring longopts plusAware {} =
      getoptInternal args optstring longopts plusAware (startState optstring {}) := by
    unfold getoptInternal
    rw [if_neg hargs, if_neg hargs]
    rfl
  rw [optionLoop, optionLoop, hcall]

/-- `optind` after the options of any builtin. -/
theorem parseOptions_optind {s s' : σ} {st : GetoptState} (hargs : args ≠ [])
    (hplain : orderingOf optstring = .permute) (hW : WFree optstring longopts)
    (hbody : ∀ s c st, body s c st ≠ .error .fuel)
    (h : parseOptions args optstring longopts plusAware body s = .ok (s', st)) :
    st.optind + operandCount optstring plusAware false args.tail = args.length := by
  have hahead : ahead args (startState optstring {}) < weight args + 1 :=
    Nat.lt_succ_of_le (weight_drop_le args 0)
  rw [parseOptions, optionLoop_startState _ _ hargs] at h
  obtain ⟨s'', st', hrun, hend⟩ | ⟨status, complaint, hrun⟩ :=
    (walks_startState hargs hplain).optionLoop hplain hW hahead hbody
  · cases hrun.symm.trans h
    exact hend
  · cases hrun.symm.trans h

end

/-! ## Operands -/

/-- The positions of the arguments that are not consumed, from `i` on. -/
def unmarked (i : ℕ) (l : List Bool) : List ℕ :=
  (l.zipIdx i).filterMap fun entry => if entry.1 then none else some entry.2

/-- The arguments that are not consumed. -/
def kept (args : List Arg) (l : List Bool) : List Arg :=
  (args.zip l).filterMap fun entry => if entry.2 then none else some entry.1

/-- Nothing is consumed behind an operand. -/
def OperandsLast (l : List Bool) : Prop :=
  l.Pairwise fun earlier later => later = true → earlier = true

instance (l : List Bool) : Decidable (OperandsLast l) :=
  inferInstanceAs (Decidable (l.Pairwise _))

theorem mem_unmarked {i j : ℕ} {l : List Bool} :
    j ∈ unmarked i l ↔ i ≤ j ∧ l[j - i]? = some false := by
  rw [unmarked, List.mem_filterMap]
  constructor
  · rintro ⟨⟨mark, k⟩, hmem, hif⟩
    cases mark with
    | true => cases hif
    | false =>
      cases hif
      exact List.mem_zipIdx_iff_le_and_getElem?_sub.mp hmem
  · intro h
    exact ⟨(false, j), List.mem_zipIdx_iff_le_and_getElem?_sub.mpr h, rfl⟩

theorem OperandsLast.eq_append {l : List Bool} (h : OperandsLast l) :
    l = List.replicate (l.length - l.count false) true ++ List.replicate (l.count false) false := by
  induction l with
  | nil => rfl
  | cons mark l ih =>
    obtain ⟨hhead, htail⟩ := List.pairwise_cons.mp h
    have hle : l.count false ≤ l.length := List.count_le_length
    cases mark with
    | true =>
      rw [List.count_cons_of_ne (by decide), List.length_cons, Nat.succ_sub hle,
        List.replicate_succ, List.cons_append, ← ih htail]
    | false =>
      have hall : ∀ later ∈ l, later = false := fun later hlater =>
        Bool.eq_false_iff.mpr fun htrue => Bool.false_ne_true (hhead later hlater htrue)
      have hcount : l.count false = l.length := List.count_eq_length.mpr fun later hlater =>
        (hall later hlater).symm
      rw [List.count_cons_self, List.length_cons, hcount, Nat.sub_self, List.replicate_succ]
      exact congrArg _ (List.eq_replicate_iff.mpr ⟨rfl, hall⟩)

theorem unmarked_replicate (i a k : ℕ) :
    unmarked i (List.replicate a true ++ List.replicate k false) = List.range' (i + a) k := by
  induction a generalizing i with
  | zero =>
    rw [List.replicate_zero, List.nil_append, Nat.add_zero]
    induction k generalizing i with
    | zero => rfl
    | succ k ih =>
      rw [List.replicate_succ, unmarked, List.zipIdx_cons, List.range'_succ]
      exact congrArg _ (ih (i + 1))
  | succ a ih =>
    rw [List.replicate_succ, List.cons_append, unmarked, List.zipIdx_cons, ← Nat.add_assoc,
      Nat.add_right_comm]
    exact ih (i + 1)

theorem kept_replicate (a : ℕ) {k : ℕ} {args : List Arg} (h : args.length = a + k) :
    kept args (List.replicate a true ++ List.replicate k false) = args.drop a := by
  induction a generalizing args with
  | zero =>
    rw [List.replicate_zero, List.nil_append, List.drop_zero]
    rw [Nat.zero_add] at h
    subst h
    induction args with
    | nil => rfl
    | cons arg args ih => exact congrArg _ ih
  | succ a ih =>
    cases args with
    | nil =>
      rw [List.length_nil] at h
      omega
    | cons arg args =>
      rw [List.length_cons] at h
      exact ih (by omega)

/-- The last arguments are the operands if nothing is consumed behind one of them. -/
theorem unmarked_eq_range'_iff {l : List Bool} {i : ℕ} :
    List.range' (i + l.length - l.count false) (l.count false) = unmarked i l ↔ OperandsLast l := by
  have hle : l.count false ≤ l.length := List.count_le_length
  constructor
  · intro h
    refine List.pairwise_iff_getElem.mpr fun j k hj hk hlt htrue => ?_
    by_contra hfalse
    have hmem : i + j ∈ unmarked i l := mem_unmarked.mpr ⟨Nat.le_add_right _ _, by
      rw [Nat.add_sub_cancel_left, List.getElem?_eq_getElem hj, Bool.eq_false_iff.mpr hfalse]⟩
    rw [← h, List.mem_range'_1] at hmem
    have hmem' : i + k ∈ unmarked i l := by
      rw [← h, List.mem_range'_1]
      omega
    obtain ⟨-, hget⟩ := mem_unmarked.mp hmem'
    rw [Nat.add_sub_cancel_left, List.getElem?_eq_getElem hk, htrue] at hget
    cases hget
  · intro h
    conv_rhs => rw [h.eq_append]
    rw [unmarked_replicate, Nat.add_sub_assoc hle]

theorem OperandsLast.kept_eq {l : List Bool} (h : OperandsLast l) {args : List Arg}
    (hlen : l.length = args.length) : kept args l = args.drop (args.length - l.count false) := by
  have hle : l.count false ≤ l.length := List.count_le_length
  conv_lhs => rw [h.eq_append]
  rw [kept_replicate _ (by omega), hlen]

/-! ## The four builtins -/

/-- The builtins that parse their options with `getopt_r_string` or
`getopt_long_plus_r_string`. -/
inductive OptionBuiltin
  | echo | set | unset | cd
  deriving DecidableEq, Repr

namespace OptionBuiltin

/-- The options. -/
def optstring : OptionBuiltin → List UInt8
  | echo => [110, 101, 69]
  | set => [97, 98, 67, 101, 102, 104, 109, 110, 117, 118, 120, 111, 58]
  | unset => [102, 118]
  | cd => [76, 80, 101]

/-- Options with a plus. -/
def plusAware : OptionBuiltin → Bool
  | set => true
  | _ => false

/-- Where the arguments begin that the builtin goes on with. -/
def actsFrom : OptionBuiltin → List Arg → Except Halt ℕ
  | echo, args => (·.2) <$> echoOptions args
  | set, args => (·.2.optind) <$> setOptions args
  | unset, args => (·.2) <$> unsetOptions args
  | cd, args => (·.2) <$> cdOptions args

variable (b : OptionBuiltin) (args : List Arg)

/-- For each argument behind the name of the builtin whether it is consumed. -/
def consumed : List Bool := marks b.optstring b.plusAware false args

/-- The operands, in their order. -/
def operands : List Arg := kept args (b.consumed args)

end OptionBuiltin

/-- A builtin acts on its operands: the elements of its list from `optind` on, and what it prints,
sets or names. -/
structure ActsOnOperands (b : OptionBuiltin) (cmd : Arg) (args : List Arg) (optind : ℕ) :
    Prop where
  elements : List.range' optind ((cmd :: args).length - optind) = unmarked 1 (b.consumed args)
  echo : b = .echo → ∀ flags, echoOptions (cmd :: args) = .ok (flags, optind) →
    (∀ arg ∈ b.operands args, (echoArg flags arg).2 = false) →
    builtinEcho (cmd :: args) = .ok
      (List.intercalate [32] ((b.operands args).map fun arg => (echoArg flags arg).1) ++
        echoNewline flags)
  set : b = .set → ∀ answer, builtinSet (cmd :: args) = .ok answer →
    answer.params =
      if b.operands args ≠ [] ∨ args.contains [45, 45] then some (b.operands args) else none
  unset : b = .unset → ∀ answer, builtinUnset (cmd :: args) = .ok answer →
    answer.2 = b.operands args
  cd : b = .cd → ∀ answer, builtinCd (cmd :: args) = .ok answer →
    answer.2.toList = b.operands args

section

variable {cmd : Arg} {args : List Arg} {optind : ℕ}

theorem echoOption_ne_fuel (flags : EchoFlags) (c : UInt8) (st : GetoptState) :
    echoOption flags c st ≠ .error .fuel := nofun

theorem unsetOption_ne_fuel (flags : UnsetFlags) (c : UInt8) (st : GetoptState) :
    unsetOption flags c st ≠ .error .fuel := nofun

theorem cdOption_ne_fuel (flags : CdFlags) (c : UInt8) (st : GetoptState) :
    cdOption flags c st ≠ .error .fuel := nofun

theorem setOption_ne_fuel (s : SetOptions) (c : UInt8) (st : GetoptState) :
    setOption s c st ≠ .error .fuel := by
  unfold setOption
  split_ifs
  · exact nofun
  · cases st.optarg with
    | none => exact nofun
    | some arg =>
      dsimp only
      split_ifs <;> exact nofun
  · exact nofun
  · exact nofun

theorem map_eq_ok {α β : Type} {x : Except Halt α} {f : α → β} {y : β} (h : f <$> x = .ok y) :
    ∃ a, x = .ok a ∧ f a = y := by
  cases x with
  | error halt => cases h
  | ok a => exact ⟨a, rfl, Except.ok.inj h⟩

theorem bind_eq_ok {α β : Type} {x : Except Halt α} {f : α → Except Halt β} {y : β}
    (h : (x >>= f) = .ok y) : ∃ a, x = .ok a ∧ f a = .ok y := by
  cases x with
  | error halt => cases h
  | ok a => exact ⟨a, rfl, h⟩

theorem echoOptions_parse {args : List Arg} {flags : EchoFlags}
    (h : echoOptions args = .ok (flags, optind)) :
    ∃ st, parseOptions args [110, 101, 69] none false echoOption {} = .ok (flags, st) ∧
      st.optind = optind := by
  obtain ⟨⟨flags', st⟩, hparse, h⟩ := bind_eq_ok h
  dsimp only at h
  split_ifs at h
  cases h
  exact ⟨st, hparse, rfl⟩

theorem unsetOptions_parse {args : List Arg} {flags : UnsetFlags}
    (h : unsetOptions args = .ok (flags, optind)) :
    ∃ st, parseOptions args [102, 118] none false unsetOption {} = .ok (flags, st) ∧
      st.optind = optind := by
  obtain ⟨⟨flags', st⟩, hparse, h⟩ := bind_eq_ok h
  dsimp only at h
  split_ifs at h
  cases h
  exact ⟨st, hparse, rfl⟩

theorem cdOptions_parse {args : List Arg} {flags : CdFlags}
    (h : cdOptions args = .ok (flags, optind)) :
    ∃ flags' st, parseOptions args [76, 80, 101] none false cdOption {} = .ok (flags', st) ∧
      st.optind = optind := by
  obtain ⟨⟨flags', st⟩, hparse, h⟩ := bind_eq_ok h
  dsimp only at h
  split_ifs at h
  cases h
  exact ⟨flags', st, hparse, rfl⟩

/-- `getopt` leaves `optind` so many places before the end as there are operands. -/
theorem OptionBuiltin.actsFrom_optind {b : OptionBuiltin}
    (h : b.actsFrom (cmd :: args) = .ok optind) :
    optind + (b.consumed args).count false = args.length + 1 := by
  have hargs : cmd :: args ≠ [] := List.cons_ne_nil _ _
  cases b with
  | echo =>
    obtain ⟨⟨flags, _⟩, hrun, rfl⟩ := map_eq_ok h
    obtain ⟨st, hparse, hoptind⟩ := echoOptions_parse hrun
    exact hoptind ▸ parseOptions_optind hargs rfl nofun echoOption_ne_fuel hparse
  | set =>
    obtain ⟨⟨s, st⟩, hrun, rfl⟩ := map_eq_ok h
    have hW : WFree OptionBuiltin.set.optstring (some setOptionTable) := fun _ => by decide
    exact parseOptions_optind hargs rfl hW setOption_ne_fuel hrun
  | unset =>
    obtain ⟨⟨flags, _⟩, hrun, rfl⟩ := map_eq_ok h
    obtain ⟨st, hparse, hoptind⟩ := unsetOptions_parse hrun
    exact hoptind ▸ parseOptions_optind hargs rfl nofun unsetOption_ne_fuel hparse
  | cd =>
    obtain ⟨⟨flags, _⟩, hrun, rfl⟩ := map_eq_ok h
    obtain ⟨flags', st, hparse, hoptind⟩ := cdOptions_parse hrun
    exact hoptind ▸ parseOptions_optind hargs rfl nofun cdOption_ne_fuel hparse

theorem OptionBuiltin.length_consumed (b : OptionBuiltin) (args : List Arg) :
    (b.consumed args).length = args.length := length_marks _ _ _ _

/-- The elements from `optind` on are the operands if nothing is consumed behind one of them. -/
theorem OptionBuiltin.elements_iff {b : OptionBuiltin}
    (h : b.actsFrom (cmd :: args) = .ok optind) :
    List.range' optind ((cmd :: args).length - optind) = unmarked 1 (b.consumed args) ↔
      OperandsLast (b.consumed args) := by
  have hoptind := b.actsFrom_optind h
  have hlen := b.length_consumed args
  have hle : (b.consumed args).count false ≤ (b.consumed args).length := List.count_le_length
  rw [← unmarked_eq_range'_iff (i := 1), List.length_cons,
    show 1 + (b.consumed args).length - (b.consumed args).count false = optind by omega,
    show args.length + 1 - optind = (b.consumed args).count false by omega]

theorem OptionBuiltin.drop_optind {b : OptionBuiltin}
    (h : b.actsFrom (cmd :: args) = .ok optind) (hlast : OperandsLast (b.consumed args)) :
    (cmd :: args).drop optind = b.operands args := by
  have hoptind := b.actsFrom_optind h
  have hlen := b.length_consumed args
  have hle : (b.consumed args).count false ≤ (b.consumed args).length := List.count_le_length
  rw [OptionBuiltin.operands, hlast.kept_eq hlen,
    show optind = args.length - (b.consumed args).count false + 1 by omega]
  rfl

/-! ### echo -/

theorem echoArgs_cons {flags : EchoFlags} {arg : Arg} (h : (echoArg flags arg).2 = false)
    (first : Bool) (rest : List Arg) :
    echoArgs flags first (arg :: rest) =
      ((if first then [] else [32]) ++ (echoArg flags arg).1 ++ (echoArgs flags false rest).1,
        (echoArgs flags false rest).2) := by
  have hpair : echoArg flags arg = ((echoArg flags arg).1, false) := Prod.ext rfl h
  rw [echoArgs]
  generalize echoArg flags arg = pair at hpair ⊢
  rw [hpair]
  rfl

theorem echoArgs_rest {flags : EchoFlags} {l : List Arg}
    (h : ∀ arg ∈ l, (echoArg flags arg).2 = false) :
    echoArgs flags false l = ((l.map fun arg => 32 :: (echoArg flags arg).1).flatten, false) := by
  induction l with
  | nil => rfl
  | cons arg rest ih =>
    obtain ⟨harg, hall⟩ := List.forall_mem_cons.mp h
    rw [echoArgs_cons harg, ih hall]
    rfl

theorem intercalate_blank (text : List UInt8) (l : List (List UInt8)) :
    List.intercalate [32] (text :: l) = text ++ (l.map (32 :: ·)).flatten := by
  induction l generalizing text with
  | nil => simp [List.intercalate]
  | cons more l ih =>
    have hcons : List.intercalate [32] (text :: more :: l) =
        text ++ (32 :: List.intercalate [32] (more :: l)) := by
      simp [List.intercalate]
    rw [hcons, ih more]
    rfl

/-- What `echo` prints for arguments without `\c`. -/
theorem echoArgs_eq {flags : EchoFlags} {l : List Arg}
    (h : ∀ arg ∈ l, (echoArg flags arg).2 = false) :
    echoArgs flags true l =
      (List.intercalate [32] (l.map fun arg => (echoArg flags arg).1), false) := by
  cases l with
  | nil => rfl
  | cons arg rest =>
    obtain ⟨harg, hall⟩ := List.forall_mem_cons.mp h
    rw [echoArgs_cons harg, echoArgs_rest hall, List.map_cons, intercalate_blank, List.map_map]
    rfl

/-! ### set -/

section

variable {argv : List Arg} {optstring : List UInt8} {longopts : Option (List OptionEx)}
  {plusAware : Bool} {st st' : GetoptState} {c d : UInt8} {cs : Arg}

theorem missing_cases (optstring : List UInt8) : missing optstring = 58 ∨ missing optstring = 63 := by
  unfold missing
  split_ifs
  · exact .inl rfl
  · exact .inr rfl

theorem processShortOptionArg_error {error : UInt8}
    (h : processShortOptionArg argv optstring d st = (some error, st')) :
    error = missing optstring := by
  unfold processShortOptionArg at h
  cases hreq : getArgRequirement optstring d with
  | none =>
    rw [hreq] at h
    cases h
  | optional =>
    rw [hreq] at h
    dsimp only at h
    split_ifs at h <;> cases h
  | required =>
    rw [hreq] at h
    dsimp only at h
    split_ifs at h <;> cases h
    rfl

theorem processShortOptionArg_optarg (hreq : getArgRequirement optstring d = .required)
    (h : processShortOptionArg argv optstring d st = (none, st')) : st'.optarg.isSome = true := by
  rw [processShortOptionArg, hreq] at h
  dsimp only at h
  split_ifs at h <;> cases h <;> rfl

theorem handlePlusAwareShort_cases (isPlus : Bool) (longopts : List OptionEx) :
    ((handlePlusAwareShort d isPlus longopts st).1 = 63 ∨
      (handlePlusAwareShort d isPlus longopts st).1 = 0 ∨
      (handlePlusAwareShort d isPlus longopts st).1 = d) ∧
      (handlePlusAwareShort d isPlus longopts st).2.optarg = st.optarg := by
  unfold handlePlusAwareShort
  cases longopts.find? (·.val = d) with
  | none => exact ⟨.inr (.inr rfl), rfl⟩
  | some p =>
    dsimp only
    split_ifs
    · exact ⟨.inl rfl, rfl⟩
    · exact ⟨.inr (.inl rfl), rfl⟩
    all_goals exact ⟨.inr (.inr rfl), rfl⟩

/-- An option with an argument comes with its argument. -/
theorem shortOption_optarg (h : (shortOption argv optstring longopts plusAware st d cs).1 = c)
    (hreq : getArgRequirement optstring c = .required) (hzero : c ≠ 0) (hcolon : c ≠ 58)
    (hquestion : c ≠ 63) :
    (shortOption argv optstring longopts plusAware st d cs).2.optarg.isSome = true := by
  have hmissing : missing optstring ≠ c := fun heq => by
    rcases missing_cases optstring with hcase | hcase
    · exact hcolon (heq.symm.trans hcase)
    · exact hquestion (heq.symm.trans hcase)
  unfold shortOption at h ⊢
  dsimp only at h ⊢
  generalize ({ st with
    nextchar := cs, optind := if cs = [] then st.optind + 1 else st.optind } : GetoptState) = next
    at h ⊢
  by_cases hoption : (!isOption optstring d) = true
  · rw [if_pos hoption] at h
    exact absurd h.symm hquestion
  · rw [if_neg hoption] at h ⊢
    by_cases hW : d = 87 ∧ (optstring.dropWhile (· ≠ d)).tail.head? = some 59 ∧ longopts.isSome
    · rw [if_pos hW, handleWLongOption] at h
      split_ifs at h
      · exact absurd h hmissing
      · exact absurd h.symm hquestion
    · rw [if_neg hW] at h ⊢
      cases hprocess : processShortOptionArg argv optstring d next with
      | mk error st' =>
        rw [hprocess] at h
        cases error with
        | some error => exact absurd ((processShortOptionArg_error hprocess).symm.trans h) hmissing
        | none =>
          cases longopts with
          | none =>
            have hd : d = c := h
            exact processShortOptionArg_optarg (hd ▸ hreq) hprocess
          | some longopts =>
            dsimp only at h ⊢
            cases plusAware with
            | true =>
              obtain ⟨hcases, hoptarg⟩ :=
                @handlePlusAwareShort_cases st' d st.optPlusPrefix longopts
              have hd : d = c := by
                rcases hcases with hcase | hcase | hcase
                · exact absurd (h.symm.trans hcase) hquestion
                · exact absurd (h.symm.trans hcase) hzero
                · exact hcase.symm.trans h
              have hsome := processShortOptionArg_optarg (hd ▸ hreq) hprocess
              exact hoptarg ▸ hsome
            | false =>
              have hd : d = c := h
              exact processShortOptionArg_optarg (hd ▸ hreq) hprocess

theorem getoptInternal_optarg {args : List Arg}
    (h : getoptInternal args optstring longopts plusAware st = (some c, st'))
    (hreq : getArgRequirement (skipOptstring optstring) c = .required) (hzero : c ≠ 0)
    (hone : c ≠ 1) (hcolon : c ≠ 58) (hquestion : c ≠ 63) : st'.optarg.isSome = true := by
  by_cases hargs : args = []
  · rw [getoptInternal, if_pos hargs] at h
    cases h
  · rw [getoptInternal, if_neg hargs] at h
    dsimp only at h
    split at h
    · cases h
      exact shortOption_optarg rfl hreq hzero hcolon hquestion
    · split at h
      · cases h
      · cases h
        exact absurd rfl hone
      · cases h
        unfold dispatchOption at hreq hzero hcolon hquestion ⊢
        dsimp only at hreq hzero hcolon hquestion ⊢
        split_ifs at hreq hzero hcolon hquestion ⊢
        · exact absurd rfl hquestion
        · exact absurd rfl hquestion
        · exact shortOption_optarg rfl hreq hzero hcolon hquestion

end

/-- What every turn of the loop keeps. -/
theorem optionLoop_keeps {σ : Type} {args : List Arg} {optstring : List UInt8}
    {longopts : Option (List OptionEx)} {plusAware : Bool}
    {body : σ → UInt8 → GetoptState → Except Halt σ} {P : σ → Prop}
    (hbody : ∀ s s' c st st', P s →
      getoptInternal args optstring longopts plusAware st = (some c, st') →
      body s c st' = .ok s' → P s') {n : ℕ} {s s' : σ} {st st' : GetoptState} (hs : P s)
    (h : optionLoop args optstring longopts plusAware body n s st = .ok (s', st')) : P s' := by
  induction n generalizing s st with
  | zero => cases h
  | succ n ih =>
    rw [optionLoop] at h
    cases hcall : getoptInternal args optstring longopts plusAware st with
    | mk result next =>
      rw [hcall] at h
      cases result with
      | none =>
        cases h
        exact hs
      | some c =>
        obtain ⟨s'', hrun, hrest⟩ := bind_eq_ok h
        exact ih (hbody s s'' c st next hs hcall hrun) hrest

/-- `set -o` without a name is an error, so `set` never lists its options. -/
theorem setOptions_printOptions {args : List Arg} {s : SetOptions} {st : GetoptState}
    (h : setOptions args = .ok (s, st)) : s.printOptions = none := by
  refine optionLoop_keeps (P := fun s => s.printOptions = none) ?_ rfl h
  intro s s' c st st' hs hcall hrun
  unfold setOption at hrun
  split_ifs at hrun with hflag ho hquestion
  · cases hrun
    exact hs
  · subst ho
    cases hoptarg : st'.optarg with
    | none =>
      have hsome := getoptInternal_optarg hcall (by decide) (by decide) (by decide) (by decide)
        (by decide)
      rw [hoptarg] at hsome
      cases hsome
    | some arg =>
      rw [hoptarg] at hrun
      dsimp only at hrun
      split_ifs at hrun
      cases hrun
      exact hs

/-! ### The operands -/

theorem builtinSet_params (h : OptionBuiltin.actsFrom .set (cmd :: args) = .ok optind)
    {answer : SetAnswer} (hanswer : builtinSet (cmd :: args) = .ok answer) :
    answer.params =
      if (cmd :: args).drop optind ≠ [] ∨ args.contains [45, 45]
      then some ((cmd :: args).drop optind) else none := by
  obtain ⟨⟨s, st⟩, hset, hrest⟩ := bind_eq_ok hanswer
  obtain ⟨⟨s', st'⟩, hset', hoptind⟩ := map_eq_ok h
  cases hset.symm.trans hset'
  dsimp only at hrest hoptind
  subst hoptind
  have hnone : ¬s.printOptions.isSome = true := by
    rw [setOptions_printOptions hset]
    exact Bool.false_ne_true
  rw [if_neg hnone] at hrest
  have hcond : ((cmd :: args).drop st.optind ≠ [] ∨ args.contains [45, 45] = true) ↔
      st.optind < (cmd :: args).length ∨ args.contains [45, 45] = true := by
    rw [ne_eq, List.drop_eq_nil_iff, Nat.not_le]
  by_cases hrequest : st.optind < (cmd :: args).length ∨ args.contains [45, 45] = true
  · rw [if_pos (hcond.mpr hrequest)]
    rw [List.tail_cons, if_pos hrequest] at hrest
    cases hrest
    rfl
  · rw [if_neg (hcond.not.mpr hrequest)]
    rw [List.tail_cons, if_neg hrequest] at hrest
    split_ifs at hrest <;> cases hrest <;> rfl

theorem builtinUnset_names (h : OptionBuiltin.actsFrom .unset (cmd :: args) = .ok optind)
    {answer : Bool × List Arg} (hanswer : builtinUnset (cmd :: args) = .ok answer) :
    answer.2 = (cmd :: args).drop optind := by
  obtain ⟨⟨flags, optind'⟩, hrun, hrest⟩ := bind_eq_ok hanswer
  obtain ⟨⟨flags', _⟩, hrun', rfl⟩ := map_eq_ok h
  cases hrun.symm.trans hrun'
  cases hrest
  rfl

theorem builtinCd_directory (h : OptionBuiltin.actsFrom .cd (cmd :: args) = .ok optind)
    {answer : CdFlags × Option Arg} (hanswer : builtinCd (cmd :: args) = .ok answer) :
    answer.2.toList = (cmd :: args).drop optind := by
  obtain ⟨⟨flags, optind'⟩, hrun, hrest⟩ := bind_eq_ok hanswer
  obtain ⟨⟨flags', _⟩, hrun', rfl⟩ := map_eq_ok h
  cases hrun.symm.trans hrun'
  dsimp only at hrest ⊢
  split at hrest
  · rename_i hdrop
    cases hrest
    rw [hdrop]
    rfl
  · rename_i hdrop
    cases hrest
    rw [hdrop]
    rfl
  · cases hrest

end

/-- The builtins act on their operands if no option, and no `--`, stands behind one of them. -/
theorem actsOnOperands_iff (b : OptionBuiltin) (cmd : Arg) {args : List Arg} {optind : ℕ}
    (h : b.actsFrom (cmd :: args) = .ok optind) :
    ActsOnOperands b cmd args optind ↔ OperandsLast (b.consumed args) := by
  refine ⟨fun hacts => (b.elements_iff h).mp hacts.elements, fun hlast => ?_⟩
  have hdrop := b.drop_optind h hlast
  refine ⟨(b.elements_iff h).mpr hlast, ?_, ?_, ?_, ?_⟩
  · rintro rfl flags hflags hplain
    rw [builtinEcho, hflags]
    have hargs := echoArgs_eq hplain
    rw [← hdrop] at hargs ⊢
    exact congrArg Except.ok (by rw [hargs]; rfl)
  · rintro rfl answer hanswer
    rw [builtinSet_params h hanswer, hdrop]
  · rintro rfl answer hanswer
    rw [builtinUnset_names h hanswer, hdrop]
  · rintro rfl answer hanswer
    rw [builtinCd_directory h hanswer, hdrop]

/-- `set -e x`. -/
theorem actsOnOperands_iff_set :
    ActsOnOperands .set [115, 101, 116] [[45, 101], [120]] 2 := by
  have hacts : OptionBuiltin.actsFrom .set [[115, 101, 116], [45, 101], [120]] = .ok 2 := by
    decide +kernel
  exact (actsOnOperands_iff .set _ hacts).mpr (by decide +kernel)

/-- `echo a -n b` prints `-n b`. -/
theorem echo_not_actsOnOperands :
    builtinEcho [[101, 99, 104, 111], [97], [45, 110], [98]] = .ok [45, 110, 32, 98] ∧
      OptionBuiltin.actsFrom .echo [[101, 99, 104, 111], [97], [45, 110], [98]] = .ok 2 ∧
      OptionBuiltin.operands .echo [[97], [45, 110], [98]] = [[97], [98]] ∧
      ¬ActsOnOperands .echo [101, 99, 104, 111] [[97], [45, 110], [98]] 2 := by
  refine ⟨by decide +kernel, by decide +kernel, by decide +kernel, fun hacts => ?_⟩
  exact absurd hacts.elements (by decide +kernel)

end Migash.Exec.Getopt
