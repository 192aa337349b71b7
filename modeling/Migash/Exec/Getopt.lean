import Mathlib.Algebra.GroupWithZero.Nat
import Mathlib.Data.List.TakeWhile
import Mathlib.Tactic.SplitIfs

/-! # The option parser of the builtins

`getopt` is called once for every option, each time with a fresh copy of the
argument vector, and keeps its place in a state. Where an operand stands before
an option it moves the operands behind the options, in a copy that nobody looks at
afterwards, and counts on the caller to look at the moved vector.
-/

namespace Migash.Exec.Getopt

/-- An argument, without its NUL. -/
abbrev Arg := List UInt8

/-- `getopt_ordering_t`. -/
inductive Ordering
  | requireOrder | permute | returnInOrder
  deriving DecidableEq, Repr

/-- `struct getopt_state`; `nextchar` is empty for the null pointer too, `writes` is what was
stored through the flags of the option table. -/
structure GetoptState where
  optind : ℕ := 1
  optopt : UInt8 := 63
  optarg : Option Arg := none
  initialized : Bool := false
  nextchar : Arg := []
  ordering : Ordering := .requireOrder
  firstNonopt : ℕ := 0
  lastNonopt : ℕ := 0
  optPlusPrefix : Bool := false
  posixHyphen : Bool := false
  externalArgv : Option (List Arg) := none
  writes : List (UInt8 × Bool) := []
  deriving DecidableEq, Repr

/-- `struct option_ex`, for an entry without a long name. -/
structure OptionEx where
  allowPlus : Bool
  flag : Bool
  val : UInt8
  deriving DecidableEq, Repr

/-! ## Arguments -/

/-- `argv[i]`. -/
def argAt (argv : List Arg) (i : ℕ) : Arg := argv.getD i []

/-- `is_nonoption`. -/
def isNonoption (arg : Arg) : Bool := (arg.headD 0 ≠ 45 && arg.headD 0 ≠ 43) || arg.tail = []

/-- `is_lone_hyphen`. -/
def isLoneHyphen (arg : Arg) : Bool := arg = [45]

/-- `is_double_dash`. -/
def isDoubleDash (arg : Arg) : Bool := arg = [45, 45]

/-- `is_long_option`. -/
def isLongOption : Arg → Bool
  | 45 :: 45 :: _ :: _ => true
  | _ => false

/-- `is_long_plus_option`. -/
def isLongPlusOption : Arg → Bool
  | 43 :: 43 :: _ :: _ => true
  | _ => false

/-! ## Permutation -/

/-- Two entries change places. -/
def swapAt (argv : List Arg) (i j : ℕ) : List Arg :=
  (argv.set i (argAt argv j)).set j (argAt argv i)

/-- The inner loops of `exchange`: `len` entries from `a` and `b` on change places. -/
def swapSegments (argv : List Arg) (a b : ℕ) : ℕ → List Arg
  | 0 => argv
  | len + 1 => swapAt (swapSegments argv a b len) (a + len) (b + len)

/-- The loop of `exchange`, with at most `n` turns left. -/
def exchangeLoop (bottom middle top : ℕ) (argv : List Arg) : ℕ → List Arg
  | 0 => argv
  | n + 1 =>
    if top > middle ∧ middle > bottom then
      if top - middle > middle - bottom then
        let len := middle - bottom
        exchangeLoop bottom middle (top - len) (swapSegments argv bottom (top - len) len) n
      else
        let len := top - middle
        exchangeLoop (bottom + len) middle top (swapSegments argv bottom middle len) n
    else argv

/-- `exchange`. The first time it moves the entries of a copy, later those of its argument. -/
def exchange (argv : List Arg) (st : GetoptState) : List Arg × GetoptState :=
  let moved := exchangeLoop st.firstNonopt st.lastNonopt st.optind argv st.optind
  let st' := { st with
    firstNonopt := st.firstNonopt + (st.optind - st.lastNonopt), lastNonopt := st.optind }
  match st.externalArgv with
  | none => (argv, { st' with externalArgv := some moved })
  | some _ => (moved, st')

/-- `finalize_nonoptions`. -/
def finalizeNonoptions (argv : List Arg) (st : GetoptState) : List Arg × GetoptState :=
  let (argv, st) :=
    if st.firstNonopt ≠ st.lastNonopt ∧ st.lastNonopt ≠ st.optind then exchange argv st
    else if st.firstNonopt = st.lastNonopt then (argv, { st with firstNonopt := st.optind })
    else (argv, st)
  (argv, { st with lastNonopt := argv.length })

/-! ## The next option -/

/-- `advance_result_t`. -/
inductive Advance
  | continue_ | end_ | nonoption
  deriving DecidableEq, Repr

/-- The indices of `advance_to_next_option`, clamped. -/
def clampIndices (st : GetoptState) : GetoptState :=
  { st with
    lastNonopt := if st.lastNonopt > st.optind then st.optind else st.lastNonopt
    firstNonopt := if st.firstNonopt > st.optind then st.optind else st.firstNonopt }

/-- Past the operands, which are moved if options stand before them. -/
def skipNonoptions (argv : List Arg) (st : GetoptState) : List Arg × GetoptState :=
  let (argv, st) :=
    if st.firstNonopt ≠ st.lastNonopt ∧ st.lastNonopt ≠ st.optind then exchange argv st
    else if st.lastNonopt ≠ st.optind then (argv, { st with firstNonopt := st.optind })
    else (argv, st)
  let skipped := (argv.drop st.optind).takeWhile fun arg =>
    isNonoption arg && !(st.posixHyphen && isLoneHyphen arg)
  let optind := st.optind + skipped.length
  (argv, { st with optind := optind, lastNonopt := optind })

/-- The terminators `--` and, where that is asked for, `-`. -/
def skipTerminators (argv : List Arg) (st : GetoptState) : List Arg × GetoptState :=
  let (argv, st) :=
    if st.optind < argv.length ∧ isDoubleDash (argAt argv st.optind) then
      finalizeNonoptions argv { st with optind := st.optind + 1 }
    else (argv, st)
  if st.posixHyphen ∧ st.optind < argv.length ∧ isLoneHyphen (argAt argv st.optind) then
    finalizeNonoptions argv { st with optind := st.optind + 1 }
  else (argv, st)

/-- `advance_to_next_option`. -/
def advanceToNextOption (argv : List Arg) (st : GetoptState) : Advance × List Arg × GetoptState :=
  let st := clampIndices st
  let (argv, st) := if st.ordering = .permute then skipNonoptions argv st else (argv, st)
  let (argv, st) := skipTerminators argv st
  if st.optind ≥ argv.length ∨ st.lastNonopt = argv.length then
    (.end_, argv, if st.firstNonopt ≠ st.lastNonopt then { st with optind := st.firstNonopt } else st)
  else if isNonoption (argAt argv st.optind) then
    if st.ordering = .requireOrder then (.end_, argv, st)
    else (.nonoption, argv,
      { st with optarg := some (argAt argv st.optind), optind := st.optind + 1 })
  else (.continue_, argv, st)

/-! ## One option -/

/-- `arg_requirement_t`. -/
inductive Requirement
  | none | required | optional
  deriving DecidableEq, Repr

/-- `strchr(optstring, c)` finds an option. -/
def isOption (optstring : List UInt8) (c : UInt8) : Bool :=
  optstring.contains c && c ≠ 58 && c ≠ 59

/-- `get_arg_requirement`. -/
def getArgRequirement (optstring : List UInt8) (c : UInt8) : Requirement :=
  if !isOption optstring c then .none
  else match optstring.dropWhile (· ≠ c) with
    | _ :: 58 :: 58 :: _ => .optional
    | _ :: 58 :: _ => .required
    | _ => .none

/-- What an error returns where an argument is missing. -/
def missing (optstring : List UInt8) : UInt8 := if optstring.head? = some 58 then 58 else 63

/-- `process_short_option_arg`: the error, if there is one. -/
def processShortOptionArg (argv : List Arg) (optstring : List UInt8) (c : UInt8)
    (st : GetoptState) : Option UInt8 × GetoptState :=
  match getArgRequirement optstring c with
  | .optional =>
    if st.nextchar ≠ [] then
      (none, { st with optarg := some st.nextchar, optind := st.optind + 1, nextchar := [] })
    else (none, { st with optarg := none })
  | .required =>
    if st.nextchar ≠ [] then
      (none, { st with optarg := some st.nextchar, optind := st.optind + 1, nextchar := [] })
    else if st.optind ≥ argv.length then (some (missing optstring), { st with optopt := c })
    else (none, { st with optarg := some (argAt argv st.optind), optind := st.optind + 1 })
  | .none => (none, st)

/-- `handle_plus_aware_short`. -/
def handlePlusAwareShort (c : UInt8) (isPlus : Bool) (longopts : List OptionEx)
    (st : GetoptState) : UInt8 × GetoptState :=
  match longopts.find? (·.val = c) with
  | none => (c, st)
  | some p =>
    if isPlus then
      if !p.allowPlus then (63, { st with optopt := c })
      else if p.flag then (0, { st with writes := st.writes ++ [(c, false)] })
      else (c, st)
    else if p.flag then (c, { st with writes := st.writes ++ [(c, true)] })
    else (c, st)

/-- `process_long_option` for a table in which no entry has a name: nothing is found. -/
def processLongOption (st : GetoptState) : UInt8 × GetoptState :=
  (63, { st with nextchar := [], optind := st.optind + 1, optopt := 0 })

/-- `handle_W_long_option`. -/
def handleWLongOption (argv : List Arg) (optstring : List UInt8) (c : UInt8) (st : GetoptState) :
    UInt8 × GetoptState :=
  if st.nextchar = [] ∧ st.optind ≥ argv.length then (missing optstring, { st with optopt := c })
  else processLongOption st

/-- The second phase of `_getopt_internal_r`, at the character `c` of a cluster. -/
def shortOption (argv : List Arg) (optstring : List UInt8) (longopts : Option (List OptionEx))
    (plusAware : Bool) (st : GetoptState) (c : UInt8) (cs : Arg) : UInt8 × GetoptState :=
  let isPlus := st.optPlusPrefix
  let st := { st with nextchar := cs, optind := if cs = [] then st.optind + 1 else st.optind }
  if !isOption optstring c then (63, { st with optopt := c })
  else if c = 87 ∧ (optstring.dropWhile (· ≠ c)).tail.head? = some 59 ∧ longopts.isSome then
    handleWLongOption argv optstring c st
  else match processShortOptionArg argv optstring c st, longopts with
    | (some error, st), _ => (error, st)
    | (none, st), some longopts =>
      if plusAware then handlePlusAwareShort c isPlus longopts st else (c, st)
    | (none, st), none => (c, st)

/-- The handler of an argument that is an option. -/
def dispatchOption (argv : List Arg) (optstring : List UInt8) (longopts : Option (List OptionEx))
    (plusAware : Bool) (st : GetoptState) : UInt8 × GetoptState :=
  let arg := argAt argv st.optind
  if isLongOption arg then processLongOption { st with optPlusPrefix := false }
  else if plusAware ∧ isLongPlusOption arg then processLongOption { st with optPlusPrefix := true }
  else shortOption argv optstring longopts plusAware
    { st with optPlusPrefix := arg.headD 0 = 43 } (arg.tail.headD 0) arg.tail.tail

/-- The ordering that the first character of the options asks for. -/
def orderingOf : List UInt8 → Ordering
  | 45 :: _ => .returnInOrder
  | 43 :: _ => .requireOrder
  | _ => .permute

/-- `skip_optstring_prefix`. -/
def skipOptstring : List UInt8 → List UInt8
  | 45 :: optstring => optstring
  | 43 :: optstring => optstring
  | optstring => optstring

/-- The start of a run of calls. -/
def startState (optstring : List UInt8) (st : GetoptState) : GetoptState :=
  let optind := if st.optind = 0 then 1 else st.optind
  { st with
    optind := optind, firstNonopt := optind, lastNonopt := optind, nextchar := [],
    initialized := true, ordering := orderingOf optstring }

/-- `_getopt_internal_r` without `long_only` and `posixly_correct`; no result is the end. -/
def getoptInternal (argv : List Arg) (optstring : List UInt8) (longopts : Option (List OptionEx))
    (plusAware : Bool) (st : GetoptState) : Option UInt8 × GetoptState :=
  if argv = [] then (none, st)
  else
    let st := { st with optarg := none }
    let st := if st.optind = 0 ∨ st.initialized = false then startState optstring st else st
    let optstring := skipOptstring optstring
    match st.nextchar with
    | c :: cs =>
      let (result, st) := shortOption argv optstring longopts plusAware st c cs
      (some result, st)
    | [] =>
      match advanceToNextOption argv st with
      | (.end_, _, st) => (none, st)
      | (.nonoption, _, st) => (some 1, st)
      | (.continue_, argv, st) =>
        let (result, st) := dispatchOption argv optstring longopts plusAware st
        (some result, st)

/-! ## What the parser consumes -/

section Marks

variable (optstring : List UInt8) (plusAware : Bool)

/-- The characters of an argument that are options; a long option has none. -/
def clusterOf (arg : Arg) : Arg :=
  if isLongOption arg || (plusAware && isLongPlusOption arg) then [] else arg.tail

/-- The last option of a cluster takes the next argument. -/
def takesNext (cs : Arg) : Bool :=
  match cs.dropWhile fun c => getArgRequirement optstring c = .none with
  | [c] => getArgRequirement optstring c = .required
  | _ => false

/-- For each argument whether the parser consumes it: as an option, as the argument of the option
before it, or as the terminator. -/
def marks : Bool → List Arg → List Bool
  | _, [] => []
  | true, _ :: rest => true :: marks false rest
  | false, arg :: rest =>
    if isNonoption arg then false :: marks false rest
    else if isDoubleDash arg then true :: rest.map fun _ => false
    else true :: marks (takesNext optstring (clusterOf plusAware arg)) rest

theorem length_marks (taken : Bool) (args : List Arg) :
    (marks optstring plusAware taken args).length = args.length := by
  induction args generalizing taken with
  | nil => cases taken <;> rfl
  | cons arg rest ih =>
    cases taken with
    | true => exact congrArg Nat.succ (ih false)
    | false =>
      rw [marks]
      split_ifs
      · exact congrArg Nat.succ (ih false)
      · exact congrArg Nat.succ (List.length_map _)
      · exact congrArg Nat.succ (ih _)

/-- The operands that the parser finds. -/
def operandCount (taken : Bool) (args : List Arg) : ℕ :=
  (marks optstring plusAware taken args).count false

theorem operandCount_nil (taken : Bool) : operandCount optstring plusAware taken [] = 0 := by
  cases taken <;> rfl

theorem operandCount_taken (arg : Arg) (rest : List Arg) :
    operandCount optstring plusAware true (arg :: rest) =
      operandCount optstring plusAware false rest :=
  List.count_cons_of_ne (by decide)

/-- Operands up to the next option. -/
theorem operandCount_takeWhile (args : List Arg) :
    operandCount optstring plusAware false args = (args.takeWhile isNonoption).length +
      operandCount optstring plusAware false (args.dropWhile isNonoption) := by
  induction args with
  | nil => rfl
  | cons arg rest ih =>
    cases harg : isNonoption arg with
    | true =>
      rw [List.takeWhile_cons_of_pos harg, List.dropWhile_cons_of_pos harg, operandCount, marks,
        if_pos harg, List.count_cons_self, ← operandCount, ih, List.length_cons]
      omega
    | false =>
      have hneg : ¬isNonoption arg = true := Bool.eq_false_iff.mp harg
      rw [List.takeWhile_cons_of_neg hneg, List.dropWhile_cons_of_neg hneg, List.length_nil,
        Nat.zero_add]

end Marks

/-! ## Moving operands -/

theorem length_swapAt (argv : List Arg) (i j : ℕ) : (swapAt argv i j).length = argv.length := by
  rw [swapAt, List.length_set, List.length_set]

theorem drop_swapAt {i j k : ℕ} (argv : List Arg) (hi : i < k) (hj : j < k) :
    (swapAt argv i j).drop k = argv.drop k := by
  rw [swapAt, List.drop_set_of_lt hj, List.drop_set_of_lt hi]

theorem length_swapSegments (argv : List Arg) (a b len : ℕ) :
    (swapSegments argv a b len).length = argv.length := by
  induction len with
  | zero => rfl
  | succ len ih => rw [swapSegments, length_swapAt, ih]

theorem drop_swapSegments {a b len k : ℕ} (argv : List Arg) (ha : a + len ≤ k) (hb : b + len ≤ k) :
    (swapSegments argv a b len).drop k = argv.drop k := by
  induction len with
  | zero => rfl
  | succ len ih =>
    rw [swapSegments, drop_swapAt _ (by omega) (by omega), ih (by omega) (by omega)]

theorem length_exchangeLoop (bottom middle top : ℕ) (argv : List Arg) (n : ℕ) :
    (exchangeLoop bottom middle top argv n).length = argv.length := by
  induction n generalizing bottom top argv with
  | zero => rfl
  | succ n ih =>
    rw [exchangeLoop]
    split_ifs
    · rw [ih, length_swapSegments]
    · rw [ih, length_swapSegments]
    · rfl

/-- What comes after the segments stays. -/
theorem drop_exchangeLoop {bottom middle top k : ℕ} (argv : List Arg) (n : ℕ) (hk : top ≤ k) :
    (exchangeLoop bottom middle top argv n).drop k = argv.drop k := by
  induction n generalizing bottom top argv with
  | zero => rfl
  | succ n ih =>
    rw [exchangeLoop]
    split_ifs
    · rw [ih _ (by omega), drop_swapSegments _ (by omega) (by omega)]
    · rw [ih _ hk, drop_swapSegments _ (by omega) (by omega)]
    · rfl

theorem exchange_spec (argv : List Arg) (st : GetoptState) :
    ∃ argv' external, exchange argv st = (argv', { st with
        firstNonopt := st.firstNonopt + (st.optind - st.lastNonopt), lastNonopt := st.optind,
        externalArgv := external }) ∧
      argv'.length = argv.length ∧ argv'.drop st.optind = argv.drop st.optind := by
  rw [exchange]
  cases st.externalArgv with
  | none => exact ⟨argv, _, rfl, rfl, rfl⟩
  | some external =>
    exact ⟨_, some external, rfl, length_exchangeLoop _ _ _ _ _,
      drop_exchangeLoop _ _ (Nat.le_refl _)⟩

/-! ## From one option to the next -/

/-- A state between two arguments of a list of `argc`. -/
structure Between (argc : ℕ) (st : GetoptState) : Prop where
  initialized : st.initialized = true
  ordering : st.ordering = .permute
  noHyphen : st.posixHyphen = false
  nextchar : st.nextchar = []
  first_le : st.firstNonopt ≤ st.lastNonopt
  last_le : st.lastNonopt ≤ st.optind
  bound : st.optind ≤ argc
  pos : 0 < st.optind

/-- The operands that were found so far. -/
def GetoptState.found (st : GetoptState) : ℕ := st.lastNonopt - st.firstNonopt

section Advance

variable {argv : List Arg} {st : GetoptState}

theorem clampIndices_eq (h : Between argv.length st) : clampIndices st = st := by
  have hfirst := h.first_le
  have hlast := h.last_le
  rw [clampIndices, if_neg (by omega), if_neg (by omega)]

theorem drop_length_takeWhile (l : List Arg) :
    l.drop (l.takeWhile isNonoption).length = l.dropWhile isNonoption :=
  calc l.drop (l.takeWhile isNonoption).length
      = (l.takeWhile isNonoption ++ l.dropWhile isNonoption).drop
          (l.takeWhile isNonoption).length := by rw [List.takeWhile_append_dropWhile]
    _ = l.dropWhile isNonoption := List.drop_left

/-- The operands that are skipped join the ones found before. -/
theorem skipNonoptions_spec (h : Between argv.length st) :
    ∃ argv' st', skipNonoptions argv st = (argv', st') ∧ Between argv.length st' ∧
      argv'.length = argv.length ∧
      argv'.drop st'.optind = (argv.drop st.optind).dropWhile isNonoption ∧
      st'.lastNonopt = st'.optind ∧
      st'.found = st.found + ((argv.drop st.optind).takeWhile isNonoption).length ∧
      st'.optind = st.optind + ((argv.drop st.optind).takeWhile isNonoption).length := by
  have hfirst := h.first_le
  have hlast := h.last_le
  have hpredicate : (fun arg => isNonoption arg && !(st.posixHyphen && isLoneHyphen arg)) =
      isNonoption := by
    rw [h.noHyphen]
    exact funext fun arg => Bool.and_true _
  have hbound : st.optind + ((argv.drop st.optind).takeWhile isNonoption).length ≤ argv.length := by
    have hle := (List.takeWhile_sublist (p := isNonoption) (l := argv.drop st.optind)).length_le
    rw [List.length_drop] at hle
    have := h.bound
    omega
  have hdrop {argv' : List Arg} (heq : argv'.drop st.optind = argv.drop st.optind) :
      argv'.drop (st.optind + ((argv.drop st.optind).takeWhile isNonoption).length) =
        (argv.drop st.optind).dropWhile isNonoption := by
    rw [← List.drop_drop, heq]
    exact drop_length_takeWhile _
  rw [skipNonoptions]
  by_cases hmoved : st.firstNonopt ≠ st.lastNonopt ∧ st.lastNonopt ≠ st.optind
  · obtain ⟨argv', external, hexchange, hlen, hrest⟩ := exchange_spec argv st
    rw [if_pos hmoved, hexchange]
    dsimp only
    rw [hpredicate, hrest]
    refine ⟨argv', _, rfl, ⟨h.initialized, h.ordering, h.noHyphen, h.nextchar, ?_, Nat.le_refl _,
      hbound, Nat.add_pos_left h.pos _⟩, hlen, hdrop hrest, rfl, ?_, rfl⟩
    · dsimp only
      omega
    · unfold GetoptState.found
      dsimp only
      omega
  · rw [if_neg hmoved]
    by_cases hbehind : st.lastNonopt ≠ st.optind
    · rw [if_pos hbehind]
      dsimp only
      rw [hpredicate]
      refine ⟨argv, _, rfl, ⟨h.initialized, h.ordering, h.noHyphen, h.nextchar, Nat.le_add_right _ _,
        Nat.le_refl _, hbound, Nat.add_pos_left h.pos _⟩, rfl, hdrop rfl, rfl, ?_, rfl⟩
      unfold GetoptState.found
      dsimp only
      omega
    · rw [if_neg hbehind]
      dsimp only
      rw [hpredicate]
      refine ⟨argv, _, rfl, ⟨h.initialized, h.ordering, h.noHyphen, h.nextchar, ?_, Nat.le_refl _,
        hbound, Nat.add_pos_left h.pos _⟩, rfl, hdrop rfl, rfl, ?_, rfl⟩
      · dsimp only
        omega
      · unfold GetoptState.found
        dsimp only
        omega

theorem argAt_of_drop {arg : Arg} {rest : List Arg} {k : ℕ} (h : argv.drop k = arg :: rest) :
    argAt argv k = arg ∧ k < argv.length ∧ argv.drop (k + 1) = rest := by
  have hget : argv[k]? = some arg := by
    rw [← List.head?_drop, h]
    rfl
  obtain ⟨hlt, -⟩ := List.getElem?_eq_some_iff.mp hget
  refine ⟨?_, hlt, ?_⟩
  · rw [argAt, List.getD_eq_getElem?_getD, hget]
    rfl
  · rw [← List.drop_drop, h]
    rfl

theorem isNonoption_of_dropWhile {args rest : List Arg} {arg : Arg}
    (h : args.dropWhile isNonoption = arg :: rest) : isNonoption arg = false := by
  have hhead := List.head?_dropWhile_not isNonoption args
  rw [h] at hhead
  simpa using hhead

/-- The terminator: all that follows it are operands. -/
theorem finalizeNonoptions_spec (h : Between argv.length st) (hlast : st.lastNonopt = st.optind) :
    ∃ argv' st', finalizeNonoptions argv { st with optind := st.optind + 1 } = (argv', st') ∧
      argv'.length = argv.length ∧ st'.lastNonopt = argv.length ∧ st'.posixHyphen = false ∧
      st'.firstNonopt + st.found = st.optind + 1 ∧ st'.optind = st.optind + 1 := by
  have hfirst := h.first_le
  rw [finalizeNonoptions]
  dsimp only
  by_cases hblock : st.firstNonopt ≠ st.lastNonopt
  · obtain ⟨argv', external, hexchange, hlen, -⟩ :=
      exchange_spec argv { st with optind := st.optind + 1 }
    rw [if_pos ⟨hblock, by omega⟩, hexchange]
    refine ⟨argv', _, rfl, hlen, hlen, h.noHyphen, ?_, rfl⟩
    unfold GetoptState.found
    dsimp only
    omega
  · rw [if_neg fun hboth => hblock hboth.1, if_pos (not_not.mp hblock)]
    refine ⟨argv, _, rfl, rfl, rfl, h.noHyphen, ?_, rfl⟩
    unfold GetoptState.found
    dsimp only
    omega

/-- The end: `optind` is where the operands are after the moves. -/
theorem end_optind {n : ℕ} (hfirst : st.firstNonopt ≤ st.lastNonopt) (hlast : st.lastNonopt = n)
    (hoptind : st.firstNonopt = n → st.optind = n) :
    (if st.firstNonopt ≠ st.lastNonopt then { st with optind := st.firstNonopt } else st).optind +
      st.found = n := by
  unfold GetoptState.found
  split_ifs with h
  · dsimp only
    omega
  · omega

/-- What the parser is left with: nothing, the terminator, or an option. -/
theorem advanceToNextOption_spec (optstring : List UInt8) (plusAware : Bool)
    (h : Between argv.length st) :
    ∃ argv' st', (advanceToNextOption argv st = (.end_, argv', st') ∧
        st'.optind + (st.found + operandCount optstring plusAware false (argv.drop st.optind)) =
          argv.length) ∨
      (advanceToNextOption argv st = (.continue_, argv', st') ∧ Between argv.length st' ∧
        argv'.length = argv.length ∧ argv'.drop st'.optind = argv.drop st'.optind ∧
        st.optind ≤ st'.optind ∧ st'.optind < argv.length ∧
        isNonoption (argAt argv st'.optind) = false ∧
        isDoubleDash (argAt argv st'.optind) = false ∧
        st'.found + operandCount optstring plusAware false (argv.drop st'.optind) =
          st.found + operandCount optstring plusAware false (argv.drop st.optind)) := by
  obtain ⟨argv', st', hskip, hst', hlen, hrest, hlast, hfound, hoptind⟩ := skipNonoptions_spec h
  have hcount := operandCount_takeWhile optstring plusAware (argv.drop st.optind)
  rw [advanceToNextOption, clampIndices_eq h, if_pos h.ordering, hskip]
  dsimp only
  rw [← hrest] at hcount
  cases hleft : argv'.drop st'.optind with
  | nil =>
    have hge : argv'.length ≤ st'.optind := List.drop_eq_nil_iff.mp hleft
    have hbound := hst'.bound
    have hterminators : skipTerminators argv' st' = (argv', st') := by
      rw [skipTerminators, if_neg fun hboth => by omega]
      exact if_neg fun hall => by omega
    have hend := end_optind hst'.first_le (show st'.lastNonopt = argv.length by omega) (by omega)
    rw [hterminators]
    dsimp only
    rw [if_pos (.inl hge)]
    refine ⟨argv', _, .inl ⟨rfl, ?_⟩⟩
    rw [hleft, operandCount_nil] at hcount
    rw [hcount, Nat.add_zero, ← hfound]
    exact hend
  | cons arg rest =>
    obtain ⟨harg, hlt, hdrop⟩ := argAt_of_drop hleft
    have hoption := isNonoption_of_dropWhile (hrest.symm.trans hleft)
    rw [hleft] at hcount
    cases hdouble : isDoubleDash arg with
    | true =>
      have hbetween : Between argv'.length st' := hlen ▸ hst'
      obtain ⟨argv'', st'', hfinal, hlen', hlast', hhyphen, hfirst', hoptind'⟩ :=
        finalizeNonoptions_spec hbetween hlast
      have hterminators : skipTerminators argv' st' = (argv'', st'') := by
        rw [skipTerminators, harg, if_pos ⟨hlt, hdouble⟩, hfinal]
        exact if_neg fun hall => by rw [hhyphen] at hall; cases hall.1
      have hrestCount : operandCount optstring plusAware false (arg :: rest) = rest.length := by
        rw [operandCount, marks, if_neg (Bool.eq_false_iff.mp hoption), if_pos hdouble,
          List.count_cons_of_ne (by decide), List.map_const', List.count_replicate_self]
      have hrestLength : rest.length = argv'.length - (st'.optind + 1) := by
        rw [← hdrop, List.length_drop]
      have hfirst := hst'.first_le
      have hfoundEq : st'.found = st'.lastNonopt - st'.firstNonopt := rfl
      have hend := end_optind (show st''.firstNonopt ≤ st''.lastNonopt by omega) hlast' (by omega)
      have hblock : st''.found = st''.lastNonopt - st''.firstNonopt := rfl
      rw [hterminators]
      dsimp only
      rw [if_pos (.inr (hlast'.trans hlen'.symm))]
      refine ⟨argv'', _, .inl ⟨rfl, ?_⟩⟩
      rw [hrestCount] at hcount
      omega
    | false =>
      have hterminators : skipTerminators argv' st' = (argv', st') := by
        rw [skipTerminators, harg, hdouble, if_neg fun hboth => Bool.false_ne_true hboth.2]
        exact if_neg fun hall => by rw [hst'.noHyphen] at hall; cases hall.1
      have hsame : argv.drop st'.optind = argv'.drop st'.optind := by
        rw [hrest, hoptind, ← List.drop_drop, drop_length_takeWhile]
      obtain ⟨hargv, -⟩ := argAt_of_drop (hsame.trans hleft)
      rw [hterminators]
      dsimp only
      rw [if_neg (by omega), harg, if_neg (Bool.eq_false_iff.mp hoption)]
      refine ⟨argv', st', .inr ⟨rfl, hst', hlen, hsame.symm, by omega, by omega, hargv ▸ hoption,
        hargv ▸ hdouble, ?_⟩⟩
      rw [hsame, hleft, hcount, hfound, Nat.add_assoc]

end Advance

/-! ## A run of calls -/

section Walks

variable {optstring : List UInt8} {plusAware : Bool} {longopts : Option (List OptionEx)}
  {args argv : List Arg} {m : ℕ} {st : GetoptState} {c : UInt8} {cs : Arg}

/-- The operands that are still to come. -/
def operandsLeft (optstring : List UInt8) (plusAware : Bool) (args : List Arg)
    (st : GetoptState) : ℕ :=
  if st.nextchar = [] then operandCount optstring plusAware false (args.drop st.optind)
  else operandCount optstring plusAware (takesNext optstring st.nextchar)
    (args.drop (st.optind + 1))

/-- A state between two calls, where the arguments have `m` operands in all. -/
structure Walks (optstring : List UInt8) (plusAware : Bool) (args : List Arg) (m : ℕ)
    (st : GetoptState) : Prop where
  initialized : st.initialized = true
  ordering : st.ordering = .permute
  noHyphen : st.posixHyphen = false
  first_le : st.firstNonopt ≤ st.lastNonopt
  last_le : st.lastNonopt ≤ st.optind
  bound : st.optind + (if st.nextchar = [] then 0 else 1) ≤ args.length
  count : st.found + operandsLeft optstring plusAware args st = m
  pos : 0 < st.optind

/-- The characters that are left, and one for each argument. -/
def weight (args : List Arg) : ℕ := (args.map fun arg => arg.length + 1).sum

/-- What the calls have not come past yet. -/
def ahead (args : List Arg) (st : GetoptState) : ℕ :=
  if st.nextchar = [] then weight (args.drop st.optind)
  else st.nextchar.length + weight (args.drop (st.optind + 1))

theorem weight_drop {arg : Arg} {rest : List Arg} {k : ℕ} (h : args.drop k = arg :: rest) :
    weight (args.drop k) = arg.length + 1 + weight (args.drop (k + 1)) := by
  obtain ⟨-, -, hdrop⟩ := argAt_of_drop h
  rw [hdrop, h]
  exact List.sum_cons

theorem weight_drop_le (args : List Arg) (k : ℕ) :
    weight (args.drop (k + 1)) ≤ weight (args.drop k) := by
  cases h : args.drop k with
  | nil =>
    rw [← List.drop_drop, h]
    exact Nat.le_refl _
  | cons arg rest =>
    rw [← h, weight_drop h]
    exact Nat.le_add_left _ _

theorem weight_drop_antitone {i j : ℕ} (h : i ≤ j) : weight (args.drop j) ≤ weight (args.drop i) := by
  induction h with
  | refl => exact Nat.le_refl _
  | step _ ih => exact (weight_drop_le args _).trans ih

theorem takesNext_cons_none (h : getArgRequirement optstring c = .none) (cs : Arg) :
    takesNext optstring (c :: cs) = takesNext optstring cs := by
  rw [takesNext, List.dropWhile_cons_of_pos (by simpa using h)]
  rfl

theorem takesNext_cons (h : getArgRequirement optstring c ≠ .none) (cs : Arg) :
    takesNext optstring (c :: cs) =
      decide (cs = [] ∧ getArgRequirement optstring c = .required) := by
  rw [takesNext, List.dropWhile_cons_of_neg (by simpa using h)]
  cases cs with
  | nil => simp
  | cons d cs => simp

/-- A state in the middle of the argument at `optind`, at the character `c`. -/
structure InCluster (optstring : List UInt8) (plusAware : Bool) (args : List Arg) (m : ℕ)
    (st : GetoptState) (c : UInt8) (cs : Arg) : Prop where
  initialized : st.initialized = true
  ordering : st.ordering = .permute
  noHyphen : st.posixHyphen = false
  first_le : st.firstNonopt ≤ st.lastNonopt
  last_le : st.lastNonopt ≤ st.optind
  bound : st.optind < args.length
  count : st.found + operandCount optstring plusAware (takesNext optstring (c :: cs))
    (args.drop (st.optind + 1)) = m
  pos : 0 < st.optind

/-- The state after a character: one that goes on from here. -/
structure GoesOn (optstring : List UInt8) (plusAware : Bool) (args : List Arg) (m : ℕ)
    (bound : ℕ) (st : GetoptState) : Prop where
  walks : Walks optstring plusAware args m st
  less : ahead args st ≤ bound

/-- A character without an argument. -/
theorem InCluster.plain (h : InCluster optstring plusAware args m st c cs)
    (hnext : takesNext optstring (c :: cs) = takesNext optstring cs) :
    GoesOn optstring plusAware args m (cs.length + weight (args.drop (st.optind + 1)))
      { st with nextchar := cs, optind := if cs = [] then st.optind + 1 else st.optind } := by
  have hcount := h.count
  have hlast := h.last_le
  have hbound := h.bound
  rw [hnext] at hcount
  by_cases hcs : cs = []
  · subst hcs
    have htakes : takesNext optstring [] = false := rfl
    rw [htakes] at hcount
    rw [if_pos rfl]
    refine ⟨⟨h.initialized, h.ordering, h.noHyphen, h.first_le, Nat.le_succ_of_le hlast, ?_, ?_,
      Nat.succ_pos _⟩, ?_⟩
    · exact hbound
    · rw [operandsLeft, if_pos rfl]
      exact hcount
    · rw [ahead, if_pos rfl]
      exact Nat.le_add_left _ _
  · rw [if_neg hcs]
    refine ⟨⟨h.initialized, h.ordering, h.noHyphen, h.first_le, hlast, ?_, ?_, h.pos⟩, ?_⟩
    · dsimp only
      rw [if_neg hcs]
      exact hbound
    · rw [operandsLeft, if_neg hcs]
      exact hcount
    · rw [ahead, if_neg hcs]

/-- The rest of the cluster is the argument. -/
theorem InCluster.attached (h : InCluster optstring plusAware args m st c cs)
    (hnext : takesNext optstring (c :: cs) = false) :
    GoesOn optstring plusAware args m (cs.length + weight (args.drop (st.optind + 1)))
      { st with optind := st.optind + 1, nextchar := [] } := by
  have hcount := h.count
  rw [hnext] at hcount
  refine ⟨⟨h.initialized, h.ordering, h.noHyphen, h.first_le, Nat.le_succ_of_le h.last_le, h.bound,
    ?_, Nat.succ_pos _⟩, ?_⟩
  · rw [operandsLeft, if_pos rfl]
    exact hcount
  · rw [ahead, if_pos rfl]
    exact Nat.le_add_left _ _

/-- The next argument is the argument of the option. -/
theorem InCluster.separate (h : InCluster optstring plusAware args m st c cs)
    (hnext : takesNext optstring (c :: cs) = true) (hlt : st.optind + 1 < args.length) :
    GoesOn optstring plusAware args m (cs.length + weight (args.drop (st.optind + 1)))
      { st with optind := st.optind + 1 + 1, nextchar := [] } := by
  have hcount := h.count
  rw [hnext, List.drop_eq_getElem_cons hlt, operandCount_taken] at hcount
  refine ⟨⟨h.initialized, h.ordering, h.noHyphen, h.first_le,
    Nat.le_succ_of_le (Nat.le_succ_of_le h.last_le), hlt, ?_, Nat.succ_pos _⟩, ?_⟩
  · rw [operandsLeft, if_pos rfl]
    exact hcount
  · rw [ahead, if_pos rfl]
    exact (weight_drop_le _ _).trans (Nat.le_add_left _ _)

/-- The argument is missing. -/
theorem InCluster.missing (h : InCluster optstring plusAware args m st c cs)
    (hge : args.length ≤ st.optind + 1) :
    GoesOn optstring plusAware args m (cs.length + weight (args.drop (st.optind + 1)))
      { st with optind := st.optind + 1, nextchar := [] } := by
  have hcount := h.count
  rw [List.drop_eq_nil_of_le hge, operandCount_nil] at hcount
  refine ⟨⟨h.initialized, h.ordering, h.noHyphen, h.first_le, Nat.le_succ_of_le h.last_le, h.bound,
    ?_, Nat.succ_pos _⟩, ?_⟩
  · rw [operandsLeft, if_pos rfl]
    dsimp only
    rw [List.drop_eq_nil_of_le hge, operandCount_nil]
    exact hcount
  · rw [ahead, if_pos rfl]
    exact Nat.le_add_left _ _

/-- What else a call writes makes no difference. -/
theorem GoesOn.frame {n : ℕ} (h : GoesOn optstring plusAware args m n st) (optopt : UInt8)
    (optarg : Option Arg) (writes : List (UInt8 × Bool)) :
    GoesOn optstring plusAware args m n
      { st with optopt := optopt, optarg := optarg, writes := writes } where
  walks := ⟨h.walks.initialized, h.walks.ordering, h.walks.noHyphen, h.walks.first_le,
    h.walks.last_le, h.walks.bound, h.walks.count, h.walks.pos⟩
  less := h.less

theorem GoesOn.handlePlusAwareShort {n : ℕ} (h : GoesOn optstring plusAware args m n st)
    (isPlus : Bool) (longopts : List OptionEx) :
    GoesOn optstring plusAware args m n (handlePlusAwareShort c isPlus longopts st).2 := by
  unfold Getopt.handlePlusAwareShort
  cases longopts.find? (·.val = c) with
  | none => exact h
  | some p =>
    dsimp only
    split_ifs
    · exact h.frame c st.optarg st.writes
    · exact h.frame st.optopt st.optarg _
    · exact h
    · exact h.frame st.optopt st.optarg _
    · exact h

/-- No option of the table is a long option behind `-W`. -/
def WFree (optstring : List UInt8) (longopts : Option (List OptionEx)) : Prop :=
  longopts.isSome → (optstring.dropWhile (· ≠ 87)).tail.head? ≠ some 59

theorem getArgRequirement_of_not_option (h : isOption optstring c = false) :
    getArgRequirement optstring c = .none := by
  rw [getArgRequirement, h]
  rfl

/-- The argument of an option is taken from where it stands. -/
theorem InCluster.processShortOptionArg (h : InCluster optstring plusAware args m st c cs)
    (hlen : argv.length = args.length) :
    GoesOn optstring plusAware args m (cs.length + weight (args.drop (st.optind + 1)))
      (processShortOptionArg argv optstring c { st with
        nextchar := cs, optind := if cs = [] then st.optind + 1 else st.optind }).2 := by
  unfold Getopt.processShortOptionArg
  cases hreq : getArgRequirement optstring c with
  | none => exact h.plain (takesNext_cons_none hreq cs)
  | optional =>
    have hnext : takesNext optstring (c :: cs) = false := by
      rw [takesNext_cons (by rw [hreq]; decide), hreq]
      simp
    by_cases hcs : cs = []
    · subst hcs
      exact (h.attached hnext).frame st.optopt none st.writes
    · dsimp only
      rw [if_pos hcs, if_neg hcs]
      exact (h.attached hnext).frame st.optopt (some cs) st.writes
  | required =>
    by_cases hcs : cs = []
    · subst hcs
      have hnext : takesNext optstring [c] = true := by
        rw [takesNext_cons (by rw [hreq]; decide), hreq]
        rfl
      dsimp only
      rw [if_neg (not_not.mpr rfl), if_pos rfl]
      by_cases hge : st.optind + 1 ≥ argv.length
      · rw [if_pos hge]
        exact (h.missing (hlen ▸ hge)).frame c st.optarg st.writes
      · rw [if_neg hge]
        exact (h.separate hnext (by omega)).frame st.optopt _ st.writes
    · have hnext : takesNext optstring (c :: cs) = false := by
        rw [takesNext_cons (by rw [hreq]; decide), decide_eq_false fun hboth => hcs hboth.1]
      dsimp only
      rw [if_pos hcs, if_neg hcs]
      exact (h.attached hnext).frame st.optopt (some cs) st.writes

/-- A character of a cluster. -/
theorem InCluster.shortOption (h : InCluster optstring plusAware args m st c cs)
    (hlen : argv.length = args.length) (hW : WFree optstring longopts) :
    GoesOn optstring plusAware args m (cs.length + weight (args.drop (st.optind + 1)))
      (shortOption argv optstring longopts plusAware st c cs).2 := by
  unfold Getopt.shortOption
  cases hoption : isOption optstring c with
  | false =>
    have hplain := h.plain (takesNext_cons_none (getArgRequirement_of_not_option hoption) cs)
    exact hplain.frame c st.optarg st.writes
  | true =>
    have hnotW : ¬(c = 87 ∧ (optstring.dropWhile (· ≠ c)).tail.head? = some 59 ∧
        longopts.isSome = true) := by
      rintro ⟨rfl, hhead, hsome⟩
      exact hW hsome hhead
    have hargument := h.processShortOptionArg hlen
    dsimp only
    rw [if_neg (by decide), if_neg hnotW]
    cases hprocess : Getopt.processShortOptionArg argv optstring c { st with
        nextchar := cs, optind := if cs = [] then st.optind + 1 else st.optind } with
    | mk error st' =>
      rw [hprocess] at hargument
      cases error with
      | some error => exact hargument
      | none =>
        cases longopts with
        | none => exact hargument
        | some longopts =>
          dsimp only
          split_ifs
          · exact hargument.handlePlusAwareShort _ _
          · exact hargument

/-- An argument that is an option. -/
theorem dispatchOption_goesOn (h : Between args.length st) (hlen : argv.length = args.length)
    (hdrop : argv.drop st.optind = args.drop st.optind) (hlt : st.optind < args.length)
    (hoption : isNonoption (argAt args st.optind) = false)
    (hdouble : isDoubleDash (argAt args st.optind) = false) (hW : WFree optstring longopts) :
    ∃ n, n < weight (args.drop st.optind) ∧
      GoesOn optstring plusAware args
        (st.found + operandCount optstring plusAware false (args.drop st.optind)) n
        (dispatchOption argv optstring longopts plusAware st).2 := by
  obtain ⟨arg, rest, hleft⟩ : ∃ arg rest, args.drop st.optind = arg :: rest :=
    ⟨_, _, List.drop_eq_getElem_cons hlt⟩
  obtain ⟨harg, -, hrest⟩ := argAt_of_drop hleft
  obtain ⟨hargv, -, -⟩ := argAt_of_drop (hdrop.trans hleft)
  rw [harg] at hoption hdouble
  have hcount : operandCount optstring plusAware false (args.drop st.optind) =
      operandCount optstring plusAware (takesNext optstring (clusterOf plusAware arg))
        (args.drop (st.optind + 1)) := by
    rw [hleft, hrest, operandCount, marks, if_neg (Bool.eq_false_iff.mp hoption),
      if_neg (Bool.eq_false_iff.mp hdouble), List.count_cons_of_ne (by decide), ← operandCount]
  rw [hcount, weight_drop hleft]
  have hlong (hcluster : clusterOf plusAware arg = []) (plus : Bool) :
      GoesOn optstring plusAware args
        (st.found + operandCount optstring plusAware (takesNext optstring (clusterOf plusAware arg))
          (args.drop (st.optind + 1))) (weight (args.drop (st.optind + 1)))
        (processLongOption { st with optPlusPrefix := plus }).2 := by
    rw [hcluster]
    refine ⟨⟨h.initialized, h.ordering, h.noHyphen, h.first_le, Nat.le_succ_of_le h.last_le, hlt, ?_,
      Nat.succ_pos _⟩, ?_⟩
    · rw [operandsLeft]
      exact congrArg _ (if_pos rfl)
    · rw [ahead]
      exact Nat.le_of_eq (if_pos rfl)
  unfold dispatchOption
  rw [hargv]
  by_cases hl : isLongOption arg = true
  · rw [if_pos hl]
    exact ⟨_, by omega, hlong (by rw [clusterOf, hl]; rfl) false⟩
  · rw [if_neg hl]
    by_cases hp : plusAware = true ∧ isLongPlusOption arg = true
    · rw [if_pos hp]
      exact ⟨_, by omega, hlong (by rw [clusterOf, hp.1, hp.2]; simp) true⟩
    · rw [if_neg hp]
      have htail : arg.tail ≠ [] := fun hnil => by
        rw [isNonoption, hnil] at hoption
        simp at hoption
      obtain ⟨c, cs, hcs⟩ := List.exists_cons_of_ne_nil htail
      have hcluster : clusterOf plusAware arg = c :: cs := by
        rw [clusterOf, if_neg, hcs]
        simp only [Bool.or_eq_true, Bool.and_eq_true, not_or]
        exact ⟨hl, hp⟩
      have hin : InCluster optstring plusAware args
          (st.found + operandCount optstring plusAware
            (takesNext optstring (clusterOf plusAware arg)) (args.drop (st.optind + 1)))
          { st with optPlusPrefix := arg.headD 0 = 43 } c cs :=
        ⟨h.initialized, h.ordering, h.noHyphen, h.first_le, h.last_le, hlt, by rw [hcluster]; rfl,
          h.pos⟩
      have hlength : arg.length = cs.length + 2 := by
        have htaillen := congrArg List.length hcs
        rw [List.length_tail, List.length_cons] at htaillen
        omega
      rw [hcs]
      exact ⟨_, by dsimp only; omega, hin.shortOption hlen hW⟩

theorem Walks.between (h : Walks optstring plusAware args m st) (hnext : st.nextchar = []) :
    Between args.length st where
  initialized := h.initialized
  ordering := h.ordering
  noHyphen := h.noHyphen
  nextchar := hnext
  first_le := h.first_le
  last_le := h.last_le
  bound := (Nat.le_add_right _ _).trans h.bound
  pos := h.pos

theorem skipOptstring_eq (h : orderingOf optstring = .permute) : skipOptstring optstring = optstring := by
  unfold orderingOf at h
  split at h
  · cases h
  · cases h
  · unfold skipOptstring
    split
    · rename_i hnot _
      exact absurd rfl (hnot _)
    · rename_i hnot
      exact absurd rfl (hnot _)
    · rfl

/-- One call: either it comes past something, or it leaves `optind` where the operands would be
behind all options. -/
theorem Walks.getoptInternal (h : Walks optstring plusAware args m st)
    (hplain : orderingOf optstring = .permute) (hW : WFree optstring longopts) :
    (∃ c st', getoptInternal args optstring longopts plusAware st = (some c, st') ∧
        Walks optstring plusAware args m st' ∧ ahead args st' < ahead args st) ∨
      ∃ st', getoptInternal args optstring longopts plusAware st = (none, st') ∧
        st'.optind + m = args.length := by
  have hargs : args ≠ [] := by
    rintro rfl
    have hbound := h.bound
    have hpos := h.pos
    rw [List.length_nil] at hbound
    omega
  have hstart : ¬(st.optind = 0 ∨ st.initialized = false) := by
    rw [h.initialized]
    have hpos := h.pos
    simp only [Bool.true_eq_false, or_false]
    omega
  unfold Getopt.getoptInternal
  dsimp only
  rw [if_neg hargs, if_neg hstart, skipOptstring_eq hplain]
  cases hnext : st.nextchar with
  | cons c cs =>
    have hin : InCluster optstring plusAware args m { st with optarg := none } c cs := by
      have hcount := h.count
      have hbound := h.bound
      rw [operandsLeft, hnext, if_neg (List.cons_ne_nil _ _)] at hcount
      rw [hnext, if_neg (List.cons_ne_nil _ _)] at hbound
      exact ⟨h.initialized, h.ordering, h.noHyphen, h.first_le, h.last_le, hbound, hcount, h.pos⟩
    have hgoes := hin.shortOption rfl hW
    refine .inl ⟨_, _, rfl, hgoes.walks, Nat.lt_of_le_of_lt hgoes.less ?_⟩
    rw [ahead, hnext, if_neg (List.cons_ne_nil _ _), List.length_cons]
    dsimp only
    omega
  | nil =>
    have hbetween : Between args.length { st with optarg := none } := by
      have hst := h.between hnext
      exact ⟨hst.initialized, hst.ordering, hst.noHyphen, hst.nextchar, hst.first_le, hst.last_le,
        hst.bound, hst.pos⟩
    have hcount := h.count
    rw [operandsLeft, if_pos hnext] at hcount
    obtain ⟨argv', st', ⟨hadvance, hend⟩ | ⟨hadvance, hst', hlen, hdrop, hle, hlt, hoption, hdouble,
      hsum⟩⟩ := advanceToNextOption_spec optstring plusAware hbetween
    · rw [hnext] at hadvance
      dsimp only
      rw [hadvance]
      refine .inr ⟨_, rfl, ?_⟩
      rw [← hcount]
      exact hend
    · obtain ⟨n, hn, hgoes⟩ :=
        dispatchOption_goesOn hst' hlen hdrop hlt hoption hdouble hW
      rw [hnext] at hadvance
      dsimp only
      rw [hadvance]
      refine .inl ⟨_, _, rfl, ?_, Nat.lt_of_le_of_lt hgoes.less (Nat.lt_of_lt_of_le hn ?_)⟩
      · rw [← hcount]
        exact hsum ▸ hgoes.walks
      · rw [ahead, if_pos hnext]
        exact weight_drop_antitone hle

end Walks

end Migash.Exec.Getopt
