import Migash.Exec.State
import Mathlib.Data.List.Induction

/-! # The positional parameters as an array

`positional_params_t` keeps a count beside an array that it owns. A shift moves
the slots that are left to a new array, and no array at all stands for no
parameters. Over any sequence of operations the two stay in step, and what the
operations mean is said on the list of the parameters.
-/

namespace Migash.Exec

open Library

/-! ## The operations -/

/-- An array of `string_t *`; the array and each of its slots may be NULL. -/
abbrev Slots := Option (List (Option String))

/-- `positional_params_t`, the count and the array as the source has them. -/
structure PositionalParamsT where
  arg0 : Option String := none
  params : Slots := none
  count : ℕ := 0
  maxParams : ℕ := 4096
  deriving DecidableEq, Repr

/-- The value of a slot. -/
def readSlot (slots : Slots) (i : ℕ) : Except Fault (Option String) :=
  match slots with
  | none => .error (.contract "array is NULL")
  | some slots =>
    match slots[i]? with
    | some slot => .ok slot
    | none => .error (.contract "index past the array")

/-- `string_create_from` of a slot. -/
def copySlot (slots : Slots) (i : ℕ) : Except Fault String := do
  match ← readSlot slots i with
  | some value => return value
  | none => throw (.contract "other")

/-- `string_destroy` of the first slots, which makes them NULL. -/
def freeSlots (slots : Slots) : ℕ → Except Fault Slots
  | 0 => .ok slots
  | n + 1 => do
    let slots ← freeSlots slots n
    let _ ← readSlot slots n
    return slots.map fun slots => slots.set n none

namespace PositionalParamsT

/-- `positional_params_create`. -/
def create : PositionalParamsT := {}

/-- `positional_params_create_from_array` and `positional_params_create_from_strlist`: none if there
are too many. The slot behind the last one is NULL. -/
def createFromArray (arg0 : String) (params : List String) : Option PositionalParamsT :=
  if params.length > 4096 then none
  else some { arg0, params := some (params.map some ++ [none]), count := params.length }

/-- `positional_params_create_from_argv`. -/
def createFromArgv (arg0 : String) (argv : List String) : Option PositionalParamsT :=
  if argv.length > 4096 then none
  else if argv = [] then some { arg0 }
  else some { arg0, params := some (argv.map some ++ [none]), count := argv.length }

/-- `positional_params_clone`. -/
def clone (src : PositionalParamsT) : Except Fault PositionalParamsT := do
  let p : PositionalParamsT :=
    { maxParams := src.maxParams, count := src.count, arg0 := some (src.arg0.getD "miga") }
  if src.count = 0 || src.params.isNone then return p
  else
    let params ← (List.range src.count).mapM (copySlot src.params)
    return { p with params := some (params.map some) }

/-- `positional_params_get`. A number below 1 is ruled out by the contract. -/
def get (p : PositionalParamsT) (n : ℤ) : Except Fault (Option String) :=
  if n < 1 || n > p.count then .ok none else readSlot p.params (n.toNat - 1)

/-- `positional_params_get_all`. -/
def getAll (p : PositionalParamsT) : Except Fault (List String) :=
  if p.params.isNone || p.count = 0 then .ok []
  else (List.range p.count).mapM (copySlot p.params)

/-- `positional_params_set_arg0`. -/
def setArg0 (p : PositionalParamsT) (arg0 : String) : PositionalParamsT :=
  { p with arg0 := some arg0 }

/-- `positional_params_set_max`. -/
def setMax (p : PositionalParamsT) (maxParams : ℕ) : PositionalParamsT := { p with maxParams }

/-- `positional_params_replace`, which takes over the new array. -/
def replace (p : PositionalParamsT) (newParams : Slots) (count : ℕ) :
    Except Fault (Bool × PositionalParamsT) := do
  if count > p.maxParams then return (false, p)
  else
    if p.params.isSome then
      let _ ← freeSlots p.params p.count
    return (true, { p with params := newParams, count })

/-- `positional_params_shift`. -/
def shift (p : PositionalParamsT) (n : ℕ) : Except Fault (Bool × PositionalParamsT) := do
  if n > p.count then return (false, p)
  else if n = 0 then return (true, p)
  else
    let slots ← freeSlots p.params n
    let newCount := p.count - n
    if newCount = 0 then return (true, { p with params := none, count := 0 })
    else
      let newParams ← (List.range newCount).mapM fun i => readSlot slots (i + n)
      return (true, { p with params := some newParams, count := newCount })

end PositionalParamsT

/-! ## The list behind an array -/

/-- The first slots of the array are the values. -/
def Holds (slots : Slots) (values : List String) : Prop :=
  ∀ i value, values[i]? = some value → readSlot slots i = .ok (some value)

/-- An array that a caller hands over, with the values in its first slots. -/
structure OwnedArray where
  slots : Slots
  values : List String
  holds : Holds slots values

theorem holds_map_some (values : List String) (spare : List (Option String)) :
    Holds (some (values.map some ++ spare)) values := by
  intro i value hget
  have hlt : i < (values.map some).length := by
    rw [List.length_map]
    exact (List.getElem?_eq_some_iff.mp hget).1
  rw [readSlot]
  simp only [List.getElem?_append_left hlt, List.getElem?_map, hget, Option.map_some]

theorem holds_nil (slots : Slots) : Holds slots [] := by
  intro i value hget
  cases hget

section Slots

variable {slots : Slots} {values : List String}

theorem mapM_range_ok {α : Type} {f : ℕ → Except Fault α} {as : List α}
    (h : ∀ i a, as[i]? = some a → f i = .ok a) : (List.range as.length).mapM f = .ok as := by
  induction as using List.reverseRecOn with
  | nil => rfl
  | append_singleton as a ih =>
    have hfirst : (List.range as.length).mapM f = .ok as := by
      refine ih fun i b hget => h i b ?_
      rw [List.getElem?_append_left (List.getElem?_eq_some_iff.mp hget).1, hget]
    have hlast : f as.length = .ok a := h as.length a (by simp)
    rw [List.length_append, List.length_singleton, List.range_succ, List.mapM_append, hfirst]
    simp only [List.mapM_cons, List.mapM_nil, hlast]
    rfl

theorem copySlot_ok (h : Holds slots values) {i : ℕ} {value : String}
    (hget : values[i]? = some value) : copySlot slots i = .ok value := by
  rw [copySlot, h i value hget]
  rfl

/-- Freeing the first slots finds them all, and the ones behind stay. -/
theorem freeSlots_ok (h : Holds slots values) {n : ℕ} (hn : n ≤ values.length) :
    ∃ slots', freeSlots slots n = .ok slots' ∧
      ∀ i, n ≤ i → readSlot slots' i = readSlot slots i := by
  induction n with
  | zero => exact ⟨slots, rfl, fun _ _ => rfl⟩
  | succ n ih =>
    obtain ⟨slots', hfree, hsame⟩ := ih (by omega)
    have hread : readSlot slots' n = .ok (some values[n]) :=
      (hsame n le_rfl).trans (h n _ (List.getElem?_eq_getElem hn))
    refine ⟨slots'.map fun slots => slots.set n none, ?_, ?_⟩
    · rw [freeSlots, hfree]
      simp only [bind, Except.bind, hread]
      rfl
    · intro i hi
      rw [← hsame i (by omega)]
      cases slots' with
      | none => rfl
      | some array =>
        have hne : n ≠ i := by omega
        simp only [readSlot, Option.map_some, List.getElem?_set_ne hne]

end Slots

/-! ## What the operations mean -/

/-- The parameters as a list, with the largest number of them. -/
structure BoundedParams where
  params : PositionalParams
  maxParams : ℕ

/-- Where a set of parameters comes from. -/
inductive Creation where
  | create
  | createFromArray (arg0 : String) (params : List String)
  | createFromArgv (arg0 : String) (argv : List String)

/-- An operation on a set of parameters. `clone` goes on with the copy. -/
inductive ParamsOp where
  | replace (newParams : OwnedArray)
  | shift (n : ℕ)
  | clone
  | setArg0 (arg0 : String)
  | setMax (maxParams : ℕ)

/-- The new set, or none if there are too many parameters. -/
def Creation.run : Creation → Option PositionalParamsT
  | .create => some .create
  | .createFromArray arg0 params => PositionalParamsT.createFromArray arg0 params
  | .createFromArgv arg0 argv => PositionalParamsT.createFromArgv arg0 argv

/-- The parameters of a new set. -/
def Creation.meaning : Creation → Option BoundedParams
  | .create => some ⟨⟨none, []⟩, 4096⟩
  | .createFromArray arg0 params | .createFromArgv arg0 params =>
    if params.length > 4096 then none else some ⟨⟨some arg0, params⟩, 4096⟩

/-- The answer of an operation and the set behind it. -/
def ParamsOp.run (p : PositionalParamsT) : ParamsOp → Except Fault (Bool × PositionalParamsT)
  | .replace newParams => p.replace newParams.slots newParams.values.length
  | .shift n => p.shift n
  | .clone => return (true, ← p.clone)
  | .setArg0 arg0 => return (true, p.setArg0 arg0)
  | .setMax maxParams => return (true, p.setMax maxParams)

/-- An operation on the list. -/
def ParamsOp.meaning (a : BoundedParams) : ParamsOp → Bool × BoundedParams
  | .replace newParams =>
    if newParams.values.length > a.maxParams then (false, a)
    else (true, { a with params := { a.params with params := newParams.values } })
  | .shift n =>
    if n > a.params.params.length then (false, a)
    else (true, { a with params := { a.params with params := a.params.params.drop n } })
  | .clone => (true, { a with params := { a.params with arg0 := some (a.params.arg0.getD "miga") } })
  | .setArg0 arg0 => (true, { a with params := { a.params with arg0 := some arg0 } })
  | .setMax maxParams => (true, { a with maxParams })

/-- The answers of operations and the set behind the last one. -/
def runOps (p : PositionalParamsT) : List ParamsOp → Except Fault (List Bool × PositionalParamsT)
  | [] => .ok ([], p)
  | op :: ops => do
    let (answer, p) ← op.run p
    let (answers, p) ← runOps p ops
    return (answer :: answers, p)

/-- The answers of operations on the list and the list behind the last one. -/
def meaningOps (a : BoundedParams) : List ParamsOp → List Bool × BoundedParams
  | [] => ([], a)
  | op :: ops =>
    let (answer, a) := op.meaning a
    let (answers, a) := meaningOps a ops
    (answer :: answers, a)

/-! ## The array refines the list -/

/-- The count and the array are in step with the list. -/
structure Represents (p : PositionalParamsT) (a : BoundedParams) : Prop where
  arg0 : p.arg0 = a.params.arg0
  count : p.count = a.params.params.length
  holds : Holds p.params a.params.params
  maxParams : p.maxParams = a.maxParams

theorem Creation.run_eq_none_iff (c : Creation) : c.run = none ↔ c.meaning = none := by
  cases c with
  | create => simp [run, meaning]
  | createFromArray arg0 params =>
    simp only [run, meaning, PositionalParamsT.createFromArray]
    split_ifs <;> simp
  | createFromArgv arg0 argv =>
    simp only [run, meaning, PositionalParamsT.createFromArgv]
    split_ifs <;> simp

theorem Creation.represents {c : Creation} {p : PositionalParamsT} (h : c.run = some p) :
    ∃ a, c.meaning = some a ∧ Represents p a := by
  cases c with
  | create =>
    cases h
    exact ⟨_, rfl, rfl, rfl, holds_nil _, rfl⟩
  | createFromArray arg0 params =>
    simp only [run, PositionalParamsT.createFromArray] at h
    split at h
    · cases h
    · next hle =>
      cases h
      exact ⟨_, if_neg hle, rfl, rfl, holds_map_some _ _, rfl⟩
  | createFromArgv arg0 argv =>
    simp only [run, PositionalParamsT.createFromArgv] at h
    split at h
    · cases h
    · next hle =>
      split at h
      · next hnil =>
        cases h
        refine ⟨_, if_neg hle, rfl, ?_, ?_, rfl⟩ <;> rw [hnil]
        · rfl
        · exact holds_nil _
      · cases h
        exact ⟨_, if_neg hle, rfl, rfl, holds_map_some _ _, rfl⟩

namespace Represents

variable {p : PositionalParamsT} {a : BoundedParams}

theorem copies (h : Represents p a) :
    (List.range p.count).mapM (copySlot p.params) = .ok a.params.params := by
  rw [h.count]
  exact mapM_range_ok fun i value hget => copySlot_ok h.holds hget

/-- Where the array is NULL there is no parameter. -/
theorem nil_of_none (h : Represents p a) (hnone : p.params.isNone) : a.params.params = [] := by
  rw [Option.isNone_iff_eq_none] at hnone
  cases hparams : a.params.params with
  | nil => rfl
  | cons value values =>
    have hread := h.holds 0 value (by rw [hparams]; rfl)
    rw [hnone] at hread
    cases hread

theorem clone_ok (h : Represents p a) :
    ∃ p', p.clone = .ok p' ∧ Represents p' (ParamsOp.clone.meaning a).2 := by
  have harg0 : some (p.arg0.getD "miga") = some (a.params.arg0.getD "miga") := by rw [h.arg0]
  unfold PositionalParamsT.clone
  dsimp only
  split
  · next hempty =>
    have hnil : a.params.params = [] := by
      rcases Bool.or_eq_true_iff.mp hempty with hcount | hnone
      · exact List.length_eq_zero_iff.mp (h.count ▸ of_decide_eq_true hcount)
      · exact h.nil_of_none hnone
    refine ⟨_, rfl, harg0, h.count, ?_, h.maxParams⟩
    dsimp only [ParamsOp.meaning]
    rw [hnil]
    exact holds_nil _
  · rw [h.copies]
    refine ⟨_, rfl, harg0, h.count, ?_, h.maxParams⟩
    have := holds_map_some a.params.params []
    rwa [List.append_nil] at this

theorem replace_ok (h : Represents p a) (newParams : OwnedArray) :
    ∃ p', p.replace newParams.slots newParams.values.length =
        .ok (((ParamsOp.replace newParams).meaning a).1, p') ∧
      Represents p' ((ParamsOp.replace newParams).meaning a).2 := by
  unfold PositionalParamsT.replace
  dsimp only [ParamsOp.meaning]
  by_cases hmany : newParams.values.length > p.maxParams
  · rw [if_pos hmany, if_pos (h.maxParams ▸ hmany)]
    exact ⟨p, rfl, h⟩
  · have hmany' : ¬ newParams.values.length > a.maxParams := h.maxParams ▸ hmany
    rw [if_neg hmany, if_neg hmany']
    have hnew : Represents { p with params := newParams.slots, count := newParams.values.length }
        { a with params := { a.params with params := newParams.values } } :=
      ⟨h.arg0, rfl, newParams.holds, h.maxParams⟩
    obtain ⟨_, hfree, _⟩ := freeSlots_ok h.holds (h.count ▸ le_rfl : p.count ≤ _)
    refine ⟨_, ?_, hnew⟩
    split
    · rw [hfree]
      rfl
    · rfl

/-- What a shift that is possible leaves behind. -/
def shifted (p : PositionalParamsT) (values : List String) (n : ℕ) : PositionalParamsT :=
  if n = 0 then p
  else if n = values.length then { p with params := none, count := 0 }
  else { p with params := some ((values.drop n).map some), count := values.length - n }

/-- The slots that a shift moves are those of the list without its first elements. -/
theorem shift_eq (h : Represents p a) {n : ℕ} (hn : n ≤ a.params.params.length) :
    p.shift n = .ok (true, shifted p a.params.params n) := by
  have hcount := h.count
  unfold PositionalParamsT.shift shifted
  rw [if_neg (by omega)]
  by_cases hzero : n = 0
  · rw [if_pos hzero, if_pos hzero]
    rfl
  rw [if_neg hzero, if_neg hzero]
  obtain ⟨slots, hfree, hsame⟩ := freeSlots_ok h.holds hn
  simp only [bind, Except.bind, hfree]
  by_cases hall : n = a.params.params.length
  · rw [if_pos (by omega), if_pos hall]
    rfl
  · rw [if_neg (by omega), if_neg hall, hcount]
    have hmove : (List.range (a.params.params.length - n)).mapM (fun i => readSlot slots (i + n)) =
        .ok ((a.params.params.drop n).map some) := by
      have hlength : a.params.params.length - n = ((a.params.params.drop n).map some).length := by
        rw [List.length_map, List.length_drop]
      rw [hlength]
      refine mapM_range_ok fun i slot hget => ?_
      rw [List.getElem?_map, Option.map_eq_some_iff] at hget
      obtain ⟨value, hvalue, rfl⟩ := hget
      rw [List.getElem?_drop, Nat.add_comm] at hvalue
      rw [hsame _ (by omega), h.holds _ _ hvalue]
    rw [hmove]
    rfl

theorem shifted_represents (h : Represents p a) (n : ℕ) :
    Represents (shifted p a.params.params n)
      { a with params := { a.params with params := a.params.params.drop n } } := by
  unfold shifted
  split_ifs with hzero hall
  · rw [hzero, List.drop_zero]
    exact h
  · rw [hall, List.drop_length]
    exact ⟨h.arg0, rfl, holds_nil _, h.maxParams⟩
  · have hholds := holds_map_some (a.params.params.drop n) []
    rw [List.append_nil] at hholds
    exact ⟨h.arg0, List.length_drop.symm, hholds, h.maxParams⟩

theorem shift_too_many (h : Represents p a) {n : ℕ} (hn : n > a.params.params.length) :
    p.shift n = .ok (false, p) := by
  rw [PositionalParamsT.shift, if_pos (h.count ▸ hn)]
  rfl

theorem shift_ok (h : Represents p a) (n : ℕ) :
    ∃ p', p.shift n = .ok (((ParamsOp.shift n).meaning a).1, p') ∧
      Represents p' ((ParamsOp.shift n).meaning a).2 := by
  dsimp only [ParamsOp.meaning]
  split
  · next hmany => exact ⟨p, h.shift_too_many hmany, h⟩
  · next hfew =>
    have hle : n ≤ a.params.params.length := by omega
    exact ⟨_, h.shift_eq hle, h.shifted_represents n⟩

/-- Two shifts in a row leave what one of both numbers together leaves. -/
theorem shifted_shifted {values : List String} {m n : ℕ} (hmn : m + n ≤ values.length) :
    shifted (shifted p values m) (values.drop m) n = shifted p values (m + n) := by
  by_cases hm : m = 0
  · subst hm
    rw [List.drop_zero, Nat.zero_add]
    rfl
  by_cases hn : n = 0
  · subst hn
    rfl
  have hlen : (values.drop m).length = values.length - m := List.length_drop
  unfold shifted
  rw [if_neg hn, if_neg hm, if_neg (by omega : m + n ≠ 0), if_neg (by omega : m ≠ values.length),
    hlen, List.drop_drop, Nat.sub_sub]
  by_cases hall : m + n = values.length
  · rw [if_pos (by omega), if_pos hall]
  · rw [if_neg (by omega), if_neg hall]

theorem run_ok (h : Represents p a) (op : ParamsOp) :
    ∃ p', op.run p = .ok ((op.meaning a).1, p') ∧ Represents p' (op.meaning a).2 := by
  cases op with
  | replace newParams => exact h.replace_ok newParams
  | shift n => exact h.shift_ok n
  | clone =>
    obtain ⟨p', hclone, hp'⟩ := h.clone_ok
    refine ⟨p', ?_, hp'⟩
    rw [ParamsOp.run, hclone]
    rfl
  | setArg0 arg0 => exact ⟨_, rfl, rfl, h.count, h.holds, h.maxParams⟩
  | setMax maxParams => exact ⟨_, rfl, h.arg0, h.count, h.holds, rfl⟩

/-- Over any operations the answers are those of the list, and the array stays in step with it. -/
theorem runOps_ok (h : Represents p a) (ops : List ParamsOp) :
    ∃ p', runOps p ops = .ok ((meaningOps a ops).1, p') ∧ Represents p' (meaningOps a ops).2 := by
  induction ops generalizing p a with
  | nil => exact ⟨p, rfl, h⟩
  | cons op ops ih =>
    obtain ⟨p₁, hop, h₁⟩ := h.run_ok op
    obtain ⟨p₂, hops, h₂⟩ := ih h₁
    refine ⟨p₂, ?_, h₂⟩
    rw [runOps, hop]
    simp only [bind, Except.bind, hops]
    rfl

/-! ## What a caller sees -/

theorem get_ok (h : Represents p a) {n : ℕ} (hn : 1 ≤ n) :
    p.get n = .ok a.params.params[n - 1]? := by
  unfold PositionalParamsT.get
  have hcount := h.count
  split
  · next hout =>
    have hlen : a.params.params.length ≤ n - 1 := by
      simp only [Bool.or_eq_true, decide_eq_true_eq] at hout
      omega
    rw [List.getElem?_eq_none hlen]
  · next hin =>
    have hlt : n - 1 < a.params.params.length := by
      simp only [Bool.or_eq_true, decide_eq_true_eq, not_or] at hin
      omega
    rw [List.getElem?_eq_getElem hlt, Int.toNat_natCast,
      h.holds _ _ (List.getElem?_eq_getElem hlt)]

theorem getAll_ok (h : Represents p a) : p.getAll = .ok a.params.params := by
  unfold PositionalParamsT.getAll
  split
  · next hempty =>
    have hnil : a.params.params = [] := by
      rcases Bool.or_eq_true_iff.mp hempty with hnone | hcount
      · exact h.nil_of_none hnone
      · exact List.length_eq_zero_iff.mp (h.count ▸ of_decide_eq_true hcount)
    rw [hnil]
  · exact h.copies

theorem replace_too_many (h : Represents p a) (newParams : OwnedArray)
    (hmany : newParams.values.length > a.maxParams) :
    p.replace newParams.slots newParams.values.length = .ok (false, p) := by
  rw [PositionalParamsT.replace, if_pos (h.maxParams ▸ hmany)]
  rfl

theorem shift_shift (h : Represents p a) {m n : ℕ} (hmn : m + n ≤ a.params.params.length) :
    ∃ q r, p.shift m = .ok (true, q) ∧ q.shift n = .ok (true, r) ∧ p.shift (m + n) = .ok (true, r) := by
  have hm : m ≤ a.params.params.length := by omega
  have hn : n ≤ (a.params.params.drop m).length := by
    rw [List.length_drop]
    omega
  refine ⟨_, _, h.shift_eq hm, (h.shifted_represents m).shift_eq hn, ?_⟩
  rw [h.shift_eq hmn]
  exact congrArg (fun q => Except.ok (true, q)) (shifted_shifted hmn).symm

end Represents

/-- The set is that of a list: what its operations answer is said on the list. -/
structure Behaves (p : PositionalParamsT) (a : BoundedParams) : Prop where
  count : p.count = a.params.params.length
  get : ∀ n : ℕ, 1 ≤ n → p.get n = .ok a.params.params[n - 1]?
  getAll : p.getAll = .ok a.params.params
  shift_possible : ∀ n ≤ a.params.params.length, ∃ q, p.shift n = .ok (true, q) ∧
    q.getAll = .ok (a.params.params.drop n)
  shift_too_many : ∀ n > a.params.params.length, p.shift n = .ok (false, p)
  shift_shift : ∀ m n, m + n ≤ a.params.params.length → ∃ q r, p.shift m = .ok (true, q) ∧
    q.shift n = .ok (true, r) ∧ p.shift (m + n) = .ok (true, r)
  replace_too_many : ∀ newParams : OwnedArray, newParams.values.length > a.maxParams →
    p.replace newParams.slots newParams.values.length = .ok (false, p)

theorem Represents.behaves {p : PositionalParamsT} {a : BoundedParams} (h : Represents p a) :
    Behaves p a where
  count := h.count
  get := fun _ => h.get_ok
  getAll := h.getAll_ok
  shift_possible := fun _ hn => ⟨_, h.shift_eq hn, (h.shifted_represents _).getAll_ok⟩
  shift_too_many := fun _ => h.shift_too_many
  shift_shift := fun _ _ => h.shift_shift
  replace_too_many := h.replace_too_many

/-- A set of parameters goes through any operations as the list does. -/
theorem positionalParams_refine (c : Creation) (ops : List ParamsOp) :
    (c.run = none ↔ c.meaning = none) ∧
      ∀ p, c.run = some p → ∃ a, c.meaning = some a ∧
        ∃ p', runOps p ops = .ok ((meaningOps a ops).1, p') ∧ Behaves p' (meaningOps a ops).2 := by
  refine ⟨c.run_eq_none_iff, fun p hp => ?_⟩
  obtain ⟨a, ha, hrep⟩ := Creation.represents hp
  obtain ⟨p', hrun, hrep'⟩ := hrep.runOps_ok ops
  exact ⟨a, ha, p', hrun, hrep'.behaves⟩

end Migash.Exec
