import Mathlib.Data.List.Induction
import Migash.Arithmetic.Parse

/-! # Assignments before an error

The evaluator assigns as soon as it has read an assignment, and what comes
behind may still be an error. The evaluation is compared with a trial that keeps
every assignment aside: what the source leaves is what the trial has kept, made
one after the other.
-/

namespace Migash.Arithmetic

open Exec (Shell Event Assignment)
open Library

variable {δ W : Type}

/-! ## Trials -/

/-- An assignment that is kept aside. -/
structure Pending where
  name : String
  value : ℤ

/-- The text that is left, and the assignments up to here. -/
structure Trial where
  text : List Char
  pending : List Pending := []

/-- `get_token`. -/
def Trial.next (t : Trial) : MathToken × Trial :=
  ((getToken t.text).1, { t with text := (getToken t.text).2 })

/-- The frame after the assignments. -/
def settle (frame : Shell δ W) (pending : List Pending) : Shell δ W :=
  pending.foldl (fun s p => setVariable s p.name p.value) frame

/-- The value a variable would have. -/
def Trial.read (frame : Shell δ W) (t : Trial) (name : String) : ℤ :=
  readVariable (settle frame t.pending) name

/-- Keep an assignment aside. -/
def Trial.keep (t : Trial) (name : String) (value : ℤ) : Trial :=
  { t with pending := t.pending ++ [⟨name, value⟩] }

def Outcome.trial (o : Outcome) (t : Trial) : Reply Trial String ℤ :=
  match o with
  | .value v => .ok v t
  | .error message => .fail message t
  | .signal => .fault (.contract "SIGFPE")

section

variable (frame : Shell δ W)

mutual

def trialExpression : ℕ → ℤ → Trial → Reply Trial String ℤ
  | 0, _, _ => .fault .fuel
  | n + 1, minPrecedence, t =>
    let (token, rest) := t.next
    let left :=
      if isUnary token.type then
        (trialExpression n 14 rest).bind fun value t => .ok (applyUnary token.type value) t
      else trialPrimary n t
    left.bind fun left t => trialOperators n minPrecedence left t

def trialOperators : ℕ → ℤ → ℤ → Trial → Reply Trial String ℤ
  | 0, _, _, _ => .fault .fuel
  | n + 1, minPrecedence, left, t =>
    let (token, rest) := t.next
    let prec := getPrecedence token.type
    let nextMinPrec := if isRightAssociative token.type then prec else prec + 1
    if prec < minPrecedence then .ok left t
    else if token.type = .comma then
      (trialExpression n nextMinPrec rest).bind fun _ t => trialOperators n minPrecedence left t
    else if token.type = .question then
      (trialExpression n 0 rest).bind fun trueValue t =>
        if t.next.1.type ≠ .colon then .fail "Expected ':' in ternary expression" t.next.2
        else
          (trialExpression n prec t.next.2).bind fun falseValue t =>
            trialOperators n minPrecedence (if left ≠ 0 then trueValue else falseValue) t
    else if token.type = .logicalOr ∧ left ≠ 0 then .ok left rest
    else if token.type = .logicalAnd ∧ left = 0 then .ok left rest
    else
      (trialExpression n nextMinPrec rest).bind fun right t =>
        ((applyBinary token.type left right).trial t).bind fun value t =>
          trialOperators n minPrecedence value t

def trialPrimary : ℕ → Trial → Reply Trial String ℤ
  | 0, _ => .fault .fuel
  | n + 1, t =>
    let (token, rest) := t.next
    match token.type with
    | .number => .ok token.number rest
    | .variable =>
      let name := String.ofList token.name
      if isAssignment rest.next.1.type then
        (trialExpression n 0 rest.next.2).bind fun right t =>
          ((assignedValue rest.next.1.type (t.read frame name) right).trial t).bind
            fun value t => .ok value (t.keep name value)
      else .ok (rest.read frame name) rest
    | .lparen =>
      (trialExpression n 0 rest).bind fun value t =>
        if t.next.1.type ≠ .rparen then .fail "Expected ')'" t.next.2 else .ok value t.next.2
    | _ => .fail "Expected number, variable, or '('" rest

end

/-- A trial of the whole text. -/
def trialText (n : ℕ) (text : List Char) : Reply Trial String ℤ :=
  (trialExpression frame n 0 { text }).bind fun value t =>
    if t.next.1.type ≠ .eof then .fail "Unexpected tokens after expression" t.next.2
    else .ok value t

/-! ## The source and the trial -/

/-- The parser with all the assignments made. -/
def Trial.commit (t : Trial) : MathParser δ W := ⟨t.text, settle frame t.pending⟩

def committed : Reply Trial String ℤ → Result δ W
  | .ok v t => .ok v (t.commit frame)
  | .fail message t => .fail message (t.commit frame)
  | .fault cause => .fault cause

end

section

variable {frame : Shell δ W}

theorem commit_keep (t : Trial) (name : String) (value : ℤ) :
    (t.keep name value).commit frame =
      ⟨t.text, setVariable (t.commit frame).frame name value⟩ := by
  simp [Trial.commit, Trial.keep, settle]

theorem committed_bind {r : Reply Trial String ℤ} {f : ℤ → Trial → Reply Trial String ℤ}
    {x : Result δ W} {g : ℤ → MathParser δ W → Result δ W} (hr : committed frame r = x)
    (h : ∀ v t, committed frame (f v t) = g v (t.commit frame)) :
    committed frame (r.bind f) = x.bind g := by
  subst hr
  cases r with
  | ok v t => exact h v t
  | fail message t => rfl
  | fault cause => rfl

theorem committed_trial (o : Outcome) (t : Trial) :
    committed frame (o.trial t) = o.reply (t.commit frame) := by
  cases o <;> rfl

theorem committed_ite {p : Prop} [Decidable p] {r r' : Reply Trial String ℤ} {x x' : Result δ W}
    (hpos : committed frame r = x) (hneg : committed frame r' = x') :
    committed frame (if p then r else r') = if p then x else x' := by
  split_ifs
  · exact hpos
  · exact hneg

end

theorem expression_committed (frame : Shell δ W) (n : ℕ) :
    (∀ m t, committed frame (trialExpression frame n m t) =
      parseExpression n m (t.commit frame)) ∧
    (∀ m left t, committed frame (trialOperators frame n m left t) =
      parseOperators n m left (t.commit frame)) ∧
    ∀ t, committed frame (trialPrimary frame n t) = parsePrimary n (t.commit frame) := by
  induction n with
  | zero => exact ⟨fun m t => rfl, fun m left t => rfl, fun t => rfl⟩
  | succ n ih =>
    obtain ⟨hexpression, hoperators, hprimary⟩ := ih
    refine ⟨fun m t => ?_, fun m left t => ?_, fun t => ?_⟩
    · refine committed_bind ?_ fun v t => hoperators m v t
      refine committed_ite ?_ (hprimary t)
      exact committed_bind (hexpression _ _) fun v t => rfl
    · refine committed_ite rfl ?_
      refine committed_ite (committed_bind (hexpression _ _) fun v t => hoperators m left t) ?_
      refine committed_ite (committed_bind (hexpression _ _) fun trueValue t => ?_) ?_
      · refine committed_ite rfl ?_
        exact committed_bind (hexpression _ _) fun falseValue t => hoperators m _ t
      · refine committed_ite rfl (committed_ite rfl ?_)
        refine committed_bind (hexpression _ _) fun right t => ?_
        exact committed_bind (committed_trial _ t) fun value t => hoperators m value t
    · have htype : (t.commit frame).next.1.type = t.next.1.type := rfl
      unfold trialPrimary parsePrimary
      dsimp only
      rw [htype]
      cases t.next.1.type with
      | number => rfl
      | «variable» =>
        refine committed_ite (committed_bind (hexpression _ _) fun right t => ?_) rfl
        refine committed_bind (committed_trial _ t) fun value t => ?_
        rw [committed, commit_keep]
        rfl
      | lparen => exact committed_bind (hexpression _ _) fun value t => committed_ite rfl rfl
      | _ => rfl

/-- The evaluator does what the trial does, and makes the assignments on the way. -/
theorem evaluateText_eq (frame : Shell δ W) (n : ℕ) (text : List Char) :
    evaluateText n ⟨text, frame⟩ = committed frame (trialText frame n text) :=
  (committed_bind ((expression_committed frame n).1 0 { text })
    fun _ _ => committed_ite rfl rfl).symm

/-! ## Variables -/

/-- The store an arithmetic assignment goes to. -/
def target (s : Shell δ W) : VariableStore := s.frame.localVariables.getD s.variables_

/-- The variables an evaluation may change. -/
def frameVariables (s : Shell δ W) : VariableStore × Option VariableStore :=
  (s.variables_, s.frame.localVariables)

/-- `frame_set_variable` stores the value. -/
def Takes (store : VariableStore) (name value : String) : Prop :=
  validateVariableName name = none ∧ validateVariableValue value = none ∧
    store.isReadOnly name = false

/-- `frame_set_variable` reports an error: it stores nothing, and the variable has another value. -/
def Refuses (store : VariableStore) (name value : String) : Prop :=
  ¬ Takes store name value ∧ store.getValue name ≠ some value

instance (store : VariableStore) (name value : String) : Decidable (Takes store name value) :=
  inferInstanceAs (Decidable (_ ∧ _ ∧ _))

section Stores

variable {store : VariableStore} {name value : String}

theorem add_ok_iff {exported readOnly : Bool} :
    (∃ store', store.add name (some value) exported readOnly = .ok store') ↔
      Takes store name value := by
  unfold VariableStore.add Takes
  split
  · rename_i e hname
    simp [hname]
  · rename_i hname
    split
    · rename_i e hvalue
      rw [Option.getD_some] at hvalue
      simp [hvalue]
    · rename_i hvalue
      rw [Option.getD_some] at hvalue
      by_cases hread : store.isReadOnly name = true
      · simp [hread]
      · simp [hname, hvalue, hread]

theorem tryAdd_of_takes (h : Takes store name value) (exported readOnly : Bool) (n : String) :
    (store.tryAdd name (some value) exported readOnly).get n =
      if n = name then some ⟨value, exported, readOnly⟩ else store.get n := by
  obtain ⟨store', hok⟩ := add_ok_iff.mpr h
  have htry : store.tryAdd name (some value) exported readOnly = store' := by
    rw [VariableStore.tryAdd, hok]
  rw [htry, VariableStore.add_ok hok]
  rfl

theorem tryAdd_of_not_takes (h : ¬ Takes store name value) (exported readOnly : Bool) :
    store.tryAdd name (some value) exported readOnly = store := by
  unfold VariableStore.tryAdd
  split
  · rename_i store' hok
    exact absurd (add_ok_iff.mp ⟨store', hok⟩) h
  · rfl

theorem setKeepingFlags_of_takes (h : Takes store name value) (n : String) :
    (store.setKeepingFlags name value).get n =
      if n = name then some ⟨value, (store.get name).any Variable.exported, false⟩
      else store.get n := by
  unfold VariableStore.setKeepingFlags
  cases hget : store.get name with
  | none => exact tryAdd_of_takes h _ _ n
  | some v =>
    have hread : v.readOnly = false := by simpa [VariableStore.isReadOnly, hget] using h.2.2
    rw [← hread]
    exact tryAdd_of_takes h _ _ n

theorem setKeepingFlags_of_not_takes (h : ¬ Takes store name value) :
    store.setKeepingFlags name value = store := by
  unfold VariableStore.setKeepingFlags
  cases store.get name with
  | none => exact tryAdd_of_not_takes h _ _
  | some v => exact tryAdd_of_not_takes h _ _

/-- An assignment leaves the flags alone, so it does not decide about later ones. -/
theorem takes_setKeepingFlags {n v : String} :
    Takes (store.setKeepingFlags name value) n v ↔ Takes store n v := by
  by_cases h : Takes store name value
  · have hread : (store.setKeepingFlags name value).isReadOnly n = store.isReadOnly n := by
      unfold VariableStore.isReadOnly
      rw [setKeepingFlags_of_takes h]
      by_cases hn : n = name
      · rw [if_pos hn, hn]
        exact h.2.2.symm
      · rw [if_neg hn]
    unfold Takes
    rw [hread]
  · rw [setKeepingFlags_of_not_takes h]

/-- The store after the assignments. -/
def settleStore (store : VariableStore) (pending : List Pending) : VariableStore :=
  pending.foldl (fun store p => store.setKeepingFlags p.name (stringFromLong p.value)) store

/-- The last assignment to the name that stores a value. -/
def lastTaken (store : VariableStore) (pending : List Pending) (name : String) : Option Pending :=
  pending.reverse.find? fun p => p.name = name ∧ Takes store name (stringFromLong p.value)

/-- Each variable has in the end the value it had before. -/
def Quiet (store : VariableStore) (pending : List Pending) : Prop :=
  ∀ name p, lastTaken store pending name = some p →
    store.getValue name = some (stringFromLong p.value)

/-- Some assignment reports an error. -/
def AnyRefused (store : VariableStore) (pending : List Pending) : Prop :=
  ∃ p ∈ pending, Refuses store p.name (stringFromLong p.value)

theorem takes_settleStore {pending : List Pending} {n v : String} :
    Takes (settleStore store pending) n v ↔ Takes store n v := by
  induction pending generalizing store with
  | nil => rfl
  | cons p pending ih => exact ih.trans takes_setKeepingFlags

theorem settleStore_get (store : VariableStore) (pending : List Pending) (n : String) :
    (settleStore store pending).get n =
      match lastTaken store pending n with
      | some p => some ⟨stringFromLong p.value, (store.get n).any Variable.exported, false⟩
      | none => store.get n := by
  induction pending using List.reverseRecOn generalizing n with
  | nil => rfl
  | append_singleton pending p ih =>
    have hsettle : settleStore store (pending ++ [p]) =
        (settleStore store pending).setKeepingFlags p.name (stringFromLong p.value) := by
      simp [settleStore]
    have hlast : lastTaken store (pending ++ [p]) n =
        if p.name = n ∧ Takes store n (stringFromLong p.value) then some p
        else lastTaken store pending n := by
      rw [lastTaken, List.reverse_concat, List.find?_cons]
      by_cases h : p.name = n ∧ Takes store n (stringFromLong p.value)
      · rw [if_pos h, decide_eq_true h]
      · rw [if_neg h, decide_eq_false h]
        rfl
    rw [hsettle, hlast]
    by_cases htakes : Takes store p.name (stringFromLong p.value)
    · rw [setKeepingFlags_of_takes (takes_settleStore.mpr htakes)]
      by_cases hn : n = p.name
      · subst hn
        have hflag : ((settleStore store pending).get p.name).any Variable.exported =
            (store.get p.name).any Variable.exported := by
          rw [ih]
          cases lastTaken store pending p.name <;> rfl
        rw [if_pos rfl, if_pos ⟨rfl, htakes⟩, hflag]
      · rw [if_neg hn, if_neg fun h => hn h.1.symm]
        exact ih n
    · have hno : ¬ (p.name = n ∧ Takes store n (stringFromLong p.value)) := by
        rintro ⟨rfl, h⟩
        exact htakes h
      rw [setKeepingFlags_of_not_takes (mt takes_settleStore.mp htakes), if_neg hno]
      exact ih n

theorem settleStore_eq_iff {pending : List Pending} :
    settleStore store pending = store ↔ Quiet store pending := by
  constructor
  · intro hsame n p hlast
    have hget := settleStore_get store pending n
    rw [hsame, hlast] at hget
    rw [VariableStore.getValue, hget]
    rfl
  · intro hquiet
    refine VariableStore.ext (funext fun n => ?_)
    rw [settleStore_get]
    cases hlast : lastTaken store pending n with
    | none => rfl
    | some p =>
      have hvalue := hquiet n p hlast
      have htakes : p.name = n ∧ Takes store n (stringFromLong p.value) := by
        unfold lastTaken at hlast
        simpa using List.find?_some hlast
      rw [VariableStore.getValue, Option.map_eq_some_iff] at hvalue
      obtain ⟨v, hget, hvalue⟩ := hvalue
      have hread : v.readOnly = false := by simpa [VariableStore.isReadOnly, hget] using htakes.2.2.2
      dsimp only
      rw [hget, ← hvalue, ← hread]
      rfl

end Stores

/-! ## All or nothing -/

theorem frameVariables_setVariable (s : Shell δ W) (name : String) (v : ℤ) :
    frameVariables (setVariable s name v) =
      match s.frame.localVariables with
      | some locals => (s.variables_, some (locals.setKeepingFlags name (stringFromLong v)))
      | none => (s.variables_.setKeepingFlags name (stringFromLong v), none) := by
  unfold setVariable Shell.writeVar
  cases hlocals : s.frame.localVariables with
  | none => exact congrArg (Prod.mk _) hlocals
  | some locals => rfl

/-- Only the one store changes. -/
theorem frameVariables_settle (s : Shell δ W) (pending : List Pending) :
    frameVariables (settle s pending) =
      match s.frame.localVariables with
      | some _ => (s.variables_, some (settleStore (target s) pending))
      | none => (settleStore (target s) pending, none) := by
  induction pending generalizing s with
  | nil =>
    cases hlocals : s.frame.localVariables <;>
      simp [target, frameVariables, settle, settleStore, hlocals]
  | cons p pending ih =>
    have hset := frameVariables_setVariable s p.name p.value
    refine (ih _).trans ?_
    cases hlocals : s.frame.localVariables with
    | none =>
      rw [hlocals] at hset
      obtain ⟨hvariables, hnone⟩ := Prod.mk.inj hset
      simp [target, hnone, hvariables, hlocals, settleStore]
    | some locals =>
      rw [hlocals] at hset
      obtain ⟨hvariables, hsome⟩ := Prod.mk.inj hset
      simp [target, hsome, hvariables, hlocals, settleStore]

theorem frameVariables_settle_iff (s : Shell δ W) (pending : List Pending) :
    frameVariables (settle s pending) = frameVariables s ↔ Quiet (target s) pending := by
  rw [frameVariables_settle, ← settleStore_eq_iff]
  unfold frameVariables target
  cases hlocals : s.frame.localVariables <;> simp

/-- The evaluation reports an error to the assignment. -/
def RefusedAt (store : VariableStore) : Event → Prop
  | .assigned _ a => Refuses store a.name (a.value.getD "")
  | _ => False

theorem length_history_settle (s : Shell δ W) (pending : List Pending) :
    s.history.length ≤ (settle s pending).history.length := by
  induction pending generalizing s with
  | nil => exact le_refl _
  | cons p pending ih =>
    refine le_trans ?_ (ih (setVariable s p.name p.value))
    rw [history_setVariable]
    exact Nat.le_succ _

theorem refusedAt_settle (s : Shell δ W) (pending : List Pending) :
    (∃ e ∈ (settle s pending).history.drop s.history.length, RefusedAt (target s) e) ↔
      AnyRefused (target s) pending := by
  induction pending using List.reverseRecOn with
  | nil => simp [settle, AnyRefused]
  | append_singleton pending p ih =>
    have hsettle : settle s (pending ++ [p]) =
        setVariable (settle s pending) p.name p.value := by
      simp [settle]
    obtain ⟨d, hhistory⟩ : ∃ d, (setVariable (settle s pending) p.name p.value).history =
        (settle s pending).history ++
          [.assigned d ⟨p.name, some (stringFromLong p.value), true⟩] := by
      unfold setVariable Shell.writeVar
      split
      · exact ⟨none, rfl⟩
      · exact ⟨_, rfl⟩
    rw [hsettle, hhistory, List.drop_append_of_le_length (length_history_settle s pending)]
    simp only [AnyRefused, List.mem_append, List.mem_singleton, or_and_right, exists_or,
      exists_eq_left]
    exact or_congr ih Iff.rfl

/-- The evaluation has failed: with an error, or because an assignment has. -/
def Failed (s : Shell δ W) : Result δ W → Prop
  | .ok _ t => ∃ e ∈ t.frame.history.drop s.history.length, RefusedAt (target s) e
  | .fail _ _ => True
  | .fault _ => False

/-- No variable has changed. -/
def Unchanged (s : Shell δ W) : Result δ W → Prop
  | .ok _ t | .fail _ t => frameVariables t.frame = frameVariables s
  | .fault _ => True

/-- An evaluation that fails has changed no variable. -/
def AllOrNothing (text : List Char) (s : Shell δ W) : Prop :=
  ∀ n, Failed s (evaluateText n ⟨text, s⟩) → Unchanged s (evaluateText n ⟨text, s⟩)

/-- If the trial fails, with an error or because an assignment would, then what it has kept is
without an effect. -/
def QuietFailure (store : VariableStore) : Reply Trial String ℤ → Prop
  | .ok _ t => AnyRefused store t.pending → Quiet store t.pending
  | .fail _ t => Quiet store t.pending
  | .fault _ => True

end Migash.Arithmetic
