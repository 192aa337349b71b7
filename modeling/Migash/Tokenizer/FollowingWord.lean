import Migash.Tokenizer.Termination

/-! # The word behind an alias

An alias whose value ends in a blank leaves the next word at a command position,
so that it is looked up as well. The tokens of the value come first, and each of
them settles the command position anew.
-/

namespace Migash.Tokenizer

open Library

variable {env : Env} {tok tok' : Tokenizer} {rest : List InputToken}

/-! ## The command position -/

/-- What was handed over leaves a command position: it is nothing, or its last token starts a
command. -/
def LeavesStart (handed : List Token) : Prop :=
  ∀ last ∈ handed.getLast?, last.type ∈ commandStarters

theorem leavesStart_append_singleton (handed : List Token) (token : Token) :
    LeavesStart (handed ++ [token]) ↔ token.type ∈ commandStarters := by
  simp [LeavesStart]

theorem updateCommandPosition_iff (tok : Tokenizer) (token : Token) :
    (tok.updateCommandPosition token).atCommandPosition = true ↔ token.type ∈ commandStarters := by
  unfold updateCommandPosition
  split_ifs with h <;> simp [h]

theorem addToken_position {token : Token} (h : tok.addToken token rest = (.ok, tok')) :
    tok'.atCommandPosition = true ↔ token.type ∈ commandStarters := by
  unfold addToken at h
  cases hstack : stackAfter (tok.takeBackName token.type rest).compoundStack token.type with
  | error e => simp [hstack] at h
  | ok stack =>
    simp only [hstack, Prod.mk.injEq, true_and] at h
    rw [← h, updateCommandPosition_iff]

theorem aliasFor?_position {token : Token} {name : String}
    (h : tok.aliasFor? env token = some name) : tok.atCommandPosition = true := by
  unfold aliasFor? at h
  split_ifs at h with heligible
  simp only [isAliasEligible, Bool.and_eq_true] at heligible
  exact heligible.1.1.1

/-- An alias is only looked up at a command position, and its expansion leaves that as it is. -/
theorem tokenizerExpandAlias_position {origins : List String} {name value : String}
    (hvalue : env.aliasValue? name = some value)
    (h : tokenizerExpandAlias env tok origins name = (.ok, tok'))
    (hposition : tok.atCommandPosition = true) :
    tok'.atCommandPosition = true ∧ tok'.handedOver = tok.handedOver := by
  unfold tokenizerExpandAlias at h
  split_ifs at h with hdepth
  · cases h
  · simp only [hvalue, tokenizerRelexText] at h
    cases hlex : env.lex value with
    | error e => simp [hlex] at h
    | ok tokens =>
      simp only [hlex, ne_eq, not_true_eq_false, if_false] at h
      split_ifs at h
      · cases h
        exact ⟨rfl, rfl⟩
      · cases h
        exact ⟨hposition, rfl⟩

/-- A step hands over a token, which settles the command position, or leaves both alone. -/
theorem Step.position (h : Step env tok tok') :
    (∃ token, tok'.handedOver = tok.handedOver ++ [token] ∧
        (tok'.atCommandPosition = true ↔ token.type ∈ commandStarters)) ∨
      tok'.handedOver = tok.handedOver ∧ tok'.atCommandPosition = tok.atCommandPosition := by
  obtain ⟨hinput, hanswer⟩ := h
  cases turn_iff.mp hanswer with
  | nothing hnil => exact absurd hnil hinput
  | @expand t rest name hin halias hexpand =>
    obtain ⟨value, hvalue⟩ := aliasFor?_eq_some halias
    have hposition := aliasFor?_position halias
    obtain ⟨hposition', hhanded⟩ := tokenizerExpandAlias_position hvalue hexpand hposition
    exact .inr ⟨hhanded, hposition'.trans hposition.symm⟩
  | reserved hin halias hreserved hadd =>
    exact .inl ⟨_, (addToken_ok hadd).2, addToken_position hadd⟩
  | number hin halias hreserved hnumber hneg hset =>
    cases hset
    exact .inr ⟨rfl, rfl⟩
  | plain hin halias hreserved hnumber hadd =>
    exact .inl ⟨_, (addToken_ok hadd).2, addToken_position hadd⟩

/-! ## The tokens before the word -/

/-- The steps that use up what stands before the rest of the input. -/
inductive UsesUp (env : Env) (rest : List InputToken) : Tokenizer → Tokenizer → Prop
  | done {tok : Tokenizer} (input : tok.inputTokens = rest) : UsesUp env rest tok tok
  | step {tok tok' tok'' : Tokenizer} {t : InputToken} {ts : List InputToken}
      (input : tok.inputTokens = t :: (ts ++ rest)) (step : Step env tok tok')
      (more : UsesUp env rest tok' tok'') : UsesUp env rest tok tok''

theorem UsesUp.input (h : UsesUp env rest tok tok') : tok'.inputTokens = rest := by
  induction h with
  | done hin => exact hin
  | step _ _ _ ih => exact ih

/-- Where the tokens before the word were begun at a command position, the word is at one if and
only if what was handed over leaves one. -/
theorem UsesUp.position (h : UsesUp env rest tok tok') (hstart : tok.atCommandPosition = true) :
    ∃ handed, tok'.handedOver = tok.handedOver ++ handed ∧
      (tok'.atCommandPosition = true ↔ LeavesStart handed) := by
  have hall : ∀ before, (tok.atCommandPosition = true ↔ LeavesStart before) →
      ∃ handed, tok'.handedOver = tok.handedOver ++ handed ∧
        (tok'.atCommandPosition = true ↔ LeavesStart (before ++ handed)) := by
    clear hstart
    induction h with
    | done => exact fun before hbefore => ⟨[], by simp, by simpa using hbefore⟩
    | @step tok mid _ _ _ _ hstep _ ih =>
      intro before hbefore
      rcases hstep.position with ⟨token, hhanded, hposition⟩ | ⟨hhanded, hposition⟩
      · obtain ⟨handed, hmore, hlast⟩ := ih (before ++ [token])
          (hposition.trans (leavesStart_append_singleton before token).symm)
        refine ⟨token :: handed, by simp [hmore, hhanded], ?_⟩
        simpa using hlast
      · obtain ⟨handed, hmore, hlast⟩ := ih before (by rw [hposition]; exact hbefore)
        exact ⟨handed, by rw [hmore, hhanded], hlast⟩
  exact hall [] (iff_of_true hstart fun last hlast => by cases hlast)

/-! ## The word -/

/-- A word that may be an alias: it is unquoted and has one literal part. -/
def IsPlainWord (token : Token) : Prop :=
  token.type = .word ∧ token.wasQuoted = false ∧ ∃ part, token.parts = [part] ∧
    part.type = .literal ∧ part.wasSingleQuoted = false ∧ part.wasDoubleQuoted = false

theorem isAliasEligible_iff {token : Token} (h : IsPlainWord token) :
    tok.isAliasEligible token = true ↔ tok.atCommandPosition = true := by
  obtain ⟨htype, hquoted, part, hparts, hliteral, hsingle, hdouble⟩ := h
  simp [isAliasEligible, htype, hquoted, hparts, hliteral, hsingle, hdouble]

/-- The expansion of the alias `t`, up to the word that follows it. -/
structure Expansion (env : Env) (tok expanded tok' : Tokenizer) (t word : InputToken)
    (rest : List InputToken) (value : String) (handed : List Token) : Prop where
  input : tok.inputTokens = t :: word :: rest
  isAlias : ∃ name, tok.aliasFor? env t.token = some name ∧ env.aliasValue? name = some value
  expands : Step env tok expanded
  usesUp : UsesUp env (word :: rest) expanded tok'
  hands : tok'.handedOver = tok.handedOver ++ handed

/-- The word behind an alias is looked up if the value of the alias ends in a blank. If it does not,
the word is only looked up where it stands at the start of a command anyway. -/
structure ChecksFollowing (tok : Tokenizer) (value : String) (word : Token) (handed : List Token) :
    Prop where
  blank : aliasEndsWithBlank value = true → tok.isAliasEligible word = true
  noBlank : aliasEndsWithBlank value = false → ¬ LeavesStart handed →
    tok.isAliasEligible word = false

theorem Step.expands {t : InputToken} {name : String} (h : Step env tok tok')
    (hin : tok.inputTokens = t :: rest) (halias : tok.aliasFor? env t.token = some name) :
    tokenizerExpandAlias env { tok with inputTokens := rest } t.origins name = (.ok, tok') := by
  have hanswer := h.answer
  unfold tokenizerProcessOneToken at hanswer
  rw [hin] at hanswer
  dsimp only at hanswer
  rw [halias] at hanswer
  exact Except.ok.inj hanswer

/-- The word behind an alias is looked up if and only if what the alias brings in leaves a command
position. This is what the blank at the end of its value asks for if and only if a value that ends
in one does so. -/
theorem followingWord_checked_iff {expanded : Tokenizer} {t word : InputToken} {value : String}
    {handed : List Token} (h : Expansion env tok expanded tok' t word rest value handed)
    (hword : IsPlainWord word.token) :
    (tok'.isAliasEligible word.token = true ↔ LeavesStart handed) ∧
      (ChecksFollowing tok' value word.token handed ↔
        (aliasEndsWithBlank value = true → LeavesStart handed)) := by
  obtain ⟨name, halias, hvalue⟩ := h.isAlias
  obtain ⟨hposition, hexpanded⟩ := tokenizerExpandAlias_position hvalue
    (h.expands.expands h.input halias) (aliasFor?_position halias)
  obtain ⟨handed', hhanded, hiff⟩ := h.usesUp.position hposition
  obtain rfl : handed = handed' := by
    rw [hexpanded, h.hands] at hhanded
    exact List.append_cancel_left hhanded
  have hchecked := (isAliasEligible_iff hword).trans hiff
  refine ⟨hchecked, fun hchecks hblank => hchecked.mp (hchecks.blank hblank), fun hleaves => ?_⟩
  constructor
  case blank => exact fun hblank => hchecked.mpr (hleaves hblank)
  case noBlank => exact fun _ hnot => Bool.eq_false_iff.mpr fun hyes => hnot (hchecked.mp hyes)

/-! ## A prefix command -/

/-- `nohup` is an alias that ends in a blank, `bg` one for a command. -/
def prefixEnv (value : String) (tokens : List Token) : Env where
  aliases := some [("nohup", value), ("bg", "background_command")]
  lex text := .ok (if text = value then tokens else [.ofText text])

/-- The words `nohup bg`, as they come to the tokenizer. -/
def prefixStart : Tokenizer := ({} : Tokenizer).start [.ofText "nohup", .ofText "bg"] []

/-- The tokenizer behind one step. -/
def stepped (env : Env) (tok : Tokenizer) : Tokenizer :=
  match tokenizerProcessOneToken env tok with
  | .ok (_, tok') => tok'
  | .error _ => tok

theorem step_stepped (h : tok.inputTokens ≠ [])
    (hok : ∃ tok', tokenizerProcessOneToken env tok = .ok (.ok, tok')) :
    Step env tok (stepped env tok) := by
  obtain ⟨tok', hanswer⟩ := hok
  refine ⟨h, ?_⟩
  unfold stepped
  rw [hanswer]

/-- The environment in which `nohup` stands for `time;` and a blank. -/
def semiEnv : Env := prefixEnv "time; " [.ofText "time", .ofType .semi]

/-- Behind `time; ` the word `bg` is looked up. -/
theorem followingWord_checked_semi :
    ChecksFollowing (stepped semiEnv (stepped semiEnv (stepped semiEnv prefixStart))) "time; "
      (.ofText "bg") [.ofText "time", .ofType .semi] := by
  have hfirst : Step semiEnv prefixStart (stepped semiEnv prefixStart) :=
    step_stepped (List.cons_ne_nil _ _) ⟨_, rfl⟩
  have hsecond : Step semiEnv (stepped semiEnv prefixStart)
      (stepped semiEnv (stepped semiEnv prefixStart)) :=
    step_stepped (List.cons_ne_nil _ _) ⟨_, rfl⟩
  have hthird : Step semiEnv (stepped semiEnv (stepped semiEnv prefixStart))
      (stepped semiEnv (stepped semiEnv (stepped semiEnv prefixStart))) :=
    step_stepped (List.cons_ne_nil _ _) ⟨_, rfl⟩
  have htime : (stepped semiEnv prefixStart).inputTokens =
      ⟨.ofText "time", ["nohup"]⟩ :: ([⟨.ofType .semi, ["nohup"]⟩] ++ [⟨.ofText "bg", []⟩]) := rfl
  have hsemi : (stepped semiEnv (stepped semiEnv prefixStart)).inputTokens =
      ⟨.ofType .semi, ["nohup"]⟩ :: ([] ++ [⟨.ofText "bg", []⟩]) := rfl
  have hexpansion : Expansion semiEnv prefixStart (stepped semiEnv prefixStart)
      (stepped semiEnv (stepped semiEnv (stepped semiEnv prefixStart)))
      ⟨.ofText "nohup", []⟩ ⟨.ofText "bg", []⟩ [] "time; " [.ofText "time", .ofType .semi] :=
    { input := rfl
      isAlias := ⟨"nohup", rfl, rfl⟩
      expands := hfirst
      usesUp := .step htime hsecond (.step hsemi hthird (.done rfl))
      hands := rfl }
  refine (followingWord_checked_iff hexpansion ⟨rfl, rfl, _, rfl, rfl, rfl, rfl⟩).2.mpr ?_
  intro _ last hlast
  cases hlast
  decide

/-- The environment in which `nohup` stands for itself and a blank. -/
def nohupEnv : Env := prefixEnv "nohup " [.ofText "nohup"]

/-- Behind `nohup ` the word `bg` is not looked up, and stays as it is. -/
theorem followingWord_not_checked :
    aliasEndsWithBlank "nohup " = true ∧
      (stepped nohupEnv (stepped nohupEnv prefixStart)).inputTokens = [⟨.ofText "bg", []⟩] ∧
      ¬ ChecksFollowing (stepped nohupEnv (stepped nohupEnv prefixStart)) "nohup " (.ofText "bg")
        [.ofText "nohup"] ∧
      ∃ tok, tokenizerProcess nohupEnv 4 {} [.ofText "nohup", .ofText "bg"] [] = .ok (.ok, tok) ∧
        tok.outputTokens = [.ofText "nohup", .ofText "bg"] := by
  have hblank : aliasEndsWithBlank "nohup " = true := by decide
  refine ⟨hblank, rfl, fun h => ?_, _, rfl, rfl⟩
  exact absurd (h.blank hblank) (by decide)

end Migash.Tokenizer
