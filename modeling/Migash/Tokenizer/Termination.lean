import Mathlib.Algebra.BigOperators.Group.List.Basic
import Mathlib.Algebra.Order.BigOperators.Group.List
import Mathlib.Algebra.GroupWithZero.Nat
import Mathlib.Algebra.Order.Group.Nat
import Mathlib.Data.List.Nodup
import Mathlib.Logic.Relation
import Migash.Tokenizer.Process

/-! # Alias expansion comes to an end

A token weighs the more, the fewer aliases it comes from. An expansion replaces
a token by lighter ones as long as no alias is expanded inside its own
expansion, and every other step takes a token away.
-/

namespace Migash.Tokenizer

open Library Relation

variable (env : Env)

/-- The loop ends: with enough turns there is an answer. -/
def Returns (tok : Tokenizer) (input output : List Token) : Prop :=
  ∃ n, tokenizerProcess env n tok input output ≠ .error .fuel

/-- The token that is replaced next, if any, does not come from an expansion of its own alias. -/
def NotNested (tok : Tokenizer) : Prop :=
  ∀ t rest name, tok.inputTokens = t :: rest → tok.aliasFor? env t.token = some name →
    name ∉ t.origins

/-- No step from here on expands an alias inside its own expansion. -/
def NeverNests (tok : Tokenizer) : Prop :=
  ∀ tok', ReflTransGen (Step env) tok tok' → NotNested env tok'

/-! ## Weights -/

def Env.names : List String := (env.aliases.getD []).map Prod.fst

/-- The number of tokens of a text, where it can be read. -/
def Env.size (text : String) : ℕ :=
  match env.lex text with
  | .ok tokens => tokens.length
  | .error _ => 0

/-- A bound on the number of tokens of one expansion. -/
def Env.width : ℕ := ((env.aliases.getD []).map fun entry => env.size entry.2).sum

def weight (t : InputToken) : ℕ := (env.width + 1) ^ (env.names.length - t.origins.length)

def inputWeight (tok : Tokenizer) : ℕ := (tok.inputTokens.map (weight env)).sum

/-- The origins of every token are different aliases of the store. -/
structure OriginsKnown (tok : Tokenizer) : Prop where
  nodup : ∀ t ∈ tok.inputTokens, t.origins.Nodup
  known : ∀ t ∈ tok.inputTokens, t.origins ⊆ env.names

variable {env} {tok tok' : Tokenizer}

theorem weight_pos (t : InputToken) : 0 < weight env t := Nat.pow_pos (Nat.succ_pos _)

theorem aliasValue?_eq_some {name value : String} (h : env.aliasValue? name = some value) :
    (name, value) ∈ env.aliases.getD [] := by
  unfold Env.aliasValue? at h
  cases hstore : env.aliases with
  | none => simp [hstore] at h
  | some store =>
    simp only [hstore, Option.bind_some, Option.map_eq_some_iff] at h
    obtain ⟨⟨name', value'⟩, hfind, rfl⟩ := h
    have hname : name' = name := by simpa using List.find?_some hfind
    rw [← hname]
    exact List.mem_of_find?_eq_some hfind

theorem mem_names {name value : String} (h : env.aliasValue? name = some value) :
    name ∈ env.names := List.mem_map_of_mem (aliasValue?_eq_some h)

theorem size_le_width {name value : String} (h : env.aliasValue? name = some value) :
    env.size value ≤ env.width := by
  exact List.le_sum_of_mem (List.mem_map.mpr ⟨_, aliasValue?_eq_some h, rfl⟩)

theorem aliasFor?_eq_some {token : Token} {name : String}
    (h : tok.aliasFor? env token = some name) : ∃ value, env.aliasValue? name = some value := by
  unfold aliasFor? at h
  split_ifs at h
  split at h
  · split_ifs at h with hname
    cases h
    exact Option.isSome_iff_exists.mp hname.1
  · cases h

/-! ## The steps -/

/-- What an expansion does to the input: the alias of the token is replaced by the tokens of its
value. -/
theorem tokenizerExpandAlias_input {origins : List String} {name value : String}
    (hvalue : env.aliasValue? name = some value)
    (h : tokenizerExpandAlias env tok origins name = (.ok, tok')) :
    ∃ tokens, env.lex value = .ok tokens ∧
      tok'.inputTokens = tokens.map (⟨·, name :: origins⟩) ++ tok.inputTokens := by
  unfold tokenizerExpandAlias at h
  split_ifs at h with hdepth
  · cases h
  · simp only [hvalue, tokenizerRelexText] at h
    cases hlex : env.lex value with
    | error e => simp [hlex] at h
    | ok tokens =>
      refine ⟨tokens, rfl, ?_⟩
      simp only [hlex] at h
      split_ifs at h <;> cases h <;> rfl

/-- A step expands an alias, takes the number of a redirection away or hands a token over. -/
theorem Step.cases (h : Step env tok tok') :
    ∃ t rest, tok.inputTokens = t :: rest ∧
      ((∃ name value tokens, tok.aliasFor? env t.token = some name ∧
          env.aliasValue? name = some value ∧ env.lex value = .ok tokens ∧
          tok'.inputTokens = tokens.map (⟨·, name :: t.origins⟩) ++ rest) ∨
        (∃ next rest' number, rest = next :: rest' ∧
          tok'.inputTokens = { next with token := setIoNumber next.token number } :: rest') ∨
        tok'.inputTokens = rest) := by
  obtain ⟨hinput, hanswer⟩ := h
  cases turn_iff.mp hanswer with
  | nothing hnil => exact absurd hnil hinput
  | @expand t rest name hin halias hexpand =>
    obtain ⟨value, hvalue⟩ := aliasFor?_eq_some halias
    obtain ⟨tokens, hlex, hinput'⟩ := tokenizerExpandAlias_input hvalue hexpand
    exact ⟨t, rest, hin, .inl ⟨name, value, tokens, halias, hvalue, hlex, hinput'⟩⟩
  | @reserved t rest _ hin _ _ hadd => exact ⟨t, rest, hin, .inr (.inr (addToken_ok hadd).1)⟩
  | @number t next rest _ hin _ _ _ _ hnumber =>
    cases hnumber
    exact ⟨t, next :: rest, hin, .inr (.inl ⟨next, rest, _, rfl, rfl⟩)⟩
  | @plain t rest hin _ _ _ hadd => exact ⟨t, rest, hin, .inr (.inr (addToken_ok hadd).1)⟩

theorem OriginsKnown.step (h : OriginsKnown env tok) (hnest : NotNested env tok)
    (hstep : Step env tok tok') : OriginsKnown env tok' := by
  obtain ⟨t, rest, hin, hcases⟩ := hstep.cases
  have hrest : ∀ u ∈ rest, u.origins.Nodup ∧ u.origins ⊆ env.names := by
    intro u hu
    have hmem : u ∈ tok.inputTokens := by
      rw [hin]
      exact List.mem_cons_of_mem t hu
    exact ⟨h.nodup u hmem, h.known u hmem⟩
  have hboth : ∀ u ∈ tok'.inputTokens, u.origins.Nodup ∧ u.origins ⊆ env.names := by
    rcases hcases with ⟨name, value, tokens, halias, hvalue, -, hin'⟩ | ⟨next, rest', number, rfl,
      hin'⟩ | hin'
    · have hmem : t ∈ tok.inputTokens := by
        rw [hin]
        exact List.mem_cons_self
      intro u hu
      rw [hin', List.mem_append, List.mem_map] at hu
      rcases hu with ⟨token, -, rfl⟩ | hu
      · exact ⟨List.nodup_cons.mpr ⟨hnest t rest name hin halias, h.nodup t hmem⟩,
          List.cons_subset.mpr ⟨mem_names hvalue, h.known t hmem⟩⟩
      · exact hrest u hu
    · intro u hu
      rw [hin', List.mem_cons] at hu
      rcases hu with rfl | hu
      · exact hrest next List.mem_cons_self
      · exact hrest u (List.mem_cons_of_mem next hu)
    · rw [hin']
      exact hrest
  exact ⟨fun u hu => (hboth u hu).1, fun u hu => (hboth u hu).2⟩

/-- Every step makes the input lighter. -/
theorem inputWeight_step (h : OriginsKnown env tok) (hnest : NotNested env tok)
    (hstep : Step env tok tok') : inputWeight env tok' < inputWeight env tok := by
  obtain ⟨t, rest, hin, hcases⟩ := hstep.cases
  have hpos : 0 < weight env t := weight_pos t
  unfold inputWeight
  rcases hcases with ⟨name, value, tokens, halias, hvalue, hlex, hin'⟩ | ⟨next, rest', number, rfl,
    hin'⟩ | hin'
  · have hmem : t ∈ tok.inputTokens := by
      rw [hin]
      exact List.mem_cons_self
    have hlength : t.origins.length < env.names.length := by
      have hsub := (List.subperm_of_subset (List.nodup_cons.mpr
        ⟨hnest t rest name hin halias, h.nodup t hmem⟩)
        (List.cons_subset.mpr ⟨mem_names hvalue, h.known t hmem⟩)).length_le
      simp only [List.length_cons] at hsub
      omega
    have hsize : tokens.length ≤ env.width := by
      have hle := size_le_width hvalue
      rwa [Env.size, hlex] at hle
    -- each token of the value weighs a width-and-oneth part of the alias
    have hexp : env.names.length - t.origins.length =
        env.names.length - (t.origins.length + 1) + 1 := by omega
    have hnew : (tokens.map fun token => weight env ⟨token, name :: t.origins⟩).sum <
        weight env t := by
      rw [show (fun token => weight env ⟨token, name :: t.origins⟩) = fun _ : Token =>
        (env.width + 1) ^ (env.names.length - (t.origins.length + 1)) from rfl,
        List.map_const', List.sum_replicate_nat, weight, hexp, pow_succ, mul_comm]
      exact Nat.mul_lt_mul_of_pos_left (by omega) (Nat.pow_pos (Nat.succ_pos _))
    rw [hin', hin, List.map_append, List.sum_append, List.map_map, List.map_cons, List.sum_cons]
    exact Nat.add_lt_add_right hnew _
  · rw [hin', hin, List.map_cons, List.map_cons, List.map_cons, List.sum_cons, List.sum_cons,
      List.sum_cons]
    have hsame : weight env { next with token := setIoNumber next.token number } =
        weight env next := rfl
    omega
  · rw [hin', hin, List.map_cons, List.sum_cons]
    omega

/-! ## The run -/

/-- With more turns than its input weighs the loop comes to its end. -/
theorem processTokens_ne_fuel {n : ℕ} (hweight : inputWeight env tok < n)
    (horigins : OriginsKnown env tok) (hnests : NeverNests env tok) :
    processTokens env n tok ≠ .error .fuel := by
  induction n generalizing tok with
  | zero => omega
  | succ n ih =>
    by_cases hin : tok.inputTokens = []
    · rw [processTokens_nil hin]
      simp
    · cases hone : tokenizerProcessOneToken env tok with
      | error e =>
        rw [processTokens_fault hin hone]
        rintro ⟨⟩
        exact tokenizerProcessOneToken_ne_fuel env tok hone
      | ok p =>
        obtain ⟨status, tok'⟩ := p
        by_cases hstatus : status = .ok
        · subst hstatus
          have hstep : Step env tok tok' := ⟨hin, hone⟩
          have hnest := hnests tok .refl
          have hlighter := inputWeight_step horigins hnest hstep
          rw [processTokens_step hstep]
          exact ih (by omega) (horigins.step hnest hstep) fun u hu => hnests u (.head hstep hu)
        · rw [processTokens_stop hin hstatus hone]
          simp

/-- The tokens of the input come from no alias. -/
theorem originsKnown_start (tok : Tokenizer) (input output : List Token) :
    OriginsKnown env (tok.start input output) := by
  constructor <;>
  · intro t ht
    obtain ⟨token, -, rfl⟩ := List.mem_map.mp ht
    simp

/-- A run in which no alias is expanded inside its own expansion ends. -/
theorem tokenizerProcess_returns (tok : Tokenizer) (input output : List Token)
    (h : NeverNests env (tok.start input output)) : Returns env tok input output :=
  ⟨_, processTokens_ne_fuel (Nat.lt_succ_self _) (originsKnown_start tok input output) h⟩

/-- One alias: `ls` stands for `ls -l`. -/
def lsEnv : Env where
  aliases := some [("ls", "ls -l")]
  lex _ := .ok [.ofText "ls", .ofText "-l"]

/-- The `ls` of the value is a word, as its alias has been expanded. -/
theorem tokenizerProcess_returns_ls : Returns lsEnv {} [.ofText "ls"] [] := by
  apply tokenizerProcess_returns
  intro tok₀ hreach t rest name hin halias
  have hend : ∀ {tok}, tok.inputTokens = [] → ReflTransGen (Step lsEnv) tok tok₀ → False := by
    intro tok hnil h
    rcases h.cases_head with rfl | ⟨_, hstep, -⟩
    · rw [hnil] at hin
      cases hin
    · exact hstep.input hnil
  rcases hreach.cases_head with rfl | ⟨_, ⟨-, h₁⟩, hreach⟩
  · cases hin
    exact List.not_mem_nil
  · cases h₁
    rcases hreach.cases_head with rfl | ⟨_, ⟨-, h₂⟩, hreach⟩
    · cases hin
      cases halias
    · cases h₂
      rcases hreach.cases_head with rfl | ⟨_, ⟨-, h₃⟩, hreach⟩
      · cases hin
        cases halias
      · cases h₃
        exact (hend rfl hreach).elim

/-! ## An expansion without end -/

/-- One alias: `a` stands for `; a`. -/
def loopingEnv : Env where
  aliases := some [("a", "; a")]
  lex _ := .ok [.ofType .semi, .ofText "a"]

/-- The first of the two tokens of an expansion empties the list of expanded aliases. -/
theorem processTokens_looping (n : ℕ) (origins : List String) (output : List Token) :
    processTokens loopingEnv n
      { inputTokens := [⟨.ofText "a", origins⟩], outputTokens := output } = .error .fuel := by
  induction n using Nat.strongRecOn generalizing origins output with
  | ind n ih =>
    match n with
    | 0 => rfl
    | 1 => rfl
    | n + 2 => exact ih n (by omega) ("a" :: origins) (output ++ [.ofType .semi])

theorem not_returns_looping : ¬ Returns loopingEnv {} [.ofText "a"] [] := by
  rintro ⟨n, h⟩
  exact h (processTokens_looping n [] [])

end Migash.Tokenizer
