import Migash.Exec.ForLoop
import Migash.Parser.ForClause
import Mathlib

/-! # For clauses without words

A for clause without an in part is to run its body for each positional
parameter, one whose in part has no words not at all. The tree of the parser
keeps them apart; `lower_for_clause` gives both the same AST.
-/

namespace Migash.Exec

open Library

variable {δ W : Type}

/-! ## The words of the AST -/

theorem lowerForClause_words {below : Lower.Lowerers} {forTok nameTok : Token} {i j : ℕ}
    {inClause doGrp : Option Gnode} {var : String} {words : Option (List Token)} {body : Ast}
    (hlower : Lower.lowerForClause below
      (.ofMulti .forClause (some (.ofToken .wordNode forTok i))
        (some (.ofToken .nameNode nameTok j)) inClause doGrp) = .ok (.forClause var words body)) :
    Lower.lowerInClause inClause = .ok words := by
  have hread : Lower.lowerForClause below
      (.ofMulti .forClause (some (.ofToken .wordNode forTok i))
        (some (.ofToken .nameNode nameTok j)) inClause doGrp) = (do
      let words ← Lower.lowerInClause inClause
      let body ← Lower.lowerDoGroup below doGrp
      return .forClause nameTok.getAllText words body) := rfl
  rw [hread] at hlower
  obtain ⟨words', hwords, hlower⟩ := except_bind_eq_ok.mp hlower
  obtain ⟨body', -, hlower⟩ := except_bind_eq_ok.mp hlower
  cases hlower
  exact hwords

/-- Neither form leaves words in the AST. -/
theorem words_of_inPart {m : Production Gnode} {p q : Parser} {g : Gnode}
    {below : Lower.Lowerers} {var : String} {words : Option (List Token)} {body : Ast}
    (hparse : (Parser.gparseForClause m).run p = .ok g q)
    (hlower : Lower.lowerForClause below g = .ok (.forClause var words body))
    (hin : Parser.inPart? (p.tokens.drop (p.position + 2)) = none ∨
      Parser.inPart? (p.tokens.drop (p.position + 2)) = some []) : words = none := by
  obtain ⟨forTok, nameTok, i, j, inClause, doGrp, rfl, habsent, hempty⟩ :=
    Parser.gparseForClause_ok hparse
  have hwords := lowerForClause_words hlower
  rcases hin with hin | hin
  · rw [habsent hin] at hwords
    cases hwords
    rfl
  · obtain ⟨tok, origin, rfl⟩ := hempty hin
    cases hwords
    rfl

/-! ## The runs -/

/-- The words that a for clause is to go through, given its in part. -/
def wordsFor (inPart : Option (List Token)) (params : PositionalParams) : List String :=
  if inPart = none then params.params else []

/-- The runs of the body have the words in the variable one after the other. There is one for each
word, unless a run breaks off. -/
structure Iterates (words : List String) (runs : List BodyRun) : Prop where
  values : runs.map BodyRun.value <+: words.map some
  all : (∀ run ∈ runs, run.result.flow = .normal) → runs.length = words.length

/-- The body, run in this state, does not break off. -/
def EndsNormally (callees : Callees δ W) (body : Ast) (s : Shell δ W) : Prop :=
  ∀ result t, (callees.dispatch body).run s = .ok (result, t) → result.flow = .normal

theorem iterates_singleton_iff {words : List String} {run : BodyRun} :
    Iterates words [run] ↔ ∃ word rest, words = word :: rest ∧ run.value = some word ∧
      (run.result.flow = .normal → rest = []) := by
  constructor
  · rintro ⟨hvalues, hall⟩
    cases words with
    | nil => exact absurd hvalues.length_le (by simp)
    | cons word rest =>
      refine ⟨word, rest, rfl, ?_, fun hnormal => ?_⟩
      · simpa using hvalues
      · have hlength := hall (List.forall_mem_singleton.mpr hnormal)
        simpa using hlength.symm
  · rintro ⟨word, rest, rfl, hvalue, hrest⟩
    refine ⟨by simp [hvalue], fun hnormal => ?_⟩
    rw [hrest (hnormal run List.mem_cons_self)]
    rfl

section

variable {env : Env δ W} {callees : Callees δ W} {m : Production Gnode} {p q : Parser} {g : Gnode}
  {below : Lower.Lowerers} {var : String} {words : Option (List Token)} {body : Ast}
  {s t : Shell δ W} {params : PositionalParams} {runs : List BodyRun} {r : ExecuteResult}

theorem forWords_none (hparams : s.frame.positionalParams = some params) :
    (forWords env none).run s = .ok (params.params, s) := by
  unfold forWords
  rw [Stateful.run_bind_ok (Stateful.run_get_eq s), hparams]
  rfl

/-- The words that the executor takes for a clause without words are the right ones if and only if
it has no in part, or there are no positional parameters. Its runs are the right ones if and only if
it has no in part, the variable already holds the first positional parameter, and there is no other
unless the first run breaks off. -/
theorem forClause_keepsApart_iff (hparse : (Parser.gparseForClause m).run p = .ok g q)
    (hlower : Lower.lowerForClause below g = .ok (.forClause var words body))
    (hin : Parser.inPart? (p.tokens.drop (p.position + 2)) = none ∨
      Parser.inPart? (p.tokens.drop (p.position + 2)) = some [])
    (hparams : s.frame.positionalParams = some params)
    (hrun : (tracedForClause env callees var words body).run s = .ok ((runs, r), t)) :
    let inPart := Parser.inPart? (p.tokens.drop (p.position + 2))
    ((forWords env words).run s = .ok (wordsFor inPart params, s) ↔
      inPart = none ∨ params.params = []) ∧
    (Iterates (wordsFor inPart params) runs ↔
      inPart = none ∧ ∃ word rest, params.params = word :: rest ∧ s.value? var = some word ∧
        (EndsNormally callees body (s.inForLoop params.params.length) → rest = [])) := by
  intro inPart
  obtain rfl := words_of_inPart hparse hlower hin
  have hwords : (forWords env none).run s = .ok (params.params, s) := forWords_none hparams
  unfold tracedForClause at hrun
  rw [Stateful.run_bind_ok hwords] at hrun
  obtain ⟨result, u, hbody, rfl, -⟩ := tracedForLoop_run hrun
  have hends : EndsNormally callees body (s.inForLoop params.params.length) ↔
      result.flow = .normal := by
    refine ⟨fun h => h result u hbody, fun h result' u' hbody' => ?_⟩
    cases hbody.symm.trans hbody'
    exact h
  rw [hwords, iterates_singleton_iff, hends]
  rcases hin with hin | hin
  · have hfor : wordsFor inPart params = params.params := if_pos hin
    rw [hfor]
    exact ⟨iff_of_true rfl (.inl hin), by simp only [show inPart = none from hin, true_and]⟩
  · have hsome : inPart ≠ none := by
      rw [show inPart = some [] from hin]
      exact Option.some_ne_none []
    have hfor : wordsFor inPart params = [] := if_neg hsome
    rw [hfor]
    constructor
    · constructor
      · intro h
        exact .inr (Prod.mk.inj (Except.ok.inj h)).1
      · rintro (h | h)
        · exact absurd h hsome
        · rw [h]
    · constructor
      · rintro ⟨_, _, h, -⟩
        cases h
      · rintro ⟨h, -⟩
        exact absurd h hsome

end

/-! ## A loop without `in` and one without words -/

/-- `for name in; do x=1; done`, or the same without `in`. -/
def bareForTokens (name : String) (inTokens : List Token) : List Token :=
  [.ofType .for_, .ofText name] ++ inTokens ++
    [.ofType .semi, .ofType .do_, assignToken, .ofType .semi, .ofType .done]

/-- The node that the parser makes of it. -/
def bareForNode (name : String) (inTokens : List Token) : Gnode :=
  match (Parser.gparseForClause Parser.gparseCompoundList).run
      { tokens := bareForTokens name inTokens } with
  | .ok g _ => g
  | _ => .ofList .program []

/-- The shell with these positional parameters. -/
def Shell.withParams (s : Shell Unit Unit) (params : List String) : Shell Unit Unit :=
  { s with frame := { s.frame with positionalParams := some ⟨none, params⟩ } }

/-- `for x; do x=1; done` with the positional parameter `1`, where `x` is `1` already. -/
theorem forClause_keepsApart_absent : ∃ runs r t,
    (tracedForClause (Env.idle Unit Unit) (executor (Env.idle Unit Unit) 1) "x" none
        assignCondition).run (shellWithX.withParams ["1"]) = .ok ((runs, r), t) ∧
      Iterates ["1"] runs := by
  have hparses : ∃ q, (Parser.gparseForClause Parser.gparseCompoundList).run
      { tokens := bareForTokens "x" [] } = .ok (bareForNode "x" []) q := by
    exact ⟨_, rfl⟩
  obtain ⟨q, hparse⟩ := hparses
  have hlower : Lower.lowerForClause (lowerers 4) (bareForNode "x" []) =
      .ok (.forClause "x" none assignCondition) := rfl
  obtain ⟨runs, r, t, hrun⟩ : ∃ runs r t,
      (tracedForClause (Env.idle Unit Unit) (executor (Env.idle Unit Unit) 1) "x" none
        assignCondition).run (shellWithX.withParams ["1"]) = .ok ((runs, r), t) := ⟨_, _, _, rfl⟩
  have hparams : (shellWithX.withParams ["1"]).frame.positionalParams = some ⟨none, ["1"]⟩ := rfl
  have hiff := forClause_keepsApart_iff hparse hlower (.inl rfl) hparams hrun
  exact ⟨runs, r, t, hrun, hiff.2.mpr ⟨rfl, "1", [], rfl, rfl, fun _ => rfl⟩⟩

/-- `for y in; do x=1; done` takes the positional parameters for its words and runs its body. -/
theorem forClause_in_without_words : ∃ q runs r t,
    (Parser.gparseForClause Parser.gparseCompoundList).run
        { tokens := bareForTokens "y" [.ofType .in_] } =
          .ok (bareForNode "y" [.ofType .in_]) q ∧
      Lower.lowerForClause (lowerers 4) (bareForNode "y" [.ofType .in_]) =
        .ok (.forClause "y" none assignCondition) ∧
      (forWords (Env.idle Unit Unit) none).run ((Shell.initial ()).withParams ["a", "b"]) =
        .ok (["a", "b"], (Shell.initial ()).withParams ["a", "b"]) ∧
      (tracedForClause (Env.idle Unit Unit) (executor (Env.idle Unit Unit) 1) "y" none
        assignCondition).run ((Shell.initial ()).withParams ["a", "b"]) = .ok ((runs, r), t) ∧
      ¬ Iterates [] runs := by
  obtain ⟨runs, r, t, hrun, hone⟩ : ∃ runs r t,
      (tracedForClause (Env.idle Unit Unit) (executor (Env.idle Unit Unit) 1) "y" none
        assignCondition).run ((Shell.initial ()).withParams ["a", "b"]) = .ok ((runs, r), t) ∧
      runs.length = 1 := ⟨_, _, _, rfl, rfl⟩
  refine ⟨_, runs, r, t, rfl, rfl, rfl, hrun, fun h => ?_⟩
  have hlength := h.values.length_le
  rw [List.length_map, hone] at hlength
  exact absurd hlength (by decide)

end Migash.Exec
