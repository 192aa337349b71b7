import Migash.Exec.Drivers
import Migash.Lexer.Alike
import Migash.Library.Gives

/-! # What a session remembers

Two sessions read alike if their lexers are alike and what the tokenizer and the parser
keep for the next line is the same. A session that was reset reads like a new one,
unless its lexer was reading a here-document: that flag survives the reset.
-/

namespace Migash

open Library

/-! ## The tokenizer -/

namespace Tokenizer

variable {env : Env} {tok tok' : Tokenizer} {status : TokStatus}

/-- What stays as it was made: the depth of expansions, and its bound. -/
structure SameDepth (tok tok' : Tokenizer) : Prop where
  expansionDepth : tok'.expansionDepth = tok.expansionDepth
  maxExpansionDepth : tok'.maxExpansionDepth = tok.maxExpansionDepth

theorem SameDepth.trans {tok'' : Tokenizer} (h : SameDepth tok tok') (h' : SameDepth tok' tok'') :
    SameDepth tok tok'' :=
  ⟨h'.1.trans h.1, h'.2.trans h.2⟩

theorem tokenizerRelexText_sameDepth (env : Env) (tok : Tokenizer) (origins : List String)
    (text : String) :
    SameDepth tok (tokenizerRelexText env tok origins text).2 ∧
      (tokenizerRelexText env tok origins text).1 ≠ .internalError := by
  unfold tokenizerRelexText
  cases env.lex text with
  | error e =>
    dsimp only
    exact ⟨⟨rfl, rfl⟩, nofun⟩
  | ok tokens =>
    dsimp only
    exact ⟨⟨rfl, rfl⟩, nofun⟩

theorem tokenizerExpandAlias_sameDepth (env : Env) (tok : Tokenizer) (origins : List String)
    (name : String) :
    SameDepth tok (tokenizerExpandAlias env tok origins name).2 ∧
      (tokenizerExpandAlias env tok origins name).1 ≠ .internalError := by
  unfold tokenizerExpandAlias
  split_ifs
  · exact ⟨⟨rfl, rfl⟩, nofun⟩
  · cases env.aliasValue? name with
    | none =>
      dsimp only
      exact ⟨⟨rfl, rfl⟩, nofun⟩
    | some value =>
      dsimp only
      obtain ⟨hdepth, hstatus⟩ := tokenizerRelexText_sameDepth env
        { tok with
          expandedAliases := name :: tok.expandedAliases
          expansionDepth := tok.expansionDepth + 1 } (name :: origins) value
      generalize tokenizerRelexText env _ (name :: origins) value = answer at hdepth hstatus ⊢
      have hback : answer.2.expansionDepth - 1 = tok.expansionDepth := by
        rw [hdepth.expansionDepth, Nat.add_sub_cancel]
      split_ifs
      · exact ⟨⟨hback, hdepth.maxExpansionDepth⟩, hstatus⟩
      · exact ⟨⟨hback, hdepth.maxExpansionDepth⟩, nofun⟩
      · exact ⟨⟨hback, hdepth.maxExpansionDepth⟩, nofun⟩

theorem addToken_sameDepth (tok : Tokenizer) (token : Token) (rest : List InputToken) :
    SameDepth tok (tok.addToken token rest).2 ∧ (tok.addToken token rest).1 ≠ .internalError := by
  have htake (type : TokenType) : SameDepth tok (tok.takeBackName type rest) := by
    unfold takeBackName
    split_ifs <;> exact ⟨rfl, rfl⟩
  have hover (t : Tokenizer) (token : Token) (stack : List TokenType) :
      SameDepth t (t.handOver token stack) := by
    unfold handOver
    split_ifs <;> exact ⟨rfl, rfl⟩
  have hupdate (t : Tokenizer) : SameDepth t (t.updateCommandPosition token) := by
    unfold updateCommandPosition
    split_ifs <;> exact ⟨rfl, rfl⟩
  unfold addToken
  dsimp only
  cases stackAfter (tok.takeBackName token.type rest).compoundStack token.type with
  | error e =>
    dsimp only
    exact ⟨⟨(htake token.type).1, (htake token.type).2⟩, nofun⟩
  | ok stack =>
    dsimp only
    have hmid := (htake token.type).trans (hover (tok.takeBackName token.type rest) token stack)
    have hrest : SameDepth tok
        { (tok.takeBackName token.type rest).handOver token stack with inputTokens := rest } :=
      ⟨hmid.1, hmid.2⟩
    exact ⟨hrest.trans (hupdate _), nofun⟩

theorem tokenizerProcessOneToken_sameDepth
    (h : tokenizerProcessOneToken env tok = .ok (status, tok')) :
    SameDepth tok tok' ∧ status ≠ .internalError := by
  cases turn_iff.mp h with
  | nothing _ heq => cases heq; exact ⟨⟨rfl, rfl⟩, nofun⟩
  | number _ _ _ _ _ heq => cases heq; exact ⟨⟨rfl, rfl⟩, nofun⟩
  | @expand t rest name _ _ heq =>
    have hkeeps := tokenizerExpandAlias_sameDepth env { tok with inputTokens := rest } t.origins name
    rw [heq] at hkeeps
    exact ⟨⟨hkeeps.1.1, hkeeps.1.2⟩, hkeeps.2⟩
  | @reserved t rest type _ _ _ heq =>
    have hkeeps := addToken_sameDepth tok { t.token with type } rest
    rw [heq] at hkeeps
    exact hkeeps
  | @plain t rest _ _ _ _ heq =>
    have hkeeps := addToken_sameDepth tok t.token rest
    rw [heq] at hkeeps
    exact hkeeps

/-- What a call of `tokenizer_process` keeps, and what it leaves behind if it is complete. -/
theorem processTokens_keeps {n : ℕ} (h : processTokens env n tok = .ok (status, tok')) :
    SameDepth tok tok' ∧ status ≠ .internalError ∧
      (status = .ok → tok'.compoundStack = [] ∧ tok'.bufferedTokens = []) := by
  induction n generalizing tok with
  | zero => cases h
  | succ n ih =>
    rw [processTokens] at h
    split_ifs at h with hnil
    · unfold finish at h
      split_ifs at h with hstack
      · cases h
        exact ⟨⟨rfl, rfl⟩, by decide, fun heq => by cases heq⟩
      · cases h
        exact ⟨⟨rfl, rfl⟩, by decide, fun _ => ⟨not_not.mp hstack, rfl⟩⟩
    · obtain ⟨⟨status', mid⟩, hone, h⟩ := except_bind_eq_ok.mp h
      obtain ⟨hdepth, hstatus⟩ := tokenizerProcessOneToken_sameDepth hone
      dsimp only at h
      split_ifs at h with hok
      · cases h
        exact ⟨hdepth, hstatus, fun heq => (hok heq).elim⟩
      · obtain ⟨hdepth', hrest⟩ := ih h
        exact ⟨hdepth.trans hdepth', hrest⟩

end Tokenizer

/-! ## Sessions -/

namespace Exec

open Lexer Tokenizer

variable {δ W : Type} {fe : FrontEnd δ W} {aliases : Tokenizer.Env} {σ σ' τ : Session}

/-- The front end with the places of the tokens left out. -/
def FrontEnd.unplaced (fe : FrontEnd δ W) : FrontEnd δ W := { fe with place := Token.unplaced }

/-- Two sessions that read alike. -/
structure Session.ReadsAlike (σ σ' : Session) : Prop where
  lexer : ∃ before, AlikeIn before σ.lexer σ'.lexer
  tokenizer : σ'.tokenizer.start [] [] = σ.tokenizer.start [] []
  accumulatedTokens : σ'.accumulatedTokens = σ.accumulatedTokens

/-- Two sessions that read alike and that the partial API takes for the same. -/
structure Session.Alike (σ σ' : Session) : Prop extends Session.ReadsAlike σ σ' where
  incomplete : σ'.incomplete = σ.incomplete

/-- Two readings that are the same, with sessions that read alike. -/
def AlikeReadings (r r' : Reading × Session) : Prop := r'.1 = r.1 ∧ r.2.ReadsAlike r'.2

/-- The tokenizer starts with nothing but what it keeps. -/
theorem start_congr {tok tok' : Tokenizer} (h : tok'.start [] [] = tok.start [] [])
    (input output : List Token) : tok'.start input output = tok.start input output := by
  have hstart (t : Tokenizer) : t.start input output =
      { t.start [] [] with inputTokens := input.map (⟨·, []⟩), outputTokens := output } := rfl
  rw [hstart, hstart, h]

theorem Session.ReadsAlike.tokenizeRaw (h : σ.ReadsAlike σ') {rawTokens rawTokens' : List Token}
    (hraw : rawTokens'.map Token.unplaced = rawTokens.map Token.unplaced) :
    Follows (fun r r' => r'.1 = r.1 ∧ r.2.1.ReadsAlike r'.2.1 ∧ r'.2.2 = r.2.2)
      (tokenizeRaw fe.unplaced aliases σ rawTokens)
      (tokenizeRaw fe.unplaced aliases σ' rawTokens') := by
  have hsame : tokenizerProcess aliases fe.unplaced.fuel σ'.tokenizer
        (rawTokens'.map fe.unplaced.place) [] =
      tokenizerProcess aliases fe.unplaced.fuel σ.tokenizer
        (rawTokens.map fe.unplaced.place) [] := by
    unfold tokenizerProcess
    rw [start_congr h.tokenizer, FrontEnd.unplaced, hraw]
  unfold Exec.tokenizeRaw
  rw [hsame]
  refine (Follows.self _).bind fun a a' ha => ?_
  rw [ha]
  exact .pure ⟨rfl, { h with tokenizer := rfl }, rfl⟩

theorem Session.ReadsAlike.parseProcessed (h : σ.ReadsAlike σ') (processed : List Token) :
    Follows AlikeReadings (parseProcessed σ processed) (parseProcessed σ' processed) := by
  unfold Exec.parseProcessed
  rw [h.accumulatedTokens]
  have hclear : Session.ReadsAlike { σ with accumulatedTokens := none }
      { σ' with accumulatedTokens := none } := { h with accumulatedTokens := rfl }
  refine .ite Iff.rfl (fun _ => .ok ⟨rfl, h⟩) fun _ => ?_
  dsimp only
  cases Migash.Parser.parserParseProgram (σ.accumulatedTokens.getD [] ++ processed) with
  | fault cause => exact .fault cause
  | fail failure parser =>
    cases failure with
    | error => exact .ok ⟨rfl, hclear⟩
    | incomplete => exact .ok ⟨rfl, { h with accumulatedTokens := rfl }⟩
    | empty => exact .ok ⟨rfl, hclear⟩
  | ok gnode parser =>
    dsimp only
    cases astLower gnode with
    | ok ast => exact .ok ⟨rfl, hclear⟩
    | error stop =>
      cases stop with
      | null => exact .ok ⟨rfl, hclear⟩
      | crash => exact .contract _
      | fuel => exact .fuel _

theorem Session.ReadsAlike.readUnfinished (h : σ.ReadsAlike σ') {rawTokens rawTokens' : List Token}
    (hraw : rawTokens'.map Token.unplaced = rawTokens.map Token.unplaced) :
    Follows AlikeReadings (readUnfinished fe.unplaced aliases σ rawTokens)
      (readUnfinished fe.unplaced aliases σ' rawTokens') := by
  have hnil : rawTokens = [] ↔ rawTokens' = [] := by
    rw [← List.map_eq_nil_iff (f := Token.unplaced), ← hraw, List.map_eq_nil_iff]
  unfold Exec.readUnfinished
  refine .ite hnil (fun _ => .pure ⟨rfl, h⟩) fun _ => ?_
  refine (h.tokenizeRaw hraw).bind fun a a' ha => ?_
  obtain ⟨status, τ, processed⟩ := a
  obtain ⟨status', τ', processed'⟩ := a'
  obtain ⟨rfl, hτ, rfl⟩ := ha
  have hmore : Session.ReadsAlike
      { τ with accumulatedTokens := some (τ.accumulatedTokens.getD [] ++ processed') }
      { τ' with accumulatedTokens := some (τ'.accumulatedTokens.getD [] ++ processed') } :=
    { hτ with accumulatedTokens := by rw [hτ.accumulatedTokens] }
  cases status' with
  | error => exact .pure ⟨rfl, hτ⟩
  | incomplete => exact .pure ⟨rfl, hτ⟩
  | ok => exact .pure ⟨rfl, hmore⟩
  | internalError => exact .pure ⟨rfl, hmore⟩

theorem Session.ReadsAlike.readFinished (h : σ.ReadsAlike σ') {rawTokens rawTokens' : List Token}
    (hraw : rawTokens'.map Token.unplaced = rawTokens.map Token.unplaced) :
    Follows AlikeReadings (readFinished fe.unplaced aliases σ rawTokens)
      (readFinished fe.unplaced aliases σ' rawTokens') := by
  unfold Exec.readFinished
  refine (h.tokenizeRaw hraw).bind fun a a' ha => ?_
  obtain ⟨status, τ, processed⟩ := a
  obtain ⟨status', τ', processed'⟩ := a'
  obtain ⟨rfl, hτ, rfl⟩ := ha
  cases status' with
  | error => exact .pure ⟨rfl, hτ⟩
  | incomplete => exact .pure ⟨rfl, hτ⟩
  | ok => exact hτ.parseProcessed _
  | internalError => exact hτ.parseProcessed _

/-- Sessions that read alike read every line alike. -/
theorem Session.ReadsAlike.readInput (h : σ.ReadsAlike σ') (input : List Char) :
    Follows AlikeReadings (readInput fe.unplaced aliases σ input)
      (readInput fe.unplaced aliases σ' input) := by
  obtain ⟨before, hlexer⟩ := h.lexer
  unfold Exec.readInput
  refine ((hlexer.appendInput input).tokenize le_rfl).bind fun a a' ha => ?_
  obtain ⟨status, lexer, rawTokens⟩ := a
  obtain ⟨status', lexer', rawTokens'⟩ := a'
  obtain rfl : status' = status := ha.status
  have hnext : Session.ReadsAlike { σ with lexer } { σ' with lexer := lexer' } :=
    { h with lexer := ⟨before, ha.lx⟩ }
  cases status' with
  | error => exact .pure ⟨rfl, hnext⟩
  | incomplete => exact hnext.readUnfinished ha.outTokens
  | needHeredoc => exact hnext.readUnfinished ha.outTokens
  | ok => exact hnext.readFinished ha.outTokens
  | internalError => exact hnext.readFinished ha.outTokens

/-- Behind a reset two lexers differ at most in whether a here-document is read. -/
theorem alikeIn_reset {lx lx' : Lexer} (h : lx'.readingHeredoc = lx.readingHeredoc) :
    AlikeIn [] lx.lexerReset lx'.lexerReset := by
  refine ⟨[], List.not_mem_nil, ?_⟩
  exact
    { input := rfl
      pos := rfl
      inside := le_rfl
      modeStack := rfl
      modeStack' := rfl
      currentToken := rfl
      inWord := rfl
      tokens := rfl
      noEof := fun _ hmem => (List.not_mem_nil hmem).elim
      heredocQueue := rfl
      readingHeredoc := h
      document := fun hmem => (List.not_mem_nil hmem).elim }

/-- Sessions that read alike do so after a reset. -/
theorem Session.ReadsAlike.reset (h : σ.ReadsAlike σ') : σ.reset.ReadsAlike σ'.reset where
  lexer := by
    obtain ⟨before, stack, -, hlexer⟩ := h.lexer
    exact ⟨[], alikeIn_reset hlexer.readingHeredoc⟩
  tokenizer := by
    have hkept := h.tokenizer
    simp only [Tokenizer.start, Tokenizer.mk.injEq] at hkept
    simp only [Session.reset, Tokenizer.tokenizerReset, Tokenizer.start, hkept]
  accumulatedTokens := rfl

/-- What a call of `tokenizer_process` does to a session. -/
theorem tokenizeRaw_keeps {rawTokens processed : List Token} {status : TokStatus}
    (h : tokenizeRaw fe aliases σ rawTokens = .ok (status, τ, processed)) :
    τ.lexer = σ.lexer ∧ τ.accumulatedTokens = σ.accumulatedTokens ∧ τ.incomplete = σ.incomplete ∧
      SameDepth σ.tokenizer τ.tokenizer ∧ status ≠ .internalError ∧
      (status = .ok → τ.tokenizer.compoundStack = [] ∧ τ.tokenizer.bufferedTokens = []) := by
  obtain ⟨⟨status', tokenizer⟩, hprocess, h⟩ := except_bind_eq_ok.mp h
  cases h
  obtain ⟨hdepth, hstatus, hdrained⟩ := processTokens_keeps hprocess
  exact ⟨rfl, rfl, rfl, ⟨hdepth.1, hdepth.2⟩, hstatus, hdrained⟩

/-- What the parser does to a session. -/
theorem parseProcessed_keeps {processed : List Token} {reading : Reading}
    (h : parseProcessed σ processed = .ok (reading, τ)) :
    τ.lexer = σ.lexer ∧ τ.tokenizer = σ.tokenizer ∧ τ.incomplete = σ.incomplete := by
  unfold parseProcessed at h
  split_ifs at h
  · cases h
    exact ⟨rfl, rfl, rfl⟩
  · dsimp only at h
    cases hparse : Migash.Parser.parserParseProgram
        (σ.accumulatedTokens.getD [] ++ processed) with
    | fault cause => rw [hparse] at h; cases h
    | fail failure parser =>
      rw [hparse] at h
      cases failure <;> cases h <;> exact ⟨rfl, rfl, rfl⟩
    | ok gnode parser =>
      rw [hparse] at h
      dsimp only at h
      cases hlower : astLower gnode with
      | ok ast => rw [hlower] at h; cases h; exact ⟨rfl, rfl, rfl⟩
      | error stop =>
        rw [hlower] at h
        cases stop with
        | null => cases h; exact ⟨rfl, rfl, rfl⟩
        | crash => cases h
        | fuel => cases h

/-- What the lexer, the tokenizer and the parser do leaves the flag of the partial API alone. -/
theorem readInput_incomplete {input : List Char} {reading : Reading}
    (h : readInput fe aliases σ input = .ok (reading, τ)) : τ.incomplete = σ.incomplete := by
  obtain ⟨⟨status, lexer, rawTokens⟩, -, h⟩ := except_bind_eq_ok.mp h
  have hunfinished (h : readUnfinished fe aliases { σ with lexer } rawTokens = .ok (reading, τ)) :
      τ.incomplete = σ.incomplete := by
    unfold readUnfinished at h
    split_ifs at h
    · cases h
      rfl
    · obtain ⟨⟨status, ρ, processed⟩, hraw, h⟩ := except_bind_eq_ok.mp h
      have hkept := (tokenizeRaw_keeps hraw).2.2.1
      cases status <;> cases h <;> exact hkept
  have hfinished (h : readFinished fe aliases { σ with lexer } rawTokens = .ok (reading, τ)) :
      τ.incomplete = σ.incomplete := by
    obtain ⟨⟨status, ρ, processed⟩, hraw, h⟩ := except_bind_eq_ok.mp h
    have hkept := (tokenizeRaw_keeps hraw).2.2.1
    cases status with
    | error => cases h; exact hkept
    | incomplete => cases h; exact hkept
    | ok => exact (parseProcessed_keeps h).2.2.trans hkept
    | internalError => exact (parseProcessed_keeps h).2.2.trans hkept
  cases status with
  | error => cases h; rfl
  | incomplete => exact hunfinished h
  | needHeredoc => exact hunfinished h
  | ok => exact hfinished h
  | internalError => exact hfinished h

/-! ## Runs side by side -/

/-- The second run does what the first one does: it stops in the same way, or answers with something
that `P` relates to the answer of the first one and leaves the same shell. About a run that is out of
fuel nothing is said. -/
inductive Mirrors {α β : Type} (P : α → β → Prop) :
    Except (ExecStop W) (α × Shell δ W) → Except (ExecStop W) (β × Shell δ W) → Prop
  | ok {a : α} {b : β} (t : Shell δ W) (h : P a b) : Mirrors P (.ok (a, t)) (.ok (b, t))
  | stop (stop : ExecStop W) : Mirrors P (.error stop) (.error stop)
  | fuel (run : Except (ExecStop W) (β × Shell δ W)) : Mirrors P (.error (.fault .fuel)) run

section Mirrors

variable {α β γ κ : Type} {P : α → β → Prop} {Q : γ → κ → Prop} {s : Shell δ W}

theorem Mirrors.pure {a : α} {b : β} (h : P a b) :
    Mirrors P ((Pure.pure a : ExecM δ W α).run s) ((Pure.pure b : ExecM δ W β).run s) := .ok s h

/-- Every run does what it does. -/
theorem Mirrors.self (run : Except (ExecStop W) (α × Shell δ W)) :
    Mirrors (fun a b => b = a) run run := by
  cases run with
  | ok answer => exact .ok answer.2 rfl
  | error stop => exact .stop stop

theorem Mirrors.mono {P' : α → β → Prop} {run : Except (ExecStop W) (α × Shell δ W)}
    {run' : Except (ExecStop W) (β × Shell δ W)} (h : Mirrors P run run')
    (himp : ∀ a b, P a b → P' a b) : Mirrors P' run run' := by
  cases h with
  | ok t h => exact .ok t (himp _ _ h)
  | stop stop => exact .stop stop
  | fuel _ => exact .fuel _

/-- What is known of the answers of each run alone. -/
theorem Mirrors.and {L : α → Prop} {R : β → Prop} {run : Except (ExecStop W) (α × Shell δ W)}
    {run' : Except (ExecStop W) (β × Shell δ W)} (h : Mirrors P run run')
    (hL : ∀ a t, run = .ok (a, t) → L a) (hR : ∀ b t, run' = .ok (b, t) → R b) :
    Mirrors (fun a b => P a b ∧ L a ∧ R b) run run' := by
  cases h with
  | ok t h => exact .ok t ⟨h, hL _ t rfl, hR _ t rfl⟩
  | stop stop => exact .stop stop
  | fuel _ => exact .fuel _

/-- What follows the first halves may use what they answer. -/
theorem Mirrors.bind_of_runs {m : ExecM δ W α} {m' : ExecM δ W β} {f : α → ExecM δ W γ}
    {f' : β → ExecM δ W κ} (h : Mirrors P (m.run s) (m'.run s))
    (hf : ∀ a b t, m.run s = .ok (a, t) → m'.run s = .ok (b, t) → P a b →
      Mirrors Q ((f a).run t) ((f' b).run t)) :
    Mirrors Q ((m >>= f).run s) ((m' >>= f').run s) := by
  rw [StateT.run_bind, StateT.run_bind]
  generalize m.run s = run at h hf
  generalize m'.run s = run' at h hf
  cases h with
  | ok t h => exact hf _ _ t rfl rfl h
  | stop stop => exact .stop stop
  | fuel run => exact .fuel _

theorem Mirrors.bind {m : ExecM δ W α} {m' : ExecM δ W β} {f : α → ExecM δ W γ}
    {f' : β → ExecM δ W κ} (h : Mirrors P (m.run s) (m'.run s))
    (hf : ∀ a b t, P a b → Mirrors Q ((f a).run t) ((f' b).run t)) :
    Mirrors Q ((m >>= f).run s) ((m' >>= f').run s) :=
  h.bind_of_runs fun a b t _ _ => hf a b t

/-- Two computations that look at the state. -/
theorem Mirrors.get_bind {f : Shell δ W → ExecM δ W γ} {f' : Shell δ W → ExecM δ W κ}
    (h : Mirrors Q ((f s).run s) ((f' s).run s)) :
    Mirrors Q ((get >>= f).run s) ((get >>= f').run s) := by
  rw [Stateful.run_bind_ok (Stateful.run_get_eq s), Stateful.run_bind_ok (Stateful.run_get_eq s)]
  exact h

theorem Mirrors.exists_ok {a : α} {t : Shell δ W} {run' : Except (ExecStop W) (β × Shell δ W)}
    (h : Mirrors P (.ok (a, t)) run') : ∃ b, run' = .ok (b, t) ∧ P a b := by
  cases h with
  | ok t h => exact ⟨_, rfl, h⟩

end Mirrors

/-! ## Drivers -/

variable {callees : Callees δ W} {s t : Shell δ W}

/-- The same outcome, with sessions that go on alike. -/
def AlikeOutcomes (x y : Outcome × Session) : Prop := y.1 = x.1 ∧ x.2.ReadsAlike y.2

/-- The program that was read is the same, and so is what it does. -/
theorem Session.ReadsAlike.executeReading (h : σ.ReadsAlike σ') (reading : Reading) (s : Shell δ W) :
    Mirrors AlikeOutcomes ((executeReading callees reading σ).run s)
      ((executeReading callees reading σ').run s) := by
  cases reading with
  | program ast =>
    refine (Mirrors.self _).bind fun result _ t heq => ?_
    rw [heq]
    refine (Mirrors.self _).bind fun _ _ u _ => ?_
    split_ifs
    · exact .pure ⟨rfl, h⟩
    · exact .pure ⟨rfl, h.reset⟩
  | error => exact .pure ⟨by rw [h.accumulatedTokens], h⟩
  | incomplete => exact .pure ⟨by rw [h.accumulatedTokens], h⟩
  | empty => exact .pure ⟨by rw [h.accumulatedTokens], h⟩

/-- The same is executed, and the sessions go on alike. -/
theorem Session.ReadsAlike.core (h : σ.ReadsAlike σ') (input : List Char) (s : Shell δ W) :
    Mirrors AlikeOutcomes ((execFrameStringCore fe.unplaced callees σ input).run s)
      ((execFrameStringCore fe.unplaced callees σ' input).run s) := by
  refine .get_bind ?_
  have hread : Follows AlikeReadings
      (Exec.readInput fe.unplaced (fe.unplaced.tokenizerEnv s) σ input)
      (Exec.readInput fe.unplaced (fe.unplaced.tokenizerEnv s) σ' input) := h.readInput input
  generalize Exec.readInput fe.unplaced (fe.unplaced.tokenizerEnv s) σ input = answer at hread ⊢
  generalize Exec.readInput fe.unplaced (fe.unplaced.tokenizerEnv s) σ' input = answer' at hread ⊢
  cases hread with
  | @ok a a' h =>
    obtain ⟨reading, ρ⟩ := a
    obtain ⟨reading', ρ'⟩ := a'
    obtain ⟨rfl, hρ⟩ := h
    exact hρ.executeReading reading' s
  | contract text => exact .stop _
  | fuel _ => exact .fuel _

/-- A session whose program was executed is reset, and only then its flag changes. -/
theorem execFrameStringCore_incomplete {input : List Char} {o : Outcome}
    (h : (execFrameStringCore fe callees σ input).run s = .ok ((o, τ), t)) :
    τ.incomplete = if o.status = .ok then false else σ.incomplete := by
  unfold execFrameStringCore at h
  rw [Stateful.run_bind_ok (Stateful.run_get_eq s)] at h
  cases hread : Exec.readInput fe (fe.tokenizerEnv s) σ input with
  | error cause => rw [hread] at h; cases h
  | ok answer =>
    obtain ⟨reading, ρ⟩ := answer
    rw [hread] at h
    have hkept := readInput_incomplete hread
    cases reading with
    | program ast =>
      obtain ⟨result, u, -, h⟩ := Stateful.run_bind_eq_ok.mp h
      rw [Stateful.run_bind_ok (Stateful.run_modify_eq _ u)] at h
      split_ifs at h
      · cases h
        exact hkept
      · cases h
        rfl
    | error => cases h; exact hkept
    | incomplete => cases h; exact hkept
    | empty => cases h; exact hkept

theorem Session.Alike.reset (h : σ.Alike σ') : σ.reset.Alike σ'.reset :=
  ⟨h.toReadsAlike.reset, rfl⟩

theorem Session.Alike.core (h : σ.Alike σ') (input : List Char) (s : Shell δ W) :
    Mirrors (fun x y => y.1 = x.1 ∧ x.2.Alike y.2)
      ((execFrameStringCore fe.unplaced callees σ input).run s)
      ((execFrameStringCore fe.unplaced callees σ' input).run s) := by
  refine ((h.toReadsAlike.core input s).and (fun _ _ => execFrameStringCore_incomplete)
    fun _ _ => execFrameStringCore_incomplete).mono fun x y hxy => ?_
  obtain ⟨⟨ho, hsession⟩, hx, hy⟩ := hxy
  exact ⟨ho, hsession, by rw [hy, hx, ho, h.incomplete]⟩

/-- Two readers of lines that have seen the same and go on alike. -/
structure Reader.Alike (r r' : Reader) : Prop where
  session : r.session.Alike r'.session
  needContinuation : r'.needContinuation = r.needContinuation
  outcomes : r'.outcomes = r.outcomes

/-- The same is answered, with readers that go on alike. -/
def AlikeReaders (x y : Reader × Option ExecStatus) : Prop := y.2 = x.2 ∧ x.1.Alike y.1

theorem Reader.Alike.dispatch {r r' : Reader} (h : r.Alike r') (interactive : Bool)
    (s : Shell δ W) (status : ExecStatus) :
    AlikeReaders (r.dispatch interactive s status) (r'.dispatch interactive s status) := by
  cases status with
  | incomplete => exact ⟨rfl, { h with needContinuation := rfl }⟩
  | error =>
    unfold Reader.dispatch
    dsimp only
    split_ifs
    · exact ⟨rfl, h.session.reset, rfl, h.outcomes⟩
    · exact ⟨rfl, h.session.reset, rfl, h.outcomes⟩
    · exact ⟨rfl, h.session.reset, rfl, h.outcomes⟩
  | ok => exact ⟨rfl, { h with needContinuation := rfl }⟩
  | empty => exact ⟨rfl, { h with needContinuation := rfl }⟩
  | notImpl => exact ⟨rfl, { h with needContinuation := rfl }⟩
  | exit => exact ⟨rfl, { h with needContinuation := rfl }⟩

theorem Session.Alike.translate (h : σ.Alike σ') (status : ExecStatus) :
    (σ'.translate status).1 = (σ.translate status).1 ∧
      (σ.translate status).2.Alike (σ'.translate status).2 := by
  cases status with
  | ok => exact ⟨rfl, { h with incomplete := rfl }⟩
  | empty => exact ⟨by simp only [Session.translate, h.incomplete], h⟩
  | incomplete => exact ⟨rfl, { h with incomplete := rfl }⟩
  | error => exact ⟨rfl, h.reset⟩
  | notImpl => exact ⟨rfl, h⟩
  | exit => exact ⟨rfl, h⟩

/-- A string means the same to two sessions that read alike. -/
theorem Session.Alike.partialString (h : σ.Alike σ') (command : List Char) (s : Shell δ W) :
    Mirrors (fun x y => y.1 = x.1 ∧ x.2.1.Alike y.2.1 ∧ y.2.2 = x.2.2)
      ((execExecuteCommandStringPartial fe.unplaced callees σ command).run s)
      ((execExecuteCommandStringPartial fe.unplaced callees σ' command).run s) := by
  refine (h.core command s).bind fun x y t hxy => ?_
  obtain ⟨o, ρ⟩ := x
  obtain ⟨o', ρ'⟩ := y
  obtain ⟨rfl, hρ⟩ := hxy
  obtain ⟨hresult, hnext⟩ := hρ.translate o'.status
  dsimp only
  refine .get_bind (.pure ⟨by rw [hresult], ?_, rfl⟩)
  rw [hresult]
  split_ifs <;> first | exact hnext.reset | exact hnext

/-- A line means the same to two readers that go on alike. -/
theorem Reader.Alike.feedLine {r r' : Reader} (h : r.Alike r') (d : Driver) (line : List Char)
    (s : Shell δ W) :
    Mirrors AlikeReaders ((d.feedLine fe.unplaced callees r line).run s)
      ((d.feedLine fe.unplaced callees r' line).run s) := by
  cases d with
  | stream interactive =>
    refine (h.session.core line s).bind fun x y t hxy => ?_
    obtain ⟨o, ρ⟩ := x
    obtain ⟨o', ρ'⟩ := y
    obtain ⟨rfl, hρ⟩ := hxy
    have hnext : Reader.Alike { r with session := ρ, outcomes := r.outcomes ++ [o'] }
        { r' with session := ρ', outcomes := r'.outcomes ++ [o'] } :=
      ⟨hρ, h.needContinuation, by rw [h.outcomes]⟩
    exact .get_bind (.pure (hnext.dispatch interactive t (streamStatus o'.status)))
  | lineEditor =>
    refine (h.session.core (line ++ [newline]) s).bind fun x y t hxy => ?_
    obtain ⟨o, ρ⟩ := x
    obtain ⟨o', ρ'⟩ := y
    obtain ⟨rfl, hρ⟩ := hxy
    dsimp only
    split_ifs
    · exact .pure ⟨rfl, hρ, rfl, by rw [h.outcomes]⟩
    · exact .get_bind (.pure ⟨rfl, hρ.reset, rfl, by rw [h.outcomes]⟩)
    · exact .get_bind (.pure ⟨rfl, hρ, rfl, by rw [h.outcomes]⟩)
  | partialString =>
    refine (h.session.partialString line s).bind fun x y t hxy => ?_
    obtain ⟨result, ρ, o⟩ := x
    obtain ⟨result', ρ', o'⟩ := y
    obtain ⟨rfl, hρ, rfl⟩ := hxy
    exact .pure ⟨rfl, hρ, rfl, by rw [h.outcomes]⟩

/-- Lines mean the same to two readers that go on alike. -/
theorem Reader.Alike.feedLines {r r' : Reader} (h : r.Alike r') (d : Driver)
    (lines : List (List Char)) (s : Shell δ W) :
    Mirrors AlikeReaders ((d.feedLines fe.unplaced callees r lines).run s)
      ((d.feedLines fe.unplaced callees r' lines).run s) := by
  induction lines generalizing r r' s with
  | nil => exact .pure ⟨rfl, h⟩
  | cons line lines ih =>
    refine (h.feedLine d line s).bind fun x y t hxy => ?_
    obtain ⟨q, stop⟩ := x
    obtain ⟨q', stop'⟩ := y
    obtain ⟨rfl, hq⟩ := hxy
    cases stop' with
    | some result => exact .pure ⟨rfl, hq⟩
    | none => exact ih hq t

/-! ## Fresh sessions -/

/-- Two readers that have executed the same, and that both need more or both do not. -/
structure Reader.SameSoFar (r r' : Reader) : Prop where
  needContinuation : r'.needContinuation = r.needContinuation
  outcomes : r'.outcomes = r.outcomes

/-- Whatever lines follow, a driver with this session does with them what it does with a new one. -/
structure LikeFresh (fe : FrontEnd δ W) (callees : Callees δ W) (d : Driver) (session : Session) :
    Prop where
  mirrors : ∀ lines s, Mirrors (fun x y => y.2 = x.2 ∧ x.1.SameSoFar y.1)
    ((d.feedLines fe callees {} lines).run s) ((d.feedLines fe callees { session } lines).run s)

theorem Session.Alike.likeFresh (h : Session.Alike {} σ) (d : Driver) :
    LikeFresh fe.unplaced callees d σ := by
  constructor
  intro lines s
  have hstart : Reader.Alike {} { session := σ } := ⟨h, rfl, rfl⟩
  refine (hstart.feedLines d lines s).mono fun x y hxy => ?_
  exact ⟨hxy.1, hxy.2.needContinuation, hxy.2.outcomes⟩

/-- What holds of every session: its lexer is like itself, and its tokenizer has never been made
another depth. -/
structure Session.Tidy (σ : Session) : Prop where
  lexer : AlikeIn [] σ.lexer σ.lexer
  tokenizer : SameDepth {} σ.tokenizer

theorem tidy_new : Session.Tidy {} where
  lexer := @alikeIn_reset { input := [] } _ rfl
  tokenizer := ⟨rfl, rfl⟩

theorem Session.Tidy.reset (h : σ.Tidy) : σ.reset.Tidy where
  lexer := alikeIn_reset rfl
  tokenizer := ⟨h.tokenizer.1, h.tokenizer.2⟩

/-- A tokenizer that keeps nothing starts like a new one. -/
theorem start_of_empty {tok : Tokenizer} (h : SameDepth {} tok) (hstack : tok.compoundStack = [])
    (hbuffer : tok.bufferedTokens = []) : tok.start [] [] = ({} : Tokenizer).start [] [] := by
  simp only [Tokenizer.start, h.1, h.2, hstack, hbuffer]

/-- A session that is reset while no here-document is read is like a new one. -/
theorem Session.Tidy.reset_alike (h : σ.Tidy) (hreading : σ.lexer.readingHeredoc = false) :
    Session.Alike {} σ.reset where
  lexer := ⟨[], @alikeIn_reset { input := [] } _ hreading⟩
  tokenizer := start_of_empty ⟨h.tokenizer.1, h.tokenizer.2⟩ rfl rfl
  accumulatedTokens := rfl
  incomplete := rfl

/-! ## What a line leaves -/

/-- Everything that was read has been handed on. -/
structure Session.Drained (σ : Session) : Prop where
  lexer : AlikeAtEnd [] σ.lexer σ.lexer
  tokens : σ.lexer.tokens = []
  compoundStack : σ.tokenizer.compoundStack = []
  bufferedTokens : σ.tokenizer.bufferedTokens = []

/-- A session without tokens and here-documents reads like one that was reset when all it has read is
handed on. -/
theorem Session.Drained.readsAlike (h : σ.Drained) (hσ : σ.Tidy) (haccumulated : σ.accumulatedTokens = none)
    (hqueue : σ.lexer.heredocQueue = []) (hτ : τ.Tidy)
    (hreading : σ.lexer.readingHeredoc = τ.lexer.readingHeredoc) : τ.reset.ReadsAlike σ where
  lexer := by
    obtain ⟨halike, hrest, htoken, hword⟩ := h.lexer
    have hpos : σ.lexer.pos = σ.lexer.input.length := by
      have hle := List.drop_eq_nil_iff.mp hrest
      have hinside := halike.inside
      omega
    refine ⟨σ.lexer.input, [], List.not_mem_nil, ?_⟩
    exact
      { input := (List.append_nil _).symm
        pos := hpos
        inside := le_rfl
        modeStack := rfl
        modeStack' := halike.modeStack
        currentToken := htoken
        inWord := hword
        tokens := by rw [h.tokens]; rfl
        noEof := fun _ hmem => (List.not_mem_nil hmem).elim
        heredocQueue := hqueue
        readingHeredoc := hreading
        document := fun hmem => (List.not_mem_nil hmem).elim }
  tokenizer := by
    rw [start_of_empty hσ.tokenizer h.compoundStack h.bufferedTokens]
    exact (start_of_empty hτ.reset.tokenizer rfl rfl).symm
  accumulatedTokens := haccumulated

/-- A line that gives nothing leaves a session that has handed everything on. -/
theorem Session.Tidy.readInput (hσ : σ.Tidy) {input : List Char} {reading : Reading}
    (h : readInput fe aliases σ input = .ok (reading, τ)) :
    τ.Tidy ∧ (reading = .empty → τ.Drained) := by
  obtain ⟨⟨status, lexer, rawTokens⟩, hlex, h⟩ := except_bind_eq_ok.mp h
  have hself := (hσ.lexer.appendInput input).tokenize (le_refl fe.fuel)
  rw [hlex] at hself
  obtain ⟨answer, heq, hself⟩ := hself.exists_ok
  obtain rfl := Except.ok.inj heq
  have hlexer : Session.Tidy { σ with lexer } := ⟨hself.lx, hσ.tokenizer⟩
  have hunfinished (h : readUnfinished fe aliases { σ with lexer } rawTokens = .ok (reading, τ)) :
      τ.Tidy ∧ reading ≠ .empty := by
    unfold readUnfinished at h
    split_ifs at h
    · cases h
      exact ⟨hlexer, nofun⟩
    · obtain ⟨⟨status, ρ, processed⟩, hraw, h⟩ := except_bind_eq_ok.mp h
      obtain ⟨hlx, -, -, hdepth, -, -⟩ := tokenizeRaw_keeps hraw
      have hρ : ρ.Tidy := ⟨hlx ▸ hself.lx, hσ.tokenizer.trans hdepth⟩
      cases status with
      | error => cases h; exact ⟨hρ, nofun⟩
      | incomplete => cases h; exact ⟨hρ, nofun⟩
      | ok => cases h; exact ⟨⟨hρ.1, hρ.2⟩, nofun⟩
      | internalError => cases h; exact ⟨⟨hρ.1, hρ.2⟩, nofun⟩
  have hfinished (hok : status = .ok)
      (h : readFinished fe aliases { σ with lexer } rawTokens = .ok (reading, τ)) :
      τ.Tidy ∧ (reading = .empty → τ.Drained) := by
    obtain ⟨⟨status', ρ, processed⟩, hraw, h⟩ := except_bind_eq_ok.mp h
    obtain ⟨hlx, -, -, hdepth, hstatus, hdrained⟩ := tokenizeRaw_keeps hraw
    have hρ : ρ.Tidy := ⟨hlx ▸ hself.lx, hσ.tokenizer.trans hdepth⟩
    cases status' with
    | error => cases h; exact ⟨hρ, nofun⟩
    | incomplete => cases h; exact ⟨hρ, nofun⟩
    | internalError => exact (hstatus rfl).elim
    | ok =>
      obtain ⟨hlx', htokenizer, -⟩ := parseProcessed_keeps h
      obtain ⟨hend, htokens⟩ := hself.ended hok
      refine ⟨⟨hlx' ▸ hρ.1, htokenizer ▸ hρ.2⟩, fun _ => ⟨?_, ?_, ?_, ?_⟩⟩
      · rw [hlx', hlx]
        exact hend
      · rw [hlx', hlx]
        exact htokens
      · rw [htokenizer]
        exact (hdrained rfl).1
      · rw [htokenizer]
        exact (hdrained rfl).2
  cases status with
  | error => cases h; exact ⟨hlexer, nofun⟩
  | incomplete =>
    obtain ⟨hτ, hne⟩ := hunfinished h
    exact ⟨hτ, fun h => (hne h).elim⟩
  | needHeredoc =>
    obtain ⟨hτ, hne⟩ := hunfinished h
    exact ⟨hτ, fun h => (hne h).elim⟩
  | ok => exact hfinished rfl h
  | internalError => exact (hself.noInternalError rfl).elim

/-- What a call of `exec_frame_string_core` that ends with a status leaves. -/
inductive CoreLeaves (σ τ : Session) : ExecStatus → Prop
  | ok (ρ : Session) : ρ.Tidy → τ = ρ.reset → CoreLeaves σ τ .ok
  | error : τ.Tidy → τ.incomplete = σ.incomplete → CoreLeaves σ τ .error
  | incomplete : τ.Tidy → τ.incomplete = σ.incomplete → CoreLeaves σ τ .incomplete
  | empty : τ.Tidy → τ.incomplete = σ.incomplete → τ.Drained → CoreLeaves σ τ .empty

theorem Session.Tidy.core (hσ : σ.Tidy) {input : List Char} {o : Outcome}
    (h : (execFrameStringCore fe callees σ input).run s = .ok ((o, τ), t)) :
    CoreLeaves σ τ o.status := by
  unfold execFrameStringCore at h
  rw [Stateful.run_bind_ok (Stateful.run_get_eq s)] at h
  cases hread : Exec.readInput fe (fe.tokenizerEnv s) σ input with
  | error cause => rw [hread] at h; cases h
  | ok answer =>
    obtain ⟨reading, ρ⟩ := answer
    rw [hread] at h
    obtain ⟨hρ, hdrained⟩ := hσ.readInput hread
    have hincomplete := readInput_incomplete hread
    cases reading with
    | program ast =>
      obtain ⟨result, u, -, h⟩ := Stateful.run_bind_eq_ok.mp h
      rw [Stateful.run_bind_ok (Stateful.run_modify_eq _ u)] at h
      split_ifs at h
      · cases h
        exact .error hρ hincomplete
      · cases h
        exact .ok ρ hρ rfl
    | error => cases h; exact .error hρ hincomplete
    | incomplete => cases h; exact .incomplete hρ hincomplete
    | empty => cases h; exact .empty hρ hincomplete (hdrained rfl)

/-! ## What a driver keeps -/

/-- The last line has ended with `MIGA_EXEC_STATUS_OK` or `MIGA_EXEC_STATUS_ERROR`, as the driver
sees it: only the line editor tells an empty line from one that was executed. -/
def Driver.Ended (d : Driver) (r : Reader) : Prop :=
  r.needContinuation = false ∧
    ∃ o, r.outcomes.getLast? = some o ∧ (d = .lineEditor → o.status ≠ .empty)

/-- Nothing that a reset forgets to clear, or that is not reset behind an empty line, is left. -/
structure Reader.Clean (r : Reader) : Prop where
  noDocument : r.session.lexer.readingHeredoc = false
  noTokens : ∀ o ∈ r.outcomes.getLast?, o.status = .empty →
    r.session.accumulatedTokens = none ∧ r.session.lexer.heredocQueue = []

/-- Every line of a run that ends leaves nothing behind. -/
def Driver.CleanLines (fe : FrontEnd δ W) (callees : Callees δ W) (d : Driver) :
    Reader → List (List Char) → Shell δ W → Prop
  | _, [], _ => True
  | r, line :: lines, s =>
    ∀ q stop t, (d.feedLine fe callees r line).run s = .ok ((q, stop), t) →
      (d.Ended q → q.Clean) ∧ (stop = none → d.CleanLines fe callees q lines t)

/-- What holds of the readers of a driver. -/
structure Reader.Tidy (d : Driver) (r : Reader) : Prop where
  session : r.session.Tidy
  incomplete : d ≠ .partialString → r.session.incomplete = false

/-- A session behind a line that gave nothing is like a new one if the line was not in the middle of
anything. -/
theorem Session.Drained.alike_of_clean (hτ : τ.Tidy) (hdrained : τ.Drained)
    (hincomplete : τ.incomplete = false) {q : Reader} (hclean : q.Clean) (hq : q.session = τ)
    {o : Outcome} (hlast : o ∈ q.outcomes.getLast?) (hempty : o.status = .empty) :
    Session.Alike {} q.session := by
  obtain ⟨haccumulated, hqueue⟩ := hclean.noTokens o hlast hempty
  have hreading := hclean.noDocument
  rw [hq] at haccumulated hqueue hreading ⊢
  exact ⟨hdrained.readsAlike hτ haccumulated hqueue tidy_new hreading, hincomplete⟩

/-- A session that a driver has reset is like a new one if it is not reading a here-document. -/
theorem Session.Tidy.reset_alike_of_clean (hτ : τ.Tidy) {q : Reader} (hclean : q.Clean)
    (hq : q.session = τ.reset) : Session.Alike {} q.session := by
  have hreading := hclean.noDocument
  rw [hq] at hreading ⊢
  exact hτ.reset_alike hreading

/-- What the loop over a stream keeps of the session that a line has left. -/
theorem CoreLeaves.dispatch {r q : Reader} {outcomes : List Outcome} {o : Outcome}
    (hleaves : CoreLeaves σ r.session o.status) (hσ : σ.incomplete = false)
    (hlast : r.outcomes = outcomes ++ [o]) {interactive : Bool} {stop : Option ExecStatus}
    (h : r.dispatch interactive s (streamStatus o.status) = (q, stop)) :
    q.Tidy (.stream interactive) ∧
      ((Driver.stream interactive).Ended q → q.Clean → Session.Alike {} q.session) := by
  obtain ⟨status, program, held⟩ := o
  dsimp only at hleaves h
  generalize hmid : r.session = mid at hleaves
  cases hleaves with
  | ok ρ hρ heq =>
    cases h
    rw [heq] at hmid
    refine ⟨⟨hmid ▸ hρ.reset, fun _ => by rw [hmid]; rfl⟩, fun _ hclean => ?_⟩
    exact hρ.reset_alike_of_clean hclean hmid
  | error hτ hsame =>
    have hq : q.session = mid.reset := by
      unfold Reader.dispatch streamStatus at h
      dsimp only at h
      split_ifs at h <;> cases h <;> exact congrArg Session.reset hmid
    refine ⟨⟨hq ▸ hτ.reset, fun _ => by rw [hq]; rfl⟩, fun _ hclean => ?_⟩
    exact hτ.reset_alike_of_clean hclean hq
  | incomplete hτ hsame =>
    cases h
    exact ⟨⟨hmid ▸ hτ, fun _ => by rw [hmid, hsame, hσ]⟩, fun hended => nomatch hended.1⟩
  | empty hτ hsame hdrained =>
    cases h
    refine ⟨⟨hmid ▸ hτ, fun _ => by rw [hmid, hsame, hσ]⟩, fun _ hclean => ?_⟩
    have hmem : ⟨.empty, program, held⟩ ∈ r.outcomes.getLast? := by
      rw [hlast, List.getLast?_concat]
      rfl
    exact hdrained.alike_of_clean hτ (hsame.trans hσ) hclean hmid hmem rfl

/-- What the switch of the partial API leaves can be reset. -/
theorem CoreLeaves.translate {status : ExecStatus} (h : CoreLeaves σ τ status) :
    (τ.translate status).2.Tidy := by
  cases h with
  | ok ρ hρ heq =>
    rw [heq]
    exact ⟨hρ.reset.1, hρ.reset.2⟩
  | error hτ => exact hτ.reset
  | incomplete hτ => exact ⟨hτ.1, hτ.2⟩
  | empty hτ => exact hτ

/-- A line that ends and leaves nothing behind leaves a session like a new one. -/
theorem Reader.Tidy.feedLine {d : Driver} {r q : Reader} (hr : r.Tidy d) {line : List Char}
    {stop : Option ExecStatus}
    (h : (d.feedLine fe callees r line).run s = .ok ((q, stop), t)) :
    q.Tidy d ∧ (d.Ended q → q.Clean → Session.Alike {} q.session) := by
  cases d with
  | stream interactive =>
    obtain ⟨⟨o, τ⟩, u, hcore, h⟩ := Stateful.run_bind_eq_ok.mp h
    rw [Stateful.run_bind_ok (Stateful.run_get_eq u)] at h
    simp only [Stateful.run_pure_eq, Except.ok.injEq, Prod.mk.injEq] at h
    have hleaves := hr.session.core hcore
    exact @CoreLeaves.dispatch _ _ _ u { r with session := τ, outcomes := r.outcomes ++ [o] } q
      r.outcomes o hleaves (hr.incomplete nofun) rfl interactive stop h.1
  | lineEditor =>
    obtain ⟨⟨o, τ⟩, u, hcore, h⟩ := Stateful.run_bind_eq_ok.mp h
    have hleaves := hr.session.core hcore
    have hincomplete := hr.incomplete nofun
    obtain ⟨status, program, held⟩ := o
    dsimp only at hleaves h
    cases hleaves with
    | ok ρ hρ heq =>
      rw [if_neg nofun, Stateful.run_bind_ok (Stateful.run_get_eq u)] at h
      subst heq
      cases h
      exact ⟨⟨hρ.reset, fun _ => rfl⟩, fun _ hclean => hρ.reset_alike_of_clean hclean rfl⟩
    | error hτ hsame =>
      rw [if_neg nofun, Stateful.run_bind_ok (Stateful.run_get_eq u)] at h
      cases h
      exact ⟨⟨hτ.reset, fun _ => rfl⟩, fun _ hclean => hτ.reset_alike_of_clean hclean rfl⟩
    | incomplete hτ hsame =>
      rw [if_pos rfl] at h
      cases h
      exact ⟨⟨hτ, fun _ => hsame.trans hincomplete⟩, fun hended => nomatch hended.1⟩
    | empty hτ hsame hdrained =>
      rw [if_neg nofun, Stateful.run_bind_ok (Stateful.run_get_eq u)] at h
      cases h
      refine ⟨⟨hτ, fun _ => hsame.trans hincomplete⟩, fun hended _ => ?_⟩
      obtain ⟨-, o, hlast, hne⟩ := hended
      rw [List.getLast?_concat] at hlast
      cases hlast
      exact (hne rfl rfl).elim
  | partialString =>
    obtain ⟨⟨result, τ, o⟩, u, hstring, h⟩ := Stateful.run_bind_eq_ok.mp h
    obtain ⟨⟨o', ρ⟩, v, hcore, hstring⟩ := Stateful.run_bind_eq_ok.mp hstring
    have hρ := (hr.session.core hcore).translate
    dsimp only at hstring
    rw [Stateful.run_bind_ok (Stateful.run_get_eq v)] at hstring
    cases h
    simp only [Stateful.run_pure_eq, Except.ok.injEq, Prod.mk.injEq] at hstring
    obtain ⟨⟨hresult, hτ, -⟩, -⟩ := hstring
    rw [hresult] at hτ
    split_ifs at hτ with hdone
    · refine ⟨⟨?_, fun h => (h rfl).elim⟩, fun _ hclean => ?_⟩
      · exact hτ ▸ hρ.reset
      · exact hρ.reset_alike_of_clean hclean hτ.symm
    · refine ⟨⟨hτ ▸ hρ, fun h => (h rfl).elim⟩, fun hended => ?_⟩
      exact (of_decide_eq_false hended.1 (not_not.mp hdone)).elim

/-- Behind each line that ends the following lines are read as by a new session, as long as no line
that ends leaves anything behind. -/
theorem Driver.CleanLines.likeFresh {d : Driver} {r q : Reader} (hr : r.Tidy d)
    {lines : List (List Char)} {stop : Option ExecStatus}
    (hrun : (d.feedLines fe.unplaced callees r lines).run s = .ok ((q, stop), t))
    (hclean : d.CleanLines fe.unplaced callees r lines s) (hended : d.Ended q)
    (hsome : lines ≠ []) : Session.Alike {} q.session := by
  induction lines generalizing r s with
  | nil => exact (hsome rfl).elim
  | cons line lines ih =>
    obtain ⟨⟨mid, stop'⟩, u, hline, hrun⟩ := Stateful.run_bind_eq_ok.mp hrun
    obtain ⟨hmid, halike⟩ := hr.feedLine hline
    obtain ⟨hnow, hnext⟩ := hclean mid stop' u hline
    cases stop' with
    | some result =>
      cases hrun
      exact halike hended (hnow hended)
    | none =>
      cases lines with
      | nil =>
        cases hrun
        exact halike hended (hnow hended)
      | cons line' lines => exact ih hmid hrun (hnext rfl) (List.cons_ne_nil _ _)

/-! ## The lines behind a line that ended -/

/-- A single line leaves nothing behind if its session is clean. -/
theorem cleanLines_singleton {d : Driver} {r q : Reader} {line : List Char}
    {stop : Option ExecStatus}
    (hrun : (d.feedLines fe callees r [line]).run s = .ok ((q, stop), t)) (hclean : q.Clean) :
    d.CleanLines fe callees r [line] s := by
  obtain ⟨⟨mid, stop'⟩, u, hline, hrun⟩ := Stateful.run_bind_eq_ok.mp hrun
  obtain rfl : mid = q := by
    cases stop' with
    | some result => cases hrun; rfl
    | none => cases hrun; rfl
  intro q' stop' t' hline'
  cases hline.symm.trans hline'
  exact ⟨fun _ => hclean, fun _ => trivial⟩

/-- What becomes of lines in the shell that does nothing. -/
def idleStatuses (d : Driver) (session : Session) (lines : List (List Char)) :
    Option (List ExecStatus) :=
  match (d.feedLines idleFrontEnd.unplaced (executor (Env.idle Unit Unit) 9) { session } lines).run
    (.initial ()) with
  | .ok ((r, _), _) => some (r.outcomes.map (·.status))
  | .error _ => none

/-- What lines leave in the shell that does nothing: the status of the last line, whether more is
needed, and whether a here-document is read; and what becomes of more lines then. -/
def idleLines (d : Driver) (lines more : List (List Char)) :
    Option (Option ExecStatus × Bool × Bool × Option (List ExecStatus)) :=
  match (d.feedLines idleFrontEnd.unplaced (executor (Env.idle Unit Unit) 9) {} lines).run
    (.initial ()) with
  | .ok ((r, _), _) =>
    some (r.outcomes.getLast?.map (·.status), r.needContinuation, r.session.lexer.readingHeredoc,
      idleStatuses d r.session more)
  | .error _ => none

theorem idleLines_eq_some {d : Driver} {lines more : List (List Char)}
    {last : Option ExecStatus} {need reading : Bool} {statuses : Option (List ExecStatus)}
    (h : idleLines d lines more = some (last, need, reading, statuses)) :
    ∃ r stop t, (d.feedLines idleFrontEnd.unplaced (executor (Env.idle Unit Unit) 9) {} lines).run
        (.initial ()) = .ok ((r, stop), t) ∧
      r.outcomes.getLast?.map (·.status) = last ∧ r.needContinuation = need ∧
      r.session.lexer.readingHeredoc = reading ∧ idleStatuses d r.session more = statuses := by
  unfold idleLines at h
  generalize (d.feedLines idleFrontEnd.unplaced (executor (Env.idle Unit Unit) 9) {} lines).run
    (.initial ()) = run at h
  cases run with
  | error stop => cases h
  | ok answer =>
    cases h
    exact ⟨_, _, _, rfl, rfl, rfl, rfl, rfl⟩

theorem idleStatuses_of_run {d : Driver} {lines : List (List Char)} {r : Reader}
    {stop : Option ExecStatus} {t : Shell Unit Unit}
    (hrun : (d.feedLines idleFrontEnd.unplaced (executor (Env.idle Unit Unit) 9)
      { session := σ } lines).run (.initial ()) = .ok ((r, stop), t)) :
    idleStatuses d σ lines = some (r.outcomes.map (·.status)) := by
  unfold idleStatuses
  rw [hrun]

theorem ended_of_last {d : Driver} {r : Reader} {status : ExecStatus}
    (hlast : r.outcomes.getLast?.map (·.status) = some status) (hneed : r.needContinuation = false)
    (hne : status ≠ .empty) : d.Ended r := by
  obtain ⟨o, ho, rfl⟩ := Option.map_eq_some_iff.mp hlast
  exact ⟨hneed, o, ho, fun _ => hne⟩

theorem feedLines_likeFresh (env : Env δ W) (n : ℕ) {d : Driver} {lines : List (List Char)}
    {r : Reader} {stop : Option ExecStatus}
    (hrun : (d.feedLines fe.unplaced (executor env n) {} lines).run s = .ok ((r, stop), t))
    (hclean : d.CleanLines fe.unplaced (executor env n) {} lines s) (hended : d.Ended r) :
    LikeFresh fe.unplaced (executor env n) d r.session := by
  have hsome : lines ≠ [] := by
    rintro rfl
    cases hrun
    obtain ⟨-, o, hlast, -⟩ := hended
    cases hlast
  have hstart : Reader.Tidy d {} := ⟨tidy_new, fun _ => rfl⟩
  exact (hclean.likeFresh hstart hrun hended hsome).likeFresh d

/-- A line that is executed. -/
theorem feedLines_likeFresh_echo :
    ∃ r stop t, (Driver.feedLines idleFrontEnd.unplaced (executor (Env.idle Unit Unit) 9)
        (.stream false) {} ["echo a\n".toList]).run (.initial ()) = .ok ((r, stop), t) ∧
      LikeFresh idleFrontEnd.unplaced (executor (Env.idle Unit Unit) 9) (.stream false)
        r.session := by
  obtain ⟨r, stop, t, hrun, hlast, hneed, hreading, -⟩ :=
    @idleLines_eq_some (.stream false) ["echo a\n".toList] [] (some .ok) false false (some [])
      (by decide +kernel)
  have hclean : r.Clean := by
    refine ⟨hreading, fun o ho hempty => ?_⟩
    rw [Option.mem_def.mp ho] at hlast
    cases hempty.symm.trans (Option.some.inj hlast)
  exact ⟨r, stop, t, hrun, feedLines_likeFresh (Env.idle Unit Unit) 9 hrun
    (cleanLines_singleton hrun hclean) (ended_of_last hlast hneed nofun)⟩

/-- Behind a line that fails while a here-document begins, the next here-document is an error. -/
theorem feedLines_keeps_readingHeredoc :
    ∃ r stop t, (Driver.feedLines idleFrontEnd.unplaced (executor (Env.idle Unit Unit) 9)
        (.stream false) {} ["fi <<EOF\n".toList]).run (.initial ()) = .ok ((r, stop), t) ∧
      (Driver.stream false).Ended r ∧
      ¬ LikeFresh idleFrontEnd.unplaced (executor (Env.idle Unit Unit) 9) (.stream false)
        r.session := by
  obtain ⟨r, stop, t, hrun, hlast, hneed, -, hstale⟩ :=
    @idleLines_eq_some (.stream false) ["fi <<EOF\n".toList] ["cat <<E\n".toList] (some .error)
      false true (some [.error]) (by decide +kernel)
  obtain ⟨fresh, stop', u, hfresh, hfirst, -, -, -⟩ :=
    @idleLines_eq_some (.stream false) ["cat <<E\n".toList] [] (some .incomplete) true true
      (some []) (by decide +kernel)
  refine ⟨r, stop, t, hrun, ended_of_last hlast hneed nofun, fun hlike => ?_⟩
  have hmirror := hlike.mirrors ["cat <<E\n".toList] (.initial ())
  rw [hfresh] at hmirror
  obtain ⟨⟨r', stop''⟩, hrun', -, hsame⟩ := hmirror.exists_ok
  rw [idleStatuses_of_run hrun', hsame.outcomes] at hstale
  rw [← List.getLast?_map, Option.some.inj hstale] at hfirst
  cases hfirst

end Exec

end Migash
