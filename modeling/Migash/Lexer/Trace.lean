import Migash.Library.Follows
import Migash.Library.Gives
import Migash.Lexer.Contracts

/-! # Where tokens begin

The run of `lexer_tokenize`, traced with where the word under construction and
the tokens begin.
-/

namespace Migash.Lexer

open Library

/-- The lexer at the head of a loop, with where its word began and where its tokens begin. -/
structure Traced where
  lx : Lexer
  wordStart : ℕ := 0
  starts : List ℕ := []

/-- Where the delimiter behind a here-document operator begins. -/
def delimiterStart (lx : Lexer) : ℕ :=
  let after := if lx.lexerPeekAhead 2 = '-' then 3 else 2
  lx.pos + after +
    ((lx.input.drop (lx.pos + after)).takeWhile fun c => c = ' ' ∨ c = tab).length

namespace Traced

/-- Where the word begins that is under construction in this turn. -/
def wordFrom (s : Traced) : ℕ := if s.lx.inWord then s.wordStart else s.lx.pos

/-- Where a token begins that a turn of the normal mode emits: the word under construction, the
delimiter of a here-document, or else a token that begins at the head of the turn. -/
def startOf (s : Traced) (tok : Token) : ℕ :=
  if tok.type = .word ∨ tok.type = .assignmentWord then
    if s.lx.inWord then s.wordStart else s.lx.delimiterStart
  else s.lx.pos

end Traced

/-! ## The traced run -/

/-- After a turn of the normal mode. -/
def Traced.after (s : Traced) (lx : Lexer) : Traced where
  lx
  wordStart := s.wordFrom
  starts := s.starts ++ (lx.tokens.drop s.lx.tokens.length).map s.startOf

/-- After the call of another mode: the token it may emit begins with the delimiter that was just
read, and a word that is still to come begins behind it. -/
def Traced.afterCall (s : Traced) (lx : Lexer) : Traced where
  lx
  wordStart := if lx.inWord then s.wordStart else lx.pos
  starts := s.starts ++ (lx.tokens.drop s.lx.tokens.length).map fun tok =>
    lx.pos - ((tok.heredocDelimiter.getD "").length + 1)

def tracedNormalTurn (s : Traced) : Except Fault (Next Traced (LexStatus × Traced)) := do
  match ← s.lx.normalTurn with
  | .again lx => return .again (s.after lx)
  | .done (status, lx) => return .done (status, s.after lx)

def tracedProcessMode (s : Traced) : Except Fault (LexStatus × Traced) :=
  if s.lx.lexerCurrentMode = .normal then iterate tracedNormalTurn s.lx.turns s
  else do
    let (status, lx) ← s.lx.lexerProcessMode
    return (status, s.afterCall lx)

/-- The loops of `lexer_tokenize`, traced: the tokens that begin at `starts` are those handed over
and those in the list. -/
structure Tracing where
  s : Tokenizing
  wordStart : ℕ := 0
  starts : List ℕ := []

def Tracing.head (t : Tracing) : Traced :=
  { lx := t.s.lx, wordStart := t.wordStart, starts := t.starts }

def tracedTokenizeTurn (t : Tracing) : Except Fault (Next Tracing (Tokenized × List ℕ)) := do
  let (_, called) ← tracedProcessMode t.head
  match ← tokenizeTurn t.s with
  | .again s => return .again { s, wordStart := called.wordStart, starts := called.starts }
  | .done answer => return .done (answer, called.starts)

/-- The traced run on a text, at its start. -/
def startTracing (input : List Char) : Tracing :=
  { s := (lexerCreateWithInput input).startTokenizing }

/-! ## The trace is one of the run -/

theorem follows_tracedProcessMode (s : Traced) :
    Follows (fun answer traced => answer = (traced.1, traced.2.lx)) s.lx.lexerProcessMode
      (tracedProcessMode s) := by
  unfold tracedProcessMode
  split
  · next hmode =>
    rw [lexerProcessMode, hmode]
    refine Follows.iterate (S := fun lx s => lx = s.lx) ?_ (le_refl _) rfl
    rintro lx s rfl
    unfold tracedNormalTurn
    cases s.lx.normalTurn with
    | error e => exact .fault e
    | ok next =>
      cases next with
      | again lx => exact .pure rfl
      | done answer => exact .pure rfl
  · cases s.lx.lexerProcessMode with
    | error e => exact .fault e
    | ok answer => exact .pure rfl

/-- The turn of `lexer_process_one_token` leaves the lexer as the call of its mode did. -/
theorem oneTokenTurn_call (count : ℕ) (lx : Lexer) :
    Gives (Next.Either (fun u => ∃ status, lx.lexerProcessMode = .ok (status, u))
      fun answer => ∃ status, lx.lexerProcessMode = .ok (status, answer.2))
      (oneTokenTurn count lx) := by
  unfold oneTokenTurn
  refine .bind_of fun answer hanswer => ?_
  obtain ⟨status, u⟩ := answer
  cases status with
  | ok =>
    dsimp only
    split_ifs
    · exact .pure ⟨_, hanswer⟩
    · exact .pure ⟨_, hanswer⟩
    · exact .pure ⟨_, hanswer⟩
  | incomplete =>
    dsimp only
    split_ifs
    · exact .pure ⟨_, hanswer⟩
    · exact .pure ⟨_, hanswer⟩
    · exact .pure ⟨_, hanswer⟩
  | needHeredoc => exact .pure ⟨_, hanswer⟩
  | error => exact .pure ⟨_, hanswer⟩
  | internalError => exact .pure ⟨_, hanswer⟩

/-- A turn that goes on hands the tokens over, if the call of the mode emitted any. -/
theorem tokenizeTurn_call {s s' : Tokenizing} (h : tokenizeTurn s = .ok (.again s')) :
    ∃ status lx, s.lx.lexerProcessMode = .ok (status, lx) ∧
      (s' = { s with lx } ∨ s' = { lx := { lx with tokens := [] }, initialTokenCount := 0,
                                   outTokens := s.outTokens ++ lx.tokens }) := by
  unfold tokenizeTurn at h
  cases hturn : oneTokenTurn s.initialTokenCount s.lx with
  | error e =>
    rw [hturn] at h
    cases h
  | ok next =>
    have hcall := (oneTokenTurn_call s.initialTokenCount s.lx).answer next hturn
    simp only [hturn, bind, Except.bind] at h
    cases next with
    | again lx =>
      cases h
      obtain ⟨status, hstatus⟩ := hcall
      exact ⟨status, lx, hstatus, .inl rfl⟩
    | done answer =>
      obtain ⟨status, lx⟩ := answer
      obtain ⟨status', hstatus⟩ := hcall
      cases status with
      | ok =>
        refine ⟨status', lx, hstatus, .inr ?_⟩
        dsimp only [pure, Except.pure] at h
        rcases handOver_cases { s with lx } with ⟨lx', out, hdone⟩ | ⟨-, hagain⟩
        · rw [hdone] at h
          cases h
        · rw [hagain] at h
          cases h
          rfl
      | incomplete => cases h
      | needHeredoc => cases h
      | error => cases h
      | internalError => cases h

theorem turn_of_traced {t u : Tracing} (h : tracedTokenizeTurn t = .ok (.again u)) :
    tokenizeTurn t.s = .ok (.again u.s) := by
  have hgives : Gives (fun next => ∀ v, next = .again v → tokenizeTurn t.s = .ok (.again v.s))
      (tracedTokenizeTurn t) := by
    unfold tracedTokenizeTurn
    refine Gives.andThen fun called => .bind_of fun next hnext => ?_
    cases next with
    | again s =>
      refine .pure fun v hv => ?_
      cases hv
      exact hnext
    | done answer => exact .pure fun v hv => by cases hv
  exact hgives.answer _ h u rfl

/-- A turn that goes on carries the trace of its call along. -/
theorem tracedTokenizeTurn_call {t t' : Tracing} (h : tracedTokenizeTurn t = .ok (.again t')) :
    ∃ status called, tracedProcessMode t.head = .ok (status, called) ∧
      t'.wordStart = called.wordStart ∧ t'.starts = called.starts ∧
      (t'.s = { t.s with lx := called.lx } ∨
        t'.s = { lx := { called.lx with tokens := [] }, initialTokenCount := 0,
                 outTokens := t.s.outTokens ++ called.lx.tokens }) := by
  have hreal := turn_of_traced h
  unfold tracedTokenizeTurn at h
  cases hcall : tracedProcessMode t.head with
  | error e =>
    rw [hcall] at h
    cases h
  | ok answer =>
    simp only [hcall, hreal, bind, Except.bind] at h
    have ht' : ⟨t'.s, answer.2.wordStart, answer.2.starts⟩ = t' :=
      Next.again.inj (Except.ok.inj h)
    obtain ⟨status, lx, hlx, hs'⟩ := tokenizeTurn_call hreal
    have hfollows := follows_tracedProcessMode t.head
    change Follows _ t.s.lx.lexerProcessMode _ at hfollows
    rw [hlx] at hfollows
    obtain ⟨traced, htraced, heq⟩ := hfollows.exists_ok
    obtain rfl : traced = answer := Except.ok.inj (htraced.symm.trans hcall)
    obtain rfl : lx = traced.2.lx := congrArg Prod.snd heq
    exact ⟨traced.1, traced.2, rfl, (congrArg Tracing.wordStart ht').symm,
      (congrArg Tracing.starts ht').symm, hs'⟩

theorem visits_of_traced {t u : Tracing} (h : Visits tracedTokenizeTurn t u) :
    Visits tokenizeTurn t.s u.s := by
  induction h with
  | start => exact .start
  | next _ hturn ih => exact .next ih (turn_of_traced hturn)

/-- Every state at the head of the loop of `lexer_tokenize` has its trace. -/
theorem exists_traced {t : Tracing} {s : Tokenizing} (h : Visits tokenizeTurn t.s s) :
    ∃ u, Visits tracedTokenizeTurn t u ∧ u.s = s := by
  induction h with
  | start => exact ⟨t, .start, rfl⟩
  | @next s s' hs hturn ih =>
    obtain ⟨u, hu, rfl⟩ := ih
    obtain ⟨status, lx, hcall, -⟩ := tokenizeTurn_call hturn
    have hfollows := follows_tracedProcessMode u.head
    change Follows _ u.s.lx.lexerProcessMode _ at hfollows
    rw [hcall] at hfollows
    obtain ⟨traced, htraced, -⟩ := hfollows.exists_ok
    refine ⟨{ s := s', wordStart := traced.2.wordStart, starts := traced.2.starts },
      .next hu ?_, rfl⟩
    simp only [tracedTokenizeTurn, htraced, hturn, bind, Except.bind]
    rfl

/-- Every state at the head of a turn of the normal mode has its trace. -/
theorem exists_tracedTurn {s : Traced} {lx : Lexer} (h : Visits normalTurn s.lx lx) :
    ∃ u, Visits tracedNormalTurn s u ∧ u.lx = lx := by
  induction h with
  | start => exact ⟨s, .start, rfl⟩
  | @next lx lx' _ hturn ih =>
    obtain ⟨u, hu, rfl⟩ := ih
    refine ⟨u.after lx', .next hu ?_, rfl⟩
    simp only [tracedNormalTurn, hturn, bind, Except.bind]
    rfl

end Migash.Lexer
