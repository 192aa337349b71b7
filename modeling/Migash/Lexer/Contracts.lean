import Migash.Lexer.Traps
import Mathlib.Data.List.TakeWhile

/-! # The contracts of the lexer

`lexer_tokenize` on a fresh lexer ends without a broken contract exactly when
no call of a mode's function comes to a trap.
-/

namespace Migash.Lexer

open Library

variable {lx : Lexer} {s t : Tokenizing}

/-- The call from `lx` comes to a trap of its mode. -/
inductive Trapped (lx : Lexer) : Prop where
  | normal {t : Lexer} (hmode : lx.lexerCurrentMode = .normal) (h : Visits normalTurn lx t)
      (htrap : NormalTrap t)
  | doubleQuote {u t : Lexer} (hmode : lx.lexerCurrentMode = .doubleQuote)
      (hstart : lx.startQuoted = .ok u) (h : Visits dquoteTurn u t)
      (htrap : LastIs [backslash, '$'] t)
  | cmdSubstParen {u : Lexer} {t : ParenScan} (hmode : lx.lexerCurrentMode = .cmdSubstParen)
      (hstart : lx.ensureWord = .ok u)
      (h : Visits parenTurn { lx := u, startPos := u.pos } t) (htrap : LastIs [backslash] t.lx)
  | cmdSubstBacktick {u : Lexer} {t : TextScan}
      (hmode : lx.lexerCurrentMode = .cmdSubstBacktick) (hstart : lx.ensureWord = .ok u)
      (h : Visits backtickTurn { lx := u } t) (htrap : LastIs [backslash] t.lx)
  | heredocBody {entry : HeredocEntry} {t : TextScan}
      (hmode : lx.lexerCurrentMode = .heredocBody)
      (hentry : lx.heredocQueue[lx.heredocIndex]? = some entry)
      (h : Visits (heredocTurn entry) { lx := lx.startDocument } t)
      (htrap : DocumentEnds entry t.lx)

/-- The loops of `lexer_tokenize` at its start. -/
def startTokenizing (lx : Lexer) : Tokenizing := { lx, initialTokenCount := lx.tokens.length }

/-- `lexer_tokenize` ends, with one of its statuses and no broken contract. -/
def Completes (lx : Lexer) : Prop :=
  ∃ n status lx' outTokens, lexerTokenize n lx = .ok (status, lx', outTokens) ∧
    (status = .ok ∨ status = .incomplete ∨ status = .error)

/-- On the way a location is emitted while there is a current token. -/
def EmitsInWord (lx : Lexer) : Prop :=
  ∃ s t, Visits tokenizeTurn lx.startTokenizing s ∧ s.lx.lexerCurrentMode = .normal ∧
    Visits normalTurn s.lx t ∧ t.currentToken ≠ none ∧ t.bracedIoLocation? ≠ none

/-- No call on the way comes to a trap. -/
def AvoidsTraps (lx : Lexer) : Prop :=
  ∀ s, Visits tokenizeTurn lx.startTokenizing s → ¬ Trapped s.lx

/-! ## Without traps -/

theorem Sound.holds_lexerProcessMode (h : Sound lx) (hfree : ¬ Trapped lx) :
    Holds (Answered lx) lx.lexerProcessMode := by
  unfold lexerProcessMode
  cases hmode : lx.lexerCurrentMode with
  | normal =>
    exact h.holds_lexerProcessOneNormalToken hmode fun t ht htrap => hfree (.normal hmode ht htrap)
  | singleQuote => exact h.holds_lexerProcessSquote (by rw [hmode]; decide)
  | doubleQuote =>
    exact h.holds_lexerProcessDquote hmode fun u t hu ht htrap =>
      hfree (.doubleQuote hmode hu ht htrap)
  | paramExpBraced => exact h.holds_lexerProcessParamExpBraced (by rw [hmode]; decide)
  | paramExpUnbraced => exact h.holds_lexerProcessParamExpUnbraced (by rw [hmode]; decide)
  | cmdSubstParen =>
    exact h.holds_lexerProcessCmdSubstParen (by rw [hmode]; decide) fun u t hu ht htrap =>
      hfree (.cmdSubstParen hmode hu ht htrap)
  | cmdSubstBacktick =>
    exact h.holds_lexerProcessCmdSubstBacktick (by rw [hmode]; decide) fun u t hu ht htrap =>
      hfree (.cmdSubstBacktick hmode hu ht htrap)
  | arithExp => exact h.holds_lexerProcessArithExp (by rw [hmode]; decide)
  | heredocBody =>
    exact h.holds_lexerProcessHeredocBody hmode fun entry t hentry ht htrap =>
      hfree (.heredocBody hmode hentry ht htrap)

/-- The invariant of `lexer_tokenize` between the calls of the modes' functions: its list of tokens
is empty then. -/
structure Between (s : Tokenizing) : Prop where
  sound : Sound s.lx
  count : s.initialTokenCount = 0
  tokens : s.lx.tokens = []

theorem between_start (h : Sound lx) (htokens : lx.tokens = []) : Between lx.startTokenizing :=
  ⟨h, by simp [startTokenizing, htokens], htokens⟩

/-- The tokens are handed over up to the mark of the end of the input. -/
theorem handOver_cases (s : Tokenizing) :
    (∃ lx out, handOver s = .done (.ok, lx, out)) ∨ NoEof s.lx ∧
      handOver s = .again { lx := { s.lx with tokens := [] }, initialTokenCount := 0,
                            outTokens := s.outTokens ++ s.lx.tokens } := by
  unfold handOver
  dsimp only
  split_ifs with hlt
  · exact .inl ⟨_, _, rfl⟩
  · have hprefix := List.takeWhile_prefix (fun tok : Token => decide (tok.type ≠ .eof))
      (l := s.lx.tokens)
    have hall := hprefix.eq_of_length_le (by omega)
    refine .inr ⟨fun tok hmem => ?_, by rw [hall]⟩
    rw [← hall] at hmem
    simpa using List.mem_takeWhile_imp hmem

theorem handOver_of_noEof (h : NoEof s.lx) :
    handOver s = .again { lx := { s.lx with tokens := [] }, initialTokenCount := 0,
                          outTokens := s.outTokens ++ s.lx.tokens } := by
  have hall : s.lx.tokens.takeWhile (fun tok => decide (tok.type ≠ .eof)) = s.lx.tokens :=
    List.takeWhile_eq_self_iff.mpr fun tok hmem => by simpa using h tok hmem
  unfold handOver
  dsimp only
  rw [hall, if_neg (lt_irrefl _)]

theorem Sound.cleared (h : Sound lx) : Sound { lx with tokens := [] } :=
  h.congr rfl h.inside rfl rfl rfl rfl rfl

/-- What is left of the input. -/
def left (s : Tokenizing) : ℕ := s.lx.input.length - s.lx.pos

/-- A turn of `lexer_tokenize` goes on with less input or ends. -/
theorem Between.holds_tokenizeTurn (h : Between s) (hfree : ¬ Trapped s.lx) :
    Holds (Next.Either (fun t => Between t ∧ left t < left s)
      (fun answer => answer.1 = .ok ∨ answer.1 = .incomplete ∨ answer.1 = .error))
      (tokenizeTurn s) := by
  obtain ⟨lx₀, count, out₀⟩ := s
  obtain rfl : count = 0 := h.count
  have htokens₀ : lx₀.tokens = [] := h.tokens
  obtain ⟨⟨status, lx'⟩, hrun, hanswer⟩ := h.sound.holds_lexerProcessMode hfree
  dsimp only at hrun
  have hsound := hanswer.sound
  have hinside := hsound.inside
  have hinput : lx'.input = lx₀.input := hanswer.input
  rw [hinput] at hinside
  have hless : lx₀.pos < lx'.pos → ∀ out : List Token,
      left ⟨{ lx' with tokens := [] }, 0, out⟩ < left ⟨lx₀, 0, out₀⟩ ∧
      left ⟨lx', 0, out₀⟩ < left ⟨lx₀, 0, out₀⟩ := by
    intro hpos out
    simp only [left, hinput]
    dsimp only at hinside
    omega
  -- What is handed over when the call of `lexer_process_one_token` has ended.
  have hhand : (lx₀.pos < lx'.pos ∨ ∃ tok ∈ lx'.tokens, tok.type = .eof) →
      Next.Either (fun t => Between t ∧ left t < left ⟨lx₀, 0, out₀⟩)
        (fun answer => answer.1 = .ok ∨ answer.1 = .incomplete ∨ answer.1 = .error)
        (handOver ⟨lx', 0, out₀⟩) := by
    intro hprogress
    rcases handOver_cases ⟨lx', 0, out₀⟩ with ⟨lx₂, out, hdone⟩ | ⟨hno, hagain⟩
    · rw [hdone]
      exact .inl rfl
    · rw [hagain]
      rcases hprogress with hpos | ⟨tok, hmem, heof⟩
      · exact ⟨⟨hsound.cleared, rfl, rfl⟩, (hless hpos _).1⟩
      · exact absurd heof (hno tok hmem)
  have hagain : lx₀.pos < lx'.pos → ¬ 0 < lx'.tokens.length →
      Between ⟨lx', 0, out₀⟩ ∧ left ⟨lx', 0, out₀⟩ < left ⟨lx₀, 0, out₀⟩ := by
    intro hpos htokens
    exact ⟨⟨hsound, rfl, List.length_eq_zero_iff.mp (Nat.eq_zero_of_not_pos htokens)⟩,
      (hless hpos []).2⟩
  rcases hanswer.status with hst | hst | hst
  all_goals
    dsimp only at hst
    subst hst
  · have hprogress : lx₀.pos < lx'.pos ∨ lx'.lexerCurrentMode = .normal ∧ lx'.inWord = false ∧
        ∃ tok ∈ lx'.tokens, tok.type = .eof := by
      rcases hanswer.progress with hst | hpos | ⟨-, ⟨hst, -⟩ | ⟨-, hmode, hword, heof⟩⟩
      · cases hst
      · exact .inl hpos
      · cases hst
      · exact .inr ⟨hmode, hword, heof⟩
    have hend := hhand (hprogress.imp_right fun hp => hp.2.2)
    by_cases hcount : 0 < lx'.tokens.length
    · simpa [tokenizeTurn, oneTokenTurn, hrun, hcount] using hend
    by_cases hmore : lx'.lexerCurrentMode ≠ .normal ∨ lx'.inWord = true
    · have hpos : lx₀.pos < lx'.pos := by
        rcases hprogress with hpos | ⟨hmode, hword, -⟩
        · exact hpos
        · rcases hmore with hne | hin
          · exact absurd hmode hne
          · rw [hword] at hin
            cases hin
      have hnext := hagain hpos hcount
      simp only [tokenizeTurn, oneTokenTurn, hrun, holds_bind, holds_ok, gt_iff_lt,
        if_neg hcount, if_pos hmore, holds_pure]
      exact hnext
    · simp only [tokenizeTurn, oneTokenTurn, hrun, holds_bind, holds_ok, gt_iff_lt,
        if_neg hcount, if_neg hmore, holds_pure]
      exact hend
  · simp [tokenizeTurn, oneTokenTurn, hrun]
  · have hprogress : lx₀.pos < lx'.pos ∨ lx'.lexerAtEnd = true ∧ lx'.tokens = [] := by
      rcases hanswer.progress with hst | hpos | ⟨hend, ⟨-, htokens⟩ | ⟨hst, -⟩⟩
      · cases hst
      · exact .inl hpos
      · exact .inr ⟨hend, htokens.trans htokens₀⟩
      · cases hst
    by_cases hcount : 0 < lx'.tokens.length
    · have hpos : lx₀.pos < lx'.pos := by
        rcases hprogress with hpos | ⟨-, htokens⟩
        · exact hpos
        · rw [htokens] at hcount
          cases hcount
      simp only [tokenizeTurn, oneTokenTurn, hrun, holds_bind, holds_ok, gt_iff_lt,
        if_pos hcount, holds_pure]
      exact hhand (.inl hpos)
    by_cases hend : lx'.lexerAtEnd = true
    · simp [tokenizeTurn, oneTokenTurn, hrun, hcount, hend]
    · have hpos : lx₀.pos < lx'.pos := by
        rcases hprogress with hpos | ⟨hend', -⟩
        · exact hpos
        · exact absurd hend' hend
      simp only [tokenizeTurn, oneTokenTurn, hrun, holds_bind, holds_ok, gt_iff_lt,
        if_neg hcount, if_neg hend, holds_pure]
      exact hagain hpos hcount

theorem Between.next (h : Between s) (hfree : ¬ Trapped s.lx)
    (hturn : tokenizeTurn s = .ok (.again t)) : Between t :=
  ((h.holds_tokenizeTurn hfree).of_eq hturn).1

theorem completes_of_avoidsTraps (h : Sound lx) (htokens : lx.tokens = [])
    (hfree : AvoidsTraps lx) : Completes lx := by
  have hrun : Holds (fun answer : Tokenized =>
      answer.1 = .ok ∨ answer.1 = .incomplete ∨ answer.1 = .error)
      (iterate tokenizeTurn (left lx.startTokenizing + 1) lx.startTokenizing) := by
    refine iterate_holds (I := fun s => Between s ∧ Visits tokenizeTurn lx.startTokenizing s) left
      ?_ ⟨between_start h htokens, .start⟩ (Nat.lt_succ_self _)
    rintro s ⟨hs, hvisits⟩
    obtain ⟨x, hx, hnext⟩ := hs.holds_tokenizeTurn (hfree s hvisits)
    refine ⟨x, hx, ?_⟩
    cases x with
    | again t => exact ⟨⟨hnext.1, .next hvisits hx⟩, hnext.2⟩
    | done answer => exact hnext
  obtain ⟨⟨status, lx', out⟩, hanswer, hstatus⟩ := hrun
  exact ⟨_, status, lx', out, hanswer, hstatus⟩

/-! ## At a trap -/

/-- The next character ends the input, and the function of the mode does not consume it. -/
def Stuck (lx : Lexer) : Prop :=
  (lx.lexerCurrentMode = .normal ∨ lx.lexerCurrentMode = .doubleQuote) ∧
      LastIs [backslash, '$'] lx ∨
    (lx.lexerCurrentMode = .cmdSubstParen ∨ lx.lexerCurrentMode = .cmdSubstBacktick) ∧
      LastIs [backslash] lx

theorem Stuck.not_atEnd (h : Stuck lx) : ¬ lx.lexerAtEnd = true := by
  rcases h with ⟨-, h⟩ | ⟨-, h⟩
  · exact h.not_atEnd
  · exact h.not_atEnd

theorem Stuck.congr {lx' : Lexer} (h : Stuck lx) (hinput : lx'.input = lx.input)
    (hpos : lx'.pos = lx.pos) (hstack : lx'.modeStack = lx.modeStack) : Stuck lx' := by
  simpa only [Stuck, LastIs, lexerPeek, lexerPeekAhead, lexerCurrentMode, hinput, hpos, hstack]
    using h

theorem Started.lastIs {lx' : Lexer} {chars : List Char} (h : Started lx lx')
    (hlast : LastIs chars lx) : LastIs chars lx' := by
  simpa only [LastIs, lexerPeek, lexerPeekAhead, h.input, h.pos] using hlast

/-- The call from a stuck state leaves the lexer where it is. -/
theorem Stuck.lexerProcessMode (h : Sound lx) (hstuck : Stuck lx) :
    ∃ lx', lx.lexerProcessMode = .ok (.incomplete, lx') ∧ Started lx lx' ∨
      lx.lexerProcessMode = .ok (.incomplete, lx) := by
  rcases hstuck with ⟨hmode | hmode, hlast⟩ | ⟨hmode | hmode, hlast⟩
  · refine ⟨lx, .inr ?_⟩
    simp only [Lexer.lexerProcessMode, hmode]
    exact iterate_done (normalTurn_last hlast) _
  · obtain ⟨u, hu, hstarted⟩ := h.holds_startQuoted (by rw [hmode]; decide)
    refine ⟨u, .inl ⟨?_, hstarted⟩⟩
    simp only [Lexer.lexerProcessMode, hmode, lexerProcessDquote, hu, bind, Except.bind]
    exact iterate_done (dquoteTurn_last (hstarted.lastIs hlast)) _
  · obtain ⟨u, hu, hstarted⟩ := h.holds_ensureWord (by rw [hmode]; decide)
    refine ⟨u, .inl ⟨?_, hstarted⟩⟩
    simp only [Lexer.lexerProcessMode, hmode, lexerProcessCmdSubstParen, hu, bind, Except.bind]
    exact iterate_done (parenTurn_last (hstarted.lastIs hlast)) _
  · obtain ⟨u, hu, hstarted⟩ := h.holds_ensureWord (by rw [hmode]; decide)
    refine ⟨u, .inl ⟨?_, hstarted⟩⟩
    simp only [Lexer.lexerProcessMode, hmode, lexerProcessCmdSubstBacktick, hu, bind, Except.bind]
    exact iterate_done (backtickTurn_last (hstarted.lastIs hlast)) _

/-- A call that ends where it is leads to a stuck state. -/
theorem tokenizeTurn_of_stuck (h : Between s) {lx' : Lexer}
    (hrun : s.lx.lexerProcessMode = .ok (.incomplete, lx')) (hsound : Sound lx')
    (hno : NoEof lx') (hstuck : Stuck lx') :
    ∃ t, tokenizeTurn s = .ok (.again t) ∧ Between t ∧ Stuck t.lx := by
  obtain ⟨lx₀, count, out₀⟩ := s
  obtain rfl : count = 0 := h.count
  dsimp only at hrun
  by_cases hcount : 0 < lx'.tokens.length
  · refine ⟨⟨{ lx' with tokens := [] }, 0, out₀ ++ lx'.tokens⟩, ?_, ⟨hsound.cleared, rfl, rfl⟩,
      hstuck.congr rfl rfl rfl⟩
    have hhand := handOver_of_noEof (s := ⟨lx', 0, out₀⟩) hno
    simp only [tokenizeTurn, oneTokenTurn, hrun, gt_iff_lt, if_pos hcount, bind, Except.bind, pure,
      Except.pure]
    rw [hhand]
  · refine ⟨⟨lx', 0, out₀⟩, ?_,
      ⟨hsound, rfl, List.length_eq_zero_iff.mp (Nat.eq_zero_of_not_pos hcount)⟩, hstuck⟩
    simp only [tokenizeTurn, oneTokenTurn, hrun, gt_iff_lt, if_neg hcount, if_neg hstuck.not_atEnd,
      bind, Except.bind, pure, Except.pure]

theorem Between.noEof (h : Between s) : NoEof s.lx := by
  intro tok hmem
  rw [h.tokens] at hmem
  cases hmem

/-- From a stuck state `lexer_tokenize` never returns. -/
theorem Stuck.never (h : Between s) (hstuck : Stuck s.lx) (n : ℕ) (answer : Tokenized) :
    iterate tokenizeTurn n s ≠ .ok answer := by
  refine iterate_ne_ok (S := fun s => Between s ∧ Stuck s.lx) ?_ ⟨h, hstuck⟩ n answer
  rintro s ⟨hs, hstuck⟩
  refine .inr ?_
  obtain ⟨lx', ⟨hrun, hstarted⟩ | hrun⟩ := Stuck.lexerProcessMode hs.sound hstuck
  · refine tokenizeTurn_of_stuck hs hrun hstarted.sound ?_
      (hstuck.congr hstarted.input hstarted.pos hstarted.modeStack)
    intro tok hmem
    rw [hstarted.tokens] at hmem
    exact hs.noEof tok hmem
  · exact tokenizeTurn_of_stuck hs hrun hs.sound hs.noEof hstuck

/-- The states at the head of a loop, as long as the turns that go on are safe. -/
theorem visits_goes {τ : Type} {turn : τ → Except Fault (Next τ Answer)} {l : τ → Lexer}
    {K S : τ → Prop} {a b : τ}
    (hturn : ∀ s, Sound (l s) → K s → S s →
      Holds (Next.Either (fun t => Goes (l s) (l t) ∧ K t) (Answered (l s))) (turn s))
    (hsafe : ∀ t u, Visits turn a t → Sound (l t) → K t → turn t = .ok (.again u) → S t)
    (hs : Sound (l a)) (hK : K a) (h : Visits turn a b) :
    Sound (l b) ∧ K b ∧ (NoEof (l a) → NoEof (l b)) ∧
      (l b).modeStack = (l a).modeStack := by
  refine h.invariant (I := fun b => Sound (l b) ∧ K b ∧ (NoEof (l a) → NoEof (l b)) ∧
    (l b).modeStack = (l a).modeStack) ⟨hs, hK, id, rfl⟩ ?_
  rintro t u hvisits ⟨hsound, hKt, hno, hstack⟩ hnext
  obtain ⟨hgoes, hKu⟩ := (hturn t hsound hKt (hsafe t u hvisits hsound hKt hnext)).of_eq hnext
  exact ⟨hgoes.sound, hKu, hgoes.noEof ∘ hno, hgoes.modeStack.trans hstack⟩

theorem exists_call {n : ℕ} {answer : Tokenized} (hrun : iterate tokenizeTurn n s = .ok answer) :
    ∃ call, s.lx.lexerProcessMode = .ok call := by
  have hholds : Holds (fun _ => True) (tokenizeTurn s) := by
    rcases Visits.turn_eq .start hrun with hturn | ⟨u, hturn⟩
    · exact ⟨_, hturn, trivial⟩
    · exact ⟨_, hturn, trivial⟩
  unfold tokenizeTurn at hholds
  rw [holds_bind] at hholds
  obtain ⟨x, hx, -⟩ := hholds
  have hholds : Holds (fun _ => True) (oneTokenTurn s.initialTokenCount s.lx) := ⟨x, hx, trivial⟩
  unfold oneTokenTurn at hholds
  rw [holds_bind] at hholds
  obtain ⟨call, hcall, -⟩ := hholds
  exact ⟨call, hcall⟩

/-- Where `lexer_tokenize` returns, no call comes to a trap. -/
theorem Between.not_trapped (h : Between s) {n : ℕ} {answer : Tokenized}
    (hrun : iterate tokenizeTurn n s = .ok answer)
    (hemits : s.lx.lexerCurrentMode = .normal → ∀ t, Visits normalTurn s.lx t →
      ¬ (t.currentToken ≠ none ∧ t.bracedIoLocation? ≠ none)) : ¬ Trapped s.lx := by
  obtain ⟨call, hcall⟩ := exists_call hrun
  -- A call that ends at a stuck state would be made again and again.
  have hstuck : ∀ t, call = (.incomplete, t) → Sound t → NoEof t → ¬ Stuck t := by
    rintro t rfl hsound hno hst
    obtain ⟨u, hu, hbetween, hst'⟩ := tokenizeTurn_of_stuck h hcall hsound hno hst
    obtain ⟨m, hm⟩ := (Visits.next .start hu).iterate_eq hrun
    exact Stuck.never hbetween hst' m answer hm
  intro htrapped
  cases htrapped with
  | @normal t hmode hvisits htrap =>
    have hnil := h.sound.modeStack_eq_nil hmode
    have hloop : iterate normalTurn s.lx.turns s.lx = .ok call := by
      simpa only [lexerProcessMode, hmode, lexerProcessOneNormalToken] using hcall
    have hsafe : ∀ t u, Visits normalTurn s.lx t → Sound t → t.modeStack = [] →
        normalTurn t = .ok (.again u) → ¬ NormalTrap t := by
      intro t u ht hsound _ hturn htrap
      rcases htrap.turn hsound with hbreaks | hemit | hlast
      · exact ht.not_breaks hloop hbreaks
      · exact hemits hmode t ht hemit
      · exact not_again_of_done (normalTurn_last hlast) hturn
    obtain ⟨hsound, hst, hno, -⟩ := visits_goes (l := id) (K := fun t => t.modeStack = [])
      (S := fun t => ¬ NormalTrap t) (fun t ht hst hfree => ht.holds_normalTurn_nil hst hfree)
      hsafe h.sound hnil hvisits
    rcases htrap.turn hsound with hbreaks | hemit | hlast
    · exact hvisits.not_breaks hloop hbreaks
    · exact hemits hmode t hvisits hemit
    · refine hstuck t (hvisits.answer_eq hloop (normalTurn_last hlast)) hsound (hno h.noEof)
        (.inl ⟨.inl ?_, hlast⟩)
      simp [lexerCurrentMode, hst]
  | @doubleQuote u t hmode hstart hvisits hlast =>
    have hstarted := (h.sound.holds_startQuoted (by rw [hmode]; decide)).of_eq hstart
    have hloop : iterate dquoteTurn u.turns u = .ok call := by
      simpa only [lexerProcessMode, hmode, lexerProcessDquote, hstart, bind, Except.bind] using hcall
    obtain ⟨hsound, -, hno, hstack⟩ := visits_goes (l := id) (K := InDquotes)
      (S := fun t => ¬ LastIs [backslash, '$'] t)
      (fun t ht hin hlast => ht.holds_dquoteTurn_inDquotes hin hlast)
      (fun t u _ _ _ hturn hlast => not_again_of_done (dquoteTurn_last hlast) hturn) hstarted.sound
      ⟨hstarted.inWord, by rw [hstarted.modeStack]; exact h.sound.doubleQuote_stack hmode⟩ hvisits
    refine hstuck t (hvisits.answer_eq hloop (dquoteTurn_last hlast)) hsound
      (hno (h.noEof.congr hstarted.tokens)) (.inl ⟨.inr ?_, hlast⟩)
    rw [← hmode, ← hstarted.mode]
    simp only [lexerCurrentMode, id] at hstack ⊢
    rw [hstack]
  | @cmdSubstParen u t hmode hstart hvisits hlast =>
    have hstarted := (h.sound.holds_ensureWord (by rw [hmode]; decide)).of_eq hstart
    have hloop : iterate parenTurn u.turns { lx := u, startPos := u.pos } = .ok call := by
      simpa only [lexerProcessMode, hmode, lexerProcessCmdSubstParen, hstart, bind, Except.bind]
        using hcall
    obtain ⟨hsound, -, hno, hstack⟩ := visits_goes (l := ParenScan.lx)
      (K := fun t => t.lx.inWord = true) (S := fun t => ¬ LastIs [backslash] t.lx)
      (fun t ht hword hlast => ht.holds_parenTurn hword hlast)
      (fun t u _ _ _ hturn hlast => not_again_of_done (parenTurn_last hlast) hturn) hstarted.sound
      hstarted.inWord hvisits
    refine hstuck t.lx (hvisits.answer_eq hloop (parenTurn_last hlast)) hsound
      (hno (h.noEof.congr hstarted.tokens)) (.inr ⟨.inl ?_, hlast⟩)
    rw [← hmode, ← hstarted.mode]
    simp only [lexerCurrentMode] at hstack ⊢
    rw [hstack]
  | @cmdSubstBacktick u t hmode hstart hvisits hlast =>
    have hstarted := (h.sound.holds_ensureWord (by rw [hmode]; decide)).of_eq hstart
    have hloop : iterate backtickTurn u.turns { lx := u } = .ok call := by
      simpa only [lexerProcessMode, hmode, lexerProcessCmdSubstBacktick, hstart, bind, Except.bind]
        using hcall
    obtain ⟨hsound, -, hno, hstack⟩ := visits_goes (l := TextScan.lx)
      (K := fun t => t.lx.inWord = true) (S := fun t => ¬ LastIs [backslash] t.lx)
      (fun t ht hword hlast => ht.holds_backtickTurn hword hlast)
      (fun t u _ _ _ hturn hlast => not_again_of_done (backtickTurn_last hlast) hturn)
      hstarted.sound hstarted.inWord hvisits
    refine hstuck t.lx (hvisits.answer_eq hloop (backtickTurn_last hlast)) hsound
      (hno (h.noEof.congr hstarted.tokens)) (.inr ⟨.inr ?_, hlast⟩)
    rw [← hmode, ← hstarted.mode]
    simp only [lexerCurrentMode] at hstack ⊢
    rw [hstack]
  | @heredocBody entry t hmode hentry hvisits hends =>
    obtain ⟨⟨tok, hstart⟩, hsound₀, hdoc⟩ := h.sound.startDocument hmode hentry
    have hloop : iterate (heredocTurn entry) s.lx.turns { lx := s.lx.startDocument } = .ok call := by
      simpa only [lexerProcessMode, hmode, lexerProcessHeredocBody, hentry] using hcall
    have hdelim := h.sound.delimiters entry (List.mem_of_getElem? hentry)
    obtain ⟨hsound, -, -, -⟩ := visits_goes (l := TextScan.lx)
      (K := fun t => InDocument entry t.lx) (S := fun t => ¬ DocumentEnds entry t.lx)
      (fun t ht hdoc hends => ht.holds_heredocTurn hdoc hends)
      (fun t u ht hsound _ hturn hends =>
        ht.not_breaks hloop (heredocTurn_breaks hdelim hsound.inside hends))
      hsound₀ hdoc hvisits
    exact hvisits.not_breaks hloop (heredocTurn_breaks hdelim hsound.inside hends)

/-- On a text without NUL, `lexer_tokenize` started on a fresh lexer ends with one of its statuses
and without a broken contract, and emits no token inside a word, exactly when no call on the way
comes to a trap. -/
theorem lexerTokenize_keepsContracts_iff {input : List Char} (hinput : nul ∉ input) :
    Completes (lexerCreateWithInput input) ∧ ¬ EmitsInWord (lexerCreateWithInput input) ↔
      AvoidsTraps (lexerCreateWithInput input) := by
  have hs := sound_create hinput
  have hbetween := between_start hs rfl
  constructor
  · rintro ⟨⟨n, status, lx', out, hrun, -⟩, hemits⟩
    -- Up to every state on the way no trap was met, so the invariant holds there.
    have hfree : ∀ s, Visits tokenizeTurn (lexerCreateWithInput input).startTokenizing s →
        Between s → ¬ Trapped s.lx := by
      intro s hvisits h
      obtain ⟨m, hm⟩ := hvisits.iterate_eq hrun
      refine h.not_trapped hm fun hmode t ht hemit => hemits ⟨s, t, hvisits, hmode, ht, hemit⟩
    intro s hvisits
    refine hfree s hvisits (hvisits.invariant hbetween ?_)
    intro t u ht hb hturn
    exact hb.next (hfree t ht hb) hturn
  · intro hfree
    refine ⟨completes_of_avoidsTraps hs rfl hfree, ?_⟩
    rintro ⟨s, t, hvisits, hmode, ht, htoken, hbraced⟩
    have h : Between s := hvisits.invariant hbetween fun t u ht hb hturn =>
      hb.next (hfree t ht) hturn
    have hsafe : ∀ t, Visits normalTurn s.lx t → ¬ NormalTrap t := fun t ht htrap =>
      hfree s hvisits (.normal hmode ht htrap)
    obtain ⟨hsound, hnil, -, -⟩ := visits_goes (l := id) (K := fun t => t.modeStack = [])
      (S := fun t => ¬ NormalTrap t) (fun t ht hst hfree => ht.holds_normalTurn_nil hst hfree)
      (fun t u ht _ _ _ => hsafe t ht) h.sound (h.sound.modeStack_eq_nil hmode) ht
    have hmode' : t.lexerCurrentMode ≠ .heredocBody := by
      simp [lexerCurrentMode, hnil]
    have hword : t.inWord = true := by
      by_contra hword
      exact htoken (hsound.currentToken_none hmode' hword)
    exact hsafe t ht (.inl ⟨hword, .inr (.inr (.inl hbraced))⟩)

/-- A word of one letter is read without a trap. -/
theorem lexerTokenize_keepsContracts_letter : AvoidsTraps (lexerCreateWithInput ['x']) := by
  refine (lexerTokenize_keepsContracts_iff (by decide)).mp ⟨?_, ?_⟩
  · exact ⟨1, _, _, _, rfl, .inl rfl⟩
  · rintro ⟨s, t, hvisits, -, ht, -, hbraced⟩
    rcases hvisits.eq_or_next with rfl | ⟨s', hturn, -⟩
    · rcases ht.eq_or_next with rfl | ⟨t₁, hturn₁, ht₁⟩
      · exact hbraced rfl
      cases hturn₁
      rcases ht₁.eq_or_next with rfl | ⟨t₂, hturn₂, -⟩
      · exact hbraced rfl
      cases hturn₂
    · cases hturn

/-- The text of a word that contains the comment character breaks the contract of
`lexer_start_word`. -/
theorem comment_character_in_word_breaks :
    ¬ ∀ input : List Char, nul ∉ input → Completes (lexerCreateWithInput input) := by
  intro h
  obtain ⟨n, status, lx', out, hrun, -⟩ := h ['a', '#'] (by decide)
  cases n with
  | zero => cases hrun
  | succ n =>
    have hturn : tokenizeTurn (lexerCreateWithInput ['a', '#']).startTokenizing =
        .error (.contract "lx->current_token == NULL") := rfl
    cases (iterate_error hturn n).symm.trans hrun

end Migash.Lexer
