import Migash.Exec.FreshSession

/-! # The drivers side by side

The same lines are fed to the loop over a stream, to the loop over a line editor and to
the partial API. As long as an empty line stands between commands, and no line leaves a
shell that only one of them ends, they execute the same programs and agree after every
line on whether more is needed.
-/

namespace Migash.Exec

open Library Lexer Tokenizer

variable {δ W : Type} {fe : FrontEnd δ W} {callees : Callees δ W} {σ σ' τ : Session}
  {s t : Shell δ W}

/-- Lines as they are read from a stream. -/
def withNewlines (texts : List (List Char)) : List (List Char) := texts.map (· ++ [newline])

/-! ## The condition -/

/-- A line that gives nothing is not in the middle of anything. -/
def BlankBetween (fe : FrontEnd δ W) (s : Shell δ W) (r : Reader) (line : List Char) : Prop :=
  ∀ τ, readInput fe (fe.tokenizerEnv s) r.session line = .ok (.empty, τ) →
    r.needContinuation = false ∧ τ.accumulatedTokens = none ∧ τ.lexer.heredocQueue = []

/-- The shell that a line leaves is ended by all drivers or by none of them. -/
structure Settled (interactive : Bool) (status : ExecStatus) (t : Shell δ W) : Prop where
  noAbort : status = .error → interactive = false → t.optFlags.errexit = true →
    t.lastExitStatus ≠ 0 → t.wantsExit = true
  atTop : status ≠ .incomplete → t.frame.pendingControlFlow = .top → t.callers.isEmpty = true

/-- Every line of a run of the loop over a stream meets the condition. -/
def SmoothLines (fe : FrontEnd δ W) (callees : Callees δ W) (interactive : Bool) :
    Reader → List (List Char) → Shell δ W → Prop
  | _, [], _ => True
  | r, line :: lines, s =>
    BlankBetween fe s r line ∧
      ∀ q stop t, (replLine fe callees interactive r line).run s = .ok ((q, stop), t) →
        (∀ o ∈ q.outcomes.getLast?, Settled interactive o.status t) ∧
          (stop = none → SmoothLines fe callees interactive q lines t)

theorem SmoothLines.of_prefix {interactive : Bool} {r : Reader} {lines rest : List (List Char)}
    (h : SmoothLines fe callees interactive r (lines ++ rest) s) :
    SmoothLines fe callees interactive r lines s := by
  induction lines generalizing r s with
  | nil => trivial
  | cons line lines ih =>
    refine ⟨h.1, fun q stop t hrun => ⟨(h.2 q stop t hrun).1, fun hstop => ?_⟩⟩
    exact ih ((h.2 q stop t hrun).2 hstop)

/-! ## One line -/

/-- What the loops keep of a reader behind a line with an outcome. -/
def Reader.behind (r : Reader) (o : Outcome) (τ : Session) : Reader where
  session := if o.status = .error then τ.reset else τ
  needContinuation := decide (o.status = .incomplete)
  outcomes := r.outcomes ++ [o]

/-- A line behind which the shell is to end. -/
def Outcome.ends (o : Outcome) (t : Shell δ W) : Bool :=
  decide (o.status ≠ .incomplete) && t.wantsExit

theorem Reader.dispatch_behind (r : Reader) (interactive : Bool) (o : Outcome) (τ : Session)
    (t : Shell δ W) :
    (Reader.dispatch interactive t (streamStatus o.status)
      { r with session := τ, outcomes := r.outcomes ++ [o] }).1 = r.behind o τ := by
  obtain ⟨status, program, held⟩ := o
  cases status with
  | error =>
    unfold Reader.dispatch streamStatus
    dsimp only
    split_ifs <;> rfl
  | _ => rfl

/-- The loop over a stream ends where the shell is to end. -/
theorem Settled.dispatch {interactive : Bool} {o : Outcome} (h : Settled interactive o.status t)
    (r : Reader) :
    (r.dispatch interactive t (streamStatus o.status)).2.isSome = o.ends t := by
  obtain ⟨status, program, held⟩ := o
  have hleaves (hne : status ≠ .incomplete) : t.leaves = t.wantsExit := by
    have htop := h.atTop hne
    unfold Shell.leaves Shell.wantsExit
    refine decide_eq_decide.mpr ⟨fun hleaves => ?_, fun hwants => ?_⟩
    · rcases hleaves with ⟨hreturn | hexit, hcallers⟩
      · exact .inr ⟨hcallers, hreturn⟩
      · exact .inl hexit
    · rcases hwants with hexit | ⟨hcallers, hreturn⟩
      · exact ⟨.inr hexit, htop hexit⟩
      · exact ⟨.inl hreturn, hcallers⟩
  cases status with
  | incomplete => rfl
  | error =>
    have habort := h.noAbort rfl
    unfold Reader.dispatch streamStatus Outcome.ends
    dsimp only
    rw [hleaves nofun]
    split_ifs with hexits hwants
    · obtain ⟨hbatch, herrexit, hfailed⟩ := hexits
      have hwants := habort (by simpa using hbatch) herrexit hfailed
      rw [hwants]
      rfl
    · rw [hwants]
      rfl
    · rw [Bool.eq_false_iff.mpr hwants]
      rfl
  | _ =>
    unfold Reader.dispatch streamStatus Outcome.ends
    dsimp only
    rw [hleaves nofun]
    cases t.wantsExit <;> rfl

section Run

variable {o : Outcome} {r : Reader}

theorem replLine_run {interactive : Bool} {line : List Char}
    (hcore : (execFrameStringCore fe callees r.session line).run s = .ok ((o, τ), t)) :
    (replLine fe callees interactive r line).run s = .ok ((r.behind o τ,
      (Reader.dispatch interactive t (streamStatus o.status)
        { r with session := τ, outcomes := r.outcomes ++ [o] }).2), t) := by
  unfold replLine
  rw [Stateful.run_bind_ok hcore, Stateful.run_bind_ok (Stateful.run_get_eq t), ← Reader.dispatch_behind]
  rfl

theorem editorLine_run {text : List Char}
    (hcore : (execFrameStringCore fe callees r.session (text ++ [newline])).run s =
      .ok ((o, τ), t)) :
    (editorLine fe callees r text).run s =
      .ok ((r.behind o τ, if o.ends t then some .exit else none), t) := by
  unfold editorLine Outcome.ends Reader.behind
  rw [Stateful.run_bind_ok hcore]
  dsimp only
  by_cases hmore : o.status = .incomplete
  · rw [if_pos hmore, hmore]
    rfl
  · rw [if_neg hmore, Stateful.run_bind_ok (Stateful.run_get_eq t), decide_eq_true hmore,
      decide_eq_false hmore, Bool.true_and]
    rfl

/-- The status that the partial API returns for a string with an outcome. -/
def partialResult (o : Outcome) (ρ : Session) (t : Shell δ W) : ExecStatus :=
  if ((ρ.translate o.status).1 = .ok ∨ (ρ.translate o.status).1 = .error) ∧ t.wantsExit then .exit
  else (ρ.translate o.status).1

theorem partialLine_run {line : List Char} {ρ : Session}
    (hcore : (execFrameStringCore fe callees r.session line).run s = .ok ((o, ρ), t)) :
    (partialLine fe callees r line).run s = .ok (({
        session := if partialResult o ρ t ≠ .incomplete then (ρ.translate o.status).2.reset
          else (ρ.translate o.status).2
        needContinuation := partialResult o ρ t = .incomplete
        outcomes := r.outcomes ++ [o] },
      if partialResult o ρ t = .exit then some .exit else none), t) := by
  have hstring : (execExecuteCommandStringPartial fe callees r.session line).run s =
      .ok ((partialResult o ρ t, if partialResult o ρ t ≠ .incomplete
        then (ρ.translate o.status).2.reset else (ρ.translate o.status).2, o), t) := by
    unfold execExecuteCommandStringPartial
    rw [Stateful.run_bind_ok hcore]
    dsimp only
    rw [Stateful.run_bind_ok (Stateful.run_get_eq t)]
    rfl
  unfold partialLine
  rw [Stateful.run_bind_ok hstring]
  rfl

/-- A line is empty if nothing was read. -/
theorem readInput_of_empty {line : List Char}
    (hcore : (execFrameStringCore fe callees σ line).run s = .ok ((o, τ), t))
    (hempty : o.status = .empty) :
    readInput fe (fe.tokenizerEnv s) σ line = .ok (.empty, τ) := by
  unfold execFrameStringCore at hcore
  rw [Stateful.run_bind_ok (Stateful.run_get_eq s)] at hcore
  cases hread : readInput fe (fe.tokenizerEnv s) σ line with
  | error cause => rw [hread] at hcore; cases hcore
  | ok answer =>
    obtain ⟨reading, ρ⟩ := answer
    rw [hread] at hcore
    cases reading with
    | program ast =>
      obtain ⟨result, u, -, hcore⟩ := Stateful.run_bind_eq_ok.mp hcore
      rw [Stateful.run_bind_ok (Stateful.run_modify_eq _ u)] at hcore
      split_ifs at hcore <;> cases hcore <;> cases hempty
    | error => cases hcore; cases hempty
    | incomplete => cases hcore; cases hempty
    | empty => cases hcore; rfl

end Run

/-! ## In step -/

@[simp] theorem Session.reset_reset (σ : Session) : σ.reset.reset = σ.reset := by
  simp only [Session.reset, Lexer.lexerReset, Tokenizer.tokenizerReset, Option.map_map]
  rfl

/-- The reader of the partial API and the reader of the loop over a stream, between two lines. -/
structure Reader.InStep (p r : Reader) : Prop where
  session : p.session.ReadsAlike r.session
  tidy : p.session.Tidy
  tidy' : r.session.Tidy
  flag : p.session.incomplete = p.needContinuation
  same : p.SameSoFar r

/-- The same is answered, and both go on in step or both end. -/
def InStepAnswers (x y : Reader × Option ExecStatus) : Prop :=
  y.2.isSome = x.2.isSome ∧ x.1.InStep y.1

theorem inStep_new : Reader.InStep {} {} where
  session := (tidy_new.reset_alike rfl).toReadsAlike
  tidy := tidy_new
  tidy' := tidy_new
  flag := rfl
  same := ⟨rfl, rfl⟩

theorem CoreLeaves.tidy {status : ExecStatus} (h : CoreLeaves σ τ status) : τ.Tidy := by
  cases h with
  | ok ρ hρ heq => exact heq ▸ hρ.reset
  | error hτ => exact hτ
  | incomplete hτ => exact hτ
  | empty hτ => exact hτ

theorem Session.reset_translate (σ : Session) (status : ExecStatus) :
    (σ.translate status).2.reset = σ.reset := by
  cases status with
  | error => exact σ.reset_reset
  | _ => rfl

/-- The partial API needs more behind a line that is unfinished, and behind no other one if an empty
line is in the middle of nothing. -/
theorem translate_incomplete_iff {status : ExecStatus}
    (hempty : status = .empty → σ.incomplete = false) :
    (σ.translate status).1 = .incomplete ↔ status = .incomplete := by
  cases status with
  | empty => simp [Session.translate, hempty rfl]
  | _ => simp [Session.translate]

/-- What the partial API returns if more is needed, and if the shell is to end. -/
theorem partialResult_spec (o : Outcome) (ρ : Session) (t : Shell δ W) :
    (partialResult o ρ t = .incomplete ↔ (ρ.translate o.status).1 = .incomplete) ∧
      (partialResult o ρ t = .exit ↔
        (ρ.translate o.status).1 ≠ .incomplete ∧ t.wantsExit = true) := by
  have hcases : (ρ.translate o.status).1 = .ok ∨ (ρ.translate o.status).1 = .error ∨
      (ρ.translate o.status).1 = .incomplete := by
    cases o.status with
    | empty =>
      unfold Session.translate
      cases ρ.incomplete with
      | false => exact .inl rfl
      | true => exact .inr (.inr rfl)
    | _ => simp [Session.translate]
  unfold partialResult
  rcases hcases with h | h | h <;> cases t.wantsExit <;> simp [h]

/-- What the partial API and the loop over a stream keep of alike sessions behind a line. -/
theorem CoreLeaves.readsAlike {ρ : Session} {status : ExecStatus} (hleaves : CoreLeaves σ τ status)
    (hρ : ρ.Tidy) (halike : ρ.ReadsAlike τ)
    (hempty : status = .empty → τ.accumulatedTokens = none ∧ τ.lexer.heredocQueue = [])
    (hne : status ≠ .incomplete) :
    ρ.reset.ReadsAlike (if status = .error then τ.reset else τ) := by
  cases hleaves with
  | ok τ₀ hτ₀ heq =>
    have hreset := halike.reset
    rw [heq, Session.reset_reset, ← heq] at hreset
    exact hreset
  | error => exact halike.reset
  | incomplete => exact (hne rfl).elim
  | empty hτ _ hdrained =>
    obtain ⟨haccumulated, hqueue⟩ := hempty rfl
    obtain ⟨before, stack, -, hlexer⟩ := halike.lexer
    exact hdrained.readsAlike hτ haccumulated hqueue hρ hlexer.readingHeredoc

/-- A line that is in the middle of nothing if it is empty, and that both end or both do not, keeps the
readers in step. -/
theorem Reader.InStep.partialLine {p r : Reader} (h : p.InStep r) {interactive : Bool}
    {line : List Char} (hblank : BlankBetween fe.unplaced s r line)
    (hsettled : ∀ q stop t, (replLine fe.unplaced callees interactive r line).run s =
      .ok ((q, stop), t) → ∀ o ∈ q.outcomes.getLast?, Settled interactive o.status t) :
    Mirrors InStepAnswers ((partialLine fe.unplaced callees p line).run s)
      ((replLine fe.unplaced callees interactive r line).run s) := by
  have hcore := @Session.ReadsAlike.core _ _ fe _ _ callees h.session line s
  generalize hleft : (execFrameStringCore fe.unplaced callees p.session line).run s = left at hcore
  generalize hright : (execFrameStringCore fe.unplaced callees r.session line).run s = right
    at hcore
  have hstops {stop : ExecStop W} (hstop : left = .error stop) :
      (Exec.partialLine fe.unplaced callees p line).run s = .error stop := by
    unfold Exec.partialLine execExecuteCommandStringPartial
    exact Stateful.run_bind_error (Stateful.run_bind_error (hleft.trans hstop))
  cases hcore with
  | stop stop =>
    rw [hstops rfl, replLine, Stateful.run_bind_error hright]
    exact .stop stop
  | fuel _ =>
    rw [hstops rfl]
    exact .fuel _
  | @ok x y t hxy =>
    obtain ⟨o, ρ⟩ := x
    obtain ⟨o', τ⟩ := y
    obtain ⟨rfl, halike⟩ := hxy
    have hrepl := @replLine_run _ _ _ _ _ _ _ _ _ interactive _ hright
    have hsettle := hsettled _ _ _ hrepl o' (by rw [Reader.behind, List.getLast?_concat]; rfl)
    have hread (hempty : o'.status = .empty) := hblank τ (readInput_of_empty hright hempty)
    have hflag := execFrameStringCore_incomplete hleft
    have hleaves := h.tidy'.core hright
    have hρ := (h.tidy.core hleft).tidy
    have hmore : (ρ.translate o'.status).1 = .incomplete ↔ o'.status = .incomplete := by
      refine translate_incomplete_iff fun hempty => ?_
      rw [hflag, hempty, if_neg nofun, h.flag, ← h.same.needContinuation]
      exact (hread hempty).1
    obtain ⟨hincomplete, hexit⟩ := partialResult_spec o' ρ t
    rw [hmore] at hincomplete
    rw [ne_eq, hmore] at hexit
    rw [partialLine_run hleft, hrepl]
    refine .ok t ⟨?_, ?_⟩
    · dsimp only
      rw [hsettle.dispatch, Outcome.ends, if_congr hexit rfl rfl]
      by_cases hnow : o'.status = .incomplete <;> cases t.wantsExit <;> simp [hnow]
    · by_cases hnow : o'.status = .incomplete
      · have herror : o'.status ≠ .error := by rw [hnow]; nofun
        rw [if_neg (not_not.mpr (hincomplete.mpr hnow)), Reader.behind, if_neg herror, hnow]
        have hmiddle : Session.ReadsAlike (ρ.translate .incomplete).2 τ := ⟨halike.1, halike.2, halike.3⟩
        refine ⟨hmiddle, ⟨hρ.1, hρ.2⟩, hleaves.tidy, ?_, ?_, ?_⟩
        · exact (decide_eq_true (hincomplete.mpr hnow)).symm
        · exact (decide_eq_true (hincomplete.mpr hnow)).symm
        · rw [h.same.outcomes]
      · have hdone := mt hincomplete.mp hnow
        rw [if_pos hdone, Session.reset_translate, Reader.behind]
        refine ⟨?_, hρ.reset, ?_, ?_, ?_, ?_⟩
        · exact hleaves.readsAlike hρ halike (fun hempty => (hread hempty).2) hnow
        · split_ifs
          · exact hleaves.tidy.reset
          · exact hleaves.tidy
        · exact (decide_eq_false hdone).symm
        · exact (decide_eq_false hnow).trans (decide_eq_false hdone).symm
        · rw [h.same.outcomes]

/-- The lines of a run that meets the condition keep the readers in step. -/
theorem Reader.InStep.feedLines {p r : Reader} (h : p.InStep r) {interactive : Bool}
    {lines : List (List Char)}
    (hsmooth : SmoothLines fe.unplaced callees interactive r lines s) :
    Mirrors (fun x y => y.2.isSome = x.2.isSome ∧ x.1.SameSoFar y.1)
      ((Driver.partialString.feedLines fe.unplaced callees p lines).run s)
      (((Driver.stream interactive).feedLines fe.unplaced callees r lines).run s) := by
  induction lines generalizing p r s with
  | nil => exact .pure ⟨rfl, h.same⟩
  | cons line lines ih =>
    obtain ⟨hblank, hlines⟩ := hsmooth
    refine (h.partialLine hblank fun q stop t hrun => (hlines q stop t hrun).1).bind_of_runs
      fun x y t _ hrun hxy => ?_
    obtain ⟨p', stop'⟩ := x
    obtain ⟨r', stop⟩ := y
    obtain ⟨hstop, hnext⟩ := hxy
    cases stop' with
    | none =>
      obtain rfl := Option.isNone_iff_eq_none.mp (Option.isSome_eq_false_iff.mp hstop)
      exact ih hnext ((hlines r' none t hrun).2 rfl)
    | some result' =>
      obtain ⟨result, rfl⟩ := Option.isSome_iff_exists.mp hstop
      exact .pure ⟨rfl, hnext.same⟩

/-- A line that both end or both do not means the same to the loop over a line editor and to the loop
over a stream. -/
theorem editorLine_replLine {r : Reader} {interactive : Bool} {text : List Char}
    (hsettled : ∀ q stop t, (replLine fe callees interactive r (text ++ [newline])).run s =
      .ok ((q, stop), t) → ∀ o ∈ q.outcomes.getLast?, Settled interactive o.status t) :
    Mirrors (fun x y => y.2.isSome = x.2.isSome ∧ y.1 = x.1) ((editorLine fe callees r text).run s)
      ((replLine fe callees interactive r (text ++ [newline])).run s) := by
  cases hcore : (execFrameStringCore fe callees r.session (text ++ [newline])).run s with
  | error stop =>
    unfold editorLine replLine
    rw [Stateful.run_bind_error hcore, Stateful.run_bind_error hcore]
    exact .stop stop
  | ok answer =>
    obtain ⟨⟨o, τ⟩, t⟩ := answer
    have hrepl := @replLine_run _ _ _ _ _ _ _ _ _ interactive _ hcore
    have hsettle := hsettled _ _ _ hrepl o (by rw [Reader.behind, List.getLast?_concat]; rfl)
    rw [editorLine_run hcore, hrepl]
    refine .ok t ⟨?_, rfl⟩
    dsimp only
    rw [hsettle.dispatch]
    cases o.ends t <;> rfl

theorem SmoothLines.lineEditor {interactive : Bool} {r : Reader} {texts : List (List Char)}
    (h : SmoothLines fe callees interactive r (withNewlines texts) s) :
    Mirrors (fun x y => y.2.isSome = x.2.isSome ∧ x.1.SameSoFar y.1)
      ((Driver.lineEditor.feedLines fe callees r texts).run s)
      (((Driver.stream interactive).feedLines fe callees r (withNewlines texts)).run s) := by
  induction texts generalizing r s with
  | nil => exact .pure ⟨rfl, rfl, rfl⟩
  | cons text texts ih =>
    obtain ⟨-, hlines⟩ := h
    refine (editorLine_replLine fun q stop t hrun => (hlines q stop t hrun).1).bind_of_runs
      fun x y t _ hrun hxy => ?_
    obtain ⟨r', stop'⟩ := x
    obtain ⟨q, stop⟩ := y
    obtain ⟨hstop, rfl⟩ := hxy
    cases stop' with
    | none =>
      obtain rfl := Option.isNone_iff_eq_none.mp (Option.isSome_eq_false_iff.mp hstop)
      exact ih ((hlines q none t hrun).2 rfl)
    | some result' =>
      obtain ⟨result, rfl⟩ := Option.isSome_iff_exists.mp hstop
      exact .pure ⟨rfl, rfl, rfl⟩

/-! ## The three drivers -/

/-- The three drivers do the same with lines: they execute the same programs, which leave the same
shell, they agree on whether more is needed, and they all go on or all end. -/
structure DriversAgree (fe : FrontEnd δ W) (callees : Callees δ W) (interactive : Bool)
    (texts : List (List Char)) (s : Shell δ W) : Prop where
  lineEditor : Mirrors (fun x y => y.2.isSome = x.2.isSome ∧ x.1.SameSoFar y.1)
    ((Driver.lineEditor.feedLines fe callees {} texts).run s)
    (((Driver.stream interactive).feedLines fe callees {} (withNewlines texts)).run s)
  partialString : Mirrors (fun x y => y.2.isSome = x.2.isSome ∧ x.1.SameSoFar y.1)
    ((Driver.partialString.feedLines fe callees {} (withNewlines texts)).run s)
    (((Driver.stream interactive).feedLines fe callees {} (withNewlines texts)).run s)

theorem nul_notMem_withNewlines {texts : List (List Char)}
    (hplain : ∀ text ∈ texts, newline ∉ text ∧ nul ∉ text) : nul ∉ (withNewlines texts).flatten := by
  intro hmem
  obtain ⟨line, hline, hmem⟩ := List.mem_flatten.mp hmem
  obtain ⟨text, htext, rfl⟩ := List.mem_map.mp hline
  rcases List.mem_append.mp hmem with hmem | hmem
  · exact (hplain text htext).2 hmem
  · exact absurd (List.mem_singleton.mp hmem) (by decide)

/-- The loop over a stream of lines feeds them one after the other, and fails at their end if more is
needed then. -/
theorem replLoop_withNewlines {texts : List (List Char)}
    (hplain : ∀ text ∈ texts, newline ∉ text ∧ nul ∉ text) {n : ℕ} (hn : texts.length < n)
    (r : Reader) (s : Shell δ W) :
    (replLoop fe callees n r { content := (withNewlines texts).flatten }).run s =
      (do
        let (r, stop) ← (Driver.stream false).feedLines fe callees r (withNewlines texts)
        return (stop.getD (if r.needContinuation then .error else .ok), r) :
        ExecM δ W (ExecStatus × Reader)).run s := by
  induction texts generalizing n r s with
  | nil =>
    obtain ⟨n, rfl⟩ := Nat.exists_eq_succ_of_ne_zero (Nat.ne_of_gt hn)
    have hstream : (execFrameStreamCore fe callees r.session { content := [] }).run s =
        .ok ({ status := .ok, outcome := none, session := r.session,
               fp := { content := [], eof := true } }, s) := rfl
    rw [withNewlines, List.map_nil, List.flatten_nil, replLoop, Stateful.run_bind_ok hstream]
    dsimp only
    rw [if_pos rfl, Option.toList_none, List.append_nil]
    rfl
  | cons text texts ih =>
    obtain ⟨n, rfl⟩ := Nat.exists_eq_succ_of_ne_zero (Nat.ne_of_gt (Nat.zero_lt_of_lt hn))
    obtain ⟨⟨hnewline, hnul⟩, hothers⟩ := List.forall_mem_cons.mp hplain
    have hread := Stream.readLine_newline hnewline hnul (nul_notMem_withNewlines hothers)
    have hcontent : (withNewlines (text :: texts)).flatten =
        text ++ newline :: (withNewlines texts).flatten := by
      rw [withNewlines, List.map_cons, List.flatten_cons, List.append_assoc]
      rfl
    have hlines : withNewlines (text :: texts) = (text ++ [newline]) :: withNewlines texts := rfl
    rw [hcontent, hlines, replLoop, Driver.feedLines]
    cases hcore : (execFrameStringCore fe callees r.session (text ++ [newline])).run s with
    | error stop =>
      have hstream : (execFrameStreamCore fe callees r.session
          { content := text ++ newline :: (withNewlines texts).flatten }).run s = .error stop := by
        unfold execFrameStreamCore
        rw [hread]
        dsimp only
        rw [if_neg (by simp), Stateful.run_bind_error hcore]
      have hline : (Driver.feedLine fe callees r (text ++ [newline]) (.stream false)).run s =
          .error stop := Stateful.run_bind_error hcore
      rw [Stateful.run_bind_error hstream, bind_assoc, Stateful.run_bind_error hline]
    | ok answer =>
      obtain ⟨⟨o, τ⟩, t⟩ := answer
      have hstream : (execFrameStreamCore fe callees r.session
          { content := text ++ newline :: (withNewlines texts).flatten }).run s =
            .ok ({ status := streamStatus o.status, outcome := some o, session := τ,
                   fp := { content := (withNewlines texts).flatten } }, t) := by
        unfold execFrameStreamCore
        rw [hread]
        dsimp only
        rw [if_neg (by simp), Stateful.run_bind_ok hcore]
        rfl
      have hline : (Driver.feedLine fe callees r (text ++ [newline]) (.stream false)).run s = _ :=
        replLine_run hcore
      have hbehind := r.dispatch_behind false o τ t
      rw [Stateful.run_bind_ok hstream, bind_assoc, Stateful.run_bind_ok hline]
      dsimp only
      rw [if_neg (by decide), Stateful.run_bind_ok (Stateful.run_get_eq t), Option.toList_some,
        ← hbehind]
      generalize Reader.dispatch false t (streamStatus o.status)
        { r with session := τ, outcomes := r.outcomes ++ [o] } = next
      obtain ⟨q, stop⟩ := next
      cases stop with
      | some result => rfl
      | none => exact ih hothers (Nat.lt_of_succ_lt_succ hn) q t

theorem length_le_withNewlines (texts : List (List Char)) :
    texts.length ≤ (withNewlines texts).flatten.length := by
  induction texts with
  | nil => exact le_rfl
  | cons text texts ih =>
    have hlines : withNewlines (text :: texts) = (text ++ [newline]) :: withNewlines texts := rfl
    rw [hlines, List.flatten_cons, List.length_append, List.length_append, List.length_cons,
      List.length_singleton]
    omega

/-- In a shell that is not interactive `exec_execute_stream_repl` feeds the lines of its stream. -/
theorem execExecuteStreamRepl_withNewlines {texts : List (List Char)}
    (hplain : ∀ text ∈ texts, newline ∉ text ∧ nul ∉ text) (s : Shell δ W) :
    (execExecuteStreamRepl fe callees {} (withNewlines texts).flatten).run s =
      (do
        let (r, stop) ← (Driver.stream false).feedLines fe callees {} (withNewlines texts)
        return (stop.getD (if r.needContinuation then .error else .ok), r) :
        ExecM δ W (ExecStatus × Reader)).run s :=
  replLoop_withNewlines hplain (Nat.lt_succ_of_le (length_le_withNewlines texts)) {} s

theorem execExecuteStreamRepl_withNewlines_two :
    (execExecuteStreamRepl idleFrontEnd (executor (Env.idle Unit Unit) 9) {}
        (withNewlines [['l', 's'], []]).flatten).run (.initial ()) =
      (do
        let (r, stop) ← (Driver.stream false).feedLines idleFrontEnd (executor (Env.idle Unit Unit) 9)
          {} (withNewlines [['l', 's'], []])
        return (stop.getD (if r.needContinuation then .error else .ok), r) :
        ExecM Unit Unit (ExecStatus × Reader)).run (.initial ()) := by
  refine execExecuteStreamRepl_withNewlines ?_ (.initial ())
  rw [List.forall_mem_cons, List.forall_mem_singleton]
  exact ⟨by decide, by decide⟩

/-! ## A shell that does nothing -/

/-- Whether the only line of a run meets the condition, in the shell that does nothing. -/
def idleSmooth (interactive : Bool) (line : List Char) : Bool :=
  (match readInput idleFrontEnd.unplaced (idleFrontEnd.unplaced.tokenizerEnv (.initial ()))
      ({} : Reader).session line with
    | .ok (.empty, τ) => τ.accumulatedTokens.isNone && τ.lexer.heredocQueue.isEmpty
    | _ => true) &&
  match (replLine idleFrontEnd.unplaced (executor (Env.idle Unit Unit) 9) interactive {} line).run
    (.initial ()) with
  | .ok ((q, _), t) =>
    q.outcomes.all fun o => decide (o.status ≠ .error) && decide (t.frame.pendingControlFlow ≠ .top)
  | .error _ => true

theorem smoothLines_of_idleSmooth {interactive : Bool} {line : List Char}
    (h : idleSmooth interactive line = true) :
    SmoothLines idleFrontEnd.unplaced (executor (Env.idle Unit Unit) 9) interactive {} [line]
      (.initial ()) := by
  obtain ⟨hblank, hsettled⟩ := Bool.and_eq_true_iff.mp h
  refine ⟨fun τ hread => ?_, fun q stop t hrun => ⟨fun o ho => ?_, fun _ => trivial⟩⟩
  · rw [hread] at hblank
    obtain ⟨hnone, hnil⟩ := Bool.and_eq_true_iff.mp hblank
    exact ⟨rfl, Option.isNone_iff_eq_none.mp hnone, List.isEmpty_iff.mp hnil⟩
  · rw [hrun] at hsettled
    have hlast := List.all_eq_true.mp hsettled o (List.mem_of_getLast? ho)
    simp only [Bool.and_eq_true, decide_eq_true_eq] at hlast
    exact ⟨fun herror => (hlast.1 herror).elim, fun _ htop => (hlast.2 htop).elim⟩

/-! ## Lines -/

theorem driversAgree_of_smooth (env : Env δ W) (n : ℕ) {interactive : Bool}
    {texts : List (List Char)}
    (hsmooth : SmoothLines fe.unplaced (executor env n) interactive {} (withNewlines texts) s)
    {read : List (List Char)} (hread : read <+: texts) :
    DriversAgree fe.unplaced (executor env n) interactive read s := by
  obtain ⟨rest, rfl⟩ := hread
  rw [withNewlines, List.map_append] at hsmooth
  exact ⟨hsmooth.of_prefix.lineEditor, inStep_new.feedLines hsmooth.of_prefix⟩

/-- A command. -/
theorem driversAgree_of_smooth_echo :
    DriversAgree idleFrontEnd.unplaced (executor (Env.idle Unit Unit) 9) false ["echo a".toList]
      (.initial ()) :=
  driversAgree_of_smooth (Env.idle Unit Unit) 9
    (smoothLines_of_idleSmooth (by decide +kernel : idleSmooth false _ = true)) (List.prefix_rfl)

/-- Behind a line that is continued an empty line ends the construct for the loops, and not for the
partial API. -/
theorem drivers_disagree_on_blank :
    ¬ DriversAgree idleFrontEnd.unplaced (executor (Env.idle Unit Unit) 9) false
      ["\\".toList, []] (.initial ()) := by
  intro hagree
  obtain ⟨r, stop, t, hrun, -, hneed, -, -⟩ :=
    @idleLines_eq_some (.stream false) (withNewlines ["\\".toList, []]) [] (some .empty) false false
      (some []) (by decide +kernel)
  obtain ⟨p, stop', u, hstring, -, hneed', -, -⟩ :=
    @idleLines_eq_some .partialString (withNewlines ["\\".toList, []]) [] (some .empty) true false
      (some []) (by decide +kernel)
  have hmirror := hagree.partialString
  rw [hstring] at hmirror
  obtain ⟨⟨r', stop''⟩, hrun', -, hsame⟩ := hmirror.exists_ok
  cases hrun.symm.trans hrun'
  cases hneed'.symm.trans (hsame.needContinuation.symm.trans hneed)

end Migash.Exec
