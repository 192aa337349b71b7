import Migash.Exec.StreamRepl

/-! # Dot scripts

The dot builtin reads its file with the function that reads one line of a stream, and
reads one line of it. What the file has behind the first line is not executed, and a
construct that the first line opens is forgotten.
-/

namespace Migash.Exec

open Library Lexer

variable {δ W : Type} {fe : FrontEnd δ W} {callees : Callees δ W} {s t : Shell δ W}

/-! ## Text without commands -/

/-- What executes no program leaves the shell as it is. -/
theorem execFrameStringCore_idle {session session' : Session} {input : List Char}
    {outcome : Outcome}
    (h : (execFrameStringCore fe callees session input).run s = .ok ((outcome, session'), t))
    (hnone : outcome.program = none) : t = s := by
  unfold execFrameStringCore at h
  rw [Stateful.run_bind_ok (Stateful.run_get_eq s)] at h
  cases hread : readInput fe (fe.tokenizerEnv s) session input with
  | error cause =>
    rw [hread] at h
    cases h
  | ok answer =>
    obtain ⟨reading, read⟩ := answer
    rw [hread] at h
    cases reading with
    | program ast =>
      obtain ⟨result, u, -, h⟩ := Stateful.run_bind_eq_ok.mp h
      rw [Stateful.run_bind_ok (Stateful.run_modify_eq _ u)] at h
      split_ifs at h
      · cases h
        cases hnone
      · cases h
        cases hnone
    | error => cases h; rfl
    | incomplete => cases h; rfl
    | empty => cases h; rfl

theorem execFrameStreamCore_idle {session : Session} {fp : Stream} {a : StreamAnswer}
    (h : (execFrameStreamCore fe callees session fp).run s = .ok (a, t))
    (hnone : programs a.outcome.toList = []) : t = s := by
  unfold execFrameStreamCore at h
  dsimp only at h
  split_ifs at h
  · cases h
    rfl
  · obtain ⟨⟨outcome, session'⟩, u, hcore, h⟩ := Stateful.run_bind_eq_ok.mp h
    cases h
    refine execFrameStringCore_idle hcore ?_
    cases hprogram : outcome.program with
    | none => rfl
    | some ast => simp [programs, hprogram] at hnone

/-- An error of the stream is an error of its line. -/
theorem execFrameStreamCore_error {session : Session} {fp : Stream} {a : StreamAnswer}
    (h : (execFrameStreamCore fe callees session fp).run s = .ok (a, t)) (herror : a.status = .error) :
    ∃ outcome ∈ a.outcome, outcome.status = .error := by
  unfold execFrameStreamCore at h
  dsimp only at h
  split_ifs at h
  · cases h
    cases herror
  · obtain ⟨⟨outcome, session'⟩, u, -, h⟩ := Stateful.run_bind_eq_ok.mp h
    cases h
    refine ⟨outcome, rfl, ?_⟩
    dsimp only at herror
    cases hstatus : outcome.status with
    | error => rfl
    | _ => rw [hstatus] at herror; cases herror

theorem programs_append (outcomes others : List Outcome) :
    programs (outcomes ++ others) = programs outcomes ++ programs others :=
  List.filterMap_append ..

/-- The first turn of the loop, and what the others do: they add to the outcomes, and leave the shell
as it is if no program is among these. -/
theorem replLoop_first {n : ℕ} {r r' : Reader} {fp : Stream} {result : ExecStatus}
    (h : (replLoop fe callees n r fp).run s = .ok ((result, r'), t)) :
    ∃ a u others, (execFrameStreamCore fe callees r.session fp).run s = .ok (a, u) ∧
      r'.outcomes = r.outcomes ++ (a.outcome.toList ++ others) ∧
      (programs others = [] → t = u) := by
  induction n generalizing r fp s with
  | zero => cases h
  | succ n ih =>
    obtain ⟨a, u, hstream, h⟩ := Stateful.run_bind_eq_ok.mp h
    refine ⟨a, u, ?_⟩
    by_cases heof : a.fp.eof = true
    · simp only [heof, if_true] at h
      cases h
      exact ⟨[], hstream, by simp, fun _ => rfl⟩
    · simp only [heof] at h
      rw [if_neg (by decide), Stateful.run_bind_ok (Stateful.run_get_eq u)] at h
      have houtcomes := Reader.dispatch_outcomes false u a.status
        { r with session := a.session, outcomes := r.outcomes ++ a.outcome.toList }
      generalize Reader.dispatch false u a.status
        { r with session := a.session, outcomes := r.outcomes ++ a.outcome.toList } = next
        at h houtcomes
      obtain ⟨r₁, stop⟩ := next
      cases stop with
      | some result' =>
        cases h
        exact ⟨[], hstream, by simpa using houtcomes, fun _ => rfl⟩
      | none =>
        obtain ⟨a', v, others, hstream', hmore, hidle⟩ := ih h
        refine ⟨a'.outcome.toList ++ others, hstream, ?_, fun hnone => ?_⟩
        · rw [hmore, houtcomes, List.append_assoc]
        · rw [programs_append, List.append_eq_nil_iff] at hnone
          rw [hidle hnone.2, execFrameStreamCore_idle hstream' hnone.1]

/-- A loop whose first turn stops has stopped. -/
theorem replLoop_stop {n : ℕ} {r : Reader} {fp : Stream} {stop : ExecStop W}
    (h : (execFrameStreamCore fe callees r.session fp).run s = .error stop) :
    (replLoop fe callees (n + 1) r fp).run s = .error stop := by
  rw [replLoop, Stateful.run_bind_error h]

/-! ## The dot builtin -/

/-- The shell with the arguments of a dot command, if it has any. -/
def Shell.withArguments (s : Shell δ W) (params : List String) : Shell δ W :=
  if params = [] then s else s.replacePositionalParams params

/-- The shell behind a dot command: its arguments make way for those from before. -/
def Shell.withoutArguments (t : Shell δ W) (params : List String) (before : Shell δ W) :
    Shell δ W :=
  if params = [] then t else t.replacePositionalParams before.positionalArguments

/-- The dot command does to the shell what the loop over the lines of its file does. It fails if the
file is unfinished, and hands on the last exit status if nothing in it fails to be read. -/
structure SourcesWhole (fe : FrontEnd δ W) (callees : Callees δ W)
    (script : String → Shell δ W → Option (List Char)) (filename : String) (params : List String)
    (content : List Char) (s : Shell δ W) : Prop where
  effect :
    match (execExecuteStreamRepl fe callees {} content).run (s.withArguments params) with
    | .error (.fault _) => False
    | .error stop => (builtinDot fe callees script ("." :: filename :: params)).run s = .error stop
    | .ok ((_, r), t) =>
      ∃ status outcomes,
        (builtinDot fe callees script ("." :: filename :: params)).run s =
          .ok ((status, outcomes), t.withoutArguments params s) ∧
        programs outcomes = programs r.outcomes ∧
        (endsUnfinished r.outcomes = true → status ≠ 0) ∧
        (endsUnfinished r.outcomes = false → (∀ o ∈ r.outcomes, o.status ≠ .error) →
          status = t.frame.lastExitStatus)

/-- The first line is all there is to a file: it ends the shell, or nothing is executed behind it,
and if the file is unfinished, its last exit status is not zero or it cannot be read itself. No
parameters are to be set aside for those of the command. -/
def IsOneLine (fe : FrontEnd δ W) (callees : Callees δ W) (params : List String)
    (content : List Char) (s : Shell δ W) : Prop :=
  (params = [] ∨ s.positionalArguments = []) ∧
    match (execFrameStreamCore fe callees {} { content }).run (s.withArguments params) with
    | .error (.fault _) => False
    | .error (.exit _ _) => True
    | .ok (a, u) =>
      ∃ result r t,
        (execExecuteStreamRepl fe callees {} content).run (s.withArguments params) =
          .ok ((result, r), t) ∧
        programs r.outcomes = programs a.outcome.toList ∧
        (endsUnfinished r.outcomes = true → u.frame.lastExitStatus ≠ 0 ∨ a.status = .error)

theorem frameGetAllPositionalParams_ok (h : s.positionalArguments = []) :
    (frameGetAllPositionalParams : ExecM δ W (List String)).run s = .ok ([], s) := by
  unfold frameGetAllPositionalParams
  rw [Stateful.run_bind_ok (Stateful.run_get_eq s), if_pos h]
  rfl

section Builtin

variable {script : String → Shell δ W → Option (List Char)} {filename : String}
  {params : List String} {content : List Char}

theorem builtinDot_aborts (hscript : script filename s = some content) (hparams : params ≠ [])
    (harguments : s.positionalArguments ≠ []) :
    (builtinDot fe callees script ("." :: filename :: params)).run s =
      .error (.fault (.contract "n >= 1")) := by
  have hall : (frameGetAllPositionalParams : ExecM δ W (List String)).run s =
      .error (.fault (.contract "n >= 1")) := by
    unfold frameGetAllPositionalParams
    rw [Stateful.run_bind_ok (Stateful.run_get_eq s), if_neg harguments]
    rfl
  simp only [builtinDot, List.drop_succ_cons, List.drop_zero]
  rw [Stateful.run_bind_ok (Stateful.run_get_eq s)]
  simp only [hscript, if_neg hparams]
  rw [Stateful.run_bind_error hall]

theorem builtinDot_stop (hscript : script filename s = some content)
    (hparams : params = [] ∨ s.positionalArguments = []) {stop : ExecStop W}
    (h : (execFrameStreamCore fe callees {} { content }).run (s.withArguments params) =
      .error stop) :
    (builtinDot fe callees script ("." :: filename :: params)).run s = .error stop := by
  have honce : (execExecuteStreamOnce fe callees content).run (s.withArguments params) =
      .error stop := by
    unfold execExecuteStreamOnce
    rw [Stateful.run_bind_error h]
  simp only [builtinDot, List.drop_succ_cons, List.drop_zero]
  rw [Stateful.run_bind_ok (Stateful.run_get_eq s)]
  simp only [hscript]
  by_cases hnil : params = []
  · rw [Shell.withArguments, if_pos hnil] at honce
    simp only [if_pos hnil, if_neg (not_not.mpr hnil), pure_bind]
    rw [Stateful.run_bind_error honce]
  · have hall := frameGetAllPositionalParams_ok (hparams.resolve_left hnil)
    rw [Shell.withArguments, if_neg hnil] at honce
    simp only [if_neg hnil, if_pos hnil]
    rw [Stateful.run_bind_ok hall, Stateful.run_bind_ok (Stateful.run_modify_eq _ s),
      Stateful.run_bind_error honce]

theorem builtinDot_ok (hscript : script filename s = some content)
    (hparams : params = [] ∨ s.positionalArguments = []) {a : StreamAnswer} {u : Shell δ W}
    (h : (execFrameStreamCore fe callees {} { content }).run (s.withArguments params) =
      .ok (a, u)) :
    (builtinDot fe callees script ("." :: filename :: params)).run s =
      .ok ((if a.status = .error ∧ u.frame.lastExitStatus = 0 then 1 else u.frame.lastExitStatus,
        a.outcome.toList), u.withoutArguments params s) := by
  have honce : (execExecuteStreamOnce fe callees content).run (s.withArguments params) =
      .ok ((if a.status = .error then .error else .ok, a.outcome.toList), u) := by
    unfold execExecuteStreamOnce
    rw [Stateful.run_bind_ok h]
    rfl
  have hstatus : ((if a.status = .error then ExecStatus.error else .ok) = .error ∧
      u.frame.lastExitStatus = 0) ↔ a.status = .error ∧ u.frame.lastExitStatus = 0 := by
    split_ifs with herror <;> simp [herror]
  simp only [builtinDot, List.drop_succ_cons, List.drop_zero]
  rw [Stateful.run_bind_ok (Stateful.run_get_eq s)]
  simp only [hscript]
  by_cases hnil : params = []
  · rw [Shell.withArguments, if_pos hnil] at honce
    simp only [if_pos hnil, if_neg (not_not.mpr hnil), pure_bind]
    rw [Stateful.run_bind_ok honce, Stateful.run_bind_ok (Stateful.run_get_eq u)]
    simp only [hstatus, Shell.withoutArguments, if_pos hnil]
    rfl
  · have hall := frameGetAllPositionalParams_ok (hparams.resolve_left hnil)
    rw [Shell.withArguments, if_neg hnil] at honce
    simp only [if_neg hnil, if_pos hnil]
    rw [Stateful.run_bind_ok hall, Stateful.run_bind_ok (Stateful.run_modify_eq _ s),
      Stateful.run_bind_ok honce, Stateful.run_bind_ok (Stateful.run_get_eq u),
      Stateful.run_bind_ok (Stateful.run_modify_eq _ u)]
    simp only [hstatus, Shell.withoutArguments, if_neg hnil, hparams.resolve_left hnil]
    rfl

/-- What the dot command and the loop make of a file whose first line does not end the shell. -/
theorem sourcesWhole_of_ok (hscript : script filename s = some content)
    (hparams : params = [] ∨ s.positionalArguments = []) {a : StreamAnswer} {u : Shell δ W}
    (hstream : (execFrameStreamCore fe callees {} { content }).run (s.withArguments params) =
      .ok (a, u)) :
    SourcesWhole fe callees script filename params content s ↔
      ∃ result r t,
        (execExecuteStreamRepl fe callees {} content).run (s.withArguments params) =
          .ok ((result, r), t) ∧
        programs r.outcomes = programs a.outcome.toList ∧
        (endsUnfinished r.outcomes = true → u.frame.lastExitStatus ≠ 0 ∨ a.status = .error) := by
  have hdot := builtinDot_ok hscript hparams hstream
  refine Iff.trans ⟨SourcesWhole.effect, SourcesWhole.mk⟩ ?_
  cases hrepl : (execExecuteStreamRepl fe callees {} content).run (s.withArguments params) with
  | error stop =>
    refine iff_of_false ?_ (by simp)
    cases stop with
    | fault cause => exact id
    | exit status world =>
      dsimp only
      rw [hdot]
      simp
  | ok answer =>
    obtain ⟨⟨result, r⟩, t⟩ := answer
    obtain ⟨a', u', others, hfirst, houtcomes, hidle⟩ := replLoop_first hrepl
    cases hstream.symm.trans hfirst
    rw [List.nil_append] at houtcomes
    have hprograms : programs r.outcomes = programs a.outcome.toList ↔ programs others = [] := by
      rw [houtcomes, programs_append, List.append_right_eq_self]
    constructor
    · rintro ⟨status, outcomes, hrun, hsame, hfails, -⟩
      have hanswer := hdot.symm.trans hrun
      simp only [Except.ok.injEq, Prod.mk.injEq] at hanswer
      obtain ⟨⟨rfl, rfl⟩, -⟩ := hanswer
      refine ⟨result, r, t, rfl, hsame.symm, fun hunfinished => ?_⟩
      have hstatus := hfails hunfinished
      by_contra hno
      rw [not_or, not_not] at hno
      rw [if_neg fun h => hno.2 h.1] at hstatus
      exact hstatus hno.1
    · rintro ⟨result', r', t', heq, hsame, hfails⟩
      cases heq
      obtain rfl := hidle (hprograms.mp hsame)
      refine ⟨_, _, hdot, hsame.symm, fun hunfinished => ?_, fun _ hread => ?_⟩
      · obtain hlast | herror := hfails hunfinished
        · rwa [if_neg fun h => hlast h.2]
        · split_ifs with hzero
          · decide
          · exact fun h => hzero ⟨herror, h⟩
      · rw [if_neg]
        rintro ⟨herror, -⟩
        obtain ⟨outcome, hmem, hstatus⟩ := execFrameStreamCore_error hstream herror
        refine hread outcome ?_ hstatus
        rw [houtcomes]
        exact List.mem_append_left _ (Option.mem_toList.mpr hmem)

/-- A file of which the loop executes as many programs as its first line holds. -/
theorem isOneLine_of_length {a : StreamAnswer} {u : Shell δ W} {result : ExecStatus} {r : Reader}
    (hstream : (execFrameStreamCore fe callees {} { content }).run s = .ok (a, u))
    (hrepl : (execExecuteStreamRepl fe callees {} content).run s = .ok ((result, r), t))
    (hlength : (programs a.outcome.toList).length = (programs r.outcomes).length)
    (hunfinished : endsUnfinished r.outcomes = false) : IsOneLine fe callees [] content s := by
  refine ⟨.inl rfl, ?_⟩
  rw [Shell.withArguments, if_pos rfl, hstream]
  refine ⟨result, r, t, hrepl, ?_, fun h => absurd (hunfinished.symm.trans h) (by decide)⟩
  obtain ⟨a', u', others, hstream', houtcomes, -⟩ := replLoop_first hrepl
  cases hstream.symm.trans hstream'
  rw [houtcomes, List.nil_append, programs_append, List.length_append] at hlength
  rw [houtcomes, List.nil_append, programs_append,
    List.eq_nil_of_length_eq_zero (by omega : (programs others).length = 0), List.append_nil]

/-- A file with programs behind its first line. -/
theorem not_sourcesWhole_of_length (hscript : script filename s = some content) {a : StreamAnswer}
    {u : Shell δ W} {result : ExecStatus} {r : Reader}
    (hstream : (execFrameStreamCore fe callees {} { content }).run s = .ok (a, u))
    (hrepl : (execExecuteStreamRepl fe callees {} content).run s = .ok ((result, r), t))
    (hlength : (programs a.outcome.toList).length ≠ (programs r.outcomes).length) :
    ¬ SourcesWhole fe callees script filename [] content s := by
  rw [sourcesWhole_of_ok hscript (.inl rfl) (show _ = Except.ok (a, u) from hstream)]
  rintro ⟨result', r', t', hrepl', hsame, -⟩
  cases hrepl.symm.trans hrepl'
  exact hlength (congrArg List.length hsame.symm)

/-- In the shell that does nothing: how many programs the first line of a file holds, how many the
whole file, and whether the file is unfinished. -/
def idleDot (content : List Char) : Option (ℕ × ℕ × Bool) :=
  match
    (execFrameStreamCore idleFrontEnd (executor (Env.idle Unit Unit) 9) {} { content }).run
      (.initial ()),
    (execExecuteStreamRepl idleFrontEnd (executor (Env.idle Unit Unit) 9) {} content).run
      (.initial ()) with
  | .ok (a, _), .ok ((_, r), _) =>
    some ((programs a.outcome.toList).length, (programs r.outcomes).length,
      endsUnfinished r.outcomes)
  | _, _ => none

theorem idleDot_eq_some (content : List Char) {first all : ℕ} {u : Bool}
    (h : idleDot content = some (first, all, u)) :
    ∃ a s result r t,
      (execFrameStreamCore idleFrontEnd (executor (Env.idle Unit Unit) 9) {} { content }).run
        (.initial ()) = .ok (a, s) ∧
      (execExecuteStreamRepl idleFrontEnd (executor (Env.idle Unit Unit) 9) {} content).run
        (.initial ()) = .ok ((result, r), t) ∧
      (programs a.outcome.toList).length = first ∧ (programs r.outcomes).length = all ∧
      endsUnfinished r.outcomes = u := by
  unfold idleDot at h
  generalize (execFrameStreamCore idleFrontEnd (executor (Env.idle Unit Unit) 9) {}
    { content }).run (.initial ()) = stream at h
  generalize (execExecuteStreamRepl idleFrontEnd (executor (Env.idle Unit Unit) 9) {}
    content).run (.initial ()) = repl at h
  cases stream with
  | error stop => cases h
  | ok answer =>
    cases repl with
    | error stop => cases h
    | ok answer' =>
      cases h
      exact ⟨_, _, _, _, _, rfl, rfl, rfl, rfl, rfl⟩

end Builtin

variable {script : String → Shell δ W → Option (List Char)} {filename : String}
  {params : List String} {content : List Char}

end Migash.Exec
