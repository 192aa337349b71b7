import Migash.Exec.Drivers

/-! # The loop over a stream

The loop looks at the end-of-file flag before it looks at the status of the line it
has read. For a line without a newline the flag is set already, so what is said at the
end is what the line before it has left.
-/

namespace Migash.Exec

open Library Lexer

variable {δ W : Type} (fe : FrontEnd δ W) (callees : Callees δ W)

/-! ## Every line of a stream -/

/-- The pieces of text that a stream is read in. -/
def piecesOf (content : List Char) : List (List Char) :=
  let (lines, last) := Stream.lines (content.length + 1) { content }
  if last = [] then lines else lines ++ [last]

/-- What becomes of pieces of text that are all handed over: the session behind them, the outcomes,
and whether nothing asked for an end before the end. -/
structure Fed where
  session : Session := {}
  outcomes : List Outcome := []
  quiet : Bool := true

/-- A piece of text is handed over. Behind an error the session is reset. -/
def feedPiece (fed : Fed) (piece : List Char) : ExecM δ W Fed := do
  let (outcome, session) ← execFrameStringCore fe callees fed.session piece
  let s ← get
  let failed := decide (outcome.status = .error)
  return {
    session := if failed then session.reset else session
    outcomes := fed.outcomes ++ [outcome]
    quiet := fed.quiet && !s.leaves &&
      !(failed && s.optFlags.errexit && decide (s.lastExitStatus ≠ 0)) }

/-- All pieces are handed over in order. -/
def feed (fed : Fed) : List (List Char) → ExecM δ W Fed
  | [] => return fed
  | piece :: pieces => do
    let fed ← feedPiece fe callees fed piece
    feed fed pieces

/-- More text is needed behind this outcome. -/
def Outcome.unfinished (outcome : Outcome) : Bool :=
  outcome.status = .incomplete || (outcome.status = .empty && outcome.held)

/-- The text ends inside an unfinished construct. -/
def endsUnfinished (outcomes : List Outcome) : Bool :=
  (outcomes.getLast?.map Outcome.unfinished).getD false

/-- The last outcome of a loop is `MIGA_EXEC_STATUS_INCOMPLETE`. -/
def endsIncomplete (outcomes : List Outcome) : Bool :=
  (outcomes.getLast?.map fun outcome => decide (outcome.status = .incomplete)).getD false

/-- The programs that were executed. -/
def programs (outcomes : List Outcome) : List Ast := outcomes.filterMap Outcome.program

variable {fe : FrontEnd δ W} {callees : Callees δ W} {s t : Shell δ W}

theorem feedPiece_quiet {fed fed' : Fed} {piece : List Char}
    (h : (feedPiece fe callees fed piece).run s = .ok (fed', t)) (hquiet : fed'.quiet = true) :
    fed.quiet = true := by
  unfold feedPiece at h
  obtain ⟨⟨outcome, session⟩, u, -, h⟩ := Stateful.run_bind_eq_ok.mp h
  rw [Stateful.run_bind_ok (Stateful.run_get_eq u)] at h
  cases h
  simp only [Bool.and_eq_true] at hquiet
  exact hquiet.1.1

theorem feed_quiet {pieces : List (List Char)} {fed fed' : Fed}
    (h : (feed fe callees fed pieces).run s = .ok (fed', t)) (hquiet : fed'.quiet = true) :
    fed.quiet = true := by
  induction pieces generalizing fed s with
  | nil =>
    cases h
    exact hquiet
  | cons piece pieces ih =>
    obtain ⟨mid, u, hpiece, h⟩ := Stateful.run_bind_eq_ok.mp h
    exact feedPiece_quiet hpiece (ih h)

theorem feed_append {pieces others : List (List Char)} (fed : Fed) :
    feed fe callees fed (pieces ++ others) =
      (do feed fe callees (← feed fe callees fed pieces) others) := by
  induction pieces generalizing fed with
  | nil => rfl
  | cons piece pieces ih =>
    simp only [List.cons_append, feed, bind_assoc, ih]

/-! ## The lines with a newline -/

/-- Behind a line that asks for no end the loop goes on. -/
theorem Reader.dispatch_quiet {status : ExecStatus} (r : Reader) (hleaves : s.leaves = false)
    (hquiet : (decide (status = .error) && s.optFlags.errexit && decide (s.lastExitStatus ≠ 0)) =
      false) :
    r.dispatch false s (streamStatus status) =
      ({ r with
          session := if status = .error then r.session.reset else r.session
          needContinuation := decide (status = .incomplete) }, none) := by
  cases status with
  | error =>
    have hno : ¬ ((!false) = true ∧ s.optFlags.errexit = true ∧ s.lastExitStatus ≠ 0) := by
      rintro ⟨-, herrexit, hlast⟩
      simp [herrexit, hlast] at hquiet
    simp only [streamStatus, Reader.dispatch, if_neg hno, hleaves]
    rfl
  | ok => simp [streamStatus, Reader.dispatch, hleaves]
  | notImpl => simp [streamStatus, Reader.dispatch, hleaves]
  | incomplete => simp [streamStatus, Reader.dispatch]
  | empty => simp [streamStatus, Reader.dispatch, hleaves]
  | exit => simp [streamStatus, Reader.dispatch, hleaves]

/-- The loop in front of the text behind the last newline. -/
theorem replLoop_lines {n : ℕ} {fp : Stream} (hn : fp.content.length < n) {r : Reader} {fed : Fed}
    (hfed : (feed fe callees ⟨r.session, r.outcomes, true⟩ (fp.lines n).1).run s = .ok (fed, t))
    (hquiet : fed.quiet = true) :
    ∃ m fp', (fp'.readLine.2.eof = true ∧ fp'.readLine.1 = (fp.lines n).2) ∧
      (replLoop fe callees n r fp).run s =
        (replLoop fe callees (m + 1)
          { session := fed.session
            needContinuation :=
              if (fp.lines n).1 = [] then r.needContinuation else endsIncomplete fed.outcomes
            outcomes := fed.outcomes } fp').run t := by
  induction n generalizing fp r s with
  | zero => exact (Nat.not_lt_zero _ hn).elim
  | succ n ih =>
    by_cases heof : fp.readLine.2.eof = true
    · have hlines : fp.lines (n + 1) = ([], fp.readLine.1) := by
        simp only [Stream.lines, heof, if_true]
      rw [hlines] at hfed ⊢
      cases hfed
      exact ⟨n, fp, ⟨heof, rfl⟩, rfl⟩
    · obtain ⟨hnewline, hlt⟩ := fp.readLine_spec.resolve_left heof
      have hlines : fp.lines (n + 1) =
          (fp.readLine.1 :: (fp.readLine.2.lines n).1, (fp.readLine.2.lines n).2) := by
        simp only [Stream.lines, heof]
        rfl
      have hne : fp.readLine.1 ≠ [] := by
        intro hnil
        rw [hnil] at hnewline
        cases hnewline
      rw [hlines] at hfed ⊢
      obtain ⟨mid, u, hpiece, hrest⟩ := Stateful.run_bind_eq_ok.mp hfed
      have hmid := feed_quiet hrest hquiet
      unfold feedPiece at hpiece
      obtain ⟨⟨outcome, session⟩, v, hcore, hpiece⟩ := Stateful.run_bind_eq_ok.mp hpiece
      rw [Stateful.run_bind_ok (Stateful.run_get_eq v)] at hpiece
      cases hpiece
      simp only [Bool.true_and, Bool.and_eq_true, Bool.not_eq_true'] at hmid
      obtain ⟨hleaves, hasks⟩ := hmid
      have hstream : (execFrameStreamCore fe callees r.session fp).run s =
          .ok ({ status := streamStatus outcome.status, outcome := some outcome, session,
                 fp := fp.readLine.2 }, u) := by
        unfold execFrameStreamCore
        simp only [if_neg hne]
        rw [Stateful.run_bind_ok hcore]
        rfl
      let next : Reader :=
        { session := if outcome.status = .error then session.reset else session
          needContinuation := decide (outcome.status = .incomplete)
          outcomes := r.outcomes ++ [outcome] }
      have hturn : (replLoop fe callees (n + 1) r fp).run s =
          (replLoop fe callees n next fp.readLine.2).run u := by
        rw [replLoop, Stateful.run_bind_ok hstream]
        simp only [heof]
        rw [if_neg (by decide), Stateful.run_bind_ok (Stateful.run_get_eq u),
          Reader.dispatch_quiet _ hleaves hasks]
        rfl
      simp only [hleaves, hasks, decide_eq_true_eq] at hrest
      have hshort : fp.readLine.2.content.length < n := by omega
      obtain ⟨m, fp', hend, hrun⟩ := ih hshort (r := next) hrest
      refine ⟨m, fp', hend, hturn.trans (hrun.trans ?_)⟩
      by_cases hnil : (fp.readLine.2.lines n).1 = []
      · rw [hnil] at hrest
        cases hrest
        rw [if_pos hnil, if_neg (List.cons_ne_nil _ _)]
        simp [endsIncomplete, next]
      · rw [if_neg hnil, if_neg (List.cons_ne_nil _ _)]

/-! ## The end of the stream -/

/-- The last turn hands over what is left, and answers with what it knew before. -/
theorem replLoop_end {fp : Stream} (heof : fp.readLine.2.eof = true) {r : Reader} {fed : Fed}
    (hfed : (feed fe callees ⟨r.session, r.outcomes, true⟩
      (if fp.readLine.1 = [] then [] else [fp.readLine.1])).run s = .ok (fed, t)) (m : ℕ) :
    ∃ session, (replLoop fe callees (m + 1) r fp).run s =
      .ok ((if r.needContinuation then .error else .ok,
        { r with session, outcomes := fed.outcomes }), t) := by
  by_cases hnil : fp.readLine.1 = []
  · rw [if_pos hnil] at hfed
    cases hfed
    refine ⟨r.session, ?_⟩
    have hstream : (execFrameStreamCore fe callees r.session fp).run s =
        .ok ({ status := .ok, outcome := none, session := r.session, fp := fp.readLine.2 }, s) := by
      unfold execFrameStreamCore
      simp only [if_pos hnil]
      rfl
    rw [replLoop, Stateful.run_bind_ok hstream]
    simp only [heof, if_true, Option.toList_none, List.append_nil]
    rfl
  · rw [if_neg hnil] at hfed
    obtain ⟨mid, u, hpiece, hrest⟩ := Stateful.run_bind_eq_ok.mp hfed
    cases hrest
    unfold feedPiece at hpiece
    obtain ⟨⟨outcome, session⟩, v, hcore, hpiece⟩ := Stateful.run_bind_eq_ok.mp hpiece
    rw [Stateful.run_bind_ok (Stateful.run_get_eq v)] at hpiece
    cases hpiece
    refine ⟨session, ?_⟩
    have hstream : (execFrameStreamCore fe callees r.session fp).run s =
        .ok ({ status := streamStatus outcome.status, outcome := some outcome, session,
               fp := fp.readLine.2 }, t) := by
      unfold execFrameStreamCore
      simp only [if_neg hnil]
      rw [Stateful.run_bind_ok hcore]
      rfl
    rw [replLoop, Stateful.run_bind_ok hstream]
    simp only [heof, if_true, Option.toList_some]
    rfl

/-! ## Unfinished constructs -/

/-- The text behind the last newline of a content. -/
def lastPiece (content : List Char) : List Char :=
  (Stream.lines (content.length + 1) { content }).2

/-- The loop executes what all pieces of a content give, and fails exactly if the content ends
inside an unfinished construct. -/
def ReadsWhole (fe : FrontEnd δ W) (callees : Callees δ W) (session : Session) (content : List Char)
    (s : Shell δ W) : Prop :=
  ∃ fed t result r, (feed fe callees { session } (piecesOf content)).run s = .ok (fed, t) ∧
    (execExecuteStreamRepl fe callees session content).run s = .ok ((result, r), t) ∧
    r.outcomes = fed.outcomes ∧ (result = .error ↔ endsUnfinished fed.outcomes = true)

/-- Whether a content is unfinished is known before its end is met. A content that ends with a
newline is unfinished if its last line is `MIGA_EXEC_STATUS_INCOMPLETE`, unless that line is empty
and leaves tokens behind; the text behind the last newline is to change nothing about it. -/
def KnownBeforeEnd (content : List Char) (outcomes : List Outcome) : Prop :=
  if lastPiece content = [] then
    ∀ outcome ∈ outcomes.getLast?, ¬ (outcome.status = .empty ∧ outcome.held = true)
  else endsIncomplete outcomes.dropLast = endsUnfinished outcomes

theorem endsUnfinished_eq (outcomes : List Outcome) :
    endsIncomplete outcomes = endsUnfinished outcomes ↔
      ∀ outcome ∈ outcomes.getLast?, ¬ (outcome.status = .empty ∧ outcome.held = true) := by
  unfold endsIncomplete endsUnfinished
  cases outcomes.getLast? with
  | none => simp
  | some outcome =>
    simp only [Option.map_some, Option.getD_some, Outcome.unfinished, Option.mem_some_iff,
      forall_eq']
    cases outcome.status <;> cases outcome.held <;> decide

theorem length_feed {pieces : List (List Char)} {fed fed' : Fed}
    (h : (feed fe callees fed pieces).run s = .ok (fed', t)) :
    ∃ outcomes, outcomes.length = pieces.length ∧ fed'.outcomes = fed.outcomes ++ outcomes := by
  induction pieces generalizing fed s with
  | nil =>
    cases h
    exact ⟨[], rfl, by simp⟩
  | cons piece pieces ih =>
    obtain ⟨mid, u, hpiece, hrest⟩ := Stateful.run_bind_eq_ok.mp h
    unfold feedPiece at hpiece
    obtain ⟨⟨outcome, session⟩, v, -, hpiece⟩ := Stateful.run_bind_eq_ok.mp hpiece
    rw [Stateful.run_bind_ok (Stateful.run_get_eq v)] at hpiece
    cases hpiece
    obtain ⟨outcomes, hlength, heq⟩ := ih hrest
    refine ⟨outcome :: outcomes, by simp [hlength], ?_⟩
    rw [heq, List.append_assoc, List.singleton_append]

/-- What the loop over a whole content ends with. -/
theorem execExecuteStreamRepl_eq {session : Session} {content : List Char} {fed : Fed}
    (hfed : (feed fe callees { session } (piecesOf content)).run s = .ok (fed, t))
    (hquiet : fed.quiet = true) :
    ∃ r, (execExecuteStreamRepl fe callees session content).run s =
        .ok ((if endsIncomplete
            (if lastPiece content = [] then fed.outcomes else fed.outcomes.dropLast) then .error
          else .ok, r), t) ∧ r.outcomes = fed.outcomes := by
  have hpieces : piecesOf content =
      (Stream.lines (content.length + 1) { content }).1 ++
        (if lastPiece content = [] then [] else [lastPiece content]) := by
    unfold piecesOf lastPiece
    split_ifs <;> simp [*]
  rw [hpieces, feed_append] at hfed
  obtain ⟨mid, u, hlines, hrest⟩ := Stateful.run_bind_eq_ok.mp hfed
  have hmid : mid = ⟨mid.session, mid.outcomes, true⟩ := by
    rw [← feed_quiet hrest hquiet]
  obtain ⟨m, fp, ⟨heof, hlast⟩, hrun⟩ := replLoop_lines (Nat.lt_succ_self _) (r := { session })
    hlines (feed_quiet hrest hquiet)
  have hline : fp.readLine.1 = lastPiece content := hlast
  rw [hmid, ← hline] at hrest
  obtain ⟨left, hend⟩ := replLoop_end heof (r := ⟨mid.session, _, mid.outcomes⟩) hrest m
  have hstart : mid.outcomes.length = (Stream.lines (content.length + 1) { content }).1.length := by
    obtain ⟨outcomes, hlength, heq⟩ := length_feed hlines
    rw [heq, List.nil_append, hlength]
  have hneed : (if (Stream.lines (content.length + 1) { content }).1 = [] then false
      else endsIncomplete mid.outcomes) = endsIncomplete mid.outcomes := by
    split_ifs with hnil
    · rw [hnil, List.length_nil, List.length_eq_zero_iff] at hstart
      rw [hstart]
      rfl
    · rfl
  have hbefore : (if lastPiece content = [] then fed.outcomes else fed.outcomes.dropLast) =
      mid.outcomes := by
    obtain ⟨outcomes, hlength, heq⟩ := length_feed hrest
    rw [hline] at hlength
    split_ifs at hlength ⊢ with hnil
    · rw [heq, List.eq_nil_of_length_eq_zero hlength, List.append_nil]
    · obtain ⟨outcome, rfl⟩ := List.length_eq_one_iff.mp hlength
      rw [heq, List.dropLast_concat]
  rw [hbefore, ← hneed]
  exact ⟨_, hrun.trans hend, rfl⟩

/-! ## A shell that does nothing -/

/-- What can be said of the pieces of a content in that shell, if nothing stops it: whether the last
one is incomplete, whether the content is unfinished, and whether nothing asked for an end. -/
def idleFeed (content : List Char) : Option (Bool × Bool × Bool) :=
  match (feed idleFrontEnd (executor (Env.idle Unit Unit) 9) {} (piecesOf content)).run (.initial ())
  with
  | .ok (fed, _) => some (endsIncomplete fed.outcomes, endsUnfinished fed.outcomes, fed.quiet)
  | .error _ => none

/-- What the loop over a content answers in that shell. -/
def idleRepl (content : List Char) : Option ExecStatus :=
  match (execExecuteStreamRepl idleFrontEnd (executor (Env.idle Unit Unit) 9) {} content).run
    (.initial ()) with
  | .ok ((result, _), _) => some result
  | .error _ => none

theorem idleFeed_eq_some (content : List Char) {i u q : Bool}
    (h : idleFeed content = some (i, u, q)) :
    ∃ fed t, (feed idleFrontEnd (executor (Env.idle Unit Unit) 9) {} (piecesOf content)).run
        (.initial ()) = .ok (fed, t) ∧
      endsIncomplete fed.outcomes = i ∧ endsUnfinished fed.outcomes = u ∧ fed.quiet = q := by
  unfold idleFeed at h
  generalize (feed idleFrontEnd (executor (Env.idle Unit Unit) 9) {} (piecesOf content)).run
    (.initial ()) = run at h
  cases run with
  | error e => cases h
  | ok answer =>
    cases h
    exact ⟨_, _, rfl, rfl, rfl, rfl⟩

theorem idleRepl_eq_some {content : List Char} {status result : ExecStatus} {r : Reader}
    {t : Shell Unit Unit} (h : idleRepl content = some status)
    (hrun : (execExecuteStreamRepl idleFrontEnd (executor (Env.idle Unit Unit) 9) {} content).run
      (.initial ()) = .ok ((result, r), t)) : result = status := by
  unfold idleRepl at h
  rw [hrun] at h
  cases h
  rfl

/-! ## The end of a content -/

end Migash.Exec
