import Migash.Exec.FrameFds
import Migash.Exec.Stores

/-! # Running commands

Every function of the executor changes the stores that are set aside by the
assignments it records. A simple command sets the store of its frame aside, so
that none may be set aside there when it starts.
-/

namespace Migash.Exec

open Library Redirect

variable {δ W : Type}

/-- Where no command is running in the frame, the stores that are set aside are tracked. -/
structure Between (s t : Shell δ W) : Prop where
  tracks : s.frame.savedVariables = none → Tracks s t

theorem Tracks.frame_eq_none {s t : Shell δ W} (h : Tracks s t)
    (hs : s.frame.savedVariables = none) : t.frame.savedVariables = none := by
  have hshape : t.frame.savedVariables.isSome = s.frame.savedVariables.isSome :=
    (List.cons.inj h.shape).1
  rw [hs] at hshape
  simpa using hshape

instance : Std.Refl (@Between δ W) := ⟨fun s => ⟨fun _ => Tracks.refl s⟩⟩

instance : IsTrans (Shell δ W) Between :=
  ⟨fun _ _ _ h h' =>
    ⟨fun hs => (h.tracks hs).trans (h'.tracks ((h.tracks hs).frame_eq_none hs))⟩⟩

theorem Tracks.between {s t : Shell δ W} (h : Tracks s t) : Between s t := ⟨fun _ => h⟩

section

variable {α : Type} {m : ExecM δ W α}

theorem keepsAll_tracks (h : Keeps TracksAll m) : Keeps Tracks m :=
  h.mono fun _ _ hst => hst.tracks

theorem keeps_between (h : Keeps Tracks m) : Keeps Between m := h.mono fun _ _ hst => hst.between

theorem keepsAll_between (h : Keeps TracksAll m) : Keeps Between m :=
  keeps_between (keepsAll_tracks h)

end

/-! ## Single steps -/

/-- A change of the state that no store and no record depends on. -/
theorem tracksAll_modify {g : Shell δ W → Shell δ W} (hframes : ∀ s, SameFrames s (g s))
    (hvariables : ∀ s, (g s).variables_ = s.variables_)
    (hhistory : ∀ s, (g s).history = s.history) :
    Keeps TracksAll (modify g : ExecM δ W PUnit) :=
  .of_modify fun s => (hframes s).tracksAll_of_history (hvariables s) (hhistory s)

theorem tracksAll_emitEvent {e : Event} (h : ∀ d a, e ≠ .assigned d a) :
    Keeps TracksAll (emit e : ExecM δ W Unit) := by
  refine .of_modify fun s => tracksAll_emit ?_
  intro d a hmem
  exact absurd (List.mem_singleton.mp hmem).symm (h (some d) a)

theorem tracksAll_setError (text : String) :
    Keeps TracksAll (setError text : ExecM δ W Unit) :=
  tracksAll_modify (fun _ => ⟨rfl, rfl⟩) (fun _ => rfl) fun _ => rfl

theorem tracksAll_setLastExitStatus (status : ℤ) :
    Keeps TracksAll (setLastExitStatus status : ExecM δ W Unit) :=
  tracksAll_modify (fun _ => ⟨rfl, rfl⟩) (fun _ => rfl) fun _ => rfl

theorem tracksAll_expectsNotNull {α : Type} (what : String) (a : Option α) :
    Keeps TracksAll (expectsNotNull what a : ExecM δ W α) := by
  cases a with
  | none => exact .of_throw _
  | some a => exact .of_pure a

theorem tracksAll_expand {α : Type} (f : Shell δ W → Expansion W α) :
    Keeps TracksAll (expand f) := by
  constructor
  intro s
  exact .get_bind (.set_bind (.of_pure (tracksAll_expanded s (f s))))

theorem tracksAll_syscall {α : Type} (f : W → α × W) :
    Keeps TracksAll (syscall f : ExecM δ W α) := by
  constructor
  intro s
  exact .get_bind (.set_bind (.of_pure (SameFrames.tracksAll_of_history ⟨rfl, rfl⟩ rfl rfl)))

theorem tracksAll_fork (env : Env δ W) (prepare : Shell δ W → Shell δ W) (m : ExecM δ W ℤ) :
    Keeps TracksAll (fork env prepare m) := by
  unfold fork
  exact Keeps.of_get.bind fun s => tracksAll_syscall _

theorem redirect_keepsRest (env : Env δ W) : env.redirect.KeepsRest TracksAll where
  refl := TracksAll.refl
  trans := TracksAll.trans
  expandRedirectionTarget _ s := tracksAll_expanded s _
  expandHeredoc _ s := tracksAll_expanded s _
  openFile _ _ _ := SameFrames.tracksAll_of_history ⟨rfl, rfl⟩ rfl rfl
  mkstemp _ := SameFrames.tracksAll_of_history ⟨rfl, rfl⟩ rfl rfl
  pipe _ := SameFrames.tracksAll_of_history ⟨rfl, rfl⟩ rfl rfl
  write _ _ _ := SameFrames.tracksAll_of_history ⟨rfl, rfl⟩ rfl rfl
  setError _ _ := SameFrames.tracksAll_of_history ⟨rfl, rfl⟩ rfl rfl

theorem tracksAll_applyRedirections (env : Env δ W) (redirs : List ExecRedirection) :
    Keeps TracksAll (execRedirectApplyRedirectons env redirs) := by
  constructor
  intro s
  refine .get_bind (.set_bind (.of_pure ?_))
  have hrest := execApplyRedirectionsPosix_rest (redirect_keepsRest env) s.toFdState redirs
  exact hrest.trans (SameFrames.tracksAll_of_history ⟨rfl, rfl⟩ rfl rfl)

theorem tracksAll_restoreRedirections :
    Keeps TracksAll (execRedirectRestoreRedirections : ExecM δ W Unit) := by
  refine .of_modify fun s => ?_
  have hrest : (execRestoreRedirectionsPosix s.toFdState).rest = s :=
    execRestoreRedirectionsPosix_rest s.toFdState
  refine SameFrames.tracksAll_of_history ⟨?_, ?_⟩ ?_ ?_ <;> simp [Shell.ofFdState, hrest]

/-! ## Frames -/

/-- What the rest of the program does to the stores: a builtin changes those that are set aside as
it records, and so does an EXIT trap, which runs where no command is running. -/
structure Env.RecordsStores (env : Env δ W) : Prop where
  builtin : ∀ name category run, env.builtin name = some (category, run) →
    ∀ words, Keeps Tracks (run words)
  exitTrap : Keeps Between env.runExitTrap

/-- The functions of the executor that call each other. -/
structure Callees.RecordStores (callees : Callees δ W) : Prop where
  dispatch : ∀ node, Keeps Between (callees.dispatch node)
  compoundList : ∀ node, Keeps Between (callees.compoundList node)
  andOrList : ∀ node, Keeps Between (callees.andOrList node)

/-- The state in a new frame. -/
structure Entered (s t : Shell δ W) : Prop where
  frame : t.frame.savedVariables = none
  callers : t.callers = s.frame :: s.callers
  history : t.history = s.history

theorem execFramePush_entered (type : FrameType) (params : ExecParams) (s : Shell δ W) :
    Ensures (execFramePush type params) s fun _ t => Entered s t := by
  apply Ensures.get_bind
  apply ((keeps_initPositionalParams _ params s.frame).ensures s).bind
  rintro ⟨positionalParams, savedPositionalParams⟩ t rfl
  exact .of_ok (Stateful.run_modify_eq _ s) ⟨rfl, rfl, rfl⟩

theorem Entered.aside {s t : Shell δ W} (h : Entered s t) : t.aside = s.aside := by
  simp [Shell.aside, h.frame, h.callers]

theorem Entered.shape {s t : Shell δ W} (h : Entered s t) : t.shape = false :: s.shape := by
  simp [Shell.shape, h.frame, h.callers]

/-- A frame that is left as it was entered. -/
theorem Entered.tracks_pop {s t u : Shell δ W} (h : Entered s t) (htu : Tracks t u) :
    Tracks s u.pop := by
  have hframe := htu.frame_eq_none h.frame
  have hshape : (u.callers.map fun f => f.savedVariables.isSome) = s.shape :=
    (List.cons.inj (htu.shape.trans h.shape)).2
  obtain ⟨new, hnew, haside⟩ := htu.history
  rw [h.aside] at haside
  have hasides : u.aside = (u.callers.filterMap Frame.savedVariables).reverse := by
    simp [Shell.aside, hframe]
  unfold Shell.pop
  split
  · next hnil =>
    rw [hnil] at hshape
    cases hshape
  · next p cs hcallers =>
    rw [hcallers] at hshape hasides
    refine ⟨hshape, new, ?_, ?_⟩
    · rw [← h.history]
      exact hnew
    · rw [← haside, hasides]
      rfl

section

variable {env : Env δ W} {callees : Callees δ W}

theorem between_execFramePop (henv : env.RecordsStores) (type : FrameType) :
    Keeps Between (runExitTrap env type) := by
  unfold runExitTrap
  split
  · exact henv.exitTrap
  · exact .of_pure _

/-- A frame around a body that keeps the stores of its own. -/
theorem tracks_runFrame (henv : env.RecordsStores) {type : FrameType} {params : ExecParams}
    (hbody : Keeps Between (executeFrameBody env callees type params)) :
    Keeps Tracks (runFrame env callees type params) := by
  constructor
  intro s
  refine (execFramePush_entered type params s).bind fun _ t hentered => ?_
  refine (hbody.ensures t).bind fun result u htu => ?_
  have htu' := htu.tracks hentered.frame
  refine ((tracksAll_setLastExitStatus _).ensures u).bind fun _ v huv => ?_
  have htv := htu'.trans huv.tracks
  unfold execFramePop
  rw [bind_assoc]
  refine ((between_execFramePop henv type).ensures v).bind fun _ w hvw => ?_
  have htw := htv.trans (hvw.tracks (htv.frame_eq_none hentered.frame))
  exact .modify_bind (.of_pure (hentered.tracks_pop htw))

theorem tracks_forkFrame (type : FrameType) (params : ExecParams) :
    Keeps Tracks (forkFrame env callees type params) := by
  unfold forkFrame
  refine (keepsAll_tracks (tracksAll_fork env _ _)).bind fun r => ?_
  cases r with
  | error e => exact .of_pure _
  | ok pid =>
    dsimp only
    split
    · refine (keepsAll_tracks (tracksAll_expectsNotNull _ _)).bind fun node => ?_
      refine Keeps.bind (.of_modify fun s => ?_) fun _ => .of_pure _
      refine SameFrames.tracks ⟨rfl, rfl⟩ [.launched node] rfl ?_
      intro d a hmem
      cases List.mem_singleton.mp hmem
    · refine (keepsAll_tracks (tracksAll_syscall _)).bind fun r => ?_
      split
      · exact .of_throw _
      · exact .of_pure _
      · exact .of_pure _

theorem tracks_execInFrame (henv : env.RecordsStores) {type : FrameType} {params : ExecParams}
    (hbody : Keeps Between (executeFrameBody env callees type params)) :
    Keeps Tracks (execInFrame env callees type params) := by
  unfold execInFrame
  split
  · exact tracks_forkFrame type params
  · exact tracks_runFrame henv hbody

/-! ### Loops -/

variable (hcallees : callees.RecordStores)
include hcallees

theorem between_iterationBody (body : Ast) : Keeps Between (iterationBody callees body) := by
  unfold iterationBody
  split
  · exact hcallees.compoundList _
  · exact hcallees.dispatch _

theorem between_iterationTurns (var : String) (body : Ast) (words : List String)
    (result : ExecuteResult) : Keeps Between (iterationTurns callees var body words result) := by
  induction words generalizing result with
  | nil => exact .of_pure result
  | cons word words ih =>
    refine (keepsAll_between (tracksAll_emitEvent (by simp))).bind fun _ => ?_
    refine (keepsAll_between (.of_modify fun s => tracksAll_assign s _)).bind fun _ => ?_
    refine (between_iterationBody hcallees body).bind fun bodyResult => ?_
    split
    · exact .of_pure _
    · exact ih _

theorem between_iterationLoop (params : ExecParams) :
    Keeps Between (execFrameExecuteIterationLoop callees params) := by
  unfold execFrameExecuteIterationLoop
  refine (keepsAll_between (tracksAll_expectsNotNull _ _)).bind fun var => ?_
  refine (keepsAll_between (tracksAll_expectsNotNull _ _)).bind fun words => ?_
  refine (keepsAll_between (tracksAll_expectsNotNull _ _)).bind fun body => ?_
  exact between_iterationTurns hcallees var body words _

theorem between_conditionTurns (params : ExecParams) (condition body : Ast) (n : ℕ)
    (result : ExecuteResult) :
    Keeps Between (conditionTurns callees params condition body n result) := by
  induction n generalizing result with
  | zero => exact .of_throw _
  | succ n ih =>
    refine (keepsAll_between (tracksAll_emitEvent (by simp))).bind fun _ => ?_
    refine (hcallees.dispatch condition).bind fun cond => ?_
    split
    · exact .of_pure _
    · split
      · exact .of_pure _
      · refine (keepsAll_between (tracksAll_emitEvent (by simp))).bind fun _ => ?_
        have hbody : Keeps Between (conditionBody callees params body) := by
          unfold conditionBody
          split
          · exact between_iterationLoop hcallees params
          · exact hcallees.dispatch _
        refine hbody.bind fun bodyResult => ?_
        split
        · exact .of_pure _
        · exact ih _

theorem between_conditionLoop (params : ExecParams) :
    Keeps Between (execFrameExecuteConditionLoop callees params) := by
  unfold execFrameExecuteConditionLoop
  refine (keepsAll_between (tracksAll_expectsNotNull _ _)).bind fun condition => ?_
  refine (keepsAll_between (tracksAll_expectsNotNull _ _)).bind fun body => ?_
  exact between_conditionTurns hcallees params condition body _ _

/-! ### Pipelines -/

omit hcallees in
theorem tracksAll_createPipes (n : ℕ) (pipes : Pipes) :
    Keeps TracksAll (createPipes env n pipes) := by
  induction n generalizing pipes with
  | zero => exact .of_pure _
  | succ n ih =>
    refine (tracksAll_syscall _).bind fun r => ?_
    cases r with
    | error e => exact (tracksAll_setError _).bind fun _ => .of_pure _
    | ok ends =>
      constructor
      intro s
      refine .get_bind (.set_bind ?_)
      refine ((ih _).ensures _).mono fun _ t ht => TracksAll.trans ?_ ht
      exact SameFrames.tracksAll_of_history ⟨rfl, rfl⟩ rfl rfl

omit hcallees in
theorem tracksAll_closeFds (fds : List ℕ) :
    Keeps TracksAll (modify (Shell.closeFds fds) : ExecM δ W PUnit) :=
  tracksAll_modify (fun _ => ⟨rfl, rfl⟩) (fun _ => rfl) fun _ => rfl

omit hcallees in
theorem tracksAll_forkCommands (isNegated : Bool) (cmds : List Ast) (i : ℕ) (pipes : Pipes)
    (pids : List ℤ) : Keeps TracksAll (forkCommands env callees isNegated cmds i pipes pids) := by
  induction cmds generalizing i pipes pids with
  | nil => exact .of_pure _
  | cons cmd cmds ih =>
    refine (tracksAll_fork env _ _).bind fun r => ?_
    cases r with
    | error e =>
      refine (tracksAll_setError _).bind fun _ => ?_
      refine Keeps.bind (.forIn fun pid _ => (tracksAll_syscall _).bind fun _ => .of_pure _) fun _ => ?_
      refine Keeps.bind (.forIn fun pid _ => ?_) fun _ => .of_pure _
      exact ((tracksAll_syscall _).map).bind fun _ => .of_pure _
    | ok pid =>
      have hclose : Keeps TracksAll (closeUsedPipes pipes i : ExecM δ W Pipes) :=
        (tracksAll_closeFds _).bind fun _ => .of_pure _
      exact hclose.bind fun pipes => ih _ _ _

omit hcallees in
theorem tracksAll_waitAll (pids : List ℤ) (last : ℤ) : Keeps TracksAll (waitAll env pids last) := by
  induction pids generalizing last with
  | nil => exact .of_pure _
  | cons pid pids ih =>
    refine (tracksAll_syscall _).bind fun r => ?_
    split
    · exact ih _
    · exact (tracksAll_setError _).bind fun _ => ih _
    · exact ih _

omit hcallees in
theorem tracksAll_orchestrateMany (commands : List Ast) (isNegated : Bool) :
    Keeps TracksAll (orchestrateMany env callees commands isNegated) := by
  unfold orchestrateMany
  refine (tracksAll_createPipes _ _).bind fun created => ?_
  dsimp only
  split
  · refine (tracksAll_forkCommands _ _ _ _ _).bind fun forked => ?_
    refine (tracksAll_closeFds _).bind fun _ => ?_
    split
    · refine (tracksAll_waitAll _ _).bind fun last => ?_
      exact (tracksAll_setLastExitStatus _).bind fun _ => .of_pure _
    · exact .of_pure _
  · exact (tracksAll_closeFds _).bind fun _ => .of_pure _

theorem between_orchestrate (params : ExecParams) :
    Keeps Between (execFrameExecutePipelineOrchestrate env callees params) := by
  unfold execFrameExecutePipelineOrchestrate
  refine (keepsAll_between (tracksAll_expectsNotNull _ _)).bind fun commands => ?_
  dsimp only
  split
  · exact .of_pure _
  · refine (hcallees.dispatch _).bind fun result => ?_
    split
    · exact .of_pure _
    · exact .of_pure _
  · exact keepsAll_between (tracksAll_orchestrateMany _ _)

/-! ### The frame body -/

theorem between_frameWork (type : FrameType) (params : ExecParams) :
    Keeps Between (executeFrameWork env callees type params) := by
  unfold executeFrameWork
  split
  · have hemit : Keeps TracksAll (emitBody type : ExecM δ W Unit) := by
      unfold emitBody
      split
      · exact tracksAll_emitEvent (by simp)
      · exact .of_pure _
    exact (keepsAll_between hemit).bind fun _ => hcallees.dispatch _
  · split
    · exact between_conditionLoop hcallees params
    · split
      · exact between_iterationLoop hcallees params
      · split
        · exact between_orchestrate hcallees params
        · exact .of_pure _

omit hcallees in
theorem tracksAll_setupPipeFds (params : ExecParams) :
    Keeps TracksAll (setupPipeFds params : ExecM δ W Unit) := by
  have hone (source : Int) (target : ℕ) :
      Keeps TracksAll (setupPipeFd source target : ExecM δ W Unit) := by
    refine .of_modify fun s => ?_
    split
    · exact SameFrames.tracksAll_of_history ⟨rfl, rfl⟩ rfl rfl
    · exact TracksAll.refl s
  unfold setupPipeFds
  refine (hone _ _).bind fun _ => (hone _ _).bind fun _ => ?_
  exact tracksAll_modify (fun _ => ⟨rfl, rfl⟩) (fun _ => rfl) fun _ => rfl

theorem between_frameBody (type : FrameType) (params : ExecParams) :
    Keeps Between (executeFrameBody env callees type params) := by
  have happly : Keeps TracksAll (applyFrameRedirections env params.redirections) := by
    unfold applyFrameRedirections
    split
    · exact tracksAll_applyRedirections env _
    · exact .of_pure _
  have hrestore : Keeps TracksAll
      (restoreFrameRedirections params.redirections : ExecM δ W Unit) := by
    unfold restoreFrameRedirections
    split
    · exact tracksAll_restoreRedirections
    · exact .of_pure _
  unfold executeFrameBody
  refine (keepsAll_between happly).bind fun applied => ?_
  split
  · refine (keepsAll_between (tracksAll_setupPipeFds params)).bind fun _ => ?_
    refine (between_frameWork hcallees type params).bind fun result => ?_
    exact (keepsAll_between hrestore).bind fun _ => .of_pure _
  · exact .of_pure _

variable (henv : env.RecordsStores)
include henv

/-- Every frame leaves the stores that are set aside as its commands recorded. -/
theorem tracks_inFrame (type : FrameType) (params : ExecParams) :
    Keeps Tracks (execInFrame env callees type params) :=
  tracks_execInFrame henv (between_frameBody hcallees type params)

/-! ## Simple commands -/

omit hcallees henv in
theorem tracksAll_overlayAssignments (hasWords : Bool) (toks : List Token) (temp : VariableStore) :
    Keeps TracksAll (overlayAssignments env hasWords toks temp) := by
  induction toks generalizing temp with
  | nil => exact .of_pure temp
  | cons tok toks ih =>
    refine (tracksAll_expand _).bind fun value => ?_
    refine (tracksAll_expectsNotNull _ _).bind fun name => ?_
    split
    · exact ih _
    · refine Keeps.bind (.of_modify fun s => tracksAll_emit ?_) fun _ => ih _
      intro d a hmem
      cases List.mem_singleton.mp hmem
      exact le_refl _

omit hcallees henv in
theorem tracksAll_buildTempStore (hasWords : Bool) (assignments : List Token) :
    Keeps TracksAll (buildTempStoreForSipleCommand env hasWords assignments) :=
  Keeps.of_get.bind fun _ => tracksAll_overlayAssignments hasWords assignments _

omit hcallees henv in
theorem tracksAll_assignmentOnly (toks : List Token) : Keeps TracksAll (assignmentOnly env toks) := by
  induction toks with
  | nil => exact (tracksAll_setLastExitStatus _).bind fun _ => .of_pure _
  | cons tok toks ih =>
    refine (tracksAll_expand _).bind fun value => ?_
    cases value with
    | none => exact (tracksAll_setError _).bind fun _ => .of_pure _
    | some value =>
      refine (tracksAll_expectsNotNull _ _).bind fun name => ?_
      constructor
      intro s
      apply Ensures.get_bind
      split
      · exact ((tracksAll_setError _).bind fun _ => Keeps.of_pure _).ensures s
      · refine .set_bind ?_
        exact (ih.ensures _).mono fun _ t ht => (tracksAll_assign s _).trans ht

omit hcallees henv in
/-- The prefix assignments of a special builtin, while a store is set aside. -/
theorem applyPrefixAssignments_tracks (toks : List Token) (s : Shell δ W)
    (hs : s.frame.savedVariables.isSome) :
    Ensures (applyPrefixAssignments env toks) s fun _ t => Tracks s t := by
  induction toks generalizing s with
  | nil => exact .of_pure (Tracks.refl s)
  | cons tok toks ih =>
    refine ((tracksAll_expand _).ensures s).bind fun value t hst => ?_
    refine ((tracksAll_expectsNotNull _ _).ensures t).bind fun name u htu => ?_
    have hsu : Tracks s u := (hst.trans htu).tracks
    have hu : u.frame.savedVariables.isSome := by
      have hshape : u.frame.savedVariables.isSome = s.frame.savedVariables.isSome :=
        (List.cons.inj hsu.shape).1
      rwa [hshape]
    obtain ⟨v, hv⟩ := Option.isSome_iff_exists.mp hu
    apply Ensures.get_bind
    split
    · exact (((tracksAll_setError _).bind fun _ => Keeps.of_pure _).ensures u).mono
        fun _ _ h => hsu.trans h.tracks
    · next temp _ =>
      have hassign := tracks_assignPrefix hv { name, value } temp
      refine .set_bind ((ih _ ?_).mono fun _ _ h => (hsu.trans hassign).trans h)
      simp [Shell.assignPrefix, hv]

theorem tracks_functionBody (f : StoredFunction) (arguments : List String) :
    Keeps Tracks (execFrameExecuteFunctionBody env callees f arguments) := by
  unfold execFrameExecuteFunctionBody
  refine (keepsAll_tracks (tracksAll_emitEvent (by simp))).bind fun _ => ?_
  refine (tracks_inFrame hcallees henv _ _).bind fun result => ?_
  exact (keepsAll_tracks (tracksAll_emitEvent (by simp))).bind fun _ => .of_pure _

omit hcallees henv in
theorem tracks_withRedirections (redirs : List ExecRedirection) {m : ExecM δ W ℤ}
    (hm : Keeps Tracks m) : Keeps Tracks (withRedirections env redirs m) := by
  unfold withRedirections
  refine (keepsAll_tracks (tracksAll_applyRedirections env redirs)).bind fun applied => ?_
  split
  · refine hm.bind fun status => ?_
    exact (keepsAll_tracks tracksAll_restoreRedirections).bind fun _ => .of_pure _
  · exact .of_pure _

omit hcallees henv in
theorem tracksAll_runExternal (cmdName : String) (words : List String)
    (redirs : List ExecRedirection) : Keeps TracksAll (runExternal env cmdName words redirs) := by
  have hstatus (store : VariableStore) : Keeps TracksAll (externalStatus env store words redirs) := by
    unfold externalStatus
    refine (tracksAll_fork env _ _).bind fun r => ?_
    cases r with
    | error e => exact (tracksAll_setError _).bind fun _ => .of_pure _
    | ok pid =>
      refine (tracksAll_syscall _).bind fun r => ?_
      cases r <;> exact .of_pure _
  unfold runExternal
  split
  · exact (tracksAll_setError _).bind fun _ => .of_pure _
  · refine Keeps.of_get.bind fun s => (hstatus _).bind fun status => ?_
    refine Keeps.bind (.of_modify fun t => ?_) fun _ => .of_pure _
    split
    · exact SameFrames.tracksAll_of_history ⟨rfl, rfl⟩ rfl rfl
    · exact TracksAll.refl t

theorem tracks_runNamed (cmdName : String) (words : List String) (redirs : List ExecRedirection) :
    Keeps Tracks (runNamed env callees cmdName words redirs) := by
  unfold runNamed
  refine Keeps.of_get.bind fun s => ?_
  split
  · exact tracks_withRedirections redirs (tracks_functionBody hcallees henv _ _).map
  · split
    · next category run hbuiltin =>
      exact tracks_withRedirections redirs (henv.builtin cmdName category run hbuiltin words)
    · exact keepsAll_tracks (tracksAll_runExternal _ _ _)

omit hcallees henv in
theorem tracksAll_doneExecution (words : List String) (outcome : CommandOutcome) :
    Keeps TracksAll (doneExecution words outcome : ExecM δ W ExecStatus) := by
  refine (tracksAll_setLastExitStatus _).bind fun _ => ?_
  refine Keeps.bind (.of_modify fun s => ?_) fun _ => .of_pure _
  split
  · exact SameFrames.tracksAll_of_history ⟨rfl, rfl⟩ rfl rfl
  · exact TracksAll.refl s

/-- The words of a command, while a store is set aside. -/
theorem runWords_tracks (assignments : List Token) (redirs : List ExecRedirection)
    (words : List String) (s : Shell δ W) (hs : s.frame.savedVariables.isSome) :
    Ensures (runWords env callees assignments redirs words) s fun _ t => Tracks s t := by
  unfold runWords
  cases words with
  | nil => exact .of_error rfl
  | cons word words =>
    simp only [List.head?_cons, expectsNotNull, pure_bind]
    split
    · exact (keepsAll_tracks ((tracksAll_setError _).bind fun _ => .of_pure _)).ensures s
    · have hpersist : Ensures (persistAssignments env word assignments) s
          fun _ t => Tracks s t := by
        unfold persistAssignments
        split
        · exact applyPrefixAssignments_tracks assignments s hs
        · exact .of_pure (Tracks.refl s)
      refine hpersist.bind fun persisted t hst => ?_
      split
      · exact ((tracks_runNamed hcallees henv _ _ _).ensures t).mono fun _ _ h => hst.trans h
      · exact .of_pure hst

theorem runInTempStore_tracks (words assignments : List Token)
    (redirections : List Migash.Redirection) (s : Shell δ W)
    (hs : s.frame.savedVariables.isSome) :
    Ensures (runInTempStore env callees words assignments redirections) s
      fun _ t => Tracks s t := by
  unfold runInTempStore
  split
  · exact (keepsAll_tracks ((tracksAll_setError _).bind fun _ => .of_pure _)).ensures s
  · next redirs _ =>
    split
    · exact (keepsAll_tracks (tracksAll_doneExecution _ _)).ensures s
    · refine ((tracksAll_expand _).ensures s).bind fun expanded t hst => ?_
      have hst := hst.tracks
      cases expanded with
      | none => exact .of_pure hst
      | some expanded =>
        have ht : t.frame.savedVariables.isSome := by
          have hshape : t.frame.savedVariables.isSome = s.frame.savedVariables.isSome :=
            (List.cons.inj hst.shape).1
          rwa [hshape]
        refine (runWords_tracks hcallees henv assignments redirs expanded t ht).bind ?_
        intro outcome u htu
        exact ((tracksAll_doneExecution expanded outcome).ensures u).mono
          fun _ _ h => (hst.trans htu).trans h.tracks

omit hcallees henv in
/-- A command that keeps the store it set aside gives it back. -/
theorem tracksAll_restored {s u t : Shell δ W} {temp : VariableStore}
    (hs : s.frame.savedVariables = none)
    (hu : Tracks { s with
      variables_ := temp, frame := { s.frame with savedVariables := some s.variables_ } } u)
    (ht : (restoreVariables : ExecM δ W Unit).run u = .ok (⟨⟩, t)) : TracksAll s t := by
  obtain ⟨new, hnew, haside⟩ := hu.history
  have hshape := List.cons.inj hu.shape
  obtain ⟨v, hv⟩ : ∃ v, u.frame.savedVariables = some v :=
    Option.isSome_iff_exists.mp hshape.1
  have hrun : (restoreVariables : ExecM δ W Unit).run u = .ok (⟨⟩,
      { u with variables_ := v, frame := { u.frame with savedVariables := none } }) := by
    rw [restoreVariables, Stateful.run_bind_ok (Stateful.run_get_eq u), hv]
    rfl
  cases hrun.symm.trans ht
  refine ⟨?_, new, hnew, ?_⟩
  · simpa [Shell.shape, hs] using hshape.2
  · simpa [Shell.aside, hs, hv] using haside

/-- A simple command changes every store by the assignments it records. -/
theorem simpleCommandImpl_tracksAll (words : Option (List Token))
    (redirections : Option (List Migash.Redirection)) (assignments : Option (List Token))
    {s : Shell δ W} (hs : s.frame.savedVariables = none) :
    Ensures (execFrameExecuteSimpleCommandImpl env callees words redirections assignments) s
      fun _ t => TracksAll s t := by
  unfold execFrameExecuteSimpleCommandImpl
  dsimp only
  split
  · exact (tracksAll_assignmentOnly _).ensures s
  · refine ((tracksAll_buildTempStore _ _).ensures s).bind fun temp t hst => ?_
    have ht := hst.tracks.frame_eq_none hs
    refine .modify_bind ((runInTempStore_tracks hcallees henv _ _ _ _ rfl).bind ?_)
    intro status u htu
    refine Ensures.bind (P := fun _ v => TracksAll t v) ?_ fun _ v htv => .of_pure (hst.trans htv)
    exact ⟨fun _ v hv => tracksAll_restored ht htu hv⟩

theorem between_simpleCommand (words : Option (List Token))
    (redirections : Option (List Migash.Redirection)) (assignments : Option (List Token)) :
    Keeps Between (execFrameExecuteSimpleCommand env callees words redirections assignments) := by
  have himpl : Keeps Between
      (execFrameExecuteSimpleCommandImpl env callees words redirections assignments) := by
    constructor
    intro s
    by_cases hs : s.frame.savedVariables = none
    · exact (simpleCommandImpl_tracksAll hcallees henv words redirections assignments hs).mono
        fun _ _ h => h.tracks.between
    · exact Ensures.any.mono fun _ _ _ => ⟨fun h => absurd h hs⟩
  unfold execFrameExecuteSimpleCommand
  refine (keepsAll_between (tracksAll_emitEvent (by simp))).bind fun _ => himpl.bind fun result => ?_
  constructor
  intro s
  refine .get_bind (.set_bind (.of_pure (Tracks.between ?_)))
  refine SameFrames.tracks ⟨rfl, rfl⟩ [.commandEnd s.frame.lastExitStatus _ _] rfl ?_
  intro d a hmem
  cases List.mem_singleton.mp hmem

/-! ## Compound commands -/

theorem between_redirectedCommand (command : Ast) (redirections : List Migash.Redirection) :
    Keeps Between (execFrameExecuteRedirectedCommand env callees command redirections) := by
  unfold execFrameExecuteRedirectedCommand
  split
  · exact keeps_between (tracks_inFrame hcallees henv _ _)
  · split
    · exact keepsAll_between ((tracksAll_setError _).bind fun _ => .of_pure _)
    · exact keeps_between (tracks_inFrame hcallees henv _ _)

omit henv in
theorem between_ifClause (condition thenBody : Ast) (elifList : Option (List Ast))
    (elseBody : Option Ast) :
    Keeps Between (execFrameExecuteIfClause callees condition thenBody elifList elseBody) := by
  have helifs (elifs : List Ast) : Keeps Between (elifClauses callees elifs) := by
    fun_induction elifClauses callees elifs with
    | case1 => exact .of_pure _
    | case2 condition thenBody _ _ elifs ih =>
      refine (hcallees.dispatch condition).bind fun cond => ?_
      split
      · exact .of_pure _
      · split
        · exact (hcallees.dispatch thenBody).map
        · exact ih
    | case3 elif elifs _ ih => exact ih
  unfold execFrameExecuteIfClause
  refine (hcallees.dispatch condition).bind fun cond => ?_
  split
  · exact .of_pure _
  · split
    · exact hcallees.dispatch thenBody
    · refine (helifs _).bind fun result => ?_
      split
      · exact .of_pure _
      · split
        · exact hcallees.dispatch _
        · exact .of_pure _

omit henv in
theorem between_whileClause (condition body : Ast) (isUntil : Bool) :
    Keeps Between (execFrameExecuteWhileClause callees condition body isUntil) := by
  unfold execFrameExecuteWhileClause
  refine (keepsAll_between (tracksAll_emitEvent (by simp))).bind fun _ => ?_
  refine (between_conditionLoop hcallees _).bind fun result => ?_
  exact (keepsAll_between (tracksAll_emitEvent (by simp))).bind fun _ => .of_pure _

theorem between_forClause (var : String) (words : Option (List Token)) (body : Ast) :
    Keeps Between (execFrameExecuteForClause env callees var words body) := by
  have hwords : Keeps TracksAll (forWords env words) := by
    unfold forWords
    split
    · exact (tracksAll_expand _).bind fun _ => .of_pure _
    · exact Keeps.of_get.bind fun s => (tracksAll_expectsNotNull _ _).bind fun _ => .of_pure _
  unfold execFrameExecuteForClause execFrameExecuteForLoop
  refine (keepsAll_between hwords).bind fun words => ?_
  refine (keepsAll_between (tracksAll_emitEvent (by simp))).bind fun _ => ?_
  refine (keeps_between (tracks_inFrame hcallees henv _ _)).bind fun result => ?_
  exact (keepsAll_between (tracksAll_emitEvent (by simp))).bind fun _ => .of_pure _

omit henv in
theorem between_caseClause (word : Token) (items : List Ast) :
    Keeps Between (execFrameExecuteCaseClause env callees word items) := by
  have hpattern (word : String) (toks : List Token) : Keeps TracksAll (anyPattern env word toks) := by
    induction toks with
    | nil => exact .of_pure _
    | cons tok toks ih =>
      refine (tracksAll_expand _).bind fun pattern => ?_
      split
      · split
        · exact .of_pure _
        · exact ih
      · exact ih
  have hitems (word : String) (items : List Ast) :
      Keeps Between (caseItems env callees word items) := by
    fun_induction caseItems env callees word items with
    | case1 => exact .of_pure _
    | case2 patterns body _ items ih =>
      refine (keepsAll_between (hpattern word patterns)).bind fun found => ?_
      split
      · split
        · exact hcallees.dispatch _
        · exact .of_pure _
      · exact ih
    | case3 item items _ ih => exact ih
  unfold execFrameExecuteCaseClause
  refine (keepsAll_between (tracksAll_expand _)).bind fun text => ?_
  split
  · exact keepsAll_between ((tracksAll_setError _).bind fun _ => .of_pure _)
  · exact hitems _ items

omit hcallees henv in
theorem tracksAll_functionDef (name : String) (body : Ast)
    (redirections : Option (List Migash.Redirection)) :
    Keeps TracksAll (execFrameExecuteFunctionDefClause name body redirections :
      ExecM δ W ExecuteResult) := by
  have herror (text : String) :
      Keeps TracksAll (functionDefError text : ExecM δ W ExecuteResult) :=
    (tracksAll_setError text).bind fun _ => .of_pure _
  have hadd (redirs : Option (List ExecRedirection)) :
      Keeps TracksAll (funcStoreAddEx name body redirs : ExecM δ W Bool) := by
    unfold funcStoreAddEx
    split
    · split
      · refine Keeps.bind ?_ fun _ => .of_pure _
        exact tracksAll_modify (fun _ => ⟨rfl, rfl⟩) (fun _ => rfl) fun _ => rfl
      · exact .of_throw _
    · exact .of_pure _
  unfold execFrameExecuteFunctionDefClause
  split
  · exact herror _
  · refine (hadd _).bind fun added => ?_
    split
    · exact .of_pure _
    · exact herror _

/-! ## Lists and dispatch -/

theorem between_operandCase {node : Ast} {run : ExecM δ W ExecuteResult}
    (h : operandCase env callees node = some run) : Keeps Between run := by
  unfold operandCase at h
  split at h
  · cases h
    exact hcallees.compoundList _
  · cases h
    exact hcallees.andOrList _
  · cases h
    exact keeps_between (tracks_inFrame hcallees henv _ _)
  · cases h
    exact between_simpleCommand hcallees henv _ _ _
  · cases h

theorem between_andOrList (left right : Ast) (op : AndorOperator) :
    Keeps Between (execFrameExecuteAndOrList env callees left right op) := by
  have hend (result : ExecuteResult) :
      Keeps TracksAll (andOrEnd result : ExecM δ W ExecuteResult) :=
    (tracksAll_setLastExitStatus _).bind fun _ => .of_pure _
  have hunsupported (node : Ast) :
      Keeps TracksAll (unsupportedOperand node : ExecM δ W ExecuteResult) :=
    (tracksAll_setError _).bind fun _ => .of_pure _
  have hright : Keeps Between (andOrRight env callees right) := by
    unfold andOrRight
    split
    · exact keepsAll_between (hunsupported _)
    · next run hrun =>
      refine (between_operandCase hcallees henv hrun).bind fun result => ?_
      split
      · exact .of_pure _
      · exact keepsAll_between (hend _)
  unfold execFrameExecuteAndOrList
  split
  · exact keepsAll_between (hunsupported _)
  · next run hrun =>
    refine (between_operandCase hcallees henv hrun).bind fun result => ?_
    split
    · exact .of_pure _
    · split
      · exact hright
      · exact keepsAll_between (hend _)

theorem between_listItemCase {sep : CmdSeparator} {node : Ast} {run : ExecM δ W ExecuteResult}
    (h : listItemCase env callees sep node = some run) : Keeps Between run := by
  unfold listItemCase at h
  split at h
  · cases h
    exact keeps_between (tracks_inFrame hcallees henv _ _)
  · split at h <;> cases h
    · exact keeps_between (tracks_inFrame hcallees henv _ _)
    · exact between_andOrList hcallees henv _ _ _
    · exact hcallees.compoundList _
    · exact between_simpleCommand hcallees henv _ _ _
    · exact keeps_between (tracks_inFrame hcallees henv _ _)
    · exact keeps_between (tracks_inFrame hcallees henv _ _)
    · exact between_ifClause hcallees _ _ _ _
    · exact between_whileClause hcallees _ _ _
    · exact between_whileClause hcallees _ _ _
    · exact between_forClause hcallees henv _ _ _
    · exact between_caseClause hcallees _ _
    · exact between_redirectedCommand hcallees henv _ _
    · exact keepsAll_between (tracksAll_functionDef _ _ _)

theorem between_compoundList (items : List Ast) (separators : List CmdSeparator) :
    Keeps Between (execFrameExecuteCompoundList env callees items separators) := by
  have hturns (items : List Ast) (separators : List CmdSeparator) (result : ExecuteResult) :
      Keeps Between (listTurns env callees items separators result) := by
    induction items generalizing separators result with
    | nil => exact .of_pure result
    | cons cmd items ih =>
      cases separators with
      | nil => exact .of_throw _
      | cons sep separators =>
        rw [listTurns]
        split
        · exact keepsAll_between ((tracksAll_setError _).bind fun _ => .of_pure _)
        · next run hrun =>
          refine (between_listItemCase hcallees henv hrun).bind fun item => ?_
          split
          · exact .of_pure _
          · have hrecord : Keeps TracksAll (recordItemStatus item : ExecM δ W Unit) := by
              refine .of_modify fun s => ?_
              split
              · exact SameFrames.tracksAll_of_history ⟨rfl, rfl⟩ rfl rfl
              · exact TracksAll.refl s
            refine (keepsAll_between hrecord).bind fun _ => ?_
            split
            · exact .of_pure _
            · exact ih _ _
  unfold execFrameExecuteCompoundList
  split
  · exact .of_pure _
  · exact hturns _ _ _

theorem between_dispatch (node : Ast) :
    Keeps Between (execFrameExecuteDispatch env callees node) := by
  have hcase {run : ExecM δ W ExecuteResult} (h : dispatchCase env callees node = some run) :
      Keeps Between run := by
    unfold dispatchCase at h
    split at h <;> cases h
    · exact between_compoundList hcallees henv _ _
    · exact between_andOrList hcallees henv _ _ _
    · exact keeps_between (tracks_inFrame hcallees henv _ _)
    · exact between_simpleCommand hcallees henv _ _ _
    · exact keeps_between (tracks_inFrame hcallees henv _ _)
    · exact keeps_between (tracks_inFrame hcallees henv _ _)
    · exact between_ifClause hcallees _ _ _ _
    · exact between_whileClause hcallees _ _ _
    · exact between_whileClause hcallees _ _ _
    · exact between_forClause hcallees henv _ _ _
    · exact between_redirectedCommand hcallees henv _ _
    · exact between_caseClause hcallees _ _
    · exact keepsAll_between (tracksAll_functionDef _ _ _)
  unfold execFrameExecuteDispatch
  split
  · exact keepsAll_between ((tracksAll_setError _).bind fun _ => .of_pure _)
  · next run hrun =>
    refine (hcase hrun).bind fun result => ?_
    refine Keeps.bind (keepsAll_between (.of_modify fun s => ?_)) fun _ => .of_pure _
    unfold Shell.recordStatus
    split
    · exact SameFrames.tracksAll_of_history ⟨rfl, rfl⟩ rfl rfl
    · exact TracksAll.refl s

end

/-- The executor changes the stores that are set aside as it records. -/
theorem executor_recordStores {env : Env δ W} (henv : env.RecordsStores) (n : ℕ) :
    (executor env n).RecordStores := by
  induction n with
  | zero => exact ⟨fun _ => .of_throw _, fun _ => .of_throw _, fun _ => .of_throw _⟩
  | succ n ih =>
    refine ⟨between_dispatch ih henv, fun node => ?_, fun node => ?_⟩
    · cases node with
      | commandList items separators => exact between_compoundList ih henv items separators
      | _ => exact .of_throw _
    · cases node with
      | andOrList left right op => exact between_andOrList ih henv left right op
      | _ => exact .of_throw _

end Migash.Exec
