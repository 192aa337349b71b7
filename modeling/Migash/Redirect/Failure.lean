import Migash.Redirect.Nesting

/-! # A redirection list that cannot be applied

The error path of an apply restores through the same table as the end of a scope. Besides
the calls that fail on bad arguments, `fcntl`, `dup2` and `close` may be refused wherever
their answer is looked at before the restore. In a state in which the saved copies can be trusted
the descriptors come back whatever fails, and the table keeps entries of the descriptors
the list names.
-/

namespace Migash.Redirect

open Library

variable {δ ρ : Type} {env : Env δ ρ} {s s' s₁ s₂ : FdState δ ρ}

/-! ## Refused calls -/

/-- `dup2` from a descriptor that was opened for the redirection is refused with the error `e`. -/
def refusedInstall (env : Env δ ρ) (s : FdState δ ρ) (target : ℕ) (file : δ) (purpose e : String) :
    FdState δ ρ :=
  let (newfd, descriptors) := s.descriptors.openFile file
  { s with descriptors := descriptors.discard newfd }.setError env
    s!"dup2({newfd}, {target}){purpose} failed: {e}"

/-- The same for the read end of a pipe; the write end is closed already. -/
def refusedPipe (env : Env δ ρ) (s : FdState δ ρ) (target : ℕ) (readEnd writeEnd : δ) (e : String) :
    FdState δ ρ :=
  let (r, w, descriptors) := s.descriptors.pipe readEnd writeEnd
  { s with descriptors := (descriptors.discard w).discard r }.setError env
    s!"dup2({r}, {target}) for heredoc failed: {e}"

/-- What a redirection leaves behind if one of its calls is refused although its arguments are good.
The refused close at the end of a move is only warned about. -/
inductive Refused (env : Env δ ρ) (s : FdState δ ρ) (r : ExecRedirection) :
    Bool → FdState δ ρ → Prop where
  | dup2File {isExpanded : Bool} {filename : Option String} {tok : Option Token} {fname : String}
      {rest rest' : ρ} {flags : OpenFlags} {file : δ} (e : String)
      (htarget : r.target = .file isExpanded filename tok)
      (hname : fileName env isExpanded filename tok s.rest = (some fname, rest))
      (hflags : openFlags r.type (env.noclobber rest) = some flags)
      (hfile : env.openFile fname flags rest = (.ok file, rest')) :
      Refused env s r false
        (refusedInstall env { s with rest := rest' } (redirectionDefaultFd r) file "" e)
  | dup2Fd {fixedFd : Int} {fdExpression : Option String} {fdToken : Option Token} {text : String}
      {rest : ρ} {source : ℕ} {closeAfterUse : Bool} (e : String)
      (htarget : r.target = .fd fixedFd fdExpression fdToken)
      (htext : fdText env fixedFd fdExpression fdToken s.rest = (some text, rest))
      (hparse : parseFdNumber text = some ⟨some source, closeAfterUse⟩) :
      Refused env s r false
        ({ s with rest }.setError env s!"dup2({source}, {redirectionDefaultFd r}) failed: {e}")
  | closeFd {fixedFd : Int} {fdExpression : Option String} {fdToken : Option Token} {text : String}
      {rest : ρ} {closeAfterUse : Bool} (e : String)
      (htarget : r.target = .fd fixedFd fdExpression fdToken)
      (htext : fdText env fixedFd fdExpression fdToken s.rest = (some text, rest))
      (hparse : parseFdNumber text = some ⟨none, closeAfterUse⟩) :
      Refused env s r false
        ({ s with rest }.setError env s!"close({redirectionDefaultFd r}) failed: {e}")
  | closeSource {fixedFd : Int} {fdExpression : Option String} {fdToken : Option Token}
      {text : String} {rest : ρ} {source : ℕ} {s' : FdState δ ρ}
      (htarget : r.target = .fd fixedFd fdExpression fdToken)
      (htext : fdText env fixedFd fdExpression fdToken s.rest = (some text, rest))
      (hparse : parseFdNumber text = some ⟨some source, true⟩)
      (hdup : applyDup env { s with rest } (redirectionDefaultFd r) source false = (true, s')) :
      Refused env s r true s'
  | close (e : String) (htarget : r.target = .close) :
      Refused env s r false (s.setError env s!"close({redirectionDefaultFd r}) failed: {e}")
  | dup2TempFile {content : Option String} {needsExpansion : Bool} {text : String}
      {rest rest' rest'' : ρ} {file : δ} (e : String)
      (htarget : r.target = .buffer content needsExpansion)
      (htext : heredocText env content needsExpansion s.rest = (some text, rest))
      (hlong : 4096 < text.utf8ByteSize) (hfile : env.mkstemp rest = (.ok file, rest'))
      (hwrite : env.write file text rest' = (.ok ⟨⟩, rest'')) :
      Refused env s r false (refusedInstall env { s with rest := rest'' } (redirectionDefaultFd r) file
        " for heredoc temp file" e)
  | dup2Pipe {content : Option String} {needsExpansion : Bool} {text : String}
      {rest rest' rest'' : ρ} {readEnd writeEnd : δ} (e : String)
      (htarget : r.target = .buffer content needsExpansion)
      (htext : heredocText env content needsExpansion s.rest = (some text, rest))
      (hshort : ¬ 4096 < text.utf8ByteSize) (hpipe : env.pipe rest = (.ok (readEnd, writeEnd), rest'))
      (hwrite : env.write writeEnd text rest' = (.ok ⟨⟩, rest'')) :
      Refused env s r false
        (refusedPipe env { s with rest := rest'' } (redirectionDefaultFd r) readEnd writeEnd e)

/-- One redirection with or without a refused call. -/
def OneEnds (env : Env δ ρ) (s : FdState δ ρ) (r : ExecRedirection) (ok : Bool) (s' : FdState δ ρ) :
    Prop := applyOne env s r = (ok, s') ∨ Refused env s r ok s'

/-- The apply phase with or without refused calls. -/
inductive ApplyEnds (env : Env δ ρ) :
    List ExecRedirection → FdState δ ρ → Bool → FdState δ ρ → Prop where
  | done {s : FdState δ ρ} : ApplyEnds env [] s true s
  | step {r : ExecRedirection} {rs : List ExecRedirection} {s s₁ s₂ : FdState δ ρ} {ok : Bool} :
      OneEnds env s r true s₁ → ApplyEnds env rs s₁ ok s₂ → ApplyEnds env (r :: rs) s ok s₂
  | stop {r : ExecRedirection} {rs : List ExecRedirection} {s s₁ : FdState δ ρ} :
      OneEnds env s r false s₁ → ApplyEnds env (r :: rs) s false s₁

/-- The save phase: it runs to its end, or `fcntl` is refused for one of the descriptors. -/
inductive SaveEnds (env : Env δ ρ) (fds : List ℕ) (s : FdState δ ρ) : Bool → FdState δ ρ → Prop where
  | ran {ok : Bool} {s' : FdState δ ρ} : saveAll env fds s = (ok, s') → SaveEnds env fds s ok s'
  | refused {before after : List ℕ} {fd : ℕ} {s₁ : FdState δ ρ} (e : String) :
      fds = before ++ fd :: after → saveAll env before s = (true, s₁) →
      s₁.openFds.isRedirected fd = false →
      SaveEnds env fds s false
        (s₁.setError env s!"fcntl(F_DUPFD_CLOEXEC) failed for fd {fd}: {e}")

/-- `exec_apply_redirections_posix` ends with an error, whichever call failed. -/
inductive Fails (env : Env δ ρ) (redirs : List ExecRedirection) (s : FdState δ ρ) :
    FdState δ ρ → Prop where
  | save {s₁ : FdState δ ρ} :
      SaveEnds env (toSave env (willRedirect env redirs s.rest).1)
        { s with rest := (willRedirect env redirs s.rest).2 } false s₁ →
      Fails env redirs s (execRestoreRedirectionsPosix s₁)
  | apply {s₁ s₂ : FdState δ ρ} :
      SaveEnds env (toSave env (willRedirect env redirs s.rest).1)
        { s with rest := (willRedirect env redirs s.rest).2 } true s₁ →
      ApplyEnds env redirs s₁ false s₂ → Fails env redirs s (execRestoreRedirectionsPosix s₂)

/-! ## Without refused calls -/

theorem applyEnds_of_applyAll {redirs : List ExecRedirection} {ok : Bool}
    (h : applyAll env redirs s = (ok, s')) : ApplyEnds env redirs s ok s' := by
  induction redirs generalizing s with
  | nil =>
    cases h
    exact .done
  | cons r rs ih =>
    rw [applyAll] at h
    cases hone : applyOne env s r with | mk ok₁ s₁ =>
    rw [hone] at h
    cases ok₁ with
    | true => exact .step (.inl hone) (ih h)
    | false =>
      cases h
      exact .stop (.inl hone)

/-- The failures of the model in which no good call is refused are among them. -/
theorem fails_of_apply {redirs : List ExecRedirection}
    (h : execApplyRedirectionsPosix env s redirs = (false, s')) : Fails env redirs s s' := by
  by_cases hnil : redirs = []
  · rw [execApplyRedirectionsPosix, if_pos hnil] at h
    cases h
  · rw [execApplyRedirectionsPosix_of_ne_nil env s hnil] at h
    cases hsave : saveAll env (toSave env (willRedirect env redirs s.rest).1)
      { s with rest := (willRedirect env redirs s.rest).2 } with | mk ok₁ s₁ =>
    rw [hsave] at h
    cases ok₁ with
    | false =>
      cases h
      exact .save (.ran hsave)
    | true =>
      cases happly : applyAll env redirs s₁ with | mk ok₂ s₂ =>
      simp only [happly] at h
      cases ok₂ with
      | false =>
        cases h
        exact .apply (.ran hsave) (applyEnds_of_applyAll happly)
      | true => cases h

/-! ## The phases -/

variable {T : ℕ → Prop} {r₀ : ρ} {r : ExecRedirection} {ok : Bool}

theorem refusedInstall_touches (target : ℕ) (file : δ) (purpose e : String) :
    Touches T s (refusedInstall env s target file purpose e) := by
  have hfree := Descriptors.get_lowestFree s.descriptors 0
  have hset : ∀ fd, fd ≠ s.descriptors.lowestFree 0 →
      (s.descriptors.openFile file).2.get fd = s.descriptors.get fd :=
    fun fd hfd => Descriptors.get_set_of_ne _ _ hfd
  exact ⟨fun fd _ => Descriptors.get_discard_fresh hfree hset fd, .refl _⟩

theorem refusedPipe_touches (target : ℕ) (readEnd writeEnd : δ) (e : String) :
    Touches T s (refusedPipe env s target readEnd writeEnd e) := by
  have hfree := Descriptors.get_lowestFree s.descriptors 0
  have hread := fun fd hfd =>
    @Descriptors.get_pipe_discard_write _ s.descriptors readEnd writeEnd fd hfd
  exact ⟨fun fd _ => Descriptors.get_discard_fresh hfree hread fd, .refl _⟩

/-- A refused call leaves at most what the redirection changes. -/
theorem Refused.kept (h : Refused env s r ok s') (hT : T (redirectionDefaultFd r))
    (hlater : Later env r₀ s.rest) : Kept env r₀ T s (ok, s') := by
  have hfailed {t : FdState δ ρ} (ht : Touches T s t) : Kept env r₀ T s (false, t) :=
    ⟨ht, fun hok => absurd hok Bool.false_ne_true⟩
  cases h with
  | dup2File e htarget hname hflags hfile =>
    exact hfailed ((touches_rest _).trans (refusedInstall_touches _ _ _ _))
  | dup2Fd e htarget htext hparse => exact .fail (touches_rest _)
  | closeFd e htarget htext hparse => exact .fail (touches_rest _)
  | closeSource htarget htext hparse hdup =>
    rename_i fixedFd fdExpression fdToken text rest source
    have hrest := fdText_later hlater fixedFd fdExpression fdToken
    rw [htext] at hrest
    have hkept : Kept env r₀ T { s with rest }
        (applyDup env { s with rest } (redirectionDefaultFd r) source false) :=
      applyDup_kept hT (fun hclose => absurd hclose Bool.false_ne_true) hrest
    rw [hdup] at hkept
    exact hkept.of_rest
  | close e htarget => exact .fail (.refl s)
  | dup2TempFile e htarget htext hlong hfile hwrite =>
    exact hfailed ((touches_rest _).trans (refusedInstall_touches _ _ _ _))
  | dup2Pipe e htarget htext hshort hpipe hwrite =>
    exact hfailed ((touches_rest _).trans (refusedPipe_touches _ _ _ _))

/-- One redirection of a list whose words name the same moves each time. -/
theorem OneEnds.kept {redirs : List ExecRedirection} (h : OneEnds env s r ok s') (hr : r ∈ redirs)
    (hlater : Later env r₀ s.rest) (hchanges : ∀ fd, Changes env redirs r₀ fd → T fd)
    (hsettled : ∀ r ∈ redirs, ∀ rest, Later env r₀ rest →
      moveSourceOf env r rest = moveSourceOf env r r₀) :
    Kept env r₀ T s (ok, s') := by
  have hT : T (redirectionDefaultFd r) := hchanges _ ⟨r, hr, .inl rfl⟩
  rcases h with hran | hrefused
  · rw [← hran]
    apply applyOne_kept hT hlater
    intro source hsource
    rw [hsettled r hr s.rest hlater] at hsource
    exact hchanges source ⟨r, hr, .inr hsource⟩
  · exact hrefused.kept hT hlater

/-- The apply phase changes only what the list changes, wherever it ends. -/
theorem ApplyEnds.touches {redirs : List ExecRedirection} (h : ApplyEnds env redirs s ok s')
    (hlater : Later env r₀ s.rest) (hchanges : ∀ fd, Changes env redirs r₀ fd → T fd)
    (hsettled : ∀ r ∈ redirs, ∀ rest, Later env r₀ rest →
      moveSourceOf env r rest = moveSourceOf env r r₀) :
    Touches T s s' := by
  induction h with
  | done => exact .refl _
  | step hone _ ih =>
    have hkept := hone.kept List.mem_cons_self hlater hchanges hsettled
    refine hkept.touches.trans (ih (hkept.later rfl) ?_ ?_)
    · rintro fd ⟨r', hr', hfd⟩
      exact hchanges fd ⟨r', List.mem_cons_of_mem _ hr', hfd⟩
    · exact fun r' hr' => hsettled r' (List.mem_cons_of_mem _ hr')
  | stop hone => exact (hone.kept List.mem_cons_self hlater hchanges hsettled).touches

/-! ## The table after a restore -/

theorem restoreFd_find? {b fd : ℕ} (hb : fd ≠ b) (ho : s.openFds.getOriginalFd b ≠ some fd) :
    (restoreFd s b).openFds.find? fd = s.openFds.find? fd := by
  unfold restoreFd
  cases horig : s.openFds.getOriginalFd b with
  | none =>
    dsimp only
    rw [FdTable.find?_remove_of_ne _ hb, FdTable.markClosed, FdTable.find?_modify_of_ne _ _ hb]
  | some o =>
    have hne : fd ≠ o := fun heq => ho (heq ▸ horig)
    dsimp only
    rw [FdTable.find?_remove_of_ne _ hb, FdTable.markClosed, FdTable.find?_modify_of_ne _ _ hb,
      FdTable.clearRedirected, FdTable.find?_modify_of_ne _ _ hne]
    cases s.descriptors.dup2 b o with
    | none => rfl
    | some descriptors => exact FdTable.find?_modify_of_ne _ _ hne

theorem restoreFd_getOriginalFd {b fd : ℕ} (hb : fd ≠ b)
    (ho : s.openFds.getOriginalFd b ≠ some fd) :
    (restoreFd s b).openFds.getOriginalFd fd = s.openFds.getOriginalFd fd := by
  unfold FdTable.getOriginalFd
  rw [restoreFd_find? hb ho]

theorem restoreFd_find?_self (b : ℕ) : (restoreFd s b).openFds.find? b = none := by
  unfold restoreFd
  cases s.openFds.getOriginalFd b <;> exact FdTable.find?_remove_self _ _

theorem isRedirected_of_find? {t t' : FdTable} {fd : ℕ} (h : t'.find? fd = t.find? fd) :
    t'.isRedirected fd = t.isRedirected fd := by
  unfold FdTable.isRedirected
  rw [h]

theorem isRedirected_clearRedirected (t : FdTable) (fd : ℕ) :
    (t.clearRedirected fd).isRedirected fd = false := by
  unfold FdTable.isRedirected FdTable.clearRedirected
  rw [FdTable.find?_modify]
  cases hfind : t.find? fd with
  | none => rfl
  | some e =>
    have hfd : e.fd = fd := (FdTable.find?_eq_some.mp hfind).2
    rw [Option.map_some, if_pos hfd]

/-- The descriptor a copy stands for is not marked as redirected once it is restored. -/
theorem restoreFd_isRedirected {b o : ℕ} (horig : s.openFds.getOriginalFd b = some o) (hne : o ≠ b) :
    (restoreFd s b).openFds.isRedirected o = false := by
  unfold restoreFd
  rw [horig]
  dsimp only
  rw [isRedirected_of_find? (FdTable.find?_remove_of_ne _ hne), FdTable.markClosed,
    isRedirected_of_find? (FdTable.find?_modify_of_ne _ _ hne)]
  exact isRedirected_clearRedirected _ _

/-- The copies `l` stand for descriptors in `T`, and are not among these themselves. -/
def StandFor (T : ℕ → Prop) (l : List ℕ) (s : FdState δ ρ) : Prop :=
  ∀ b ∈ l, ¬ T b ∧ ∃ o, s.openFds.getOriginalFd b = some o ∧ T o

theorem StandFor.restoreFd {b : ℕ} {l : List ℕ} (h : StandFor T (b :: l) s) (hb : b ∉ l) :
    StandFor T l (restoreFd s b) := by
  obtain ⟨-, o, horig, ho⟩ := h b List.mem_cons_self
  intro b' hb'
  obtain ⟨hT, o', horig', ho'⟩ := h b' (List.mem_cons_of_mem b hb')
  refine ⟨hT, o', ?_, ho'⟩
  have hbo : s.openFds.getOriginalFd b ≠ some b' := by
    rw [horig]
    rintro ⟨⟩
    exact hT ho
  have hne : b' ≠ b := by
    rintro rfl
    exact hb hb'
  rw [restoreFd_getOriginalFd hne hbo, horig']

/-- Replaying the copies forgets them, clears the marks of what they stand for and leaves the entries
of other descriptors alone. -/
theorem StandFor.foldl_restoreFd {l : List ℕ} (h : StandFor T l s) (hnodup : l.Nodup) (fd : ℕ) :
    (¬ T fd → fd ∉ l → (l.foldl Redirect.restoreFd s).openFds.find? fd = s.openFds.find? fd) ∧
      (fd ∈ l → (l.foldl Redirect.restoreFd s).openFds.find? fd = none) ∧
      (T fd → s.openFds.isRedirected fd = false ∨ (∃ b ∈ l, s.openFds.getOriginalFd b = some fd) →
        (l.foldl Redirect.restoreFd s).openFds.isRedirected fd = false) := by
  induction l generalizing s with
  | nil =>
    refine ⟨fun _ _ => rfl, fun hmem => by simp at hmem, fun _ hmark => ?_⟩
    exact hmark.resolve_right (by simp)
  | cons b l ih =>
    obtain ⟨hb, hnodup⟩ := List.nodup_cons.mp hnodup
    obtain ⟨hbT, o, horig, ho⟩ := h b List.mem_cons_self
    obtain ⟨hother, hcopy, hmarked⟩ := ih (h.restoreFd hb) hnodup
    refine ⟨fun hT hfd => ?_, fun hfd => ?_, fun hT hmark => ?_⟩
    · rw [List.mem_cons, not_or] at hfd
      have hne : s.openFds.getOriginalFd b ≠ some fd := by
        rw [horig]
        rintro ⟨⟩
        exact hT ho
      exact (hother hT hfd.2).trans (restoreFd_find? hfd.1 hne)
    · rcases List.mem_cons.mp hfd with rfl | hmem
      · exact (hother hbT hb).trans (restoreFd_find?_self _)
      · exact hcopy hmem
    · have hfdb : fd ≠ b := fun heq => hbT (heq ▸ hT)
      refine hmarked hT ?_
      by_cases hfdo : fd = o
      · subst hfdo
        exact .inl (restoreFd_isRedirected horig hfdb)
      · have hne : s.openFds.getOriginalFd b ≠ some fd := by
          rw [horig]
          rintro ⟨⟩
          exact hfdo rfl
        rcases hmark with hclear | ⟨b', hb', horig'⟩
        · exact .inl ((isRedirected_of_find? (restoreFd_find? hfdb hne)).trans hclear)
        · rcases List.mem_cons.mp hb' with rfl | hmem
          · exact absurd horig' hne
          · obtain ⟨hb'T, -⟩ := h b' hb'
            have hbo : s.openFds.getOriginalFd b ≠ some b' := by
              rw [horig]
              rintro ⟨⟩
              exact hb'T ho
            have hbb : b' ≠ b := by
              rintro rfl
              exact hb hmem
            exact .inr ⟨b', hmem, by rw [restoreFd_getOriginalFd hbb hbo, horig']⟩

/-! ## A failed apply -/

/-- What is left of a list that could not be applied. -/
structure Abandoned (env : Env δ ρ) (redirs : List ExecRedirection) (s s' : FdState δ ρ) : Prop where
  /-- Every descriptor is as before; of those the list changes, every one that an `fd_set` can hold. -/
  descriptors : ∀ fd, (Changes env redirs s.rest fd → fd < env.fdSetsize) →
    s'.descriptors.get fd = s.descriptors.get fd
  /-- The table has the same entries of descriptors that the list does not change. -/
  entries : ∀ fd, ¬ Changes env redirs s.rest fd → s'.openFds.find? fd = s.openFds.find? fd
  /-- No saved copy is left. -/
  unsaved : s'.openFds.getSavedFds = []
  /-- An entry that the list has left is not marked as redirected. -/
  unmarked : ∀ fd < env.fdSetsize, Changes env redirs s.rest fd → s'.openFds.isRedirected fd = false

/-- A state in which the saved copies can be trusted, and the table has no entry of a closed
descriptor that a copy takes. -/
structure TrustedTable (env : Env δ ρ) (redirs : List ExecRedirection) (s : FdState δ ρ) : Prop
    extends Trusted env redirs s where
  unlisted : ∀ b ∈ backups (toSave env (willRedirect env redirs s.rest).1) s.descriptors,
    s.openFds.find? b = none

theorem mem_backups_append {before after : List ℕ} {t : Descriptors δ} {b : ℕ}
    (h : b ∈ backups before t) : b ∈ backups (before ++ after) t := by
  induction before generalizing t with
  | nil => simp [backups] at h
  | cons fd before ih =>
    rw [List.cons_append]
    cases hdup : t.dupFrom fd 10 with
    | none => simp [backups, hdup] at h
    | some copy =>
      simp only [backups, hdup, List.mem_cons] at h ⊢
      exact h.imp_right ih

/-- The save phase up to the descriptor at which it ends. -/
structure Saved (env : Env δ ρ) (redirs : List ExecRedirection) (s : FdState δ ρ) (l : List ℕ)
    (s₁ : FdState δ ρ) : Prop where
  backed : Backed s.descriptors (fun _ => False) l s₁
  standFor : StandFor (Changes env redirs s.rest) l s₁
  copies : ∀ b ∈ l, b ∈ backups (toSave env (willRedirect env redirs s.rest).1) s.descriptors
  entries : ∀ fd, fd ∉ l → s₁.openFds.find? fd = s.openFds.find? fd

theorem Saved.setError {redirs : List ExecRedirection} {l : List ℕ} (h : Saved env redirs s l s₁)
    (msg : String) : Saved env redirs s l (s₁.setError env msg) :=
  ⟨h.backed.setError msg, h.standFor, h.copies, h.entries⟩

theorem Trusted.saveAll {redirs : List ExecRedirection} (h : Trusted env redirs s)
    {before after : List ℕ} (hlist : toSave env (willRedirect env redirs s.rest).1 = before ++ after)
    (hsave : Redirect.saveAll env before { s with rest := (willRedirect env redirs s.rest).2 } =
      (ok, s₁)) :
    ∃ l, Saved env redirs s l s₁ ∧ (ok = true → s₁.rest = (willRedirect env redirs s.rest).2 ∧
      ∀ fd ∈ before, ∃ b ∈ l, s₁.openFds.getOriginalFd b = some fd) := by
  have hstart : Backed s.descriptors (fun _ => False) []
      { s with rest := (willRedirect env redirs s.rest).2 } := by
    have hs := Backed.start h.unsaved
    exact ⟨hs.same, hs.copy, hs.fresh, hs.saved⟩
  have hchange {fd : ℕ} (hfd : fd ∈ before) :
      fd < env.fdSetsize ∧ Changes env redirs s.rest fd := by
    have hmem : fd ∈ toSave env (willRedirect env redirs s.rest).1 := by
      rw [hlist]
      exact List.mem_append_left after hfd
    obtain ⟨hlt, hmem⟩ := mem_toSave.mp hmem
    exact ⟨hlt, (mem_willRedirect .start h.settled).mp hmem⟩
  have hall {b : ℕ} (hb : b ∈ backups before s.descriptors) :
      b ∈ backups (toSave env (willRedirect env redirs s.rest).1) s.descriptors := by
    rw [hlist]
    exact mem_backups_append hb
  obtain ⟨l, hback, hsub, -, hsame, hdone⟩ := hstart.saveAll hsave
    (fun fd hfd => ⟨by simp, fun hb => h.apart fd (hchange hfd).2 (hall hb)⟩)
    (fun fd hfd => h.unmarked fd (hchange hfd).1 (hchange hfd).2)
    (fun fd hfd => h.inherited fd (hchange hfd).1 (hchange hfd).2)
  have hcopies (b : ℕ) (hb : b ∈ l) : b ∈ backups before s.descriptors ∧
      ∃ fd ∈ before, s₁.openFds.getOriginalFd b = some fd :=
    (hsub b hb).resolve_left List.not_mem_nil
  refine ⟨l, ⟨hback, fun b hb => ?_, fun b hb => hall (hcopies b hb).1, hsame⟩, hdone⟩
  obtain ⟨hbackup, fd, hfd, horig⟩ := hcopies b hb
  exact ⟨fun hT => h.apart b hT (hall hbackup), fd, horig, (hchange hfd).2⟩

/-- The table after a restore that follows the save phase and changes of what the list changes. -/
theorem Saved.entries_restored {redirs : List ExecRedirection} {l : List ℕ}
    (h : TrustedTable env redirs s) (hsaved : Saved env redirs s l s₁)
    (htouch : Touches (Changes env redirs s.rest) s₁ s₂)
    (hmarks : ∀ fd < env.fdSetsize, Changes env redirs s.rest fd →
      s₂.openFds.isRedirected fd = false ∨ ∃ b ∈ l, s₂.openFds.getOriginalFd b = some fd) :
    (∀ fd, ¬ Changes env redirs s.rest fd →
      (execRestoreRedirectionsPosix s₂).openFds.find? fd = s.openFds.find? fd) ∧
    ∀ fd < env.fdSetsize, Changes env redirs s.rest fd →
      (execRestoreRedirectionsPosix s₂).openFds.isRedirected fd = false := by
  have hlist (b : ℕ) : b ∈ l ↔ b ∈ s₂.openFds.getSavedFds := by
    by_cases hT : Changes env redirs s.rest b
    · constructor
      · exact fun hb => absurd hT (hsaved.standFor b hb).1
      · exact fun hb => (hsaved.backed.saved b).mpr (htouch.openFds.saved b hT hb)
    · rw [htouch.openFds.mem_getSavedFds hT]
      exact hsaved.backed.saved b
  have hstand : StandFor (Changes env redirs s.rest) s₂.openFds.getSavedFds s₂ := by
    intro b hb
    obtain ⟨hT, o, horig, ho⟩ := hsaved.standFor b ((hlist b).mpr hb)
    exact ⟨hT, o, by rw [htouch.openFds.getOriginalFd hT, horig], ho⟩
  have hrestored := hstand.foldl_restoreFd (FdTable.nodup_getSavedFds _)
  constructor
  · intro fd hT
    by_cases hfd : fd ∈ l
    · rw [h.unlisted fd (hsaved.copies fd hfd)]
      exact (hrestored fd).2.1 ((hlist fd).mp hfd)
    · have hrest := (hrestored fd).1 hT fun hmem => hfd ((hlist fd).mpr hmem)
      exact hrest.trans ((htouch.openFds.find? fd hT).trans (hsaved.entries fd hfd))
  · intro fd hfd hT
    refine (hrestored fd).2.2 hT ?_
    rcases hmarks fd hfd hT with hclear | ⟨b, hb, horig⟩
    · exact .inl hclear
    · exact .inr ⟨b, (hlist b).mp hb, horig⟩

/-- A failure in the save phase: nothing but the copies has to be undone. -/
theorem Saved.abandoned {redirs : List ExecRedirection} {l : List ℕ}
    (h : TrustedTable env redirs s) (hsaved : Saved env redirs s l s₁) :
    Abandoned env redirs s (execRestoreRedirectionsPosix s₁) := by
  have hcov : Covered env.fdSetsize (fun _ => False) l s₁ := fun fd _ hT => absurd hT (by simp)
  obtain ⟨hdescriptors, hunsaved⟩ := hsaved.backed.restore_all hcov
  have hmarks (fd : ℕ) (hfd : fd < env.fdSetsize) (hT : Changes env redirs s.rest fd) :
      s₁.openFds.isRedirected fd = false := by
    have hnot : fd ∉ l := fun hmem => (hsaved.standFor fd hmem).1 hT
    exact (isRedirected_of_find? (hsaved.entries fd hnot)).trans (h.unmarked fd hfd hT)
  obtain ⟨hentries, hunmarked⟩ := hsaved.entries_restored h (.refl s₁)
    fun fd hfd hT => .inl (hmarks fd hfd hT)
  exact ⟨fun fd _ => hdescriptors fd fun hT => absurd hT (by simp), hentries, hunsaved, hunmarked⟩

/-- An apply that fails, whichever of its calls failed before the restore, leaves the descriptors as
they were; in the table the entries of other descriptors are as they were, and those of the
descriptors the list names stay without their marks. -/
theorem abandoned_of_fails (redirs : List ExecRedirection) (s s' : FdState δ ρ)
    (h : TrustedTable env redirs s) (hfails : Fails env redirs s s') :
    Abandoned env redirs s s' := by
  cases hfails with
  | save hsave =>
    cases hsave with
    | ran hran =>
      obtain ⟨l, hsaved, -⟩ := h.saveAll (List.append_nil _).symm hran
      exact hsaved.abandoned h
    | refused e hlist hran hmark =>
      obtain ⟨l, hsaved, -⟩ := h.saveAll hlist hran
      exact (hsaved.setError _).abandoned h
  | apply hsave happly =>
    rename_i s₁ s₂
    cases hsave with
    | ran hran =>
      obtain ⟨l, hsaved, hdone⟩ := h.saveAll (List.append_nil _).symm hran
      obtain ⟨hrest, hcopied⟩ := hdone rfl
      have hlater : Later env s.rest s₁.rest := by
        rw [hrest]
        exact willRedirect_later .start redirs
      have htouch := happly.touches hlater (fun _ hfd => hfd) h.settled
      have hfresh (b : ℕ) (hb : b ∈ l) : ¬ Changes env redirs s.rest b := (hsaved.standFor b hb).1
      have hback : Backed s.descriptors (Changes env redirs s.rest) l s₁ :=
        ⟨fun fd hl _ => hsaved.backed.same fd hl (by simp), hsaved.backed.copy,
          fun b hb => ⟨(hsaved.backed.fresh b hb).1, hfresh b hb⟩, hsaved.backed.saved⟩
      have hcov : Covered env.fdSetsize (Changes env redirs s.rest) l s₁ := fun fd hfd hT =>
        hcopied fd (mem_toSave.mpr ⟨hfd, (mem_willRedirect .start h.settled).mpr hT⟩)
      have hcov₂ := hcov.touch hfresh htouch
      obtain ⟨hdescriptors, hunsaved⟩ := (hback.touch htouch).restore_all hcov₂
      obtain ⟨hentries, hunmarked⟩ := hsaved.entries_restored h htouch
        fun fd hfd hT => .inr (hcov₂ fd hfd hT)
      exact ⟨hdescriptors, hentries, hunsaved, hunmarked⟩

/-! ## A file that does not exist -/

/-- The plain system without a file of the name `missing`. -/
def missingEnv : Env String Unit :=
  { plainEnv with
    openFile := fun name _ rest =>
      if name = "missing" then (.error "No such file or directory", rest) else (.ok name, rest) }

/-- `>log <missing`. -/
def logMissing : List ExecRedirection :=
  [writeTo 1 "log", { type := .read, target := .file true (some "missing") none }]

theorem changes_logMissing {fd : ℕ} (h : Changes missingEnv logMissing ⟨⟩ fd) : fd = 1 ∨ fd = 0 := by
  obtain ⟨r, hr, hfd⟩ := h
  rcases List.mem_cons.mp hr with rfl | hr
  · rcases hfd with rfl | hfd
    · exact .inl rfl
    · cases hfd
  · obtain rfl := List.mem_singleton.mp hr
    rcases hfd with rfl | hfd
    · exact .inr rfl
    · cases hfd

theorem onTerminal_trustedTable : TrustedTable missingEnv logMissing onTerminal where
  unsaved := rfl
  unmarked _ _ _ := rfl
  inherited fd _ h d hd := by
    rcases changes_logMissing h with rfl | rfl
    · cases hd
      rfl
    · cases hd
      rfl
  apart fd h := by
    rcases changes_logMissing h with rfl | rfl
    · decide +kernel
    · decide +kernel
  settled r hr rest _ := by cases rest; rfl
  unlisted _ _ := rfl

theorem logMissing_abandoned : Abandoned missingEnv logMissing onTerminal
    (execApplyRedirectionsPosix missingEnv onTerminal logMissing).2 := by
  apply abandoned_of_fails logMissing onTerminal _ onTerminal_trustedTable
  have hfalse : (execApplyRedirectionsPosix missingEnv onTerminal logMissing).1 = false := by
    decide +kernel
  apply fails_of_apply
  rw [← hfalse]

/-- The entry of descriptor 1 names the file that the list has left. -/
theorem log_stays_in_table :
    (execApplyRedirectionsPosix missingEnv onTerminal logMissing).1 = false ∧
      (execApplyRedirectionsPosix missingEnv onTerminal logMissing).2.openFds ≠
        onTerminal.openFds := by
  refine ⟨by decide +kernel, fun h => ?_⟩
  have hentries := congrArg FdTable.entries h
  exact absurd hentries (by decide +kernel)

end Migash.Redirect
