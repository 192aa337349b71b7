import Migash.Redirect.Apply

/-! # Nested redirection scopes

When a restore brings back what was there before the matching apply. Backups
are told apart from other entries only by a flag, so one scope at a time can
rely on them: the invariant `Backed` says which saved copies stand for which
descriptors, every step of the apply phase keeps it, and the restore replays it.
-/

namespace Migash.Redirect

open Library

variable {δ ρ : Type} {env : Env δ ρ}

/-! ## Runs of nested scopes -/

/-- A properly nested sequence of apply and restore calls: a scope applies its list, runs the
scopes inside it and restores. -/
inductive Nest where
  | done
  | scope (redirs : List ExecRedirection) (body rest : Nest)

/-- The state after a sequence of scopes. A list that cannot be applied has no scope. -/
def run (env : Env δ ρ) : Nest → FdState δ ρ → FdState δ ρ
  | .done, s => s
  | .scope redirs body rest, s =>
    match execApplyRedirectionsPosix env s redirs with
    | (true, s') => run env rest (execRestoreRedirectionsPosix (run env body s'))
    | (false, s') => run env rest s'

/-- The state after one scope. -/
def afterScope (env : Env δ ρ) (redirs : List ExecRedirection) (body : Nest) (s : FdState δ ρ) :
    FdState δ ρ :=
  match execApplyRedirectionsPosix env s redirs with
  | (true, s') => execRestoreRedirectionsPosix (run env body s')
  | (false, s') => s'

theorem run_scope (redirs : List ExecRedirection) (body rest : Nest) (s : FdState δ ρ) :
    run env (.scope redirs body rest) s = run env rest (afterScope env redirs body s) := by
  simp only [run, afterScope]
  split <;> rfl

/-- Every descriptor below `FD_SETSIZE` is the same in both states. -/
def SameBelow (n : ℕ) (s s' : FdState δ ρ) : Prop :=
  ∀ fd < n, s'.descriptors.get fd = s.descriptors.get fd

/-- Every scope of the sequence leaves the descriptors below `FD_SETSIZE` as it found them: its
own redirections are undone, those of the scopes around it are still in force. -/
def Restores (env : Env δ ρ) : Nest → FdState δ ρ → Prop
  | .done, _ => True
  | .scope redirs body rest, s =>
    SameBelow env.fdSetsize s (afterScope env redirs body s) ∧
      ((execApplyRedirectionsPosix env s redirs).1 = true →
        Restores env body (execApplyRedirectionsPosix env s redirs).2) ∧
      Restores env rest (afterScope env redirs body s)

/-! ## The condition on one apply -/

/-- The rest of the system after some expansions and file system calls. -/
inductive Later (env : Env δ ρ) (r₀ : ρ) : ρ → Prop where
  | start : Later env r₀ r₀
  | expand {r : ρ} (tok : Token) : Later env r₀ r →
      Later env r₀ (env.expandRedirectionTarget tok r).2
  | heredoc {r : ρ} (body : String) : Later env r₀ r → Later env r₀ (env.expandHeredoc body r).2
  | open_ {r : ρ} (name : String) (flags : OpenFlags) : Later env r₀ r →
      Later env r₀ (env.openFile name flags r).2
  | temp {r : ρ} : Later env r₀ r → Later env r₀ (env.mkstemp r).2
  | pipe {r : ρ} : Later env r₀ r → Later env r₀ (env.pipe r).2
  | write {r : ρ} (file : δ) (text : String) : Later env r₀ r →
      Later env r₀ (env.write file text r).2

/-- The source that a redirection would close as a move, read in the state `rest`. -/
def moveSourceOf (env : Env δ ρ) (r : ExecRedirection) (rest : ρ) : Option ℕ :=
  match r.target with
  | .fd fixedFd fdExpression fdToken => moveSource (fdText env fixedFd fdExpression fdToken rest).1
  | _ => none

/-- The descriptors a list changes: the targets and the sources of moves. -/
def Changes (env : Env δ ρ) (redirs : List ExecRedirection) (rest : ρ) (fd : ℕ) : Prop :=
  ∃ r ∈ redirs, redirectionDefaultFd r = fd ∨ moveSourceOf env r rest = some fd

/-- The free descriptors that the copies of `fds` take. -/
def backups : List ℕ → Descriptors δ → List ℕ
  | [], _ => []
  | fd :: fds, t =>
    match t.dupFrom fd 10 with
    | none => []
    | some (backup, t') => backup :: backups fds t'

/-- The state before an apply in which the saved copies can be trusted. -/
structure Trusted (env : Env δ ρ) (redirs : List ExecRedirection) (s : FdState δ ρ) : Prop where
  /-- No scope around this one holds a saved copy. -/
  unsaved : s.openFds.getSavedFds = []
  /-- No descriptor to be saved is marked as redirected. -/
  unmarked : ∀ fd < env.fdSetsize, Changes env redirs s.rest fd → s.openFds.isRedirected fd = false
  /-- No descriptor to be saved is close-on-exec. -/
  inherited : ∀ fd < env.fdSetsize, Changes env redirs s.rest fd →
    ∀ d ∈ s.descriptors.get fd, d.closeOnExec = false
  /-- The copies take no descriptor that the list changes. -/
  apart : ∀ fd, Changes env redirs s.rest fd →
    fd ∉ backups (toSave env (willRedirect env redirs s.rest).1) s.descriptors
  /-- A word that names a move names the same move each time it is expanded. -/
  settled : ∀ r ∈ redirs, ∀ rest, Later env s.rest rest →
    moveSourceOf env r rest = moveSourceOf env r s.rest

/-- Every apply of the sequence starts in a state in which its copies can be trusted. -/
def AllTrusted (env : Env δ ρ) : Nest → FdState δ ρ → Prop
  | .done, _ => True
  | .scope redirs body rest, s =>
    Trusted env redirs s ∧
      ((execApplyRedirectionsPosix env s redirs).1 = true →
        AllTrusted env body (execApplyRedirectionsPosix env s redirs).2) ∧
      AllTrusted env rest (afterScope env redirs body s)

/-! ## What the pre-pass finds -/

theorem fdText_later {r₀ rest : ρ} (h : Later env r₀ rest) (fixedFd : Int)
    (fdExpression : Option String) (fdToken : Option Token) :
    Later env r₀ (fdText env fixedFd fdExpression fdToken rest).2 := by
  unfold fdText
  split
  · exact h
  · split_ifs
    · exact h
    · split
      · exact h.expand _
      · exact h

theorem redirected_later {r₀ rest : ρ} (h : Later env r₀ rest) (r : ExecRedirection) :
    Later env r₀ (redirected env r rest).2 := by
  unfold redirected
  split
  · exact fdText_later h _ _ _
  · exact h

theorem willRedirect_later {r₀ rest : ρ} (h : Later env r₀ rest) (redirs : List ExecRedirection) :
    Later env r₀ (willRedirect env redirs rest).2 := by
  induction redirs generalizing rest with
  | nil => exact h
  | cons r rs ih => exact ih (redirected_later h r)

theorem mem_redirected {r : ExecRedirection} {rest : ρ} {fd : ℕ} :
    fd ∈ (redirected env r rest).1 ↔
      redirectionDefaultFd r = fd ∨ moveSourceOf env r rest = some fd := by
  unfold redirected moveSourceOf
  cases r.target <;> simp [eq_comm]

/-- The pre-pass finds exactly the descriptors that the list changes. -/
theorem mem_willRedirect {redirs : List ExecRedirection} {r₀ rest : ρ} {fd : ℕ}
    (hlater : Later env r₀ rest)
    (hsettled : ∀ r ∈ redirs, ∀ rest, Later env r₀ rest →
      moveSourceOf env r rest = moveSourceOf env r r₀) :
    fd ∈ (willRedirect env redirs rest).1 ↔ Changes env redirs r₀ fd := by
  induction redirs generalizing rest with
  | nil => simp [willRedirect, Changes]
  | cons r rs ih =>
    have hhead := hsettled r List.mem_cons_self rest hlater
    have htail := ih (redirected_later hlater r)
      fun r' hr' => hsettled r' (List.mem_cons_of_mem r hr')
    simp only [willRedirect, List.mem_append, mem_redirected, hhead, htail]
    simp [Changes]

/-! ## Saved copies -/

/-- The copies `l` stand for descriptors of the table `t₀`, and apart from them and from the
descriptors in `T` nothing has changed since. -/
structure Backed (t₀ : Descriptors δ) (T : ℕ → Prop) (l : List ℕ) (s : FdState δ ρ) : Prop where
  same : ∀ fd, fd ∉ l → ¬ T fd → s.descriptors.get fd = t₀.get fd
  copy : ∀ b ∈ l, ∃ o d, s.openFds.getOriginalFd b = some o ∧ t₀.get o = some d ∧
    d.closeOnExec = false ∧ s.descriptors.get b = some { d with closeOnExec := true }
  fresh : ∀ b ∈ l, t₀.get b = none ∧ ¬ T b
  saved : ∀ b, b ∈ l ↔ b ∈ s.openFds.getSavedFds

/-- Every changed descriptor below `n` has a copy. -/
def Covered (n : ℕ) (T : ℕ → Prop) (l : List ℕ) (s : FdState δ ρ) : Prop :=
  ∀ fd < n, T fd → ∃ b ∈ l, s.openFds.getOriginalFd b = some fd

variable {t₀ : Descriptors δ} {T : ℕ → Prop} {l : List ℕ} {s s' s'' : FdState δ ρ} {n : ℕ}

theorem Backed.start (h : s.openFds.getSavedFds = []) :
    Backed s.descriptors (fun _ => False) [] s where
  same _ _ _ := rfl
  copy := by simp
  fresh := by simp
  saved := by simp [h]

/-- Only descriptors in `T` are changed, and none of them has become a saved copy. -/
structure Touches (T : ℕ → Prop) (s s' : FdState δ ρ) : Prop where
  descriptors : ∀ fd, ¬ T fd → s'.descriptors.get fd = s.descriptors.get fd
  openFds : s.openFds.Touches T s'.openFds

theorem Touches.refl (s : FdState δ ρ) : Touches T s s := ⟨fun _ _ => rfl, .refl _⟩

theorem Touches.trans (h : Touches T s s') (h' : Touches T s' s'') : Touches T s s'' :=
  ⟨fun fd hfd => (h'.descriptors fd hfd).trans (h.descriptors fd hfd), h.openFds.trans h'.openFds⟩

theorem Backed.touch (h : Backed t₀ T l s) (ht : Touches T s s') : Backed t₀ T l s' where
  same fd hl hT := (ht.descriptors fd hT).trans (h.same fd hl hT)
  copy b hb := by
    have hT := (h.fresh b hb).2
    rw [ht.openFds.getOriginalFd hT, ht.descriptors b hT]
    exact h.copy b hb
  fresh := h.fresh
  saved b := by
    by_cases hT : T b
    · constructor
      · exact fun hb => absurd hT (h.fresh b hb).2
      · exact fun hb => (h.saved b).mpr (ht.openFds.saved b hT hb)
    · rw [ht.openFds.mem_getSavedFds hT]
      exact h.saved b

theorem Covered.touch (h : Covered n T l s) (hfresh : ∀ b ∈ l, ¬ T b) (ht : Touches T s s') :
    Covered n T l s' := by
  intro fd hfd hT
  obtain ⟨b, hb, horig⟩ := h fd hfd hT
  exact ⟨b, hb, by rw [ht.openFds.getOriginalFd (hfresh b hb), horig]⟩

/-! ## The restore -/

/-- One turn of the restore loop puts one descriptor back and closes its copy. -/
theorem restoreFd_spec {b o : ℕ} {d : Descriptor δ} (horig : s.openFds.getOriginalFd b = some o)
    (hne : b ≠ o) (hcopy : s.descriptors.get b = some { d with closeOnExec := true })
    (hclear : d.closeOnExec = false) :
    (restoreFd s b).descriptors.get b = none ∧ (restoreFd s b).descriptors.get o = some d ∧
      Touches (fun fd => fd = b ∨ fd = o) s (restoreFd s b) ∧
      b ∉ (restoreFd s b).openFds.getSavedFds := by
  have hd : { d with closeOnExec := false } = d := by rw [← hclear]
  have hdup := Descriptors.dup2_eq_some hcopy hne
  simp only [restoreFd, horig, hdup, hd]
  refine ⟨Descriptors.get_discard_self _ b, ?_, ⟨?_, ?_⟩, ?_⟩
  · rw [Descriptors.get_discard_of_ne _ hne.symm, Descriptors.get_set_self]
  · intro fd hfd
    rw [not_or] at hfd
    rw [Descriptors.get_discard_of_ne _ hfd.1, Descriptors.get_set_of_ne _ _ hfd.2]
  · apply (FdTable.touches_markOpen (.inr rfl)).trans
    apply (FdTable.touches_clearRedirected (.inr rfl)).trans
    apply (FdTable.touches_markClosed (.inl rfl)).trans
    exact FdTable.touches_remove (.inl rfl)
  · simp [FdTable.mem_getSavedFds]

theorem Backed.restoreFd {b : ℕ} (h : Backed t₀ T (b :: l) s) (hb : b ∉ l) :
    Backed t₀ T l (restoreFd s b) := by
  obtain ⟨o, d, horig, ho, hclear, hcopy⟩ := h.copy b List.mem_cons_self
  have hopen {b' : ℕ} (hb' : b' ∈ b :: l) : b' ≠ o := by
    rintro rfl
    rw [(h.fresh b' hb').1] at ho
    cases ho
  obtain ⟨hgetb, hgeto, htouch, hsaved⟩ :=
    restoreFd_spec horig (hopen List.mem_cons_self) hcopy hclear
  have hother {b' : ℕ} (hb' : b' ∈ l) : ¬ (b' = b ∨ b' = o) := by
    rintro (rfl | rfl)
    · exact hb hb'
    · exact hopen (List.mem_cons_of_mem b hb') rfl
  constructor
  · intro fd hl hT
    by_cases hfd : fd = b ∨ fd = o
    · rcases hfd with rfl | rfl
      · rw [hgetb, (h.fresh fd List.mem_cons_self).1]
      · rw [hgeto, ho]
    · rw [htouch.descriptors fd hfd]
      rw [not_or] at hfd
      exact h.same fd (by simpa using ⟨hfd.1, hl⟩) hT
  · intro b' hb'
    rw [htouch.openFds.getOriginalFd (hother hb'), htouch.descriptors b' (hother hb')]
    exact h.copy b' (List.mem_cons_of_mem b hb')
  · exact fun b' hb' => h.fresh b' (List.mem_cons_of_mem b hb')
  · intro b'
    by_cases hfd : b' = b ∨ b' = o
    · constructor
      · exact fun hb' => absurd hfd (hother hb')
      · intro hb'
        rcases hfd with rfl | rfl
        · exact absurd hb' hsaved
        · have := (h.saved b').mpr (htouch.openFds.saved b' (.inr rfl) hb')
          exact absurd rfl (hopen this)
    · rw [htouch.openFds.mem_getSavedFds hfd, ← h.saved b']
      rw [not_or] at hfd
      simp [hfd.1]

/-- Replaying the copies brings back every descriptor that has one or has not changed, and leaves no
copy. -/
theorem Backed.foldl_restoreFd {N : ℕ → Prop} (h : Backed t₀ T l s) (hnodup : l.Nodup)
    (hpending : ∀ fd, N fd → T fd → (∃ b ∈ l, s.openFds.getOriginalFd b = some fd) ∨
      s.descriptors.get fd = t₀.get fd) :
    (∀ fd, N fd → (l.foldl Redirect.restoreFd s).descriptors.get fd = t₀.get fd) ∧
      (l.foldl Redirect.restoreFd s).openFds.getSavedFds = [] := by
  induction l generalizing s with
  | nil =>
    constructor
    · intro fd hfd
      by_cases hT : T fd
      · exact (hpending fd hfd hT).resolve_left (by simp)
      · exact h.same fd (by simp) hT
    · exact List.eq_nil_iff_forall_not_mem.mpr fun b hb => by simpa using (h.saved b).mpr hb
  | cons b l ih =>
    obtain ⟨hb, hnodup⟩ := List.nodup_cons.mp hnodup
    apply ih (h.restoreFd hb) hnodup
    obtain ⟨o, d, horig, ho, hclear, hcopy⟩ := h.copy b List.mem_cons_self
    have hopen {b' : ℕ} (hb' : b' ∈ b :: l) : b' ≠ o := by
      rintro rfl
      rw [(h.fresh b' hb').1] at ho
      cases ho
    obtain ⟨-, hgeto, htouch, -⟩ := restoreFd_spec horig (hopen List.mem_cons_self) hcopy hclear
    intro fd hfd hT
    by_cases hfdo : fd = o
    · rw [hfdo, hgeto, ho]
      exact .inr rfl
    · have hfdb : fd ≠ b := fun heq => (h.fresh b List.mem_cons_self).2 (heq ▸ hT)
      rcases hpending fd hfd hT with ⟨b', hb', horig'⟩ | hsame
      · rcases List.mem_cons.mp hb' with rfl | hb''
        · rw [horig] at horig'
          exact absurd (Option.some.inj horig').symm hfdo
        · have hne : ¬ (b' = b ∨ b' = o) := by
            rintro (rfl | rfl)
            · exact hb hb''
            · exact hopen hb' rfl
          exact .inl ⟨b', hb'', by rw [htouch.openFds.getOriginalFd hne, horig']⟩
      · exact .inr (by rw [htouch.descriptors fd (by simp [hfdb, hfdo]), hsame])

/-- What a restore does when every changed descriptor below `n` has a copy: all others come back. -/
theorem Backed.restore_all (h : Backed t₀ T l s) (hcov : Covered n T l s) :
    (∀ fd, (T fd → fd < n) → (execRestoreRedirectionsPosix s).descriptors.get fd = t₀.get fd) ∧
      (execRestoreRedirectionsPosix s).openFds.getSavedFds = [] := by
  have h' : Backed t₀ T s.openFds.getSavedFds s :=
    { same := fun fd hfd hT => h.same fd (fun hl => hfd ((h.saved fd).mp hl)) hT
      copy := fun b hb => h.copy b ((h.saved b).mpr hb)
      fresh := fun b hb => h.fresh b ((h.saved b).mpr hb)
      saved := fun _ => Iff.rfl }
  apply h'.foldl_restoreFd (FdTable.nodup_getSavedFds _)
  intro fd hfd hT
  obtain ⟨b, hb, horig⟩ := hcov fd (hfd hT) hT
  exact .inl ⟨b, (h.saved b).mp hb, horig⟩

theorem Backed.restore (h : Backed t₀ T l s) (hcov : Covered n T l s) :
    (∀ fd < n, (execRestoreRedirectionsPosix s).descriptors.get fd = t₀.get fd) ∧
      (execRestoreRedirectionsPosix s).openFds.getSavedFds = [] := by
  obtain ⟨hall, hnone⟩ := h.restore_all hcov
  exact ⟨fun fd hfd => hall fd fun _ => hfd, hnone⟩

/-! ## The save phase -/

@[simp] theorem setError_descriptors (msg : String) :
    (s.setError env msg).descriptors = s.descriptors := rfl

@[simp] theorem setError_openFds (msg : String) : (s.setError env msg).openFds = s.openFds := rfl

/-- Setting the error text leaves the saved copies alone. -/
theorem Backed.setError (h : Backed t₀ T l s) (msg : String) : Backed t₀ T l (s.setError env msg) :=
  ⟨h.same, h.copy, h.fresh, h.saved⟩

/-- A descriptor that can be duplicated is saved in the lowest free descriptor from 10 on. -/
theorem saveFd_true {fd : ℕ} (h : saveFd env s fd = (true, s')) :
    ∃ b t', s.descriptors.dupFrom fd 10 = some (b, t') ∧ s'.descriptors = t' ∧ s'.rest = s.rest ∧
      s'.openFds.getOriginalFd b = some fd ∧ b ∈ s'.openFds.getSavedFds ∧
      ∀ fd', fd' ≠ b → s'.openFds.find? fd' = s.openFds.find? fd' := by
  unfold saveFd at h
  split at h
  · cases h
  · rename_i b t' hdup
    cases h
    obtain ⟨e, hfind, hsaved, horig⟩ := FdTable.find?_markSaved_self
      (s.openFds.add b { saved := true, closeOnExec := true }
        (fdTableGenerateNameEx fd { saved := true, closeOnExec := true })) b fd
    refine ⟨b, t', hdup, rfl, rfl, ?_, ?_, ?_⟩
    · simp [FdTable.getOriginalFd, hfind, horig]
    · exact FdTable.mem_getSavedFds.mpr ⟨e, hfind, hsaved⟩
    · intro fd' hne
      rw [FdTable.find?_markSaved_of_ne _ _ hne, FdTable.find?_add_of_ne _ _ _ hne]

theorem saveFd_false {fd : ℕ} (h : saveFd env s fd = (false, s')) :
    s.descriptors.dupFrom fd 10 = none ∧ s'.descriptors = s.descriptors ∧
      s'.openFds = s.openFds := by
  unfold saveFd at h
  split at h
  · cases h
    exact ⟨by assumption, rfl, rfl⟩
  · cases h

/-- Saving one more descriptor adds one more copy. -/
theorem Backed.saveFd {fd : ℕ} (h : Backed t₀ (fun _ => False) l s)
    (hsave : Redirect.saveFd env s fd = (true, s')) (hfd : fd ∉ l)
    (hclear : ∀ d ∈ t₀.get fd, d.closeOnExec = false) :
    ∃ b t', s.descriptors.dupFrom fd 10 = some (b, t') ∧ s'.descriptors = t' ∧ s'.rest = s.rest ∧
      s'.openFds.getOriginalFd b = some fd ∧ b ∉ l ∧
      (∀ fd', fd' ≠ b → s'.openFds.find? fd' = s.openFds.find? fd') ∧
      Backed t₀ (fun _ => False) (b :: l) s' := by
  obtain ⟨b, t', hdup, hdesc, hrest, horig, hsaved, hfind⟩ := saveFd_true hsave
  obtain ⟨d, hd, rfl, rfl⟩ := Descriptors.dupFrom_eq_some hdup
  have hfree := Descriptors.get_lowestFree s.descriptors 10
  set b := s.descriptors.lowestFree 10
  have hbl : b ∉ l := by
    intro hb
    obtain ⟨o, d', -, -, -, hcopy⟩ := h.copy b hb
    rw [hfree] at hcopy
    cases hcopy
  have hne {b' : ℕ} (hb' : b' ∈ l) : b' ≠ b := fun heq => hbl (heq ▸ hb')
  have hd₀ : t₀.get fd = some d := (h.same fd hfd (by simp)).symm.trans hd
  refine ⟨b, _, hdup, hdesc, hrest, horig, hbl, hfind, ?_⟩
  constructor
  · intro fd' hfd' _
    rw [List.mem_cons, not_or] at hfd'
    rw [hdesc, Descriptors.get_set_of_ne _ _ hfd'.1]
    exact h.same fd' hfd'.2 (by simp)
  · intro b' hb'
    rcases List.mem_cons.mp hb' with rfl | hb'
    · refine ⟨fd, d, horig, hd₀, hclear d hd₀, ?_⟩
      rw [hdesc, Descriptors.get_set_self]
    · obtain ⟨o, d', horig', ho, hcl, hcopy⟩ := h.copy b' hb'
      refine ⟨o, d', ?_, ho, hcl, ?_⟩
      · rw [← horig']
        unfold FdTable.getOriginalFd
        rw [hfind b' (hne hb')]
      · rw [hdesc, Descriptors.get_set_of_ne _ _ (hne hb'), hcopy]
  · intro b' hb'
    rcases List.mem_cons.mp hb' with rfl | hb'
    · exact ⟨(h.same _ hbl (by simp)).symm.trans hfree, by simp⟩
    · exact h.fresh b' hb'
  · intro b'
    by_cases hb' : b' = b
    · simpa [hb'] using hsaved
    · rw [List.mem_cons, FdTable.mem_getSavedFds, hfind b' hb', ← FdTable.mem_getSavedFds,
        ← h.saved b']
      simp [hb']

theorem mem_toSave {fds : List ℕ} {fd : ℕ} :
    fd ∈ toSave env fds ↔ fd < env.fdSetsize ∧ fd ∈ fds := by
  simp [toSave]

/-- The save phase: the copies take free descriptors, and unless it fails every descriptor has
one. -/
theorem Backed.saveAll {fds : List ℕ} {ok : Bool} (h : Backed t₀ (fun _ => False) l s)
    (hsave : Redirect.saveAll env fds s = (ok, s'))
    (hapart : ∀ fd ∈ fds, fd ∉ l ∧ fd ∉ backups fds s.descriptors)
    (hmarked : ∀ fd ∈ fds, s.openFds.isRedirected fd = false)
    (hclear : ∀ fd ∈ fds, ∀ d ∈ t₀.get fd, d.closeOnExec = false) :
    ∃ l', Backed t₀ (fun _ => False) l' s' ∧
      (∀ b ∈ l', b ∈ l ∨ b ∈ backups fds s.descriptors ∧
        ∃ fd ∈ fds, s'.openFds.getOriginalFd b = some fd) ∧
      (∀ b ∈ l, b ∈ l' ∧ s'.openFds.getOriginalFd b = s.openFds.getOriginalFd b) ∧
      (∀ fd, fd ∉ l' → s'.openFds.find? fd = s.openFds.find? fd) ∧
      (ok = true → s'.rest = s.rest ∧ ∀ fd ∈ fds, ∃ b ∈ l', s'.openFds.getOriginalFd b = some fd) := by
  induction fds generalizing l s with
  | nil =>
    cases hsave
    exact ⟨l, h, fun b hb => .inl hb, fun b hb => ⟨hb, rfl⟩, fun _ _ => rfl, fun _ => ⟨rfl, by simp⟩⟩
  | cons fd fds ih =>
    have hhead : s.openFds.isRedirected fd = false := hmarked fd List.mem_cons_self
    rw [Redirect.saveAll, hhead, if_neg Bool.false_ne_true] at hsave
    split at hsave
    · rename_i s₁ hone
      obtain ⟨b, t', hdup, hdesc, hrest, horig, hbl, hfind, hback⟩ :=
        h.saveFd hone (hapart fd List.mem_cons_self).1 (hclear fd List.mem_cons_self)
      have hbackups : backups (fd :: fds) s.descriptors = b :: backups fds s₁.descriptors := by
        simp [backups, hdup, hdesc]
      rw [hbackups] at hapart
      have hne {fd' : ℕ} (hfd' : fd' ∈ fds) : fd' ≠ b ∧ fd' ∉ backups fds s₁.descriptors := by
        simpa using (hapart fd' (List.mem_cons_of_mem fd hfd')).2
      have hmarked' : ∀ fd' ∈ fds, s₁.openFds.isRedirected fd' = false := by
        intro fd' hfd'
        rw [← hmarked fd' (List.mem_cons_of_mem fd hfd')]
        simp only [FdTable.isRedirected, hfind fd' (hne hfd').1]
      have hapart' : ∀ fd' ∈ fds, fd' ∉ b :: l ∧ fd' ∉ backups fds s₁.descriptors := by
        intro fd' hfd'
        refine ⟨?_, (hne hfd').2⟩
        rw [List.mem_cons, not_or]
        exact ⟨(hne hfd').1, (hapart fd' (List.mem_cons_of_mem fd hfd')).1⟩
      obtain ⟨l', hback', hsub, hkeep, hsame, hdone⟩ := ih hback hsave hapart' hmarked'
        fun fd' hfd' => hclear fd' (List.mem_cons_of_mem fd hfd')
      refine ⟨l', hback', ?_, ?_, ?_, ?_⟩
      · intro b' hb'
        rw [hbackups]
        rcases hsub b' hb' with hb' | ⟨hb', fd', hfd', horig'⟩
        · rcases List.mem_cons.mp hb' with rfl | hb'
          · exact .inr ⟨List.mem_cons_self, fd, List.mem_cons_self,
              (hkeep b' List.mem_cons_self).2.trans horig⟩
          · exact .inl hb'
        · exact .inr ⟨List.mem_cons_of_mem b hb', fd', List.mem_cons_of_mem fd hfd', horig'⟩
      · intro b' hb'
        obtain ⟨hmem, heq⟩ := hkeep b' (List.mem_cons_of_mem b hb')
        refine ⟨hmem, heq.trans ?_⟩
        have hbb : b' ≠ b := fun heq => hbl (heq ▸ hb')
        simp only [FdTable.getOriginalFd, hfind b' hbb]
      · intro fd' hfd'
        have hfdb : fd' ≠ b := fun heq => hfd' (heq ▸ (hkeep b List.mem_cons_self).1)
        rw [hsame fd' hfd', hfind fd' hfdb]
      · intro hok
        obtain ⟨hrest', hall⟩ := hdone hok
        refine ⟨hrest'.trans hrest, fun fd' hfd' => ?_⟩
        rcases List.mem_cons.mp hfd' with rfl | hfd'
        · obtain ⟨hmem, heq⟩ := hkeep b List.mem_cons_self
          exact ⟨b, hmem, heq.trans horig⟩
        · exact hall fd' hfd'
    · rename_i s₁ hone
      cases hsave
      obtain ⟨-, hdesc, hopen⟩ := saveFd_false hone
      refine ⟨l, ⟨?_, ?_, h.fresh, ?_⟩, fun b hb => .inl hb, fun b hb => ⟨hb, by rw [hopen]⟩,
        fun _ _ => by rw [hopen], fun hok => absurd hok Bool.false_ne_true⟩
      · simpa only [hdesc] using h.same
      · simpa only [hdesc, hopen] using h.copy
      · simpa only [hopen] using h.saved

/-! ## The apply phase -/

/-- A step of the apply phase changes only descriptors in `T`; unless it fails the rest of the
system has moved on by expansions and file system calls only. -/
structure Kept (env : Env δ ρ) (r₀ : ρ) (T : ℕ → Prop) (s : FdState δ ρ) (r : Bool × FdState δ ρ) :
    Prop where
  touches : Touches T s r.2
  later : r.1 = true → Later env r₀ r.2.rest

variable {r₀ : ρ} {target : ℕ}

/-- Changing the rest of the system touches no descriptor. -/
theorem touches_rest (rest : ρ) : Touches T s { s with rest } := ⟨fun _ _ => rfl, .refl _⟩

theorem Kept.fail {msg : String} (h : Touches T s s') : Kept env r₀ T s (false, s'.setError env msg) :=
  ⟨h.trans (touches_rest _), fun hok => absurd hok Bool.false_ne_true⟩

theorem Kept.of_rest {rest : ρ} {r : Bool × FdState δ ρ}
    (h : Kept env r₀ T { s with rest } r) : Kept env r₀ T s r :=
  ⟨(touches_rest rest).trans h.touches, h.later⟩

theorem install_kept (hT : T target) (hlater : Later env r₀ s.rest) (file : δ) (path purpose : String) :
    Kept env r₀ T s (install env s target file path purpose) := by
  have hfree := Descriptors.get_lowestFree s.descriptors 0
  have hset : ∀ fd, fd ≠ s.descriptors.lowestFree 0 →
      (s.descriptors.openFile file).2.get fd = s.descriptors.get fd :=
    fun fd hfd => Descriptors.get_set_of_ne _ _ hfd
  unfold install
  simp only
  split
  · apply Kept.fail
    exact ⟨fun fd _ => Descriptors.get_discard_fresh hfree hset fd, .refl _⟩
  · rename_i t' hdup
    refine ⟨⟨fun fd hfd => ?_, FdTable.touches_add rfl hT⟩, fun _ => hlater⟩
    exact Descriptors.get_discard_dup2 hfree hset hdup (by rintro rfl; exact hfd hT)

theorem applyFile_kept (hT : T target) (hlater : Later env r₀ s.rest) (type : RedirectionType)
    (isExpanded : Bool) (filename : Option String) (tok : Option Token) :
    Kept env r₀ T s (applyFile env s target type isExpanded filename tok) := by
  have hname : Later env r₀ (fileName env isExpanded filename tok s.rest).2 := by
    unfold fileName
    split_ifs
    · exact hlater
    · split
      · exact hlater.expand _
      · exact hlater
  unfold applyFile
  split
  · exact .fail (touches_rest _)
  · rename_i fname rest heq
    rw [heq] at hname
    split
    · exact .fail (touches_rest _)
    · rename_i flags _
      have hopen := hname.open_ fname flags
      split
      · exact .fail (touches_rest _)
      · rename_i file rest' hfile
        rw [hfile] at hopen
        exact (install_kept hT hopen file fname "").of_rest

theorem applyClose_kept (hT : T target) (hlater : Later env r₀ s.rest) :
    Kept env r₀ T s (applyClose env s target) := by
  unfold applyClose
  split
  · exact .fail (.refl s)
  · rename_i t' hclose
    refine ⟨⟨fun fd hfd => ?_, ?_⟩, fun _ => hlater⟩
    · rw [Descriptors.close_eq_some hclose]
      exact Descriptors.get_set_of_ne _ _ (by rintro rfl; exact hfd hT)
    · exact (FdTable.touches_markClosed hT).trans (FdTable.touches_clearRedirected hT)

theorem closeSource_touches {source : ℕ} (hT : T source) :
    Touches T s (closeSource s target source) := by
  unfold closeSource
  split_ifs
  · exact .refl s
  · split
    · exact .refl s
    · rename_i t' hclose
      refine ⟨fun fd hfd => ?_, ?_⟩
      · rw [Descriptors.close_eq_some hclose]
        exact Descriptors.get_set_of_ne _ _ (by rintro rfl; exact hfd hT)
      · exact (FdTable.touches_markClosed hT).trans (FdTable.touches_remove hT)

theorem applyDup_kept {source : ℕ} {closeAfterUse : Bool} (hT : T target)
    (hsource : closeAfterUse = true → T source) (hlater : Later env r₀ s.rest) :
    Kept env r₀ T s (applyDup env s target source closeAfterUse) := by
  unfold applyDup
  split
  · exact .fail (.refl s)
  · rename_i t' hdup
    set s₁ : FdState δ ρ :=
      { s with descriptors := t'
               openFds := s.openFds.add target { redirected := true }
                 (fdTableGenerateNameEx source { redirected := true }) }
    have hs₁ : Touches T s s₁ := by
      refine ⟨fun fd hfd => ?_, FdTable.touches_add rfl hT⟩
      exact Descriptors.get_dup2_of_ne hdup (by rintro rfl; exact hfd hT)
    cases closeAfterUse with
    | false => exact ⟨hs₁, fun _ => hlater⟩
    | true =>
      refine ⟨hs₁.trans (closeSource_touches (hsource rfl)), fun _ => ?_⟩
      simp only [if_true, closeSource_rest]
      exact hlater

theorem applyFd_kept {fixedFd : Int} {fdExpression : Option String} {fdToken : Option Token}
    (hT : T target) (hlater : Later env r₀ s.rest)
    (hsource : ∀ source,
      moveSource (fdText env fixedFd fdExpression fdToken s.rest).1 = some source → T source) :
    Kept env r₀ T s (applyFd env s target fixedFd fdExpression fdToken) := by
  have hrest := fdText_later hlater fixedFd fdExpression fdToken
  unfold applyFd
  split
  · exact .fail (touches_rest _)
  · rename_i text rest heq
    rw [heq] at hrest hsource
    split
    · exact .fail (touches_rest _)
    · exact (applyClose_kept hT hrest).of_rest
    · rename_i source closeAfterUse hparse
      refine (applyDup_kept hT ?_ hrest).of_rest
      rintro rfl
      exact hsource source (by simp [moveSource, hparse])

theorem applyTempFile_kept (hT : T target) (hlater : Later env r₀ s.rest) (text : String) :
    Kept env r₀ T s (applyTempFile env s target text) := by
  have htemp := hlater.temp
  unfold applyTempFile
  split
  · exact .fail (touches_rest _)
  · rename_i file rest heq
    rw [heq] at htemp
    have hwrite := htemp.write file text
    split
    · exact .fail (touches_rest _)
    · rename_i rest' hw
      rw [hw] at hwrite
      exact (install_kept hT hwrite file _ _).of_rest

theorem applyPipe_kept (hT : T target) (hlater : Later env r₀ s.rest) (text : String) :
    Kept env r₀ T s (applyPipe env s target text) := by
  have hpipe := hlater.pipe
  unfold applyPipe
  split
  · exact .fail (touches_rest _)
  · rename_i readEnd writeEnd rest heq
    rw [heq] at hpipe
    have hwrite := hpipe.write writeEnd text
    have hfree := Descriptors.get_lowestFree s.descriptors 0
    simp only
    split
    · apply Kept.fail
      obtain ⟨hnew, hrest⟩ := Descriptors.get_pipe_discard_read s.descriptors readEnd writeEnd
      exact ⟨fun fd _ => Descriptors.get_discard_fresh hnew hrest fd, .refl _⟩
    · rename_i rest' hw
      rw [hw] at hwrite
      have hread := fun fd hfd =>
        @Descriptors.get_pipe_discard_write _ s.descriptors readEnd writeEnd fd hfd
      split
      · apply Kept.fail
        exact ⟨fun fd _ => Descriptors.get_discard_fresh hfree hread fd, .refl _⟩
      · rename_i t' hdup
        refine ⟨⟨fun fd hfd => ?_, FdTable.touches_add rfl hT⟩, fun _ => hwrite⟩
        exact Descriptors.get_discard_dup2 hfree hread hdup (by rintro rfl; exact hfd hT)

theorem applyBuffer_kept (hT : T target) (hlater : Later env r₀ s.rest) (content : Option String)
    (needsExpansion : Bool) : Kept env r₀ T s (applyBuffer env s target content needsExpansion) := by
  have htext : Later env r₀ (heredocText env content needsExpansion s.rest).2 := by
    unfold heredocText
    split
    · exact hlater
    · split_ifs
      · exact hlater.heredoc _
      · exact hlater
  unfold applyBuffer
  split
  · exact .fail (touches_rest _)
  · rename_i text rest heq
    rw [heq] at htext
    split_ifs
    · exact (applyTempFile_kept hT htext text).of_rest
    · exact (applyPipe_kept hT htext text).of_rest

/-- One redirection changes its target and the source of its move. -/
theorem applyOne_kept {r : ExecRedirection} (hT : T (redirectionDefaultFd r))
    (hlater : Later env r₀ s.rest)
    (hsource : ∀ source, moveSourceOf env r s.rest = some source → T source) :
    Kept env r₀ T s (applyOne env s r) := by
  unfold moveSourceOf at hsource
  unfold applyOne
  simp only
  cases htarget : r.target with
  | file isExpanded filename tok => exact applyFile_kept hT hlater _ _ _ _
  | fd fixedFd fdExpression fdToken =>
    rw [htarget] at hsource
    exact applyFd_kept hT hlater hsource
  | close => exact applyClose_kept hT hlater
  | buffer content needsExpansion => exact applyBuffer_kept hT hlater _ _
  | other kind => exact .fail (.refl s)

/-- The apply phase changes only what the list changes. -/
theorem applyAll_touches {redirs : List ExecRedirection} (hlater : Later env r₀ s.rest)
    (hchanges : ∀ fd, Changes env redirs r₀ fd → T fd)
    (hsettled : ∀ r ∈ redirs, ∀ rest, Later env r₀ rest →
      moveSourceOf env r rest = moveSourceOf env r r₀) :
    Touches T s (applyAll env redirs s).2 := by
  induction redirs generalizing s with
  | nil => exact .refl s
  | cons r rs ih =>
    have hone : Kept env r₀ T s (applyOne env s r) := by
      apply applyOne_kept (hchanges _ ⟨r, List.mem_cons_self, .inl rfl⟩) hlater
      intro source hsource
      rw [hsettled r List.mem_cons_self s.rest hlater] at hsource
      exact hchanges source ⟨r, List.mem_cons_self, .inr hsource⟩
    rw [applyAll]
    split
    · rename_i s₁ heq
      rw [heq] at hone
      apply hone.touches.trans
      apply ih (hone.later rfl)
      · rintro fd ⟨r', hr', hfd⟩
        exact hchanges fd ⟨r', List.mem_cons_of_mem r hr', hfd⟩
      · exact fun r' hr' => hsettled r' (List.mem_cons_of_mem r hr')
    · rename_i s₁ heq
      rw [heq] at hone
      exact hone.touches

/-! ## One scope -/

/-- What one apply in a trusted state leaves behind: on success copies of everything the list
changes, on failure the state as it was. -/
theorem Trusted.apply {redirs : List ExecRedirection} (h : Trusted env redirs s) {ok : Bool}
    (happly : execApplyRedirectionsPosix env s redirs = (ok, s')) :
    (ok = true → ∃ l, Backed s.descriptors (Changes env redirs s.rest) l s' ∧
      Covered env.fdSetsize (Changes env redirs s.rest) l s') ∧
    (ok = false → SameBelow env.fdSetsize s s' ∧ s'.openFds.getSavedFds = []) := by
  by_cases hnil : redirs = []
  · rw [execApplyRedirectionsPosix, if_pos hnil] at happly
    cases happly
    refine ⟨fun _ => ⟨[], ?_, ?_⟩, fun hok => absurd hok.symm Bool.false_ne_true⟩
    · have hstart := Backed.start h.unsaved
      exact ⟨fun fd hl _ => hstart.same fd hl (by simp), by simp, by simp, hstart.saved⟩
    · rintro fd - ⟨r, hr, -⟩
      simp [hnil] at hr
  · rw [execApplyRedirectionsPosix_of_ne_nil env s hnil] at happly
    set fds := (willRedirect env redirs s.rest).1 with hfds
    set s₀ : FdState δ ρ := { s with rest := (willRedirect env redirs s.rest).2 }
    have hlater : Later env s.rest s₀.rest := willRedirect_later .start redirs
    have hmem {fd : ℕ} : fd ∈ fds ↔ Changes env redirs s.rest fd :=
      mem_willRedirect .start h.settled
    have hstart : Backed s.descriptors (fun _ => False) [] s₀ := by
      have := Backed.start h.unsaved
      exact ⟨this.same, this.copy, this.fresh, this.saved⟩
    cases hsave : saveAll env (toSave env fds) s₀ with | mk ok₁ s₁ =>
    rw [hsave] at happly
    obtain ⟨l, hback, hsub, -, -, hdone⟩ := hstart.saveAll hsave
      (fun fd hfd => ⟨by simp, h.apart fd (hmem.mp (mem_toSave.mp hfd).2)⟩)
      (fun fd hfd => h.unmarked fd (mem_toSave.mp hfd).1 (hmem.mp (mem_toSave.mp hfd).2))
      (fun fd hfd => h.inherited fd (mem_toSave.mp hfd).1 (hmem.mp (mem_toSave.mp hfd).2))
    -- A failure restores what the copies stand for; a success goes on with the apply phase.
    cases ok₁ with
    | false =>
      cases happly
      refine ⟨fun hok => absurd hok Bool.false_ne_true, fun _ => ?_⟩
      exact hback.restore (n := env.fdSetsize) fun fd _ hT => absurd hT (by simp)
    | true =>
      obtain ⟨hrest, hcopied⟩ := hdone rfl
      have hfresh : ∀ b ∈ l, ¬ Changes env redirs s.rest b := by
        intro b hb hchange
        rcases hsub b hb with hb | ⟨hb, -⟩
        · simp at hb
        · exact h.apart b hchange hb
      have hback' : Backed s.descriptors (Changes env redirs s.rest) l s₁ :=
        ⟨fun fd hl _ => hback.same fd hl (by simp), hback.copy,
          fun b hb => ⟨(hback.fresh b hb).1, hfresh b hb⟩, hback.saved⟩
      have hcov : Covered env.fdSetsize (Changes env redirs s.rest) l s₁ :=
        fun fd hfd hT => hcopied fd (mem_toSave.mpr ⟨hfd, hmem.mpr hT⟩)
      have htouch : Touches (Changes env redirs s.rest) s₁ (applyAll env redirs s₁).2 :=
        applyAll_touches (by rw [hrest]; exact hlater) (fun _ hfd => hfd) h.settled
      cases hall : applyAll env redirs s₁ with | mk ok₂ s₂ =>
      rw [hall] at htouch
      simp only [hall] at happly
      cases ok₂ with
      | false =>
        cases happly
        refine ⟨fun hok => absurd hok Bool.false_ne_true, fun _ => ?_⟩
        exact (hback'.touch htouch).restore (hcov.touch hfresh htouch)
      | true =>
        cases happly
        exact ⟨fun _ => ⟨l, hback'.touch htouch, hcov.touch hfresh htouch⟩,
          fun hok => absurd hok.symm Bool.false_ne_true⟩

/-! ## Runs -/

theorem SameBelow.trans (h : SameBelow n s s') (h' : SameBelow n s' s'') : SameBelow n s s'' :=
  fun fd hfd => (h' fd hfd).trans (h fd hfd)

/-- Without a saved copy there is nothing to restore. -/
theorem restore_of_unsaved (h : s.openFds.getSavedFds = []) :
    execRestoreRedirectionsPosix s = s := by
  simp [execRestoreRedirectionsPosix, h]

theorem unsaved_of_allTrusted {redirs : List ExecRedirection} {body rest : Nest}
    (h : AllTrusted env (.scope redirs body rest) s) : s.openFds.getSavedFds = [] := h.1.unsaved

/-- The restore at the end of a scope whose apply was trusted: either nothing ran inside it, or
what ran inside was trusted too, and then there is no copy to replay. -/
theorem Trusted.restore {redirs : List ExecRedirection} {body : Nest} (h : Trusted env redirs s)
    (happly : execApplyRedirectionsPosix env s redirs = (true, s'))
    (hbody : AllTrusted env body s')
    (hinner : s'.openFds.getSavedFds = [] → SameBelow env.fdSetsize s' (run env body s') ∧
      (run env body s').openFds.getSavedFds = []) :
    SameBelow env.fdSetsize s (execRestoreRedirectionsPosix (run env body s')) ∧
      (execRestoreRedirectionsPosix (run env body s')).openFds.getSavedFds = [] := by
  obtain ⟨l, hback, hcov⟩ := (h.apply happly).1 rfl
  cases body with
  | done => exact hback.restore hcov
  | scope redirs' body' rest' =>
    have hunsaved := unsaved_of_allTrusted hbody
    obtain ⟨hsame, hnone⟩ := hinner hunsaved
    rw [restore_of_unsaved hnone]
    have hl : ∀ b, b ∉ l := fun b hb => by simpa [hunsaved] using (hback.saved b).mp hb
    refine ⟨SameBelow.trans (fun fd hfd => ?_) hsame, hnone⟩
    apply hback.same fd (hl fd)
    intro hchange
    obtain ⟨b, hb, -⟩ := hcov fd hfd hchange
    exact hl b hb

/-- A sequence of trusted scopes restores, and it leaves no saved copy if it found none. -/
theorem AllTrusted.run {scopes : Nest} (h : AllTrusted env scopes s) :
    Restores env scopes s ∧
      (s.openFds.getSavedFds = [] → SameBelow env.fdSetsize s (run env scopes s) ∧
        (run env scopes s).openFds.getSavedFds = []) := by
  induction scopes generalizing s with
  | done => exact ⟨trivial, fun hnone => ⟨fun _ _ => rfl, hnone⟩⟩
  | scope redirs body rest ihbody ihrest =>
    obtain ⟨htrust, hbody, hrest⟩ := h
    have hafter : SameBelow env.fdSetsize s (afterScope env redirs body s) ∧
        (afterScope env redirs body s).openFds.getSavedFds = [] := by
      unfold afterScope
      cases happly : execApplyRedirectionsPosix env s redirs with | mk ok s' =>
      cases ok with
      | false => exact (htrust.apply happly).2 rfl
      | true =>
        rw [happly] at hbody
        exact htrust.restore happly (hbody rfl) (ihbody (hbody rfl)).2
    obtain ⟨hrestores, hrun⟩ := ihrest hrest
    refine ⟨⟨hafter.1, fun hok => (ihbody (hbody hok)).1, hrestores⟩, fun _ => ?_⟩
    rw [run_scope]
    obtain ⟨hsame, hnone⟩ := hrun hafter.2
    exact ⟨hafter.1.trans hsame, hnone⟩

/-- Properly nested scopes restore what they found, below `FD_SETSIZE`, and leave the
redirections around them in force, when every apply starts in a trusted state. -/
theorem restores_of_allTrusted (scopes : Nest) (s : FdState δ ρ) (h : AllTrusted env scopes s) :
    Restores env scopes s := h.run.1

/-! ## A shell on a terminal -/

/-- A system where every word is literal and every file opens; a file is known by its name. -/
def plainEnv : Env String Unit where
  fdSetsize := 1024
  noclobber _ := false
  expandRedirectionTarget tok rest := (some tok.getAllText, rest)
  expandHeredoc body rest := (some body, rest)
  openFile name _ rest := (.ok name, rest)
  mkstemp rest := (.ok "heredoc", rest)
  pipe rest := (.ok ("read end", "write end"), rest)
  write _ _ rest := (.ok (), rest)
  setError _ rest := rest

/-- The three standard descriptors are open on a terminal. -/
def onTerminal : FdState String Unit where
  descriptors := [0, 1, 2].foldl (fun t fd => t.set fd (some { file := "tty" })) .empty
  openFds := {}
  rest := ()

/-- `fd> name`. -/
def writeTo (fd : ℕ) (name : String) : ExecRedirection where
  type := .write
  explicitFd := fd
  target := .file true (some name) none

theorem onTerminal_trusted : Trusted plainEnv [writeTo 1 "log"] onTerminal where
  unsaved := rfl
  unmarked _ _ _ := rfl
  inherited fd _ h d hd := by
    obtain ⟨r, hr, hfd⟩ := h
    obtain rfl := List.mem_singleton.mp hr
    rcases hfd with rfl | hfd
    · cases hd
      rfl
    · cases hfd
  apart fd h := by
    obtain ⟨r, hr, hfd⟩ := h
    obtain rfl := List.mem_singleton.mp hr
    rcases hfd with rfl | hfd
    · decide +kernel
    · cases hfd
  settled r hr rest _ := by
    obtain rfl := List.mem_singleton.mp hr
    rfl

theorem trusted_nil (h : s.openFds.getSavedFds = []) : Trusted env [] s where
  unsaved := h
  unmarked := by simp [Changes]
  inherited := by simp [Changes]
  apart := by simp [Changes]
  settled := by simp

/-- A redirection inside a scope that redirects nothing. -/
theorem restores_inside_empty_scope :
    Restores plainEnv (.scope [] (.scope [writeTo 1 "log"] .done .done) .done) onTerminal := by
  apply restores_of_allTrusted
  exact ⟨trusted_nil rfl, fun _ => ⟨onTerminal_trusted, fun _ => trivial, trivial⟩, trivial⟩

/-- `1>a` around `2>b`: the restore of the inner scope also undoes the outer one. -/
theorem inner_restore_undoes_outer :
    ¬ Restores plainEnv (.scope [writeTo 1 "a"] (.scope [writeTo 2 "b"] .done .done) .done)
      onTerminal := by
  intro h
  have hinner := (h.2.1 (by decide +kernel)).1 1 (by decide +kernel)
  exact absurd hinner (by decide +kernel)

end Migash.Redirect
