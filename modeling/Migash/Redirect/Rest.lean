import Migash.Redirect.Apply

/-! # Everything but the descriptors

Redirecting reaches the rest of the shell through the functions of its
environment only, so that a relation these keep is kept by a whole list.
-/

namespace Migash.Redirect

open Library

variable {δ ρ : Type} {env : Env δ ρ} {r : ρ → ρ → Prop}

/-- Every function of the environment leaves a state that is related to the one it is given, by a
preorder. -/
structure Env.KeepsRest (env : Env δ ρ) (r : ρ → ρ → Prop) : Prop where
  refl : ∀ rest, r rest rest
  trans : ∀ {rest rest' rest''}, r rest rest' → r rest' rest'' → r rest rest''
  expandRedirectionTarget : ∀ tok rest, r rest (env.expandRedirectionTarget tok rest).2
  expandHeredoc : ∀ text rest, r rest (env.expandHeredoc text rest).2
  openFile : ∀ path flags rest, r rest (env.openFile path flags rest).2
  mkstemp : ∀ rest, r rest (env.mkstemp rest).2
  pipe : ∀ rest, r rest (env.pipe rest).2
  write : ∀ file text rest, r rest (env.write file text rest).2
  setError : ∀ text rest, r rest (env.setError text rest)

section

variable (h : env.KeepsRest r)
include h

/-! ## What a list is about to change -/

theorem fdText_rest (fixedFd : Int) (fdExpression : Option String) (fdToken : Option Token)
    (rest : ρ) : r rest (fdText env fixedFd fdExpression fdToken rest).2 := by
  unfold fdText
  split
  · exact h.refl rest
  · split_ifs
    · exact h.refl rest
    · split
      · exact h.expandRedirectionTarget _ rest
      · exact h.refl rest

theorem redirected_rest (redir : ExecRedirection) (rest : ρ) :
    r rest (redirected env redir rest).2 := by
  unfold redirected
  split
  · exact fdText_rest h _ _ _ rest
  · exact h.refl rest

theorem willRedirect_rest (redirs : List ExecRedirection) (rest : ρ) :
    r rest (willRedirect env redirs rest).2 := by
  induction redirs generalizing rest with
  | nil => exact h.refl rest
  | cons redir redirs ih => exact h.trans (redirected_rest h redir rest) (ih _)

/-! ## Saving and applying -/

variable (s : FdState δ ρ)

theorem saveFd_rest (fd : ℕ) : r s.rest (saveFd env s fd).2.rest := by
  unfold saveFd
  split
  · exact h.setError _ s.rest
  · exact h.refl s.rest

theorem saveAll_rest (fds : List ℕ) : r s.rest (saveAll env fds s).2.rest := by
  induction fds generalizing s with
  | nil => exact h.refl s.rest
  | cons fd fds ih =>
    rw [saveAll]
    split_ifs
    · exact ih s
    · have hone := saveFd_rest h s fd
      split
      · next t heq =>
        rw [heq] at hone
        exact h.trans hone (ih t)
      · next t heq =>
        rw [heq] at hone
        exact hone

theorem install_rest (target : ℕ) (file : δ) (path purpose : String) :
    r s.rest (install env s target file path purpose).2.rest := by
  unfold install
  dsimp only
  split
  · exact h.setError _ s.rest
  · exact h.refl s.rest

theorem fileName_rest (isExpanded : Bool) (filename : Option String) (tok : Option Token)
    (rest : ρ) : r rest (fileName env isExpanded filename tok rest).2 := by
  unfold fileName
  split_ifs
  · exact h.refl rest
  · split
    · exact h.expandRedirectionTarget _ rest
    · exact h.refl rest

theorem applyFile_rest (target : ℕ) (type : RedirectionType) (isExpanded : Bool)
    (filename : Option String) (tok : Option Token) :
    r s.rest (applyFile env s target type isExpanded filename tok).2.rest := by
  have hname := fileName_rest h isExpanded filename tok s.rest
  unfold applyFile
  split
  · next rest heq =>
    rw [heq] at hname
    exact h.trans hname (h.setError _ rest)
  · next fname rest heq =>
    rw [heq] at hname
    split
    · exact h.trans hname (h.setError _ rest)
    · next flags _ =>
      have hopen := h.trans hname (h.openFile fname flags rest)
      split
      · next e rest' heq' =>
        rw [heq'] at hopen
        exact h.trans hopen (h.setError _ rest')
      · next file rest' heq' =>
        rw [heq'] at hopen
        exact h.trans hopen (install_rest h { s with rest := rest' } target file fname "")

theorem applyClose_rest (target : ℕ) : r s.rest (applyClose env s target).2.rest := by
  unfold applyClose
  split
  · exact h.setError _ s.rest
  · exact h.refl s.rest

theorem applyDup_rest (target source : ℕ) (closeAfterUse : Bool) :
    r s.rest (applyDup env s target source closeAfterUse).2.rest := by
  unfold applyDup
  split
  · exact h.setError _ s.rest
  · dsimp only
    split_ifs
    · rw [closeSource_rest]
      exact h.refl s.rest
    · exact h.refl s.rest

theorem applyFd_rest (target : ℕ) (fixedFd : Int) (fdExpression : Option String)
    (fdToken : Option Token) :
    r s.rest (applyFd env s target fixedFd fdExpression fdToken).2.rest := by
  have htext := fdText_rest h fixedFd fdExpression fdToken s.rest
  unfold applyFd
  split
  · next rest heq =>
    rw [heq] at htext
    exact h.trans htext (h.setError _ rest)
  · next text rest heq =>
    rw [heq] at htext
    split
    · exact h.trans htext (h.setError _ rest)
    · exact h.trans htext (applyClose_rest h { s with rest } target)
    · exact h.trans htext (applyDup_rest h { s with rest } target _ _)

theorem heredocText_rest (content : Option String) (needsExpansion : Bool) (rest : ρ) :
    r rest (heredocText env content needsExpansion rest).2 := by
  unfold heredocText
  split
  · exact h.refl rest
  · split_ifs
    · exact h.expandHeredoc _ rest
    · exact h.refl rest

theorem applyTempFile_rest (target : ℕ) (text : String) :
    r s.rest (applyTempFile env s target text).2.rest := by
  have hmake := h.mkstemp s.rest
  unfold applyTempFile
  split
  · next e rest heq =>
    rw [heq] at hmake
    exact h.trans hmake (h.setError _ rest)
  · next file rest heq =>
    rw [heq] at hmake
    have hwrite := h.trans hmake (h.write file text rest)
    split
    · next e rest' heq' =>
      rw [heq'] at hwrite
      exact h.trans hwrite (h.setError _ rest')
    · next rest' heq' =>
      rw [heq'] at hwrite
      exact h.trans hwrite (install_rest h { s with rest := rest' } target file _ _)

theorem applyPipe_rest (target : ℕ) (text : String) :
    r s.rest (applyPipe env s target text).2.rest := by
  have hmake := h.pipe s.rest
  unfold applyPipe
  split
  · next e rest heq =>
    rw [heq] at hmake
    exact h.trans hmake (h.setError _ rest)
  · next readEnd writeEnd rest heq =>
    rw [heq] at hmake
    have hwrite := h.trans hmake (h.write writeEnd text rest)
    dsimp only
    split
    · next e rest' heq' =>
      rw [heq'] at hwrite
      exact h.trans hwrite (h.setError _ rest')
    · next rest' heq' =>
      rw [heq'] at hwrite
      split
      · exact h.trans hwrite (h.setError _ rest')
      · exact hwrite

theorem applyBuffer_rest (target : ℕ) (content : Option String) (needsExpansion : Bool) :
    r s.rest (applyBuffer env s target content needsExpansion).2.rest := by
  have htext := heredocText_rest h content needsExpansion s.rest
  unfold applyBuffer
  split
  · next rest heq =>
    rw [heq] at htext
    exact h.trans htext (h.setError _ rest)
  · next text rest heq =>
    rw [heq] at htext
    split_ifs
    · exact h.trans htext (applyTempFile_rest h { s with rest } target text)
    · exact h.trans htext (applyPipe_rest h { s with rest } target text)

theorem applyOne_rest (redir : ExecRedirection) : r s.rest (applyOne env s redir).2.rest := by
  unfold applyOne
  dsimp only
  split
  · exact applyFile_rest h s _ _ _ _ _
  · exact applyFd_rest h s _ _ _ _
  · exact applyClose_rest h s _
  · exact applyBuffer_rest h s _ _ _
  · exact h.setError _ s.rest

theorem applyAll_rest (redirs : List ExecRedirection) :
    r s.rest (applyAll env redirs s).2.rest := by
  induction redirs generalizing s with
  | nil => exact h.refl s.rest
  | cons redir redirs ih =>
    have hone := applyOne_rest h s redir
    rw [applyAll]
    split
    · next t heq =>
      rw [heq] at hone
      exact h.trans hone (ih t)
    · next t heq =>
      rw [heq] at hone
      exact hone

end

/-! ## Restoring -/

theorem restoreFd_rest (s : FdState δ ρ) (backup : ℕ) : (restoreFd s backup).rest = s.rest := by
  unfold restoreFd
  split <;> rfl

theorem execRestoreRedirectionsPosix_rest (s : FdState δ ρ) :
    (execRestoreRedirectionsPosix s).rest = s.rest := by
  have hfold : ∀ (fds : List ℕ) (s : FdState δ ρ), (fds.foldl restoreFd s).rest = s.rest := by
    intro fds
    induction fds with
    | nil => intro s; rfl
    | cons fd fds ih =>
      intro s
      rw [List.foldl_cons, ih, restoreFd_rest]
  exact hfold _ s

/-- A list of redirections keeps what the functions of its environment keep. -/
theorem execApplyRedirectionsPosix_rest (h : env.KeepsRest r)
    (s : FdState δ ρ) (redirs : List ExecRedirection) :
    r s.rest (execApplyRedirectionsPosix env s redirs).2.rest := by
  unfold execApplyRedirectionsPosix
  split_ifs
  · exact h.refl s.rest
  · have hwill := willRedirect_rest h redirs s.rest
    dsimp only
    have hsave := saveAll_rest h { s with rest := (willRedirect env redirs s.rest).2 }
      (toSave env (willRedirect env redirs s.rest).1)
    split
    · next t heq =>
      rw [heq] at hsave
      rw [execRestoreRedirectionsPosix_rest]
      exact h.trans hwill hsave
    · next t heq =>
      rw [heq] at hsave
      have happly := applyAll_rest h t redirs
      have hall := h.trans hwill (h.trans hsave happly)
      split
      · next u heq' =>
        rw [heq'] at hall
        rw [execRestoreRedirectionsPosix_rest]
        exact hall
      · next u heq' =>
        rw [heq'] at hall
        exact hall

end Migash.Redirect
