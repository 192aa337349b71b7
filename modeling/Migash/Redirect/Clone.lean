import Migash.FuncStore
import Migash.Library.Gives

/-! # Copies of runtime redirections

A copied redirection is applied like the one it was made from unless its file
name was known before: the copy forgets that the name is already expanded and
has no token to expand instead.
-/

namespace Migash

open Library Redirect

/-- The copy of one redirection. -/
def Redirect.ExecRedirection.clone (r : ExecRedirection) : ExecRedirection :=
  { r with target := r.target.clone }

/-- A copy is applied as the redirections themselves: each of them from any state in the same way,
and the whole list with the same result. -/
structure AppliesAlike (redirs copies : List ExecRedirection) : Prop where
  each : List.Forall₂ (fun r c => ∀ (δ ρ : Type) (env : Redirect.Env δ ρ) (s : FdState δ ρ),
    applyOne env s c = applyOne env s r) redirs copies
  whole : ∀ (δ ρ : Type) (env : Redirect.Env δ ρ) (s : FdState δ ρ),
    execApplyRedirectionsPosix env s copies = execApplyRedirectionsPosix env s redirs

theorem AppliesAlike.refl (redirs : List ExecRedirection) : AppliesAlike redirs redirs where
  each := List.forall₂_same.mpr fun _ _ _ _ _ _ => rfl
  whole _ _ _ _ := rfl

/-- A redirection to a file whose name is a literal word. -/
def Redirection.HasLiteralFile (node : Redirection) : Prop :=
  node.operand = .file ∧ ∃ tok ∈ node.target, tok.parts ≠ [] ∧ (literalText? tok.parts).isSome = true

instance (node : Redirection) : Decidable node.HasLiteralFile := by
  unfold Redirection.HasLiteralFile
  infer_instance

/-- The target made of a literal file name is that name. -/
theorem Redirection.HasLiteralFile.execTarget {node : Redirection} (h : node.HasLiteralFile) :
    ∃ text, execTarget node = .ok (.file true (some text) none) := by
  obtain ⟨hoperand, tok, htok, hparts, htext⟩ := h
  obtain ⟨text, htext⟩ := Option.isSome_iff_exists.mp htext
  refine ⟨text, ?_⟩
  simp only [Redirect.execTarget, hoperand, Option.mem_def.mp htok, if_neg hparts, htext]

/-- Every other target is its own copy. -/
theorem execTarget_clone {node : Redirection} (h : ¬ node.HasLiteralFile) {target : ExecTarget}
    (htarget : execTarget node = .ok target) : target.clone = target := by
  unfold Redirect.execTarget at htarget
  cases hoperand : node.operand with
  | file =>
    cases htok : node.target with
    | none =>
      simp only [hoperand, htok] at htarget
      cases htarget
      rfl
    | some tok =>
      simp only [hoperand, htok] at htarget
      by_cases hparts : tok.parts = []
      · rw [if_pos hparts] at htarget
        cases htarget
        rfl
      · have hnone : literalText? tok.parts = none := by
          by_contra hsome
          exact h ⟨hoperand, tok, htok, hparts, Option.isSome_iff_ne_none.mpr hsome⟩
        rw [if_neg hparts, hnone] at htarget
        cases htarget
        exact congrArg (fun t => ExecTarget.file false none (some t)) tok.clone_clone
  | fd =>
    cases htok : node.target with
    | none =>
      simp only [hoperand, htok] at htarget
      cases htarget
      rfl
    | some tok =>
      simp only [hoperand, htok] at htarget
      split_ifs at htarget
      · cases htarget
        rfl
      · cases htarget
        rfl
      · split at htarget
        · cases htarget
          rfl
        · cases htarget
          exact congrArg (fun t => ExecTarget.fd 0 none (some t)) tok.clone_clone
  | close | buffer =>
    simp only [hoperand] at htarget
    cases htarget
    rfl
  | invalid | fdString =>
    simp only [hoperand] at htarget
    cases htarget

/-! ## Telling a copy from the original -/

/-- A system that notes whether a file was opened (1), whether the name of a file could not be
expanded (2) and any other error (3). -/
def probeEnv : Redirect.Env Unit ℕ where
  fdSetsize := 0
  noclobber _ := false
  expandRedirectionTarget _ rest := (none, rest)
  expandHeredoc _ rest := (none, rest)
  openFile _ _ _ := (.error "", 1)
  mkstemp rest := (.error "", rest)
  pipe rest := (.error "", rest)
  write _ _ rest := (.error "", rest)
  setError msg rest := if rest = 1 then 1 else if msg = "Failed to expand file target" then 2 else 3

/-- No descriptor is open. -/
def probeState : FdState Unit ℕ where
  descriptors := .empty
  openFds := {}
  rest := 0

/-- The copy of a literal file name has nothing to expand. -/
theorem applyOne_clone_of_expanded {r : ExecRedirection} {text : String}
    (h : r.target = .file true (some text) none) :
    (applyOne probeEnv probeState r.clone).2.rest = 2 := by
  simp [applyOne, ExecRedirection.clone, ExecTarget.clone, h, applyFile, fileName,
    FdState.setError, probeEnv, probeState]

theorem applyOne_of_expanded {r : ExecRedirection} {text : String}
    (h : r.target = .file true (some text) none) :
    (applyOne probeEnv probeState r).2.rest ≠ 2 := by
  unfold applyOne
  simp only [h, applyFile, fileName, if_true]
  cases htype : r.type <;> simp [openFlags, probeEnv, probeState, FdState.setError, typeNumber] <;>
    decide

/-- The redirections of one list and what is made of them. -/
theorem forall₂_execRedirections {nodes : List Redirection} {redirs : List ExecRedirection}
    (h : execRedirectionsCreateFromAstNodes nodes = .ok redirs) :
    List.Forall₂ (fun node r => execTarget node = .ok r.target) nodes redirs := by
  refine (list_mapM_eq_ok.mp h).imp fun node r hr => ?_
  obtain ⟨target, htarget, hr⟩ := except_bind_eq_ok.mp hr
  cases hr
  exact htarget

theorem forall₂_mem_left {α β : Type} {R : α → β → Prop} {as : List α} {bs : List β}
    (h : List.Forall₂ R as bs) {a : α} (ha : a ∈ as) : ∃ b ∈ bs, R a b := by
  induction h with
  | nil => cases ha
  | cons hab _ ih =>
    rcases List.mem_cons.mp ha with rfl | ha
    · exact ⟨_, List.mem_cons_self, hab⟩
    · obtain ⟨b, hb, hR⟩ := ih ha
      exact ⟨b, List.mem_cons_of_mem _ hb, hR⟩

/-- A list made from syntax nodes and its copy are applied alike exactly if no node has a literal
file name. -/
theorem execRedirectionsClone_appliesAlike_iff {nodes : List Redirection}
    {redirs : List ExecRedirection} (h : execRedirectionsCreateFromAstNodes nodes = .ok redirs) :
    AppliesAlike redirs (execRedirectionsClone redirs) ↔ ∀ node ∈ nodes, ¬ node.HasLiteralFile := by
  have hmade := forall₂_execRedirections h
  constructor
  · intro halike node hnode hliteral
    obtain ⟨text, htext⟩ := hliteral.execTarget
    obtain ⟨r, hr, hmade⟩ := forall₂_mem_left hmade hnode
    have htarget : r.target = .file true (some text) none := by
      rw [htext, Except.ok.injEq] at hmade
      exact hmade.symm
    have heach := List.forall₂_same.mp (List.forall₂_map_right_iff.mp halike.each) r hr
    have hsame : applyOne probeEnv probeState r.clone = applyOne probeEnv probeState r :=
      heach Unit ℕ probeEnv probeState
    apply applyOne_of_expanded htarget
    rw [← hsame]
    exact applyOne_clone_of_expanded htarget
  · intro hnone
    have hcopy : execRedirectionsClone redirs = redirs := by
      refine (List.map_congr_left fun r hr => ?_).trans (List.map_id redirs)
      obtain ⟨node, hnode, hmade⟩ := forall₂_mem_left hmade.flip hr
      exact congrArg (fun target => { r with target }) (execTarget_clone (hnone node hnode) hmade)
    rw [hcopy]
    exact .refl redirs

/-! ## A redirection of a stored function -/

/-- `> file`. -/
def literalFileNode : Redirection :=
  { redirType := .write, operand := .file, target := some (.ofText "file") }

/-- `> $x`. -/
def parameterFileNode : Redirection :=
  { redirType := .write, operand := .file
    target := some { type := .word, parts := [{ type := .parameter, paramName := some "x" }] } }

/-- `> $x` means the same after it was copied. -/
theorem parameterFile_appliesAlike :
    ∃ redirs, execRedirectionsCreateFromAstNodes [parameterFileNode] = .ok redirs ∧
      AppliesAlike redirs (execRedirectionsClone redirs) :=
  ⟨_, rfl, (@execRedirectionsClone_appliesAlike_iff [parameterFileNode] _ rfl).mpr
    (by decide)⟩

/-- `> file` opens the file; its copy fails before that, without a name to open. -/
theorem literalFile_clone_fails :
    ∃ redirs, execRedirectionsCreateFromAstNodes [literalFileNode] = .ok redirs ∧
      (execApplyRedirectionsPosix probeEnv probeState redirs).2.rest = 1 ∧
      (execApplyRedirectionsPosix probeEnv probeState (execRedirectionsClone redirs)).2.rest = 2 ∧
      ¬ AppliesAlike redirs (execRedirectionsClone redirs) := by
  have hopens : (execApplyRedirectionsPosix probeEnv probeState
      [⟨.write, -1, .file true (some "file") none⟩]).2.rest = 1 := rfl
  have hfails : (execApplyRedirectionsPosix probeEnv probeState
      (execRedirectionsClone [⟨.write, -1, .file true (some "file") none⟩])).2.rest = 2 := rfl
  refine ⟨_, rfl, hopens, hfails, fun halike => ?_⟩
  have hsame := congrArg (·.2.rest) (halike.whole Unit ℕ probeEnv probeState)
  exact absurd (hfails.symm.trans (hsame.trans hopens)) (by decide)

end Migash
