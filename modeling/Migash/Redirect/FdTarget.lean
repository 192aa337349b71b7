import Migash.Lower
import Migash.Redirect.Apply

/-! # The operand of a duplication

The word of `n<&word` reaches the redirecting code as a token. Its `io_number` is
the 0 that every token is allocated with, which the conversion from the syntax
tree takes for a descriptor number: the expansion of the word is never looked at.
-/

namespace Migash.Redirect

open Library Lower

/-! ## The operand -/

/-- `<&` or `>&`. -/
inductive DupOp where
  | lessand | greatand
  deriving DecidableEq, Repr

def DupOp.token : DupOp → TokenType
  | .lessand => .lessand
  | .greatand => .greatand

/-- A word as the lexer hands it on: `token_create` clears the `io_number`, and only operators are
given another one. -/
structure Word where
  tok : Token
  isWord : tok.type = .word
  unnumbered : tok.ioNumber = 0

/-- The word with some parts. -/
def Word.ofParts (parts : List Part) : Word := ⟨{ type := .word, parts }, rfl, rfl⟩

/-- The node of `n<&word` in the syntax tree. -/
def dupRedirection (op : DupOp) (n : ℕ) (w : Word) : Migash.Redirection where
  redirType := mapRedirTypeFromIoFile op.token
  ioNumber := n
  operand := determineTargetKind op.token w.tok
  target := some w.tok.clone

/-- It is what the lowering of the parsed redirection builds. -/
theorem lowerIoFile_dup (op : DupOp) (n : ℕ) (w : Word) (opTok : Token) (origin origin' : ℕ)
    (hop : opTok.type = op.token) :
    lowerIoFile n none (.ofMulti .ioFile (some (.ofToken .wordNode opTok origin))
      (some (.ofToken .filename w.tok origin')) none none) = .ok (dupRedirection op n w) := by
  unfold dupRedirection
  rw [← hop]
  rfl

/-! ## What the expansion denotes -/

/-- What a duplication does with its target descriptor. -/
inductive FdSource where
  | dup (fd : ℕ)
  | move (fd : ℕ)
  | close
  deriving DecidableEq, Repr

/-- The number that some digits are. -/
def decimal (digits : List Char) : ℕ := digits.foldl (fun n c => n * 10 + (c.toNat - 48)) 0

/-- Digits, digits and a `-`, or a `-`. -/
def denoted (text : List Char) : Option FdSource :=
  let digits := text.takeWhile Char.isDigit
  match text.dropWhile Char.isDigit with
  | [] => if digits = [] then none else some (.dup (decimal digits))
  | ['-'] => some (if digits = [] then .close else .move (decimal digits))
  | _ => none

/-- What the expansion of a word denotes; an expansion that fails denotes nothing. -/
def expansionDenotes {δ ρ : Type} (env : Env δ ρ) (w : Word) (rest : ρ) : Option FdSource :=
  (env.expandRedirectionTarget w.tok rest).1.bind fun text => denoted text.toList

/-- The descriptors after the duplication, the move or the close; a system call may fail. -/
def FdSource.carryOut {δ : Type} (t : Descriptors δ) (target : ℕ) : FdSource → Option (Descriptors δ)
  | .dup fd => t.dup2 fd target
  | .move fd => (t.dup2 fd target).map fun t => if fd = target then t else t.discard fd
  | .close => t.close target

/-- From every table of descriptors the redirection does what the expansion of its word denotes,
and it fails when that is nothing or cannot be done. -/
structure UsesExpansion {δ ρ : Type} (env : Env δ ρ) (op : DupOp) (n : ℕ) (w : Word) (rest : ρ) :
    Prop where
  uses : ∃ redir, execRedirectionsCreateFromAstNodes [dupRedirection op n w] = .ok [redir] ∧
    ∀ (descriptors : Descriptors δ) (openFds : FdTable),
      match (expansionDenotes env w rest).bind (FdSource.carryOut descriptors n) with
      | some descriptors' =>
        (applyOne env ⟨descriptors, openFds, rest⟩ redir).1 = true ∧
          (applyOne env ⟨descriptors, openFds, rest⟩ redir).2.descriptors = descriptors'
      | none => (applyOne env ⟨descriptors, openFds, rest⟩ redir).1 = false

/-- The text of the word as it stands decides what is done, and that is what the expansion denotes:
a `-` closes the target, any other text that is not all digits fails, and digits or no text at all
duplicate descriptor 0. -/
def DenotesAsWritten {δ ρ : Type} (env : Env δ ρ) (op : DupOp) (n : ℕ) (w : Word) (rest : ρ) :
    Prop :=
  match determineTargetKind op.token w.tok with
  | .close => expansionDenotes env w rest = some .close
  | .file => expansionDenotes env w rest = none
  | _ => expansionDenotes env w rest = some (.dup 0) ∨
    expansionDenotes env w rest = some (.move 0) ∧ n = 0

/-! ## What the code does -/

section Code

variable {δ ρ : Type} {env : Env δ ρ} {op : DupOp} {n : ℕ} {w : Word}

/-- The outcome of the code, whatever the expansion is. -/
def outcome (op : DupOp) (w : Word) : Option FdSource :=
  match determineTargetKind op.token w.tok with
  | .close => some .close
  | .file => none
  | _ => some (.dup 0)

/-- The text of the word is `-`, or it is not all digits, or it is. -/
theorem determineTargetKind_dup (op : DupOp) (tok : Token) :
    determineTargetKind op.token tok = .close ∨ determineTargetKind op.token tok = .file ∨
      determineTargetKind op.token tok = .fd := by
  cases op <;>
  · unfold determineTargetKind DupOp.token
    dsimp only
    split_ifs <;> simp

theorem redirectionDefaultFd_explicit {type : RedirectionType} {target : ExecTarget} (n : ℕ) :
    redirectionDefaultFd { type, explicitFd := n, target } = n := by
  simp [redirectionDefaultFd]

/-- No file is opened for a duplication. -/
theorem applyFile_dup (s : FdState δ ρ) (op : DupOp) (target : ℕ) (isExpanded : Bool)
    (filename : Option String) (tok : Option Token) :
    (applyFile env s target (mapRedirTypeFromIoFile op.token) isExpanded filename tok).1 = false := by
  unfold applyFile
  split
  · rfl
  · cases op <;> rfl

theorem applyClose_outcome (s : FdState δ ρ) (target : ℕ) :
    match s.descriptors.close target with
    | some descriptors' => (applyClose env s target).1 = true ∧
      (applyClose env s target).2.descriptors = descriptors'
    | none => (applyClose env s target).1 = false := by
  unfold applyClose
  cases s.descriptors.close target with
  | some descriptors' => exact ⟨rfl, rfl⟩
  | none => rfl

/-- The descriptor number of a token with an `io_number` of 0 is 0. -/
theorem applyFd_zero (env : Env δ ρ) (s : FdState δ ρ) (target : ℕ) :
    match s.descriptors.dup2 0 target with
    | some descriptors' => (applyFd env s target 0 none none).1 = true ∧
      (applyFd env s target 0 none none).2.descriptors = descriptors'
    | none => (applyFd env s target 0 none none).1 = false := by
  have hparse : parseFdNumber (toString (0 : Int)) = some ⟨some 0, false⟩ := by decide
  have happly : applyFd env s target 0 none none = applyDup env s target 0 false := by
    unfold applyFd fdText
    dsimp only
    rw [if_pos (Int.le_refl 0)]
    dsimp only
    rw [hparse]
  rw [happly]
  unfold applyDup
  cases s.descriptors.dup2 0 target with
  | some descriptors' => exact ⟨rfl, rfl⟩
  | none => rfl

theorem applyOne_outcome (env : Env δ ρ) (s : FdState δ ρ) (op : DupOp) (n : ℕ) (w : Word) :
    ∃ redir, execRedirectionsCreateFromAstNodes [dupRedirection op n w] = .ok [redir] ∧
      match (outcome op w).bind (FdSource.carryOut s.descriptors n) with
      | some descriptors' => (applyOne env s redir).1 = true ∧
        (applyOne env s redir).2.descriptors = descriptors'
      | none => (applyOne env s redir).1 = false := by
  have hcreate {target : ExecTarget} (h : execTarget (dupRedirection op n w) = .ok target) :
      execRedirectionsCreateFromAstNodes [dupRedirection op n w] =
        .ok [{ type := mapRedirTypeFromIoFile op.token, explicitFd := n, target }] := by
    unfold execRedirectionsCreateFromAstNodes
    rw [List.mapM_cons, List.mapM_nil, h]
    rfl
  rcases determineTargetKind_dup op w.tok with hkind | hkind | hkind
  · have htarget : execTarget (dupRedirection op n w) = .ok .close := by
      simp only [execTarget, dupRedirection, hkind]
    refine ⟨_, hcreate htarget, ?_⟩
    rw [outcome, hkind, applyOne, redirectionDefaultFd_explicit]
    exact applyClose_outcome s n
  · obtain ⟨isExpanded, filename, tok, htarget⟩ : ∃ isExpanded filename tok,
        execTarget (dupRedirection op n w) = .ok (.file isExpanded filename tok) := by
      simp only [execTarget, dupRedirection, hkind]
      split_ifs
      · exact ⟨_, _, _, rfl⟩
      · split <;> exact ⟨_, _, _, rfl⟩
    refine ⟨_, hcreate htarget, ?_⟩
    rw [outcome, hkind, applyOne, redirectionDefaultFd_explicit]
    exact applyFile_dup s op n isExpanded filename tok
  · have htarget : execTarget (dupRedirection op n w) = .ok (.fd 0 none none) := by
      have hnumber : w.tok.clone.ioNumber = 0 := w.unnumbered
      simp only [execTarget, dupRedirection, hkind, hnumber, Int.le_refl, if_true]
    refine ⟨_, hcreate htarget, ?_⟩
    rw [outcome, hkind, applyOne, redirectionDefaultFd_explicit]
    exact applyFd_zero env s n

/-! ## When it is what the expansion denotes -/

/-- Two sources that do the same from every table of descriptors. -/
def SameFrom (δ : Type) (n : ℕ) (a b : Option FdSource) : Prop :=
  ∀ t : Descriptors δ, a.bind (FdSource.carryOut t n) = b.bind (FdSource.carryOut t n)

theorem usesExpansion_iff_same (env : Env δ ρ) (op : DupOp) (n : ℕ) (w : Word) (rest : ρ) :
    UsesExpansion env op n w rest ↔ SameFrom δ n (outcome op w) (expansionDenotes env w rest) := by
  constructor
  · rintro ⟨redir, hredir, huses⟩ t
    obtain ⟨redir', hredir', hcode⟩ := applyOne_outcome env ⟨t, {}, rest⟩ op n w
    cases hredir.symm.trans hredir'
    have hmeant := huses t {}
    dsimp only at hcode
    cases hout : (outcome op w).bind (FdSource.carryOut t n) with
    | none =>
      rw [hout] at hcode
      cases hden : (expansionDenotes env w rest).bind (FdSource.carryOut t n) with
      | none => rfl
      | some t' =>
        rw [hden] at hmeant
        rw [hcode] at hmeant
        exact absurd hmeant.1 Bool.false_ne_true
    | some t₁ =>
      rw [hout] at hcode
      cases hden : (expansionDenotes env w rest).bind (FdSource.carryOut t n) with
      | none =>
        rw [hden, hcode.1] at hmeant
        exact absurd hmeant.symm Bool.false_ne_true
      | some t₂ =>
        rw [hden] at hmeant
        rw [← hcode.2, ← hmeant.2]
  · intro hsame
    obtain ⟨redir, hredir, -⟩ :=
      applyOne_outcome env ⟨Descriptors.empty, {}, rest⟩ op n w
    refine ⟨redir, hredir, fun t openFds => ?_⟩
    obtain ⟨redir', hredir', hcode⟩ := applyOne_outcome env ⟨t, openFds, rest⟩ op n w
    cases hredir.symm.trans hredir'
    rw [← hsame t]
    exact hcode

section Tables

variable [Inhabited δ]

/-- A table in which only some descriptors are open, all on one file. -/
def openOnly : List ℕ → Descriptors δ
  | [] => Descriptors.empty
  | fd :: fds => (openOnly fds).set fd (some ⟨default, false⟩)

theorem get_openOnly (fds : List ℕ) (fd : ℕ) :
    (openOnly fds : Descriptors δ).get fd = if fd ∈ fds then some ⟨default, false⟩ else none := by
  induction fds with
  | nil => rfl
  | cons a fds ih =>
    rw [openOnly]
    by_cases h : fd = a
    · subst h
      simp
    · rw [Descriptors.get_set_of_ne _ _ h, ih]
      simp [h]

theorem dup2_of_not_mem {fds : List ℕ} {fd : ℕ} (h : fd ∉ fds) (target : ℕ) :
    (openOnly fds : Descriptors δ).dup2 fd target = none := by
  rw [Descriptors.dup2, get_openOnly, if_neg h]

/-- A duplicate of an open descriptor is open, and nothing else has changed. -/
theorem dup2_of_mem (fds : List ℕ) (fd : ℕ) (h : fd ∈ fds) (target : ℕ) :
    ∃ t : Descriptors δ, (openOnly fds).dup2 fd target = some t ∧
      t.get target = some ⟨default, false⟩ ∧
      ∀ other, other ≠ target → t.get other = (openOnly fds : Descriptors δ).get other := by
  rw [Descriptors.dup2, get_openOnly, if_pos h]
  dsimp only
  split_ifs with heq
  · subst heq
    exact ⟨_, rfl, by rw [get_openOnly, if_pos h], fun _ _ => rfl⟩
  · exact ⟨_, rfl, by simp, fun other hother => Descriptors.get_set_of_ne _ _ hother⟩

/-- What is denoted can be done from some table, and then the target is open unless it was to be
closed. -/
theorem exists_carryOut (n : ℕ) (src : FdSource) :
    ∃ fds, n ∈ fds ∧ ∃ t : Descriptors δ, src.carryOut (openOnly fds) n = some t ∧
      (src ≠ .close → t.get n ≠ none) := by
  cases src with
  | dup m =>
    obtain ⟨t, ht, hget, -⟩ := dup2_of_mem (δ := δ) [n, m] m (by simp) n
    exact ⟨[n, m], by simp, t, ht, fun _ => by rw [hget]; exact Option.some_ne_none _⟩
  | move m =>
    obtain ⟨t, ht, hget, -⟩ := dup2_of_mem (δ := δ) [n, m] m (by simp) n
    refine ⟨[n, m], by simp, if m = n then t else t.discard m, by rw [FdSource.carryOut, ht]; rfl, ?_⟩
    intro _
    split_ifs with hm
    · rw [hget]
      exact Option.some_ne_none _
    · rw [Descriptors.get_discard_of_ne _ (Ne.symm hm), hget]
      exact Option.some_ne_none _
  | close =>
    refine ⟨[n], by simp, (openOnly [n]).set n none, ?_, fun h => absurd rfl h⟩
    rw [FdSource.carryOut, Descriptors.close, get_openOnly]
    simp

theorem close_openOnly {fds : List ℕ} {n : ℕ} (h : n ∈ fds) :
    (openOnly fds : Descriptors δ).close n = some ((openOnly fds).set n none) := by
  rw [Descriptors.close, get_openOnly, if_pos h]
  rfl

theorem same_none_iff (n : ℕ) (e : Option FdSource) : SameFrom δ n none e ↔ e = none := by
  constructor
  · intro hsame
    cases e with
    | none => rfl
    | some src =>
      obtain ⟨fds, -, t, ht, -⟩ := exists_carryOut (δ := δ) n src
      have := hsame (openOnly fds)
      rw [Option.bind_some, ht] at this
      cases this
  · rintro rfl _
    rfl

theorem same_close_iff (n : ℕ) (e : Option FdSource) :
    SameFrom δ n (some .close) e ↔ e = some .close := by
  constructor
  · intro hsame
    cases e with
    | none =>
      have := hsame (openOnly [n])
      rw [Option.bind_some, FdSource.carryOut, close_openOnly (by simp)] at this
      cases this
    | some src =>
      by_contra hne
      obtain ⟨fds, hn, t, ht, hget⟩ := exists_carryOut (δ := δ) n src
      have := hsame (openOnly fds)
      rw [Option.bind_some, Option.bind_some, ht, FdSource.carryOut, close_openOnly hn,
        Option.some.injEq] at this
      refine hget (fun hclose => hne (by rw [hclose])) ?_
      rw [← this]
      exact Descriptors.get_set_self _ _ _
  · rintro rfl _
    rfl

theorem same_dup_zero_iff (n : ℕ) (e : Option FdSource) :
    SameFrom δ n (some (.dup 0)) e ↔ e = some (.dup 0) ∨ e = some (.move 0) ∧ n = 0 := by
  obtain ⟨t, ht, hn, hother⟩ := dup2_of_mem (δ := δ) [0] 0 (by simp) n
  constructor
  · intro hsame
    -- only descriptor 0 is open
    have hzero := hsame (openOnly [0])
    rw [Option.bind_some, FdSource.carryOut, ht] at hzero
    cases e with
    | none => cases hzero
    | some src =>
      rw [Option.bind_some] at hzero
      cases src with
      | dup m =>
        by_cases hm : m = 0
        · exact .inl (by rw [hm])
        · rw [FdSource.carryOut, dup2_of_not_mem (by simpa using hm)] at hzero
          cases hzero
      | move m =>
        by_cases hm : m = 0
        · subst hm
          refine .inr ⟨rfl, ?_⟩
          by_contra hne
          rw [FdSource.carryOut, ht, Option.map_some, if_neg (Ne.symm hne), Option.some.injEq] at hzero
          have hclosed : t.get 0 = none := by
            rw [hzero]
            exact Descriptors.get_discard_self t 0
          rw [hother 0 (Ne.symm hne), get_openOnly] at hclosed
          simp at hclosed
        · rw [FdSource.carryOut, dup2_of_not_mem (by simpa using hm)] at hzero
          cases hzero
      | close =>
        rw [FdSource.carryOut] at hzero
        have hclosed := Descriptors.close_eq_some hzero.symm
        rw [hclosed, Descriptors.get_set_self] at hn
        cases hn
  · rintro (rfl | ⟨rfl, rfl⟩) table
    · rfl
    · rw [Option.bind_some, Option.bind_some, FdSource.carryOut, FdSource.carryOut]
      cases table.dup2 0 0 <;> rfl

end Tables

/-- A system in which words expand to their texts. -/
def literalEnv : Env Unit Unit where
  fdSetsize := 1024
  noclobber _ := false
  expandRedirectionTarget tok rest := (some tok.getAllText, rest)
  expandHeredoc text rest := (some text, rest)
  openFile _ _ rest := (.error "", rest)
  mkstemp rest := (.error "", rest)
  pipe rest := (.error "", rest)
  write _ _ rest := (.error "", rest)
  setError _ rest := rest

/-- The word `1`. -/
def wordOne : Word := Word.ofParts [{ type := .literal, text := some "1" }]

end Code

end Migash.Redirect
