import Migash.Ast
import Migash.FdTable
import Migash.Library.Descriptors

/-! # Applying and restoring redirections

The POSIX path of the redirection code: the descriptors a list is about to
change are saved first, then the list is applied from left to right, and the
restore replays every saved copy that the shell's table holds.
-/

namespace Migash.Redirect

open Library

/-- The `target` member of `exec_redirection_t`, by `target_kind`. -/
inductive ExecTarget where
  | file (isExpanded : Bool) (filename : Option String) (tok : Option Token)
  | fd (fixedFd : Int) (fdExpression : Option String) (fdToken : Option Token)
  | close
  | buffer (content : Option String) (needsExpansion : Bool)
  | other (kind : ℕ)
  deriving Repr

/-- `exec_redirection_t`. -/
structure ExecRedirection where
  type : RedirectionType
  explicitFd : Int := -1
  target : ExecTarget
  deriving Repr

/-- The flags that `open` is called with. -/
inductive OpenFlags where
  | rdonly | wronlyCreatExcl | wronlyCreatTrunc | wronlyCreatAppend | rdwrCreat
  deriving DecidableEq, Repr

/-- What redirecting uses of the rest of the system: the size of an `fd_set`, the `noclobber`
option, the expander, the file system calls that make a new file description or say why not,
and the error text of the executor. -/
structure Env (δ ρ : Type) where
  fdSetsize : ℕ
  noclobber : ρ → Bool
  expandRedirectionTarget : Token → ρ → Option String × ρ
  expandHeredoc : String → ρ → Option String × ρ
  openFile : String → OpenFlags → ρ → Except String δ × ρ
  mkstemp : ρ → Except String δ × ρ
  pipe : ρ → Except String (δ × δ) × ρ
  write : δ → String → ρ → Except String Unit × ρ
  setError : String → ρ → ρ

/-- The descriptors of the process, the shell's record of them and everything else. -/
structure FdState (δ ρ : Type) where
  descriptors : Descriptors δ
  openFds : FdTable
  rest : ρ

/-! ## Reading descriptor numbers -/

/-- `parse_fd_result_t` of a successful parse; no descriptor is the plain `-`. -/
structure ParsedFd where
  fd : Option ℕ
  closeAfterUse : Bool
  deriving DecidableEq, Repr

/-- A blank or a tab. -/
def isBlank (c : Char) : Bool := c = ' ' || c = '\t'

/-- The number part of `parse_fd_number`: digits, at most one trailing `-`, trailing blanks. -/
def parseFdDigits (str : List Char) : Option ParsedFd :=
  let digits := str.takeWhile Char.isDigit
  let val := digits.foldl (fun n c => n * 10 + (c.toNat - 48)) 0
  if digits = [] ∨ val > 2147483647 then none
  else
    match str.dropWhile Char.isDigit with
    | '-' :: rest => if rest.all isBlank then some ⟨some val, true⟩ else none
    | rest => if rest.all isBlank then some ⟨some val, false⟩ else none

/-- `parse_fd_number` past a plain `-`: a sign, then the number. -/
def parseFdSigned : List Char → Option ParsedFd
  | '-' :: _ => none
  | '+' :: rest => parseFdDigits rest
  | str => parseFdDigits str

/-- `parse_fd_number`. -/
def parseFdNumber (str : String) : Option ParsedFd :=
  match str.toList with
  | [] => none
  | c :: rest =>
    if isBlank c then none
    else if c = '-' ∧ (rest.head?.all isBlank) then
      if rest.all isBlank then some ⟨none, false⟩ else parseFdSigned (rest.dropWhile isBlank)
    else parseFdSigned (c :: rest)

/-- `redirection_default_fd`. -/
def redirectionDefaultFd (r : ExecRedirection) : ℕ :=
  if 0 ≤ r.explicitFd then r.explicitFd.toNat
  else
    match r.type with
    | .read | .fromBuffer | .fromBufferStrip | .readwrite => 0
    | _ => 1

section Apply

variable {δ ρ : Type} (env : Env δ ρ)

/-! ## What a list is about to change -/

/-- The text of a descriptor target: the expression, the fixed number or the expanded word. -/
def fdText (fixedFd : Int) (fdExpression : Option String) (fdToken : Option Token) (rest : ρ) :
    Option String × ρ :=
  match fdExpression with
  | some str => (some str, rest)
  | none =>
    if 0 ≤ fixedFd then (some (toString fixedFd), rest)
    else
      match fdToken with
      | some tok => env.expandRedirectionTarget tok rest
      | none => (none, rest)

/-- The source descriptor that a move `n>&m-` closes. -/
def moveSource (text : Option String) : Option ℕ :=
  match text.bind parseFdNumber with
  | some ⟨some fd, true⟩ => some fd
  | _ => none

/-- The descriptors one redirection is about to change: its target and the source of a move. -/
def redirected (r : ExecRedirection) (rest : ρ) : List ℕ × ρ :=
  match r.target with
  | .fd fixedFd fdExpression fdToken =>
    let (text, rest) := fdText env fixedFd fdExpression fdToken rest
    (redirectionDefaultFd r :: (moveSource text).toList, rest)
  | _ => ([redirectionDefaultFd r], rest)

/-- `will_redirect`, without its bound. -/
def willRedirect : List ExecRedirection → ρ → List ℕ × ρ
  | [], rest => ([], rest)
  | r :: rs, rest =>
    let (fds, rest) := redirected env r rest
    let (fds', rest) := willRedirect rs rest
    (fds ++ fds', rest)

/-! ## Saving -/

variable (s : FdState δ ρ)

/-- `exec_set_error_printf`. -/
def FdState.setError (msg : String) : FdState δ ρ := { s with rest := env.setError msg s.rest }

/-- The descriptors about to change that are below `FD_SETSIZE`, in ascending order. -/
def toSave (fds : List ℕ) : List ℕ := (List.range env.fdSetsize).filter fds.contains

/-- Save one descriptor: the copy takes the lowest free descriptor from 10 on. -/
def saveFd (fd : ℕ) : Bool × FdState δ ρ :=
  match s.descriptors.dupFrom fd 10 with
  | none =>
    (false, s.setError env
      s!"fcntl(F_DUPFD_CLOEXEC) failed for fd {fd}: Bad file descriptor")
  | some (backup, descriptors) =>
    let flags : FdFlags := { saved := true, closeOnExec := true }
    let openFds := s.openFds.add backup flags (fdTableGenerateNameEx fd flags)
    (true, { s with descriptors, openFds := openFds.markSaved backup fd })

/-- The save phase. A descriptor that is marked as redirected is not saved again. -/
def saveAll : List ℕ → FdState δ ρ → Bool × FdState δ ρ
  | [], s => (true, s)
  | fd :: fds, s =>
    if s.openFds.isRedirected fd then saveAll fds s
    else
      match saveFd env s fd with
      | (true, s) => saveAll fds s
      | (false, s) => (false, s)

/-! ## Applying one redirection -/

/-- A new descriptor for `file` is duplicated onto `target`, closed and recorded. -/
def install (target : ℕ) (file : δ) (path purpose : String) : Bool × FdState δ ρ :=
  let (newfd, descriptors) := s.descriptors.openFile file
  match descriptors.dup2 newfd target with
  | none =>
    let s := { s with descriptors := descriptors.discard newfd }
    (false, s.setError env s!"dup2({newfd}, {target}){purpose} failed: Bad file descriptor")
  | some descriptors =>
    (true, { s with descriptors := descriptors.discard newfd
                    openFds := s.openFds.add target { redirected := true } path })

/-- The flags for a redirection to a file. -/
def openFlags (type : RedirectionType) (noclobber : Bool) : Option OpenFlags :=
  match type with
  | .read => some .rdonly
  | .write => some (if noclobber then .wronlyCreatExcl else .wronlyCreatTrunc)
  | .append => some .wronlyCreatAppend
  | .readwrite => some .rdwrCreat
  | .writeForce => some .wronlyCreatTrunc
  | _ => none

/-- `redirection_type_t` as a number. -/
def typeNumber : RedirectionType → ℕ
  | .read => 0
  | .write => 1
  | .append => 2
  | .readwrite => 3
  | .writeForce => 4
  | .fdDupIn => 5
  | .fdDupOut => 6
  | .fromBuffer => 7
  | .fromBufferStrip => 8

/-- The name of the file of a redirection. -/
def fileName (isExpanded : Bool) (filename : Option String) (tok : Option Token) (rest : ρ) :
    Option String × ρ :=
  if isExpanded then (filename, rest)
  else
    match tok with
    | some tok => env.expandRedirectionTarget tok rest
    | none => (none, rest)

/-- The `REDIR_TARGET_FILE` case. -/
def applyFile (target : ℕ) (type : RedirectionType) (isExpanded : Bool) (filename : Option String)
    (tok : Option Token) : Bool × FdState δ ρ :=
  match fileName env isExpanded filename tok s.rest with
  | (none, rest) => (false, { s with rest }.setError env "Failed to expand file target")
  | (some fname, rest) =>
    match openFlags type (env.noclobber rest) with
    | none =>
      (false, { s with rest }.setError env s!"Unsupported redirection type {typeNumber type}")
    | some flags =>
      match env.openFile fname flags rest with
      | (.error e, rest) => (false, { s with rest }.setError env s!"open('{fname}') failed: {e}")
      | (.ok file, rest) => install env { s with rest } target file fname ""

/-- The `REDIR_TARGET_CLOSE` case, and `n>&-`. -/
def applyClose (target : ℕ) : Bool × FdState δ ρ :=
  match s.descriptors.close target with
  | none => (false, s.setError env s!"close({target}) failed: Bad file descriptor")
  | some descriptors =>
    (true, { s with descriptors
                    openFds := (s.openFds.markClosed target).clearRedirected target })

/-- The end of a move: the source is closed and forgotten unless it is the target. -/
def closeSource (target source : ℕ) : FdState δ ρ :=
  if source = target then s
  else
    match s.descriptors.close source with
    | none => s
    | some descriptors =>
      { s with descriptors, openFds := (s.openFds.markClosed source).remove source }

theorem closeSource_rest (target source : ℕ) : (closeSource s target source).rest = s.rest := by
  unfold closeSource
  split_ifs
  · rfl
  · split <;> rfl

/-- `REDIR_TARGET_FD` for a source that is a descriptor. -/
def applyDup (target source : ℕ) (closeAfterUse : Bool) : Bool × FdState δ ρ :=
  match s.descriptors.dup2 source target with
  | none => (false, s.setError env s!"dup2({source}, {target}) failed: Bad file descriptor")
  | some descriptors =>
    let flags : FdFlags := { redirected := true }
    let s := { s with descriptors
                      openFds := s.openFds.add target flags (fdTableGenerateNameEx source flags) }
    (true, if closeAfterUse then closeSource s target source else s)

/-- The `REDIR_TARGET_FD` case. -/
def applyFd (target : ℕ) (fixedFd : Int) (fdExpression : Option String) (fdToken : Option Token) :
    Bool × FdState δ ρ :=
  match fdText env fixedFd fdExpression fdToken s.rest with
  | (none, rest) => (false, { s with rest }.setError env "Failed to expand FD target")
  | (some text, rest) =>
    match parseFdNumber text with
    | none => (false, { s with rest }.setError env s!"Invalid source FD: '{text}'")
    | some ⟨none, _⟩ => applyClose env { s with rest } target
    | some ⟨some source, closeAfterUse⟩ =>
      applyDup env { s with rest } target source closeAfterUse

/-- The text of a here-document. -/
def heredocText (content : Option String) (needsExpansion : Bool) (rest : ρ) : Option String × ρ :=
  match content with
  | none => (some "", rest)
  | some content => if needsExpansion then env.expandHeredoc content rest else (some content, rest)

/-- A here-document of more than 4096 bytes: a temporary file. -/
def applyTempFile (target : ℕ) (text : String) : Bool × FdState δ ρ :=
  match env.mkstemp s.rest with
  | (.error e, rest) => (false, { s with rest }.setError env s!"mkstemp() failed for heredoc: {e}")
  | (.ok file, rest) =>
    match env.write file text rest with
    | (.error e, rest) =>
      (false, { s with rest }.setError env s!"write to heredoc temp file failed: {e}")
    | (.ok _, rest) =>
      install env { s with rest } target file (fdTableGenerateName target { redirected := true })
        " for heredoc temp file"

/-- A shorter here-document: the read end of a pipe that already holds the text. -/
def applyPipe (target : ℕ) (text : String) : Bool × FdState δ ρ :=
  match env.pipe s.rest with
  | (.error e, rest) => (false, { s with rest }.setError env s!"pipe() failed: {e}")
  | (.ok (readEnd, writeEnd), rest) =>
    let (r, w, descriptors) := s.descriptors.pipe readEnd writeEnd
    match env.write writeEnd text rest with
    | (.error e, rest) =>
      (false, { s with descriptors := (descriptors.discard r).discard w, rest }.setError env
        s!"write to heredoc pipe failed: {e}")
    | (.ok _, rest) =>
      let descriptors := descriptors.discard w
      match descriptors.dup2 r target with
      | none =>
        (false, { s with descriptors := descriptors.discard r, rest }.setError env
          s!"dup2({r}, {target}) for heredoc failed: Bad file descriptor")
      | some descriptors =>
        let path := fdTableGenerateName target { redirected := true }
        (true, { descriptors := descriptors.discard r
                 openFds := s.openFds.add target { redirected := true } path
                 rest })

/-- The `REDIR_TARGET_BUFFER` case. -/
def applyBuffer (target : ℕ) (content : Option String) (needsExpansion : Bool) :
    Bool × FdState δ ρ :=
  match heredocText env content needsExpansion s.rest with
  | (none, rest) => (false, { s with rest }.setError env "Failed to process heredoc")
  | (some text, rest) =>
    if text.utf8ByteSize > 4096 then applyTempFile env { s with rest } target text
    else applyPipe env { s with rest } target text

/-- The switch on the target kind. -/
def applyOne (r : ExecRedirection) : Bool × FdState δ ρ :=
  let target := redirectionDefaultFd r
  match r.target with
  | .file isExpanded filename tok => applyFile env s target r.type isExpanded filename tok
  | .fd fixedFd fdExpression fdToken => applyFd env s target fixedFd fdExpression fdToken
  | .close => applyClose env s target
  | .buffer content needsExpansion => applyBuffer env s target content needsExpansion
  | .other kind => (false, s.setError env s!"Unknown redirection kind {kind}")

/-- The apply phase. -/
def applyAll : List ExecRedirection → FdState δ ρ → Bool × FdState δ ρ
  | [], s => (true, s)
  | r :: rs, s =>
    match applyOne env s r with
    | (true, s) => applyAll rs s
    | (false, s) => (false, s)

/-! ## Restoring -/

/-- One turn of the restore loop, for one saved copy. -/
def restoreFd (s : FdState δ ρ) (backup : ℕ) : FdState δ ρ :=
  match s.openFds.getOriginalFd backup with
  | none =>
    { s with descriptors := s.descriptors.discard backup
             openFds := (s.openFds.markClosed backup).remove backup }
  | some orig =>
    let (descriptors, openFds) := match s.descriptors.dup2 backup orig with
      | none => (s.descriptors, s.openFds)
      | some descriptors => (descriptors, s.openFds.markOpen orig)
    { s with descriptors := descriptors.discard backup
             openFds := ((openFds.clearRedirected orig).markClosed backup).remove backup }

/-- `exec_restore_redirections_posix`: every saved copy in the table is replayed, whichever call
saved it. -/
def execRestoreRedirectionsPosix : FdState δ ρ := s.openFds.getSavedFds.foldl restoreFd s

/-- `exec_apply_redirections_posix`. On an error everything that is saved is restored. -/
def execApplyRedirectionsPosix (redirs : List ExecRedirection) : Bool × FdState δ ρ :=
  if redirs = [] then (true, s)
  else
    let (fds, rest) := willRedirect env redirs s.rest
    match saveAll env (toSave env fds) { s with rest } with
    | (false, s) => (false, execRestoreRedirectionsPosix s)
    | (true, s) =>
      match applyAll env redirs s with
      | (false, s) => (false, execRestoreRedirectionsPosix s)
      | (true, s) => (true, s)

theorem execApplyRedirectionsPosix_of_ne_nil {redirs : List ExecRedirection} (h : redirs ≠ []) :
    execApplyRedirectionsPosix env s redirs =
      match saveAll env (toSave env (willRedirect env redirs s.rest).1)
        { s with rest := (willRedirect env redirs s.rest).2 } with
      | (false, s) => (false, execRestoreRedirectionsPosix s)
      | (true, s) =>
        match applyAll env redirs s with
        | (false, s) => (false, execRestoreRedirectionsPosix s)
        | (true, s) => (true, s) := by
  unfold execApplyRedirectionsPosix
  rw [if_neg h]

end Apply

/-! ## From the syntax tree -/

/-- The texts of a word made of literal parts only. -/
def literalText? (parts : List Part) : Option String :=
  if parts.all fun p => p.type = .literal && p.text.isSome then
    some (String.join (parts.filterMap Part.text))
  else none

/-- The target of a runtime redirection; the fields that are not set are zero. -/
def execTarget (r : Migash.Redirection) : Except String ExecTarget :=
  match r.operand with
  | .file =>
    match r.target with
    | some tok =>
      if tok.parts = [] then .ok (.file false none none)
      else
        match literalText? tok.parts with
        | some text => .ok (.file true (some text) none)
        | none => .ok (.file false none (some tok.clone))
    | none => .ok (.file false none none)
  | .fd =>
    match r.target with
    | some tok =>
      if 0 ≤ tok.ioNumber then .ok (.fd tok.ioNumber none none)
      else if tok.parts = [] then .ok (.fd 0 none none)
      else
        match literalText? tok.parts with
        | some text => .ok (.fd 0 (some text) none)
        | none => .ok (.fd 0 none (some tok.clone))
    | none => .ok (.fd 0 none none)
  | .close => .ok .close
  | .buffer => .ok (.buffer r.buffer r.bufferNeedsExpansion)
  | .invalid | .fdString => .error "Invalid redirection target kind"

/-- `exec_redirections_create_from_ast_nodes` for a list that is not empty. -/
def execRedirectionsCreateFromAstNodes (redirs : List Migash.Redirection) :
    Except String (List ExecRedirection) :=
  redirs.mapM fun r => do
    return { type := r.redirType, explicitFd := r.ioNumber, target := ← execTarget r }

end Migash.Redirect
