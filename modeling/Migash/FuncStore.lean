import Migash.AstClone
import Migash.Redirect.Apply

/-! # The function store

Defining a function stores a copy of its body and of its redirections.
-/

namespace Migash

open Redirect

/-- `func_map_mapped_t`. -/
structure StoredFunction where
  func : Ast
  redirections : Option (List ExecRedirection)

/-- `func_store_t`. -/
abbrev FuncStore := List (String × StoredFunction)

/-- The switch of `exec_redirections_clone`: the mark that a file name is already expanded is not
copied. -/
def Redirect.ExecTarget.clone : ExecTarget → ExecTarget
  | .file _ filename tok => .file false filename (tok.map Token.clone)
  | .fd fixedFd fdExpression fdToken => .fd fixedFd fdExpression (fdToken.map Token.clone)
  | .close => .close
  | .buffer content needsExpansion => .buffer content needsExpansion
  | .other kind => .other kind

/-- `exec_redirections_clone`. -/
def execRedirectionsClone (redirs : List ExecRedirection) : List ExecRedirection :=
  redirs.map fun r => { r with target := r.target.clone }

namespace FuncStore

/-- `is_valid_name`. -/
def isValidName (name : String) : Bool :=
  match name.toList with
  | [] => false
  | c :: rest => (c.isAlpha || c = '_') && rest.all fun d => d.isAlphanum || d = '_'

/-- `func_store_get_def_cstr` and `func_store_get_redirections`. -/
def get (store : FuncStore) (name : String) : Option StoredFunction := store.lookup name

/-- `func_map_insert_or_assign_move`. -/
def insertOrAssign (store : FuncStore) (name : String) (f : StoredFunction) : FuncStore :=
  (name, f) :: store.filter fun entry => entry.1 ≠ name

end FuncStore

end Migash
