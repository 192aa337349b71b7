import Migash.Exec.Dispatch
import Migash.Lexer.Tokenize
import Migash.Lower
import Migash.Parser.Program
import Migash.Tokenizer.Process

/-! # Parse sessions

A session holds what a driver has read and not executed yet. `exec_frame_string_core`
feeds one more piece of text to it and executes the program that is complete with it,
if there is one. The texts of errors are left out: only a driver that talks to a user
shows them.
-/

namespace Migash

open Library

/-- `lexer_reset`. Whether a here-document is read, and which one, stays. -/
def Lexer.lexerReset (lx : Lexer) : Lexer where
  input := []
  errorMsg := lx.errorMsg.map fun _ => ""
  heredocIndex := lx.heredocIndex
  readingHeredoc := lx.readingHeredoc

/-- `tokenizer_reset`. -/
def Tokenizer.tokenizerReset (tok : Tokenizer) : Tokenizer :=
  { tok with compoundStack := [], bufferedTokens := [], atCommandPosition := true, errorMsg := "" }

namespace Exec

open Lexer Tokenizer Migash.Parser

/-- `parse_session_t`, without its aliases and the numbers that errors show. -/
structure Session where
  lexer : Lexer := { input := [] }
  tokenizer : Tokenizer := {}
  accumulatedTokens : Option (List Token) := none
  incomplete : Bool := false

/-- `parse_session_reset`. -/
def Session.reset (session : Session) : Session where
  lexer := session.lexer.lexerReset
  tokenizer := session.tokenizer.tokenizerReset

/-- What the lexer, the tokenizer and the parser make of the text of a session. -/
inductive Reading where
  | error
  | incomplete
  | empty
  | program (ast : Ast)

/-- The aliases that are in force in a shell, the bound on the turns of the loops that need one, and
what the tokens are to show of their places in the text. -/
structure FrontEnd (δ W : Type) where
  tokenizerEnv : Shell δ W → Tokenizer.Env
  fuel : ℕ
  place : Token → Token := id

/-- A front end without aliases. -/
def idleFrontEnd : FrontEnd Unit Unit where
  tokenizerEnv _ := { aliases := none, lex := fun _ => .error "" }
  fuel := 100

variable {δ W : Type}

section Reading

variable (fe : FrontEnd δ W) (aliases : Tokenizer.Env)

/-- The call of `tokenizer_process` on the tokens of the lexer, with the tokens it lets go. -/
def tokenizeRaw (session : Session) (rawTokens : List Token) :
    Except Fault (TokStatus × Session × List Token) := do
  let (status, tokenizer) ←
    tokenizerProcess aliases fe.fuel session.tokenizer (rawTokens.map fe.place) []
  return (status, { session with tokenizer }, tokenizer.outputTokens)

/-- The part of `exec_frame_string_core` for a lexer that wants more text. -/
def readUnfinished (session : Session) (rawTokens : List Token) :
    Except Fault (Reading × Session) := do
  if rawTokens = [] then return (.incomplete, session)
  let (status, session, processed) ← tokenizeRaw fe aliases session rawTokens
  match status with
  | .error => return (.error, session)
  | .incomplete => return (.incomplete, session)
  | _ =>
    return (.incomplete,
      { session with accumulatedTokens := some (session.accumulatedTokens.getD [] ++ processed) })

/-- The part of `exec_frame_string_core` that parses the tokens of a line behind those of the lines
before it. -/
def parseProcessed (session : Session) (processed : List Token) :
    Except Fault (Reading × Session) :=
  if processed = [] then .ok (.empty, session)
  else
    let tokens := session.accumulatedTokens.getD [] ++ processed
    let session := { session with accumulatedTokens := none }
    match parserParseProgram tokens with
    | .fault cause => .error cause
    | .fail .error _ => .ok (.error, session)
    | .fail .incomplete parser =>
      .ok (.incomplete, { session with accumulatedTokens := some (parser.tokens.map Token.clone) })
    | .fail .empty _ => .ok (.empty, session)
    | .ok gnode _ =>
      match astLower gnode with
      | .ok ast => .ok (.program ast, session)
      | .error .null => .ok (.empty, session)
      | .error .crash => .error (.contract "ast_lower")
      | .error .fuel => .error .fuel

/-- The part of `exec_frame_string_core` for a lexer that has read all of its text. -/
def readFinished (session : Session) (rawTokens : List Token) :
    Except Fault (Reading × Session) := do
  let (status, session, processed) ← tokenizeRaw fe aliases session rawTokens
  match status with
  | .error => return (.error, session)
  | .incomplete => return (.incomplete, session)
  | _ => parseProcessed session processed

/-- The part of `exec_frame_string_core` before the execution. -/
def readInput (session : Session) (input : List Char) : Except Fault (Reading × Session) := do
  let (status, lexer, rawTokens) ← lexerTokenize fe.fuel (session.lexer.lexerAppendInput input)
  let session := { session with lexer }
  match status with
  | .error => return (.error, session)
  | .incomplete | .needHeredoc => readUnfinished fe aliases session rawTokens
  | .ok | .internalError => readFinished fe aliases session rawTokens

end Reading

/-- What `exec_frame_string_core` returns. The program it executed, and whether tokens are kept for
the next piece of text, are only recorded. -/
structure Outcome where
  status : ExecStatus
  program : Option Ast := none
  held : Bool := false

/-- The status of a reading that gives no program. -/
def Reading.status : Reading → ExecStatus
  | .error => .error
  | .incomplete => .incomplete
  | .empty => .empty
  | .program _ => .ok

section Core

variable (fe : FrontEnd δ W) (callees : Callees δ W)

/-- The part of `exec_frame_string_core` that executes what was read. -/
def executeReading (reading : Reading) (session : Session) : ExecM δ W (Outcome × Session) :=
  match reading with
  | .program ast => do
    let result ← callees.dispatch ast
    modify fun s => s.recordStatus result
    if result.status = .error then return ({ status := .error, program := some ast }, session)
    else return ({ status := .ok, program := some ast }, session.reset)
  | reading =>
    return ({ status := reading.status, held := session.accumulatedTokens.isSome }, session)

/-- `exec_frame_string_core`. -/
def execFrameStringCore (session : Session) (input : List Char) :
    ExecM δ W (Outcome × Session) := do
  let s ← get
  match readInput fe (fe.tokenizerEnv s) session input with
  | .error cause => throw (.fault cause)
  | .ok (reading, session) => executeReading callees reading session

end Core

end Exec

end Migash
