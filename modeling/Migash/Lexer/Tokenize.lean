import Migash.Lexer.Normal

/-! # The loops of the lexer

`lexer_process_one_token` calls the function of the current mode until a token
is complete, `lexer_tokenize` calls it until the input has ended.
-/

namespace Migash.Lexer

open Library

/-- The calls of `lexer_process_one_token`: the function of the current mode. -/
def lexerProcessMode (lx : Lexer) : Except Fault Answer :=
  match lx.lexerCurrentMode with
  | .normal => lx.lexerProcessOneNormalToken
  | .singleQuote => lx.lexerProcessSquote
  | .doubleQuote => lx.lexerProcessDquote
  | .paramExpBraced => lx.lexerProcessParamExpBraced
  | .paramExpUnbraced => lx.lexerProcessParamExpUnbraced
  | .cmdSubstParen => lx.lexerProcessCmdSubstParen
  | .cmdSubstBacktick => lx.lexerProcessCmdSubstBacktick
  | .arithExp => lx.lexerProcessArithExp
  | .heredocBody => lx.lexerProcessHeredocBody

/-- A turn of the loop of `lexer_process_one_token`, which started with `initialTokenCount` tokens
in the list. -/
def oneTokenTurn (initialTokenCount : ℕ) (lx : Lexer) : Except Fault (Next Lexer Answer) := do
  match ← lx.lexerProcessMode with
  | (.ok, lx) =>
    if lx.tokens.length > initialTokenCount then return .done (.ok, lx)
    if lx.lexerCurrentMode ≠ .normal ∨ lx.inWord then return .again lx
    return .done (.ok, lx)
  | (.incomplete, lx) =>
    if lx.tokens.length > initialTokenCount then return .done (.ok, lx)
    if lx.lexerAtEnd then return .done (.incomplete, lx)
    return .again lx
  | (.needHeredoc, lx) => return .again lx
  | answer => return .done answer

/-- The loops of `lexer_tokenize` and of its current call of `lexer_process_one_token`. -/
structure Tokenizing where
  lx : Lexer
  initialTokenCount : ℕ := 0
  outTokens : List Token := []

/-- What `lexer_tokenize` returns: its status, the lexer and the tokens handed over. -/
abbrev Tokenized := LexStatus × Lexer × List Token

/-- The tokens in the list are handed over, up to the one that marks the end of the input. -/
def handOver (s : Tokenizing) : Next Tokenizing Tokenized :=
  let handed := s.lx.tokens.takeWhile fun tok => tok.type ≠ .eof
  if handed.length < s.lx.tokens.length then
    .done (.ok, { s.lx with tokens := s.lx.tokens.drop (handed.length + 1) },
      s.outTokens ++ handed)
  else
    .again { lx := { s.lx with tokens := [] }, initialTokenCount := 0,
             outTokens := s.outTokens ++ handed }

/-- A turn of the inner one of the two loops. -/
def tokenizeTurn (s : Tokenizing) : Except Fault (Next Tokenizing Tokenized) := do
  match ← oneTokenTurn s.initialTokenCount s.lx with
  | .again lx => return .again { s with lx }
  | .done (.ok, lx) => return handOver { s with lx }
  | .done (status, lx) => return .done (status, lx, s.outTokens)

/-- `lexer_tokenize`, at most `n` turns: the lexer may have tokens in its list from an earlier
call. -/
def lexerTokenize (n : ℕ) (lx : Lexer) : Except Fault Tokenized :=
  iterate tokenizeTurn n { lx, initialTokenCount := lx.tokens.length }

/-- `lexer_create_with_input_cstr`. -/
def lexerCreateWithInput (input : List Char) : Lexer := { input }

/-- `lexer_append_input`. -/
def lexerAppendInput (lx : Lexer) (input : List Char) : Lexer :=
  { lx with input := lx.input ++ input }

end Migash.Lexer
