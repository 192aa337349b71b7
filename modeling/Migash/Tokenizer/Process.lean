import Mathlib.Algebra.Group.Int.Defs
import Mathlib.Algebra.Group.Nat.Defs
import Migash.Library.Forward
import Migash.Token

/-! # The tokenizer

`tokenizer_process`: aliases are replaced by the tokens of their values, words
become reserved words or the numbers of redirections, and the tokens of an
unfinished compound command are kept in a buffer.
-/

namespace Migash

open Library

/-- `token_string_to_reserved_word`, without the words that are none. -/
def TokenType.ofReservedWord? : String → Option TokenType
  | "if" => some .if_
  | "then" => some .then_
  | "else" => some .else_
  | "elif" => some .elif
  | "fi" => some .fi
  | "do" => some .do_
  | "done" => some .done
  | "case" => some .case_
  | "esac" => some .esac
  | "while" => some .while_
  | "until" => some .until_
  | "for" => some .for_
  | "in" => some .in_
  | "\x7b" => some .lbrace
  | "\x7d" => some .rbrace
  | "!" => some .bang
  | _ => none

theorem TokenType.isReserved_of_ofReservedWord? {word : String} {type : TokenType}
    (h : TokenType.ofReservedWord? word = some type) : type.IsReserved := by
  unfold TokenType.ofReservedWord? at h
  split at h <;> cases h <;> decide

/-- `tokenizer_extract_word_text`. -/
def Token.extractWordText? (tok : Token) : Option String :=
  match tok.type, tok.parts with
  | .word, [part] => if part.type = .literal then part.text else none
  | _, _ => none

namespace Tokenizer

/-- `tok_status_t`. -/
inductive TokStatus where
  | ok | error | incomplete | internalError
  deriving DecidableEq, Repr

/-- A token of the input with the aliases whose expansions it comes from. These are only recorded:
no function reads them. -/
structure InputToken where
  token : Token
  origins : List String := []
  deriving DecidableEq, Repr

end Tokenizer

/-- `tokenizer_t`. The tokens of the input before `input_pos` are those that were handed over. -/
structure Tokenizer where
  inputTokens : List Tokenizer.InputToken := []
  outputTokens : List Token := []
  bufferedTokens : List Token := []
  expansionDepth : ℕ := 0
  maxExpansionDepth : ℕ := 32
  /-- the names that were expanded last come first -/
  expandedAliases : List String := []
  errorMsg : String := ""
  atCommandPosition : Bool := true
  /-- the innermost opening token comes first -/
  compoundStack : List TokenType := []
  deriving Repr

namespace Tokenizer

/-- The alias store, if there is one, and the lexer that reads the value of an alias. -/
structure Env where
  aliases : Option (List (String × String))
  lex : String → Except String (List Token)

/-- `alias_store_get_value_cstr`. -/
def Env.aliasValue? (env : Env) (name : String) : Option String :=
  env.aliases.bind fun store => (store.find? (·.1 = name)).map Prod.snd

def setError (tok : Tokenizer) (text : String) : Tokenizer := { tok with errorMsg := text }

/-! ## Aliases -/

/-- `tokenizer_alias_ends_with_blank`. -/
def aliasEndsWithBlank (value : String) : Bool :=
  match value.toList.getLast? with
  | some c => c = ' ' || c = '\t'
  | none => false

/-- `tokenizer_is_alias_eligible`. -/
def isAliasEligible (tok : Tokenizer) (token : Token) : Bool :=
  tok.atCommandPosition && token.type = .word && !token.wasQuoted &&
    match token.parts with
    | [part] => part.type = .literal && !(part.wasSingleQuoted || part.wasDoubleQuoted)
    | _ => false

/-- The alias that takes the place of a token. -/
def aliasFor? (env : Env) (tok : Tokenizer) (token : Token) : Option String :=
  if tok.isAliasEligible token then
    match token.extractWordText? with
    | some text =>
      if (env.aliasValue? text).isSome ∧ text ∉ tok.expandedAliases then some text else none
    | none => none
  else none

/-- `tokenizer_relex_text`: the tokens of the text come before the rest of the input. -/
def tokenizerRelexText (env : Env) (tok : Tokenizer) (origins : List String) (text : String) :
    TokStatus × Tokenizer :=
  match env.lex text with
  | .error e => (.error, tok.setError s!"Failed to re-lex alias expansion: {e}")
  | .ok tokens =>
    (.ok, { tok with inputTokens := tokens.map (⟨·, origins⟩) ++ tok.inputTokens })

/-- `tokenizer_expand_alias`, for a token with the given origins. -/
def tokenizerExpandAlias (env : Env) (tok : Tokenizer) (origins : List String) (name : String) :
    TokStatus × Tokenizer :=
  if tok.maxExpansionDepth ≤ tok.expansionDepth then
    (.error, tok.setError "Maximum alias expansion depth exceeded")
  else
    match env.aliasValue? name with
    | none => (.ok, tok)
    | some value =>
      let marked := { tok with
        expandedAliases := name :: tok.expandedAliases
        expansionDepth := tok.expansionDepth + 1 }
      let (status, relexed) := tokenizerRelexText env marked (name :: origins) value
      let left := { relexed with expansionDepth := relexed.expansionDepth - 1 }
      if status ≠ .ok then (status, { left with expandedAliases := left.expandedAliases.tail })
      else if aliasEndsWithBlank value then (.ok, { left with atCommandPosition := true })
      else (.ok, left)

/-! ## Reserved words and numbers -/

/-- The type of the token that was handed over last, to the list that is in use. -/
def previousType? (tok : Tokenizer) : Option TokenType :=
  (if tok.compoundStack = [] then tok.outputTokens else tok.bufferedTokens).getLast?.map Token.type

/-- A word before `)` directly inside a `case` is a pattern. -/
def isCasePattern (tok : Tokenizer) (rest : List InputToken) : Bool :=
  tok.compoundStack.head? = some .case_ && rest.head?.map (·.token.type) = some .rparen

/-- The word behind `for` or `case` is no reserved word. -/
def isLoopVarOrCaseWord (tok : Tokenizer) : Bool :=
  tok.previousType? = some .for_ || tok.previousType? = some .case_

/-- The reserved word that a token becomes; `in` is left to the parser. -/
def reservedType? (tok : Tokenizer) (token : Token) (rest : List InputToken) : Option TokenType :=
  if token.type = .word ∧ tok.atCommandPosition ∧ !token.wasQuoted ∧ !tok.isCasePattern rest ∧
      !tok.isLoopVarOrCaseWord then
    match token.extractWordText?.bind TokenType.ofReservedWord? with
    | some .in_ => none
    | type => type
  else none

/-- The redirection operators of `tokenizer_process_one_token`. -/
def redirectionOperators : List TokenType :=
  [.less, .greater, .dgreat, .dless, .dlessdash, .lessand, .greatand, .lessgreat, .clobber]

/-- The text of a word of digits before a redirection operator. -/
def numberBefore? (token : Token) (next : Option Token) : Option String :=
  match token.extractWordText?, next with
  | some text, some next =>
    if next.type ∈ redirectionOperators ∧ text ≠ "" ∧ text.toList.all Char.isDigit then some text
    else none
  | _, _ => none

/-- `atoi` of a text of digits: `strtol` saturates and the cast keeps the low 32 bits. -/
def atoi (text : String) : Int :=
  let value : Int := text.toList.foldl (fun n d => n * 10 + (d.toNat - '0'.toNat)) 0
  Int.bmod (min value (2 ^ 63 - 1)) (2 ^ 32)

/-- `token_list_set_io_number`, on the token. -/
def setIoNumber (token : Token) (number : Int) : Token :=
  { token with type := .ioNumber, ioNumber := number }

/-! ## Compound commands -/

/-- `tokenizer_get_closing_token`. -/
def getClosingToken : TokenType → TokenType
  | .if_ => .fi
  | .while_ | .until_ | .for_ => .done
  | .case_ => .esac
  | .lbrace => .rbrace
  | _ => .word

/-- `tokenizer_token_name`. -/
def tokenName : TokenType → String
  | .if_ => "if"
  | .then_ => "then"
  | .elif => "elif"
  | .else_ => "else"
  | .fi => "fi"
  | .while_ => "while"
  | .until_ => "until"
  | .for_ => "for"
  | .do_ => "do"
  | .done => "done"
  | .case_ => "case"
  | .esac => "esac"
  | .lbrace => "\x7b"
  | .rbrace => "\x7d"
  | _ => "???"

def openingTokens : List TokenType := [.if_, .while_, .until_, .for_, .case_, .lbrace]

def closingTokens : List TokenType := [.fi, .done, .esac, .rbrace]

/-- `tokenizer_pop_compound`: the stack without its top, or the error. -/
def popCompound (stack : List TokenType) (closing : TokenType) : Except String (List TokenType) :=
  match stack with
  | [] => .error s!"Unexpected closing token '{tokenName closing}' with no matching opening token"
  | opening :: stack =>
    if closing = getClosingToken opening then .ok stack
    else .error (s!"Mismatched compound command: expected '{tokenName (getClosingToken opening)}' to "
      ++ s!"close '{tokenName opening}', but got '{tokenName closing}'")

/-- The stack behind a token. -/
def stackAfter (stack : List TokenType) (type : TokenType) : Except String (List TokenType) :=
  if type ∈ openingTokens then .ok (type :: stack)
  else if type ∈ closingTokens then popCompound stack type
  else .ok stack

/-- The token types of `tokenizer_update_command_position` behind which a command begins. -/
def commandStarters : List TokenType :=
  [.newline, .semi, .amper, .pipe, .andIf, .orIf, .lparen, .rparen, .dsemi, .if_, .then_, .else_,
    .elif, .do_, .while_, .until_, .for_, .case_, .lbrace]

/-- `tokenizer_update_command_position`: the expanded aliases are forgotten with every new command. -/
def updateCommandPosition (tok : Tokenizer) (token : Token) : Tokenizer :=
  if token.type ∈ commandStarters then { tok with atCommandPosition := true, expandedAliases := [] }
  else { tok with atCommandPosition := false }

/-- Is something kept back? -/
def isBuffering (tok : Tokenizer) : Bool := tok.compoundStack ≠ [] || tok.bufferedTokens ≠ []

/-- The `(` of `word ( )`: the word before it is the name of a function. -/
def startsFunction (tok : Tokenizer) (type : TokenType) (rest : List InputToken) : Bool :=
  type = .lparen && !tok.isBuffering && tok.outputTokens.getLast?.map Token.type = some .word &&
    rest.head?.map (·.token.type) = some .rparen

/-- The name of a function goes back to the buffer. -/
def takeBackName (tok : Tokenizer) (type : TokenType) (rest : List InputToken) : Tokenizer :=
  if tok.startsFunction type rest then
    { tok with
      outputTokens := tok.outputTokens.dropLast
      bufferedTokens := tok.bufferedTokens ++ tok.outputTokens.getLast?.toList }
  else tok

/-- The token goes to the buffer while something is kept back, and to the output otherwise. -/
def handOver (tok : Tokenizer) (token : Token) (stack : List TokenType) : Tokenizer :=
  if tok.isBuffering ∨ stack ≠ [] then
    { tok with bufferedTokens := tok.bufferedTokens ++ [token], compoundStack := stack }
  else { tok with outputTokens := tok.outputTokens ++ [token], compoundStack := stack }

/-- `add_token`. -/
def addToken (tok : Tokenizer) (token : Token) (rest : List InputToken) : TokStatus × Tokenizer :=
  let tok := tok.takeBackName token.type rest
  match stackAfter tok.compoundStack token.type with
  | .error e => (.error, tok.setError e)
  | .ok stack =>
    (.ok, { tok.handOver token stack with inputTokens := rest }.updateCommandPosition token)

/-! ## The loop -/

/-- `tokenizer_process_one_token`. -/
def tokenizerProcessOneToken (env : Env) (tok : Tokenizer) : Except Fault (TokStatus × Tokenizer) :=
  match tok.inputTokens with
  | [] => .ok (.incomplete, tok)
  | t :: rest =>
    match tok.aliasFor? env t.token with
    | some name =>
      .ok (tokenizerExpandAlias env { tok with inputTokens := rest } t.origins name)
    | none =>
      match tok.reservedType? t.token rest with
      | some type => .ok (tok.addToken { t.token with type } rest)
      | none =>
        match numberBefore? t.token (rest.head?.map InputToken.token), rest with
        | some text, next :: rest =>
          if atoi text < 0 then .error (.contract "io_number >= 0")
          else .ok (.ok, { tok with
            inputTokens := { next with token := setIoNumber next.token (atoi text) } :: rest })
        | _, _ => .ok (tok.addToken t.token rest)

/-- The end of `tokenizer_process`: an open compound command keeps everything in the buffer. -/
def finish (tok : Tokenizer) : TokStatus × Tokenizer :=
  if tok.compoundStack ≠ [] then
    let names := tok.compoundStack.reverse.map fun type => s!"'{tokenName type}'"
    (.incomplete, tok.setError ("Unclosed compound command(s): " ++ ", ".intercalate names))
  else
    (.ok, { tok with outputTokens := tok.outputTokens ++ tok.bufferedTokens, bufferedTokens := [] })

/-- The loop of `tokenizer_process`, at most `n` turns. -/
def processTokens (env : Env) : ℕ → Tokenizer → Except Fault (TokStatus × Tokenizer)
  | 0, _ => .error .fuel
  | n + 1, tok =>
    if tok.inputTokens = [] then .ok tok.finish
    else do
      let (status, tok) ← tokenizerProcessOneToken env tok
      if status ≠ .ok then return (status, tok) else processTokens env n tok

/-- The tokenizer as `tokenizer_process` starts it. -/
def start (tok : Tokenizer) (input output : List Token) : Tokenizer :=
  { tok with
    inputTokens := input.map (⟨·, []⟩)
    outputTokens := output
    atCommandPosition := true
    expandedAliases := []
    errorMsg := "" }

/-- `tokenizer_process`, at most `n` turns of its loop. -/
def tokenizerProcess (env : Env) (n : ℕ) (tok : Tokenizer) (input output : List Token) :
    Except Fault (TokStatus × Tokenizer) := processTokens env n (tok.start input output)

/-! ## What the steps do to the tokens -/

/-- The tokens that were handed over, in order. -/
def handedOver (tok : Tokenizer) : List Token := tok.outputTokens ++ tok.bufferedTokens

@[simp] theorem updateCommandPosition_inputTokens (tok : Tokenizer) (token : Token) :
    (tok.updateCommandPosition token).inputTokens = tok.inputTokens := by
  unfold updateCommandPosition
  split <;> rfl

@[simp] theorem updateCommandPosition_handedOver (tok : Tokenizer) (token : Token) :
    (tok.updateCommandPosition token).handedOver = tok.handedOver := by
  unfold updateCommandPosition
  split <;> rfl

theorem bufferedTokens_of_not_isBuffering {tok : Tokenizer} (h : tok.isBuffering = false) :
    tok.bufferedTokens = [] := by
  simp only [isBuffering, Bool.or_eq_false_iff, decide_eq_false_iff_not, not_not] at h
  exact h.2

theorem takeBackName_handedOver (tok : Tokenizer) (type : TokenType) (rest : List InputToken) :
    (tok.takeBackName type rest).handedOver = tok.handedOver := by
  unfold takeBackName
  split_ifs with h
  · simp only [startsFunction, Bool.and_eq_true, Bool.not_eq_true', decide_eq_true_eq] at h
    have hbuffer := bufferedTokens_of_not_isBuffering h.1.1.2
    simp only [handedOver, hbuffer, List.nil_append, List.append_nil]
    cases hlast : tok.outputTokens.getLast? with
    | none => simp [hlast] at h
    | some last => simp [List.dropLast_append_getLast? last hlast]
  · rfl

theorem handOver_handedOver (tok : Tokenizer) (token : Token) (stack : List TokenType) :
    (tok.handOver token stack).handedOver = tok.handedOver ++ [token] := by
  unfold handOver
  split_ifs with h
  · simp [handedOver]
  · rw [not_or, Bool.not_eq_true] at h
    simp [handedOver, bufferedTokens_of_not_isBuffering h.1]

/-- A token that is handed over stands behind those before it. -/
theorem addToken_ok {tok tok' : Tokenizer} {token : Token} {rest : List InputToken}
    (h : tok.addToken token rest = (.ok, tok')) :
    tok'.inputTokens = rest ∧ tok'.handedOver = tok.handedOver ++ [token] := by
  unfold addToken at h
  cases hstack : stackAfter (tok.takeBackName token.type rest).compoundStack token.type with
  | error e => simp [hstack] at h
  | ok stack =>
    simp only [hstack, Prod.mk.injEq, true_and] at h
    rw [← h, updateCommandPosition_inputTokens, updateCommandPosition_handedOver]
    refine ⟨rfl, ?_⟩
    rw [← takeBackName_handedOver tok token.type rest, ← handOver_handedOver _ token stack]
    rfl

/-! ## The turns of the loop -/

/-- One step of the loop of `tokenizer_process`. -/
structure Step (env : Env) (tok tok' : Tokenizer) : Prop where
  input : tok.inputTokens ≠ []
  answer : tokenizerProcessOneToken env tok = .ok (.ok, tok')

section

variable {env : Env} {n : ℕ} {tok tok' : Tokenizer}

theorem processTokens_nil (h : tok.inputTokens = []) :
    processTokens env (n + 1) tok = .ok tok.finish := if_pos h

theorem processTokens_step (h : Step env tok tok') :
    processTokens env (n + 1) tok = processTokens env n tok' := by
  rw [processTokens, if_neg h.input, h.answer]
  rfl

theorem processTokens_stop {status : TokStatus} (hin : tok.inputTokens ≠ []) (h : status ≠ .ok)
    (hone : tokenizerProcessOneToken env tok = .ok (status, tok')) :
    processTokens env (n + 1) tok = .ok (status, tok') := by
  rw [processTokens, if_neg hin, hone]
  exact if_pos h

theorem processTokens_fault {e : Fault} (hin : tok.inputTokens ≠ [])
    (hone : tokenizerProcessOneToken env tok = .error e) :
    processTokens env (n + 1) tok = .error e := by
  rw [processTokens, if_neg hin, hone]
  rfl

end

/-- The ways in which one token is processed. -/
inductive Turn (env : Env) (tok : Tokenizer) (answer : TokStatus × Tokenizer) : Prop where
  | nothing (input : tok.inputTokens = []) (answer_eq : (.incomplete, tok) = answer)
  | expand {t : InputToken} {rest : List InputToken} {name : String}
      (input : tok.inputTokens = t :: rest) (isAlias : tok.aliasFor? env t.token = some name)
      (answer_eq :
        tokenizerExpandAlias env { tok with inputTokens := rest } t.origins name = answer)
  | reserved {t : InputToken} {rest : List InputToken} {type : TokenType}
      (input : tok.inputTokens = t :: rest) (noAlias : tok.aliasFor? env t.token = none)
      (isReserved : tok.reservedType? t.token rest = some type)
      (answer_eq : tok.addToken { t.token with type } rest = answer)
  | number {t next : InputToken} {rest : List InputToken} {text : String}
      (input : tok.inputTokens = t :: next :: rest) (noAlias : tok.aliasFor? env t.token = none)
      (noReserved : tok.reservedType? t.token (next :: rest) = none)
      (isNumber : numberBefore? t.token (some next.token) = some text)
      (nonneg : ¬ atoi text < 0)
      (answer_eq : (.ok, { tok with
        inputTokens := { next with token := setIoNumber next.token (atoi text) } :: rest }) = answer)
  | plain {t : InputToken} {rest : List InputToken} (input : tok.inputTokens = t :: rest)
      (noAlias : tok.aliasFor? env t.token = none)
      (noReserved : tok.reservedType? t.token rest = none)
      (noNumber : numberBefore? t.token (rest.head?.map InputToken.token) = none)
      (answer_eq : tok.addToken t.token rest = answer)

theorem turn_iff {env : Env} {tok : Tokenizer} {answer : TokStatus × Tokenizer} :
    tokenizerProcessOneToken env tok = .ok answer ↔ Turn env tok answer := by
  constructor
  · intro h
    unfold tokenizerProcessOneToken at h
    cases hinput : tok.inputTokens with
    | nil =>
      rw [hinput] at h
      exact .nothing hinput (Except.ok.inj h)
    | cons t rest =>
      rw [hinput] at h
      dsimp only at h
      cases halias : tok.aliasFor? env t.token with
      | some name =>
        rw [halias] at h
        exact .expand hinput halias (Except.ok.inj h)
      | none =>
        rw [halias] at h
        dsimp only at h
        cases hreserved : tok.reservedType? t.token rest with
        | some type =>
          rw [hreserved] at h
          exact .reserved hinput halias hreserved (Except.ok.inj h)
        | none =>
          rw [hreserved] at h
          dsimp only at h
          cases hnumber : numberBefore? t.token (rest.head?.map InputToken.token) with
          | none =>
            rw [hnumber] at h
            exact .plain hinput halias hreserved hnumber (Except.ok.inj h)
          | some text =>
            rw [hnumber] at h
            cases rest with
            | nil => simp [numberBefore?] at hnumber
            | cons next rest =>
              dsimp only at h
              split_ifs at h with hneg
              exact .number hinput halias hreserved hnumber hneg (Except.ok.inj h)
  · intro h
    unfold tokenizerProcessOneToken
    cases h with
    | nothing hinput hanswer => rw [hinput, ← hanswer]
    | expand hinput halias hanswer =>
      rw [hinput]
      dsimp only
      rw [halias, ← hanswer]
    | reserved hinput halias hreserved hanswer =>
      rw [hinput]
      dsimp only
      rw [halias]
      dsimp only
      rw [hreserved, ← hanswer]
    | @number t next rest text hinput halias hreserved hnumber hneg hanswer =>
      rw [hinput]
      dsimp only [List.head?_cons, Option.map_some]
      rw [halias]
      dsimp only
      rw [hreserved]
      dsimp only
      rw [hnumber, ← hanswer]
      exact if_neg hneg
    | plain hinput halias hreserved hnumber hanswer =>
      rw [hinput]
      dsimp only
      rw [halias]
      dsimp only
      rw [hreserved]
      dsimp only
      rw [hnumber, ← hanswer]

theorem tokenizerProcessOneToken_ne_fuel (env : Env) (tok : Tokenizer) :
    tokenizerProcessOneToken env tok ≠ .error .fuel := by
  unfold tokenizerProcessOneToken
  split
  · simp
  · split
    · simp
    · split
      · simp
      · split
        · split_ifs <;> simp
        · simp

end Tokenizer

end Migash
