import Mathlib.Data.List.Basic

/-! # Tokens

The token data that the parser, the lowering pass and the executor read, and
the in-place promotion of a `TOKEN_WORD` to a reserved word.
-/

namespace Migash

/-- `token_type_t`. -/
inductive TokenType where
  | eof | word
  | andIf | orIf | dsemi | dless | dgreat | lessand | greatand | lessgreat | dlessdash | clobber
  | semiand | pipe | semi | amper | lparen | rparen | greater | less
  | if_ | then_ | else_ | elif | fi | do_ | done | case_ | esac | while_ | until_ | for_ | in_
  | bang | lbrace | rbrace
  | newline | ioNumber | ioLocation | assignmentWord | redirect | endOfHeredoc
  deriving DecidableEq, Repr

/-- `part_type_t`. -/
inductive PartType where
  | literal | parameter | commandSubst | arithmetic | tilde
  deriving DecidableEq, Repr

/-- `param_subtype_t`. -/
inductive ParamSubtype where
  | plain | length | useDefault | assignDefault | errorIfUnset | useAlternate
  | removeSmallPrefix | removeLargePrefix | removeSmallSuffix | removeLargeSuffix | indirect
  deriving DecidableEq, Repr

/-- `part_t`: one component of a word. A text the source leaves NULL is `none`. -/
structure Part where
  type : PartType
  text : Option String := none
  paramKind : ParamSubtype := .plain
  hasColon : Bool := false
  paramName : Option String := none
  word : Option String := none
  wasSingleQuoted : Bool := false
  wasDoubleQuoted : Bool := false
  deriving DecidableEq, Repr

/-- `token_t`. -/
structure Token where
  type : TokenType
  firstLine : Nat := 0
  firstColumn : Nat := 0
  parts : List Part := []
  ioNumber : Int := 0
  ioLocation : Option String := none
  heredocDelimiter : Option String := none
  heredocContent : Option String := none
  heredocDelimQuoted : Bool := false
  assignmentName : Option String := none
  assignmentValue : List Part := []
  needsExpansion : Bool := false
  needsFieldSplitting : Bool := false
  needsPathnameExpansion : Bool := false
  wasQuoted : Bool := false
  hasEqualsBeforeQuote : Bool := false
  deriving DecidableEq, Repr

/-- `part_clone`: the colon of a modifier is not copied. -/
def Part.clone (other : Part) : Part where
  type := other.type
  text := other.text
  paramName := other.paramName
  word := other.word
  paramKind := other.paramKind
  wasSingleQuoted := other.wasSingleQuoted
  wasDoubleQuoted := other.wasDoubleQuoted

@[simp] theorem Part.clone_clone (part : Part) : part.clone.clone = part.clone := rfl

/-- A copy is the part itself unless the part has a colon. -/
theorem Part.clone_eq_iff {part : Part} : part.clone = part ↔ part.hasColon = false := by
  obtain ⟨type, text, kind, colon, name, word, single, double⟩ := part
  simp [Part.clone, eq_comm]

namespace Token

/-- `token_clone`. -/
def clone (other : Token) : Token where
  type := other.type
  firstLine := other.firstLine
  firstColumn := other.firstColumn
  ioNumber := other.ioNumber
  heredocDelimQuoted := other.heredocDelimQuoted
  needsExpansion := other.needsExpansion
  needsFieldSplitting := other.needsFieldSplitting
  needsPathnameExpansion := other.needsPathnameExpansion
  wasQuoted := other.wasQuoted
  hasEqualsBeforeQuote := other.hasEqualsBeforeQuote
  ioLocation := other.ioLocation
  heredocDelimiter := other.heredocDelimiter
  heredocContent := other.heredocContent
  assignmentName := other.assignmentName
  assignmentValue := other.assignmentValue.map Part.clone
  parts := other.parts.map Part.clone

/-- A copy of a copy is that copy. -/
@[simp] theorem clone_clone (tok : Token) : tok.clone.clone = tok.clone := by
  simp [clone, Function.comp_def]

/-- The token of an unquoted literal word, as the lexer builds it. -/
def ofText (text : String) : Token :=
  { type := .word, parts := [{ type := .literal, text := some text }] }

/-- The token of an operator or a newline. -/
def ofType (type : TokenType) : Token := { type }

/-- The text of an unquoted word made of one literal part: the only kind of word that can be
a reserved word. -/
def bareLiteral? (tok : Token) : Option String :=
  match tok.wasQuoted, tok.parts with
  | false, [part] => if part.type = .literal then part.text else none
  | _, _ => none

/-- `token_try_promote_to_word_str_to_token`: the promoted token, its parts destroyed. -/
def tryPromote (tok : Token) (targetWord : String) (targetType : TokenType) : Option Token :=
  if tok.type = .word ∧ tok.bareLiteral? = some targetWord then
    some { tok with type := targetType, parts := [] }
  else none

/-- `token_is_reserved_word`. -/
def isReservedWord (word : String) : Bool :=
  ["if", "then", "else", "elif", "fi", "do", "done", "case", "esac", "while", "until", "for", "in",
    "\x7b", "\x7d", "!"].contains word

/-- `token_get_all_text`: the texts of all parts, concatenated. -/
def getAllText (tok : Token) : String :=
  String.join (tok.parts.filterMap Part.text)

/-- `is_terminating_reserved_word`: reserved words that end a simple command. -/
def isTerminatingReservedWord (tok : Token) : Bool :=
  tok.type = .word &&
    match tok.bareLiteral? with
    | some word => ["then", "fi", "do", "done", "else", "elif", "esac"].contains word
    | none => false

end Token

/-- The token types a word can be promoted to. -/
def TokenType.IsReserved (type : TokenType) : Prop :=
  type ∈ [.if_, .then_, .else_, .elif, .fi, .do_, .done, .case_, .esac, .while_, .until_, .for_,
    .in_, .bang, .lbrace, .rbrace]

instance (type : TokenType) : Decidable type.IsReserved :=
  inferInstanceAs (Decidable (type ∈ _))

/-- A token of a list before and after some promotions. -/
def Token.Promotes (tok tok' : Token) : Prop :=
  tok' = tok ∨ tok.type = .word ∧ tok'.type.IsReserved

theorem Token.Promotes.refl (tok : Token) : tok.Promotes tok := .inl rfl

theorem Token.Promotes.trans {a b c : Token} (hab : a.Promotes b) (hbc : b.Promotes c) :
    a.Promotes c := by
  rcases hab with rfl | ⟨hw, hr⟩
  · exact hbc
  · rcases hbc with rfl | ⟨hw', -⟩
    · exact .inr ⟨hw, hr⟩
    · rw [hw'] at hr
      exact absurd hr (by decide)

/-- Only words change: a token of any other type is the same token afterwards. -/
theorem Token.Promotes.eq_of_ne_word {tok tok' : Token} (h : tok.Promotes tok')
    (hw : tok.type ≠ .word) : tok' = tok := by
  rcases h with rfl | ⟨hword, -⟩
  · rfl
  · exact absurd hword hw

/-- No token becomes one of the types that are not reserved words. -/
theorem Token.Promotes.type_eq {tok tok' : Token} (h : tok.Promotes tok')
    (hr : ¬ tok'.type.IsReserved) : tok' = tok := by
  rcases h with rfl | ⟨-, hres⟩
  · rfl
  · exact absurd hres hr

end Migash
