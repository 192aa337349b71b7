import Migash.Library.While

/-! # The pattern matcher

`glob_util_match` as it is compiled where the platform has no `fnmatch`: one
pass over the string that remembers the last `*` and starts again behind it, one
character further on, whenever the pattern does not fit. A C string is the list
of its characters, and a character stands for its byte.
-/

namespace Migash.Glob

open Library

/-- The bits of `flags`. -/
structure Flags where
  pathname : Bool := false
  period : Bool := false
  noescape : Bool := false
  casefold : Bool := false
  deriving DecidableEq, Repr

/-- The value of a `char`, which is signed. -/
def charValue (c : Char) : Int := if c.toNat < 128 then c.toNat else c.toNat - 256

/-- An ASCII letter in lower case. -/
def toLower (c : Char) : Char := if 'A' ≤ c ∧ c ≤ 'Z' then Char.ofNat (c.toNat + 32) else c

/-- `chars_match`. -/
def charsMatch (flags : Flags) (c1 c2 : Char) : Bool :=
  c1 = c2 || flags.casefold && toLower c1 = toLower c2

/-- `char_in_range`. -/
def charInRange (flags : Flags) (c start end_ : Char) : Bool :=
  if flags.casefold then
    charValue (toLower start) ≤ charValue (toLower c) &&
      charValue (toLower c) ≤ charValue (toLower end_)
  else charValue start ≤ charValue c && charValue c ≤ charValue end_

/-- `read_pattern_char`: whether the character was escaped, the character and what follows. -/
def readPatternChar (flags : Flags) : List Char → Option (Bool × Char × List Char)
  | [] => none
  | c :: p =>
    match p with
    | d :: p' => if !flags.noescape && c = '\\' then some (true, d, p') else some (false, c, p)
    | [] => some (false, c, p)

/-- A `-` that is the operator of a range: behind it are the characters to read the end from. -/
def rangeEnd? : List Char → Option (List Char)
  | '-' :: c :: p => if c = ']' then none else some (c :: p)
  | _ => none

/-- The scan of `match_bracket`, at most `n` turns: whether a member was found, and what follows
the closing `]`. -/
def scanBracket (flags : Flags) (sc : Char) : ℕ → List Char → Bool → Option (Bool × List Char)
  | 0, _, _ => none
  | n + 1, p, found =>
    match readPatternChar flags p with
    | none => none
    | some (escaped, ch, p) =>
      if !escaped && ch = ']' then some (found, p)
      else
        match rangeEnd? p with
        | some q =>
          match readPatternChar flags q with
          | none => none
          | some (_, endCh, p) =>
            scanBracket flags sc n p (found || charInRange flags sc ch endCh)
        | none => scanBracket flags sc n p (found || charsMatch flags sc ch)

/-- The prefix `!` or `^` of a bracket expression. -/
def splitNegation : List Char → Bool × List Char
  | c :: p => if c = '!' ∨ c = '^' then (true, p) else (false, c :: p)
  | [] => (false, [])

/-- The members of a bracket expression: a `]` that comes first does not close it. -/
def scanMembers (flags : Flags) (sc : Char) : List Char → Option (Bool × List Char)
  | ']' :: p => scanBracket flags sc (p.length + 1) p (charsMatch flags sc ']')
  | p => scanBracket flags sc (p.length + 1) p false

/-- `matched != negate` behind the closing `]`; without one no character is accepted. -/
def acceptedRest (negate : Bool) : Option (Bool × List Char) → Option (List Char)
  | some (found, rest) => if found ≠ negate then some rest else none
  | none => none

/-- `match_bracket` behind the opening `[`: the rest of the pattern if the character is accepted. -/
def matchBracket (flags : Flags) (p : List Char) (sc : Char) : Option (List Char) :=
  acceptedRest (splitNegation p).1 (scanMembers flags sc (splitNegation p).2)

/-- What the pattern makes of one character: a `*` and what follows it, what follows an element
that accepts the character, or a mismatch. -/
inductive Move where
  | star (rest : List Char)
  | accept (rest : List Char)
  | mismatch
  deriving DecidableEq, Repr

/-- A literal of the pattern. -/
def moveLiteral (flags : Flags) (d : Char) (rest : List Char) (c : Char) : Move :=
  if charsMatch flags d c then .accept rest else .mismatch

/-- The branches of the loop for an unescaped character of the pattern. -/
def movePlain (flags : Flags) (d : Char) (p : List Char) (c : Char) : Move :=
  if d = '*' then if flags.pathname && c = '/' then .mismatch else .star p
  else if d = '?' then if flags.pathname && c = '/' then .mismatch else .accept p
  else if d = '[' then
    if flags.pathname && c = '/' then .mismatch
    else
      match matchBracket flags p c with
      | some rest => .accept rest
      | none => .mismatch
  else moveLiteral flags d p c

/-- The branches of the loop of `glob_util_match` for a character `c` of the string. -/
def move (flags : Flags) (p : List Char) (c : Char) : Move :=
  match p with
  | [] => .mismatch
  | d :: p =>
    match p with
    | e :: p' =>
      if !flags.noescape && d = '\\' then moveLiteral flags e p' c else movePlain flags d p c
    | [] => movePlain flags d p c

/-- `is_protected_dot` for the rest `s` of `string`. -/
def isProtectedDot (flags : Flags) (string s : List Char) : Bool :=
  flags.period && s.head? = some '.' &&
    (s.length = string.length ||
      flags.pathname && string[string.length - s.length - 1]? = some '/')

/-- The pattern and the string from where the loop is, and from behind the last `*`. -/
structure State where
  p : List Char
  s : List Char
  star : Option (List Char × List Char) := none
  deriving DecidableEq, Repr

/-- The end of `glob_util_match`: only `*` are left. -/
def onlyStars (p : List Char) : Bool := p.dropWhile (· = '*') = []

/-- The label `backtrack`. -/
def backtrack (flags : Flags) (star : Option (List Char × List Char)) : Next State Bool :=
  match star with
  | none => .done false
  | some (starPattern, starString) =>
    match starString.tail with
    | [] => .done (onlyStars starPattern)
    | c :: s =>
      if flags.pathname && c = '/' then .done false
      else .again { p := starPattern, s := c :: s, star := some (starPattern, c :: s) }

/-- A dot that only a literal dot matches. -/
def protectedDot (flags : Flags) (st : State) (s : List Char) : Next State Bool :=
  match st.p.dropWhile (· = '*') with
  | '.' :: p => .again { st with p, s }
  | '\\' :: '.' :: p => if flags.noescape then .done false else .again { st with p, s }
  | _ => .done false

/-- One turn of the loop of `glob_util_match`. -/
def turn (flags : Flags) (string : List Char) (st : State) : Except Fault (Next State Bool) :=
  .ok <| match st.s with
    | [] => .done (onlyStars st.p)
    | c :: s =>
      if isProtectedDot flags string st.s then protectedDot flags st s
      else
        match move flags st.p c with
        | .star rest => .again { p := rest, s := st.s, star := some (rest, st.s) }
        | .accept rest => .again { st with p := rest, s }
        | .mismatch => backtrack flags st.star

/-- A bound for the turns of the loop. -/
def turns (pattern string : List Char) : ℕ :=
  (string.length + 2) * (pattern.length + string.length + 1) + 1

/-- `glob_util_match`. -/
def globUtilMatch (pattern string : List Char) (flags : Flags) : Except Fault Bool :=
  iterate (turn flags string) (turns pattern string) { p := pattern, s := string }

end Migash.Glob
