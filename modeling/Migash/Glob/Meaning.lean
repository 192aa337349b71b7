import Migash.Glob
import Mathlib.Data.List.Infix

/-! # What a pattern means

The plain definition of a match: the elements of a pattern one after the other,
a `*` standing for any sequence. The matcher finds a match exactly where this
definition has one.
-/

namespace Migash.Glob

open Library

/-! ## The definition -/

/-- A member of a bracket expression. -/
inductive BracketItem where
  | char (c : Char)
  | range (start end_ : Char)
  | cls (name : List Char)
  deriving DecidableEq, Repr

/-- The characters of a named class. -/
def classContains (name : List Char) (c : Char) : Bool :=
  match String.ofList name with
  | "alpha" => c.isAlpha
  | "digit" => c.isDigit
  | "alnum" => c.isAlphanum
  | "upper" => c.isUpper
  | "lower" => c.isLower
  | "space" => c.isWhitespace || c = '\x0b' || c = '\x0c'
  | "blank" => c = ' ' || c = '\t'
  | "xdigit" => c.isDigit || 'a' ≤ c && c ≤ 'f' || 'A' ≤ c && c ≤ 'F'
  | "cntrl" => c.toNat < 32 || c.toNat = 127
  | "print" => 32 ≤ c.toNat && c.toNat < 127
  | "graph" => 32 < c.toNat && c.toNat < 127
  | "punct" => 32 < c.toNat && c.toNat < 127 && !c.isAlphanum
  | _ => false

/-- The character is in the set of the item. -/
def BracketItem.contains (flags : Flags) (sc : Char) : BracketItem → Bool
  | .char c => charsMatch flags sc c
  | .range start end_ => charInRange flags sc start end_
  | .cls name => classContains name sc

/-- The members of a bracket expression up to its closing `]`, and what follows it. With
`classes`, `[:name:]` is a member. -/
inductive Items (flags : Flags) (classes : Bool) :
    List Char → List BracketItem → List Char → Prop where
  | close (rest : List Char) : Items flags classes (']' :: rest) [] rest
  | cls {name p rest : List Char} {items : List BracketItem} (hclasses : classes = true)
      (hname : ∀ c ∈ name, c.isAlpha = true) (h : Items flags classes p items rest) :
      Items flags classes ('[' :: ':' :: name ++ ':' :: ']' :: p) (.cls name :: items) rest
  | char {p p' rest : List Char} {escaped : Bool} {c : Char} {items : List BracketItem}
      (hclass : classes = true → ¬ ['[', ':'] <+: p)
      (hread : readPatternChar flags p = some (escaped, c, p'))
      (hclose : escaped = false → c ≠ ']') (hrange : rangeEnd? p' = none)
      (h : Items flags classes p' items rest) : Items flags classes p (.char c :: items) rest
  | range {p p' q q' rest : List Char} {escaped escaped' : Bool} {c d : Char}
      {items : List BracketItem} (hclass : classes = true → ¬ ['[', ':'] <+: p)
      (hread : readPatternChar flags p = some (escaped, c, p'))
      (hclose : escaped = false → c ≠ ']') (hrange : rangeEnd? p' = some q)
      (hend : readPatternChar flags q = some (escaped', d, q'))
      (h : Items flags classes q' items rest) : Items flags classes p (.range c d :: items) rest

/-- A bracket expression behind its `[`: whether it is negated, its members and what follows it. A
`]` that comes first is a member. -/
inductive Bracket (flags : Flags) (classes : Bool) :
    List Char → Bool → List BracketItem → List Char → Prop where
  | leading {p q rest : List Char} {negate : Bool} {items : List BracketItem}
      (hsplit : splitNegation p = (negate, ']' :: q)) (h : Items flags classes q items rest) :
      Bracket flags classes p negate (.char ']' :: items) rest
  | other {p q rest : List Char} {negate : Bool} {items : List BracketItem}
      (hsplit : splitNegation p = (negate, q)) (hhead : q.head? ≠ some ']')
      (h : Items flags classes q items rest) : Bracket flags classes p negate items rest

/-- A character that stands for itself. -/
def Ordinary (flags : Flags) (d : Char) (p : List Char) : Prop :=
  d ≠ '*' ∧ d ≠ '?' ∧ d ≠ '[' ∧ (flags.noescape = false → d = '\\' → p = [])

/-- The first element of the pattern accepts the character; the rest of the pattern follows. -/
inductive Accepts (flags : Flags) (classes : Bool) : List Char → Char → List Char → Prop where
  | any (p : List Char) (c : Char) : Accepts flags classes ('?' :: p) c p
  | escaped {d c : Char} (p : List Char) (hescape : flags.noescape = false)
      (h : charsMatch flags d c = true) : Accepts flags classes ('\\' :: d :: p) c p
  | bracket {p rest : List Char} {negate : Bool} {items : List BracketItem} {c : Char}
      (hparse : Bracket flags classes p negate items rest)
      (h : (items.any (BracketItem.contains flags c)) ≠ negate) :
      Accepts flags classes ('[' :: p) c rest
  | ordinary {d c : Char} {p : List Char} (hd : Ordinary flags d p)
      (h : charsMatch flags d c = true) : Accepts flags classes (d :: p) c p

/-- The pattern matches the string. -/
inductive Matches (flags : Flags) (classes : Bool) : List Char → List Char → Prop where
  | nil : Matches flags classes [] []
  | star {p s t : List Char} (hsuffix : t <:+ s) (h : Matches flags classes p t) :
      Matches flags classes ('*' :: p) s
  | accept {p p' s : List Char} {c : Char} (haccepts : Accepts flags classes p c p')
      (h : Matches flags classes p' s) : Matches flags classes p (c :: s)

/-! ## Bracket expressions -/

section Brackets

variable {flags : Flags}

theorem readPatternChar_length {p p' : List Char} {escaped : Bool} {c : Char}
    (h : readPatternChar flags p = some (escaped, c, p')) : p'.length < p.length := by
  unfold readPatternChar at h
  split at h
  · cases h
  · split at h
    · split_ifs at h
      · cases h
        simp only [List.length_cons]
        omega
      · cases h
        simp
    · cases h
      simp

theorem rangeEnd?_length {p q : List Char} (h : rangeEnd? p = some q) : q.length < p.length := by
  unfold rangeEnd? at h
  split at h
  · split_ifs at h
    cases h
    simp
  · cases h

theorem readPatternChar_close (rest : List Char) :
    readPatternChar flags (']' :: rest) = some (false, ']', rest) := by
  cases rest <;> simp [readPatternChar]

/-- A character that was not escaped stands at the front. -/
theorem eq_cons_of_read {p p' : List Char} {c : Char}
    (h : readPatternChar flags p = some (false, c, p')) : p = c :: p' := by
  unfold readPatternChar at h
  split at h
  · cases h
  · split at h
    · split_ifs at h
      · cases h
      · cases h
        rfl
    · cases h
      rfl

/-- Before anything but the closing bracket stands a member: a character or a range. -/
theorem Items.cases_open {p p' rest : List Char} {escaped : Bool} {ch : Char}
    {items : List BracketItem} (h : Items flags false p items rest)
    (hread : readPatternChar flags p = some (escaped, ch, p')) (hopen : escaped = false → ch ≠ ']') :
    (rangeEnd? p' = none ∧ ∃ items', items = .char ch :: items' ∧ Items flags false p' items' rest) ∨
      ∃ q escaped' endCh q' items', rangeEnd? p' = some q ∧
        readPatternChar flags q = some (escaped', endCh, q') ∧
        items = .range ch endCh :: items' ∧ Items flags false q' items' rest := by
  cases h with
  | close =>
    rw [readPatternChar_close] at hread
    cases hread
    exact absurd rfl (hopen rfl)
  | cls hclasses => cases hclasses
  | char _ hread' _ hrange hrest =>
    rw [hread] at hread'
    cases hread'
    exact .inl ⟨hrange, _, rfl, hrest⟩
  | range _ hread' _ hrange hend hrest =>
    rw [hread] at hread'
    cases hread'
    exact .inr ⟨_, _, _, _, _, hrange, hend, rfl, hrest⟩

theorem Items.cases_close {p' rest : List Char} {items : List BracketItem}
    (h : Items flags false (']' :: p') items rest) : items = [] ∧ rest = p' := by
  cases h with
  | close => exact ⟨rfl, rfl⟩
  | char _ hread hopen =>
    rw [readPatternChar_close] at hread
    cases hread
    exact absurd rfl (hopen rfl)
  | range _ hread hopen =>
    rw [readPatternChar_close] at hread
    cases hread
    exact absurd rfl (hopen rfl)

theorem Items.ne_nil {rest : List Char} {items : List BracketItem} {p : List Char}
    (h : Items flags false p items rest) : readPatternChar flags p ≠ none := by
  cases h with
  | close => rw [readPatternChar_close]; exact Option.some_ne_none _
  | cls hclasses => cases hclasses
  | char _ hread => rw [hread]; exact Option.some_ne_none _
  | range _ hread => rw [hread]; exact Option.some_ne_none _

/-- The scan finds a closing `]` where the members have one, and knows whether one of them contains
the character. -/
theorem scanBracket_iff {sc : Char} {n : ℕ} {p rest : List Char} {found found' : Bool}
    (hn : p.length < n) :
    scanBracket flags sc n p found = some (found', rest) ↔
      ∃ items, Items flags false p items rest ∧
        found' = (found || items.any (BracketItem.contains flags sc)) := by
  induction n generalizing p found with
  | zero => omega
  | succ n ih =>
    rw [scanBracket]
    cases hread : readPatternChar flags p with
    | none =>
      refine ⟨by rintro ⟨⟩, ?_⟩
      rintro ⟨items, hitems, -⟩
      exact absurd hread hitems.ne_nil
    | some read =>
      obtain ⟨escaped, ch, p'⟩ := read
      have hlen := readPatternChar_length hread
      dsimp only
      by_cases hclose : (!escaped && decide (ch = ']')) = true
      · obtain ⟨rfl, rfl⟩ : escaped = false ∧ ch = ']' := by simpa using hclose
        rw [if_pos hclose, Option.some.injEq, Prod.mk.injEq, eq_cons_of_read hread]
        constructor
        · rintro ⟨rfl, rfl⟩
          exact ⟨[], .close p', by simp⟩
        · rintro ⟨items, hitems, rfl⟩
          obtain ⟨rfl, rfl⟩ := hitems.cases_close
          simp
      · have hopen : escaped = false → ch ≠ ']' := by
          rintro rfl rfl
          exact hclose rfl
        rw [if_neg hclose]
        cases hrange : rangeEnd? p' with
        | none =>
          dsimp only
          rw [ih (by omega)]
          constructor
          · rintro ⟨items, hitems, rfl⟩
            exact ⟨_, .char (by rintro ⟨⟩) hread hopen hrange hitems,
              by simp [BracketItem.contains, Bool.or_assoc]⟩
          · rintro ⟨items, hitems, rfl⟩
            rcases hitems.cases_open hread hopen with ⟨-, items', rfl, hrest⟩ | ⟨q, _, _, _, _, hq, -⟩
            · exact ⟨items', hrest, by simp [BracketItem.contains, Bool.or_assoc]⟩
            · rw [hrange] at hq
              cases hq
        | some q =>
          have hlen' := rangeEnd?_length hrange
          have hinv {items : List BracketItem} (hitems : Items flags false p items rest) :
              ∃ escaped' endCh q' items', readPatternChar flags q = some (escaped', endCh, q') ∧
                items = .range ch endCh :: items' ∧ Items flags false q' items' rest := by
            rcases hitems.cases_open hread hopen with ⟨hnone, -⟩ | ⟨q₁, e, d, q', items', hq, h⟩
            · rw [hrange] at hnone
              cases hnone
            · rw [hrange, Option.some.injEq] at hq
              exact ⟨e, d, q', items', hq ▸ h.1, h.2⟩
          dsimp only
          cases hend : readPatternChar flags q with
          | none =>
            refine ⟨by rintro ⟨⟩, ?_⟩
            rintro ⟨items, hitems, -⟩
            obtain ⟨_, _, _, _, hend', -⟩ := hinv hitems
            rw [hend] at hend'
            cases hend'
          | some read' =>
            obtain ⟨escaped', endCh, q'⟩ := read'
            have hlen'' := readPatternChar_length hend
            dsimp only
            rw [ih (by omega)]
            constructor
            · rintro ⟨items, hitems, rfl⟩
              exact ⟨_, .range (by rintro ⟨⟩) hread hopen hrange hend hitems,
                by simp [BracketItem.contains, Bool.or_assoc]⟩
            · rintro ⟨items, hitems, rfl⟩
              obtain ⟨_, _, _, items', hend', rfl, hrest⟩ := hinv hitems
              rw [hend] at hend'
              cases hend'
              exact ⟨items', hrest, by simp [BracketItem.contains, Bool.or_assoc]⟩

/-- What follows the members does not depend on how they are read. -/
theorem Items.rest_unique {p rest rest' : List Char} {items items' : List BracketItem}
    (h : Items flags false p items rest) (h' : Items flags false p items' rest') : rest = rest' := by
  have hn : p.length < p.length + 1 := by omega
  have hscan : scanBracket flags 'a' (p.length + 1) p false = some (_, rest) :=
    (scanBracket_iff hn).mpr ⟨items, h, rfl⟩
  have hscan' : scanBracket flags 'a' (p.length + 1) p false = some (_, rest') :=
    (scanBracket_iff hn).mpr ⟨items', h', rfl⟩
  rw [hscan, Option.some.injEq, Prod.mk.injEq] at hscan'
  exact hscan'.2

theorem Items.length_lt {p rest : List Char} {items : List BracketItem}
    (h : Items flags false p items rest) : rest.length < p.length := by
  induction h with
  | close => simp
  | cls hclasses => cases hclasses
  | char _ hread _ _ _ ih =>
    have := readPatternChar_length hread
    omega
  | range _ hread _ hrange hend _ ih =>
    have := readPatternChar_length hread
    have := rangeEnd?_length hrange
    have := readPatternChar_length hend
    omega

theorem splitNegation_length {p q : List Char} {negate : Bool}
    (h : splitNegation p = (negate, q)) : q.length ≤ p.length := by
  unfold splitNegation at h
  split at h
  · split_ifs at h <;> · cases h; simp
  · cases h
    simp

theorem Bracket.rest_unique {p rest rest' : List Char} {negate negate' : Bool}
    {items items' : List BracketItem} (h : Bracket flags false p negate items rest)
    (h' : Bracket flags false p negate' items' rest') : rest = rest' := by
  cases h with
  | leading hsplit hitems =>
    cases h' with
    | leading hsplit' hitems' =>
      cases hsplit.symm.trans hsplit'
      exact hitems.rest_unique hitems'
    | other hsplit' hhead =>
      cases hsplit.symm.trans hsplit'
      exact absurd rfl hhead
  | other hsplit hhead hitems =>
    cases h' with
    | leading hsplit' =>
      cases hsplit.symm.trans hsplit'
      exact absurd rfl hhead
    | other hsplit' _ hitems' =>
      cases hsplit.symm.trans hsplit'
      exact hitems.rest_unique hitems'

theorem Bracket.length_lt {p rest : List Char} {negate : Bool} {items : List BracketItem}
    (h : Bracket flags false p negate items rest) : rest.length < p.length := by
  cases h with
  | leading hsplit hitems =>
    have hsplit := splitNegation_length hsplit
    have hitems := hitems.length_lt
    simp only [List.length_cons] at hsplit
    omega
  | other hsplit _ hitems =>
    have := splitNegation_length hsplit
    have := hitems.length_lt
    omega

theorem acceptedRest_eq_some {negate : Bool} {r : Option (Bool × List Char)} {rest : List Char} :
    acceptedRest negate r = some rest ↔ ∃ found, r = some (found, rest) ∧ found ≠ negate := by
  rcases r with _ | ⟨found, rest'⟩
  · simp [acceptedRest]
  · simp only [acceptedRest, Option.some.injEq, Prod.mk.injEq]
    split_ifs with hne
    · constructor
      · rintro ⟨⟩
        exact ⟨found, ⟨rfl, rfl⟩, hne⟩
      · rintro ⟨_, ⟨rfl, rfl⟩, -⟩
        rfl
    · constructor
      · rintro ⟨⟩
      · rintro ⟨_, ⟨rfl, rfl⟩, hne'⟩
        exact absurd hne' hne

/-- `match_bracket` accepts a character that the bracket expression contains, or does not contain
if it is negated. -/
theorem matchBracket_iff {p rest : List Char} {sc : Char} :
    matchBracket flags p sc = some rest ↔
      ∃ negate items, Bracket flags false p negate items rest ∧
        items.any (BracketItem.contains flags sc) ≠ negate := by
  rw [matchBracket, acceptedRest_eq_some]
  rcases hsplit : splitNegation p with ⟨negate, q⟩
  dsimp only
  by_cases hhead : q.head? = some ']'
  · obtain ⟨q', rfl⟩ : ∃ q', q = ']' :: q' := List.head?_eq_some_iff.mp hhead
    rw [scanMembers]
    constructor
    · rintro ⟨found, hscan, hne⟩
      obtain ⟨items, hitems, rfl⟩ := (scanBracket_iff (by omega)).mp hscan
      exact ⟨negate, _, .leading hsplit hitems, by simpa [BracketItem.contains] using hne⟩
    · rintro ⟨negate', items, hbracket, hne⟩
      cases hbracket with
      | leading hsplit' hitems =>
        cases hsplit.symm.trans hsplit'
        exact ⟨_, (scanBracket_iff (by omega)).mpr ⟨_, hitems, rfl⟩,
          by simpa [BracketItem.contains] using hne⟩
      | other hsplit' hhead' =>
        cases hsplit.symm.trans hsplit'
        exact absurd rfl hhead'
  · have hmembers : scanMembers flags sc q = scanBracket flags sc (q.length + 1) q false := by
      unfold scanMembers
      split
      · exact absurd rfl hhead
      · rfl
    rw [hmembers]
    constructor
    · rintro ⟨found, hscan, hne⟩
      obtain ⟨items, hitems, rfl⟩ := (scanBracket_iff (by omega)).mp hscan
      exact ⟨negate, _, .other hsplit hhead hitems, by simpa using hne⟩
    · rintro ⟨negate', items, hbracket, hne⟩
      cases hbracket with
      | leading hsplit' =>
        cases hsplit.symm.trans hsplit'
        exact absurd rfl hhead
      | other hsplit' _ hitems =>
        cases hsplit.symm.trans hsplit'
        exact ⟨_, (scanBracket_iff (by omega)).mpr ⟨_, hitems, rfl⟩, by simpa using hne⟩

end Brackets

/-! ## One character -/

section Accepts

variable {flags : Flags} {p p' p'' : List Char} {c c' : Char}

theorem not_accepts_star : ¬ Accepts flags false ('*' :: p) c p' := by
  intro h
  cases h with
  | ordinary hd => exact hd.1 rfl

/-- What follows the first element does not depend on the character. -/
theorem Accepts.rest_unique (h : Accepts flags false p c p') (h' : Accepts flags false p c' p'') :
    p' = p'' := by
  cases h with
  | any =>
    cases h' with
    | any => rfl
    | ordinary => rfl
  | escaped _ hescape =>
    cases h' with
    | escaped => rfl
    | ordinary hd => exact absurd (hd.2.2.2 hescape rfl) (List.cons_ne_nil _ _)
  | bracket hparse =>
    cases h' with
    | bracket hparse' => exact hparse.rest_unique hparse'
    | ordinary hd => exact absurd rfl hd.2.2.1
  | ordinary hd =>
    cases h' with
    | any => rfl
    | escaped _ hescape => exact absurd (hd.2.2.2 hescape rfl) (List.cons_ne_nil _ _)
    | bracket => exact absurd rfl hd.2.2.1
    | ordinary => rfl

theorem Accepts.length_lt (h : Accepts flags false p c p') : p'.length < p.length := by
  cases h with
  | any => simp
  | escaped =>
    simp only [List.length_cons]
    omega
  | bracket hparse =>
    have := hparse.length_lt
    simp only [List.length_cons]
    omega
  | ordinary => simp

/-- The loop's branches are the first element of the pattern. -/
def Move.Means (flags : Flags) (p : List Char) (c : Char) : Move → Prop
  | .star rest => p = '*' :: rest
  | .accept rest => Accepts flags false p c rest
  | .mismatch => (∀ rest, ¬ Accepts flags false p c rest) ∧ ∀ rest, p ≠ '*' :: rest

theorem moveLiteral_means {d : Char} (hd : Ordinary flags d p) :
    (moveLiteral flags d p c).Means flags (d :: p) c := by
  unfold moveLiteral
  split_ifs with hmatch
  · exact .ordinary hd hmatch
  · refine ⟨fun rest h => ?_, fun rest h => hd.1 (List.cons.inj h).1⟩
    cases h with
    | any => exact hd.2.1 rfl
    | escaped _ hescape => exact List.cons_ne_nil _ _ (hd.2.2.2 hescape rfl)
    | bracket => exact hd.2.2.1 rfl
    | ordinary _ h => exact hmatch h

theorem movePlain_means (hpath : flags.pathname = false) {d : Char}
    (hd : flags.noescape = false → d = '\\' → p = []) :
    (movePlain flags d p c).Means flags (d :: p) c := by
  unfold movePlain
  simp only [hpath, Bool.false_and, Bool.false_eq_true, if_false]
  split_ifs with hstar hany hbracket
  · exact congrArg (· :: p) hstar
  · exact hany ▸ .any p c
  · subst hbracket
    cases hmatch : matchBracket flags p c with
    | some rest =>
      obtain ⟨negate, items, hparse, hne⟩ := matchBracket_iff.mp hmatch
      exact .bracket hparse hne
    | none =>
      refine ⟨fun rest h => ?_, fun rest h => hstar (List.cons.inj h).1⟩
      cases h with
      | bracket hparse hne =>
        rw [matchBracket_iff.mpr ⟨_, _, hparse, hne⟩] at hmatch
        cases hmatch
      | ordinary hord => exact hord.2.2.1 rfl
  · exact moveLiteral_means ⟨hstar, hany, hbracket, hd⟩

theorem move_means (hpath : flags.pathname = false) (p : List Char) (c : Char) :
    (move flags p c).Means flags p c := by
  unfold move
  match p with
  | [] => exact ⟨by rintro rest ⟨⟩, by rintro rest ⟨⟩⟩
  | [d] => exact movePlain_means hpath fun _ _ => rfl
  | d :: e :: p =>
    dsimp only
    split_ifs with hescape
    · obtain ⟨hno, rfl⟩ : flags.noescape = false ∧ d = '\\' := by simpa using hescape
      unfold moveLiteral
      split_ifs with hmatch
      · exact .escaped p hno hmatch
      · refine ⟨fun rest h => ?_, fun rest h => absurd (List.cons.inj h).1 (by decide)⟩
        cases h with
        | escaped _ _ h => exact hmatch h
        | ordinary hord => exact List.cons_ne_nil _ _ (hord.2.2.2 hno rfl)
    · refine movePlain_means hpath fun hno hd => absurd hescape ?_
      simp [hno, hd]

end Accepts

/-! ## Whole strings -/

section Matches

variable {flags : Flags} {p s : List Char} {c : Char}

theorem matches_star : Matches flags false ('*' :: p) s ↔ ∃ t, t <:+ s ∧ Matches flags false p t := by
  constructor
  · intro h
    cases h with
    | star hsuffix h => exact ⟨_, hsuffix, h⟩
    | accept haccepts => exact absurd haccepts not_accepts_star
  · rintro ⟨t, hsuffix, h⟩
    exact .star hsuffix h

theorem matches_cons (hp : ∀ rest, p ≠ '*' :: rest) :
    Matches flags false p (c :: s) ↔
      ∃ p', Accepts flags false p c p' ∧ Matches flags false p' s := by
  constructor
  · intro h
    cases h with
    | star => exact absurd rfl (hp _)
    | accept haccepts h => exact ⟨_, haccepts, h⟩
  · rintro ⟨p', haccepts, h⟩
    exact .accept haccepts h

/-- Only `*` match the empty string. -/
theorem matches_nil : Matches flags false p [] ↔ onlyStars p = true := by
  induction p with
  | nil => exact iff_of_true .nil rfl
  | cons d p ih =>
    by_cases hd : d = '*'
    · subst hd
      rw [matches_star]
      have hstars : onlyStars ('*' :: p) = onlyStars p := rfl
      rw [hstars, ← ih]
      constructor
      · rintro ⟨t, hsuffix, h⟩
        rwa [List.suffix_nil.mp hsuffix] at h
      · intro h
        exact ⟨[], List.suffix_rfl, h⟩
    · refine iff_of_false (fun h => ?_) ?_
      · cases h with
        | star => exact hd rfl
      · simp [onlyStars, hd]

end Matches

/-! ## The loop -/

section Loop

variable {flags : Flags} {pattern string : List Char}

/-- Since the last `*` the pattern was read from `sp` to `p` and the string from `ss` to `s`, `k`
elements that accept one character each. -/
structure Since (flags : Flags) (sp ss p s : List Char) (k : ℕ) : Prop where
  le : k ≤ ss.length
  rest : s = ss.drop k
  needs : ∀ t, Matches flags false sp t → k ≤ t.length ∧ Matches flags false p (t.drop k)
  enough : Matches flags false p s → Matches flags false sp ss

/-- The pattern matches the string exactly if what is left can still be matched, from where the
loop is or from behind the last `*` on. -/
def Left (flags : Flags) (pattern string : List Char) (st : State) : Prop :=
  match st.star with
  | none => Matches flags false pattern string ↔ Matches flags false st.p st.s
  | some (sp, ss) => ss ≠ [] ∧ sp.length ≤ pattern.length ∧ ss.length ≤ string.length ∧
      (Matches flags false pattern string ↔ ∃ t, t <:+ ss ∧ Matches flags false sp t) ∧
      ∃ k, Since flags sp ss st.p st.s k

/-- The invariant of the loop. -/
structure Inv (flags : Flags) (pattern string : List Char) (st : State) : Prop where
  p_length : st.p.length ≤ pattern.length
  s_length : st.s.length ≤ string.length
  left : Left flags pattern string st

/-- The string from behind the last `*` gets shorter with every restart, and what is left to read
in between. -/
def measure (pattern string : List Char) (st : State) : ℕ :=
  (match st.star with
    | none => string.length + 1
    | some (_, ss) => ss.length) * (pattern.length + string.length + 1) +
    (st.p.length + st.s.length)

theorem Since.start (sp ss : List Char) : Since flags sp ss sp ss 0 where
  le := Nat.zero_le _
  rest := rfl
  needs _ h := ⟨Nat.zero_le _, h⟩
  enough h := h

/-- One element further on. -/
theorem Since.accept {sp ss p p' s : List Char} {c : Char} {k : ℕ}
    (h : Since flags sp ss p (c :: s) k) (haccepts : Accepts flags false p c p') :
    Since flags sp ss p' s (k + 1) := by
  have hlen : ss.length - k = s.length + 1 := by
    have := congrArg List.length h.rest
    rw [List.length_cons, List.length_drop] at this
    omega
  have hp (rest : List Char) : p ≠ '*' :: rest := by
    rintro rfl
    exact not_accepts_star haccepts
  refine
    { le := by omega
      rest := ?_
      needs := fun t ht => ?_
      enough := fun hrest => h.enough (.accept haccepts hrest) }
  · rw [← List.tail_drop, ← h.rest, List.tail_cons]
  · obtain ⟨hle, hmatch⟩ := h.needs t ht
    cases hdrop : t.drop k with
    | nil =>
      -- an element accepts no empty string
      rw [hdrop] at hmatch
      cases hmatch with
      | nil => cases haccepts
      | star => exact absurd rfl (hp _)
    | cons d t' =>
      rw [hdrop, matches_cons hp] at hmatch
      obtain ⟨p'', haccepts', hmatch⟩ := hmatch
      obtain rfl := haccepts.rest_unique haccepts'
      have hlen' : t.length - k = t'.length + 1 := by
        have := congrArg List.length hdrop
        rwa [List.length_cons, List.length_drop] at this
      refine ⟨by omega, ?_⟩
      rwa [← List.tail_drop, hdrop, List.tail_cons]

/-- A new `*` replaces the last one: the earliest place of what stands between them will do. -/
theorem Since.star {sp ss rest s : List Char} {k : ℕ} (h : Since flags sp ss ('*' :: rest) s k) :
    (∃ t, t <:+ ss ∧ Matches flags false sp t) ↔ ∃ t, t <:+ s ∧ Matches flags false rest t := by
  constructor
  · rintro ⟨t, hsuffix, hmatch⟩
    obtain ⟨hle, hstar⟩ := h.needs t hmatch
    obtain ⟨t', hsuffix', hrest⟩ := matches_star.mp hstar
    refine ⟨t', hsuffix'.trans ?_, hrest⟩
    obtain ⟨before, rfl⟩ := hsuffix
    have hdrop : t.drop k = (t.drop (k - before.length)).drop (k - (k - before.length)) := by
      rw [List.drop_drop]
      congr 1
      omega
    rw [h.rest, List.drop_append, hdrop]
    exact (List.drop_suffix _ _).trans (List.suffix_append _ _)
  · rintro ⟨t, hsuffix, hmatch⟩
    exact ⟨ss, List.suffix_rfl, h.enough (.star hsuffix hmatch)⟩

/-- The measure, restart by restart. -/
theorem measure_lt {r r' m m' n : ℕ} (h : r < r' ∧ m < n ∨ r ≤ r' ∧ m < m') :
    r * n + m < r' * n + m' := by
  rcases h with ⟨hr, hm⟩ | ⟨hr, hm⟩
  · have hmul : (r + 1) * n ≤ r' * n := Nat.mul_le_mul_right n hr
    rw [Nat.add_mul, Nat.one_mul] at hmul
    omega
  · have hmul : r * n ≤ r' * n := Nat.mul_le_mul_right n hr
    omega

/-- A mismatch at a character: the answer is no without a `*`, and otherwise the search goes on one
character behind the place it was started from. -/
theorem backtrack_holds (hpath : flags.pathname = false) {st : State}
    (h : Inv flags pattern string st) (hno : ¬ Matches flags false st.p st.s) :
    (backtrack flags st.star).Either
      (fun st' => Inv flags pattern string st' ∧
        measure pattern string st' < measure pattern string st)
      (fun b => b = true ↔ Matches flags false pattern string) := by
  have hleft := h.left
  have hmeasure : measure pattern string st =
      (match st.star with
        | none => string.length + 1
        | some (_, ss) => ss.length) * (pattern.length + string.length + 1) +
        (st.p.length + st.s.length) := rfl
  unfold Left at hleft
  unfold backtrack
  cases hstar : st.star with
  | none =>
    rw [hstar] at hleft
    exact iff_of_false (by decide) (mt hleft.mp hno)
  | some last =>
    obtain ⟨sp, ss⟩ := last
    rw [hstar] at hleft hmeasure
    obtain ⟨hne, hsp, hss, hiff, k, hsince⟩ := hleft
    dsimp only at hmeasure ⊢
    obtain ⟨d, t, rfl⟩ := List.exists_cons_of_ne_nil hne
    -- the place that was tried last is none
    have hfirst : ¬ Matches flags false sp (d :: t) := by
      intro hmatch
      have hneed := (hsince.needs _ hmatch).2
      rw [← hsince.rest] at hneed
      exact hno hneed
    have hnext : (∃ u, u <:+ d :: t ∧ Matches flags false sp u) ↔
        ∃ u, u <:+ t ∧ Matches flags false sp u := by
      constructor
      · rintro ⟨u, hu, hmatch⟩
        rcases List.suffix_cons_iff.mp hu with rfl | hu
        · exact absurd hmatch hfirst
        · exact ⟨u, hu, hmatch⟩
      · rintro ⟨u, hu, hmatch⟩
        exact ⟨u, hu.trans (List.suffix_cons d t), hmatch⟩
    rw [List.tail_cons]
    cases t with
    | nil =>
      dsimp only
      rw [Next.either_done, hiff, hnext, ← matches_nil]
      constructor
      · intro hmatch
        exact ⟨[], List.suffix_rfl, hmatch⟩
      · rintro ⟨u, hu, hmatch⟩
        rwa [List.suffix_nil.mp hu] at hmatch
    | cons e t =>
      simp only [hpath, Bool.false_and, Bool.false_eq_true, if_false, Next.either_again]
      simp only [List.length_cons] at hss
      refine ⟨⟨hsp, ?_, List.cons_ne_nil _ _, hsp, ?_, hiff.trans hnext, 0, .start _ _⟩, ?_⟩
      · simp only [List.length_cons]
        omega
      · simp only [List.length_cons]
        omega
      · rw [hmeasure]
        refine measure_lt (.inl ⟨?_, ?_⟩)
        · simp only [List.length_cons]
          omega
        · dsimp only
          simp only [List.length_cons]
          omega

/-- One turn keeps the invariant and goes on, or it answers. -/
theorem turn_holds (hpath : flags.pathname = false) (hperiod : flags.period = false) {st : State}
    (h : Inv flags pattern string st) :
    Holds (Next.Either
      (fun st' => Inv flags pattern string st' ∧
        measure pattern string st' < measure pattern string st)
      (fun b => b = true ↔ Matches flags false pattern string)) (turn flags string st) := by
  have hleft := h.left
  unfold Left at hleft
  unfold turn
  rw [holds_ok]
  cases hs : st.s with
  | nil =>
    -- the end of the string
    dsimp only
    rw [Next.either_done, ← matches_nil]
    cases hstar : st.star with
    | none =>
      rw [hstar, hs] at hleft
      exact hleft.symm
    | some last =>
      obtain ⟨sp, ss⟩ := last
      rw [hstar, hs] at hleft
      obtain ⟨-, -, -, hiff, k, hsince⟩ := hleft
      rw [hiff]
      constructor
      · intro hmatch
        exact ⟨ss, List.suffix_rfl, hsince.enough hmatch⟩
      · rintro ⟨t, hsuffix, hmatch⟩
        obtain ⟨hle, hrest⟩ := hsince.needs t hmatch
        have hall : ss.length ≤ k := List.drop_eq_nil_iff.mp hsince.rest.symm
        have hshort : t.length ≤ k := hsuffix.length_le.trans hall
        rwa [List.drop_eq_nil_iff.mpr hshort] at hrest
  | cons c s =>
    have hdot : isProtectedDot flags string (c :: s) = false := by simp [isProtectedDot, hperiod]
    dsimp only
    rw [if_neg (by rw [hdot]; exact Bool.false_ne_true)]
    have hmeans := move_means hpath st.p c
    have hslen := h.s_length
    rw [hs, List.length_cons] at hslen
    cases hmove : move flags st.p c with
    | star rest =>
      rw [hmove] at hmeans
      have hp : st.p = '*' :: rest := hmeans
      have hplen := h.p_length
      rw [hp, List.length_cons] at hplen
      have hrest : rest.length ≤ pattern.length := by omega
      dsimp only
      rw [Next.either_again]
      cases hstar : st.star with
      | none =>
        rw [hstar, hs, hp, matches_star] at hleft
        refine ⟨⟨hrest, by simpa using hslen, List.cons_ne_nil _ _, hrest, by simpa using hslen,
          hleft, 0, .start _ _⟩, ?_⟩
        unfold measure
        rw [hstar, hs, hp]
        refine measure_lt (.inr ⟨?_, ?_⟩)
        · simp only [List.length_cons]
          omega
        · simp only [List.length_cons]
          omega
      | some last =>
        obtain ⟨sp, ss⟩ := last
        rw [hstar, hs, hp] at hleft
        obtain ⟨-, -, -, hiff, k, hsince⟩ := hleft
        refine ⟨⟨hrest, by simpa using hslen, List.cons_ne_nil _ _, hrest, by simpa using hslen,
          hiff.trans hsince.star, 0, .start _ _⟩, ?_⟩
        unfold measure
        rw [hstar, hs, hp]
        have hlen := congrArg List.length hsince.rest
        rw [List.length_drop] at hlen
        have hle : (c :: s).length ≤ ss.length := by omega
        refine measure_lt (.inr ⟨hle, ?_⟩)
        simp only [List.length_cons]
        omega
    | accept rest =>
      rw [hmove] at hmeans
      have haccepts : Accepts flags false st.p c rest := hmeans
      have hshort := haccepts.length_lt
      have hplen := h.p_length
      have hp (q : List Char) : st.p ≠ '*' :: q := by
        intro heq
        rw [heq] at haccepts
        exact not_accepts_star haccepts
      dsimp only
      rw [Next.either_again]
      have hsmaller : measure pattern string { st with p := rest, s } <
          measure pattern string st := by
        unfold measure
        rw [hs]
        refine measure_lt (.inr ⟨Nat.le_refl _, ?_⟩)
        simp only [List.length_cons]
        omega
      refine ⟨⟨?_, ?_, ?_⟩, hsmaller⟩
      · dsimp only
        omega
      · dsimp only
        omega
      · unfold Left
        dsimp only
        cases hstar : st.star with
        | none =>
          rw [hstar, hs, matches_cons hp] at hleft
          refine hleft.trans ⟨?_, fun hmatch => ⟨rest, haccepts, hmatch⟩⟩
          rintro ⟨p', haccepts', hmatch⟩
          rwa [haccepts'.rest_unique haccepts] at hmatch
        | some last =>
          obtain ⟨sp, ss⟩ := last
          rw [hstar, hs] at hleft
          obtain ⟨hne, hsp, hss, hiff, k, hsince⟩ := hleft
          exact ⟨hne, hsp, hss, hiff, k + 1, hsince.accept haccepts⟩
    | mismatch =>
      rw [hmove] at hmeans
      have hno : ¬ Matches flags false st.p st.s := by
        rw [hs, matches_cons hmeans.2]
        rintro ⟨p', haccepts, -⟩
        exact hmeans.1 p' haccepts
      exact backtrack_holds hpath h hno

/-- The turns suffice from the start. -/
theorem measure_start (pattern string : List Char) :
    measure pattern string { p := pattern, s := string } < turns pattern string := by
  unfold measure turns
  dsimp only
  have hmul : (string.length + 2) * (pattern.length + string.length + 1) =
      (string.length + 1) * (pattern.length + string.length + 1) +
        (pattern.length + string.length + 1) := by
    rw [show string.length + 2 = string.length + 1 + 1 from rfl, Nat.add_mul, Nat.one_mul]
  omega

/-- The matcher returns, and it finds a match exactly where the plain definition has one. -/
theorem globUtilMatch_matches (pattern string : List Char) (flags : Flags)
    (hpath : flags.pathname = false) (hperiod : flags.period = false) :
    ∃ b, globUtilMatch pattern string flags = .ok b ∧
      (b = true ↔ Matches flags false pattern string) := by
  have hinv : Inv flags pattern string { p := pattern, s := string } :=
    ⟨Nat.le_refl _, Nat.le_refl _, Iff.rfl⟩
  refine iterate_holds (measure pattern string) (fun st h => turn_holds hpath hperiod h) hinv
    (measure_start pattern string)

/-- `a*b` against `axb`. -/
theorem globUtilMatch_star :
    ∃ b, globUtilMatch ['a', '*', 'b'] ['a', 'x', 'b'] {} = .ok b ∧
      (b = true ↔ Matches {} false ['a', '*', 'b'] ['a', 'x', 'b']) :=
  globUtilMatch_matches ['a', '*', 'b'] ['a', 'x', 'b'] {} rfl rfl

/-- `[[:alpha:]]`. -/
def alphaPattern : List Char := ['[', '[', ':', 'a', 'l', 'p', 'h', 'a', ':', ']', ']']

/-- A named class is read as its characters: `[[:alpha:]]` does not match `a`. -/
theorem globUtilMatch_no_classes :
    globUtilMatch alphaPattern ['a'] {} = .ok false ∧ Matches {} true alphaPattern ['a'] := by
  refine ⟨by decide, ?_⟩
  have hitems : Items {} true ['[', ':', 'a', 'l', 'p', 'h', 'a', ':', ']', ']']
      [.cls ['a', 'l', 'p', 'h', 'a']] [] :=
    @Items.cls {} true ['a', 'l', 'p', 'h', 'a'] [']'] [] [] rfl
      (List.all_eq_true.mp rfl) (.close [])
  exact .accept (.bracket (.other rfl (by decide) hitems) (by decide)) .nil

end Loop

end Migash.Glob
