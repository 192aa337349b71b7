import Migash.Glob.Meaning

/-! # Patterns that stand for themselves

A pattern matches itself and nothing else exactly if none of its characters has
a meaning of its own: a shorter or a second match gives every other one away.
-/

namespace Migash.Glob

variable {flags : Flags} {p s : List Char}

/-- Every character of the pattern stands for itself. -/
def Literal (flags : Flags) : List Char → Prop
  | [] => True
  | d :: p => Ordinary flags d p ∧ Literal flags p

theorem Ordinary.accepts_iff {d c : Char} {p' : List Char} (hd : Ordinary flags d p) :
    Accepts flags false (d :: p) c p' ↔ p' = p ∧ charsMatch flags d c = true := by
  constructor
  · intro h
    cases h with
    | any => exact absurd rfl hd.2.1
    | escaped _ hescape => exact absurd (hd.2.2.2 hescape rfl) (List.cons_ne_nil _ _)
    | bracket => exact absurd rfl hd.2.2.1
    | ordinary _ h => exact ⟨rfl, h⟩
  · rintro ⟨rfl, h⟩
    exact .ordinary hd h

theorem charsMatch_iff {c d : Char} (hcase : flags.casefold = false) :
    charsMatch flags c d = true ↔ d = c := by
  simp [charsMatch, hcase, eq_comm]

/-- Such a pattern matches itself and nothing else. -/
theorem Literal.matches_iff (hcase : flags.casefold = false) (h : Literal flags p) :
    Matches flags false p s ↔ s = p := by
  induction p generalizing s with
  | nil =>
    constructor
    · intro hmatch
      cases hmatch with
      | nil => rfl
      | accept haccepts => cases haccepts
    · rintro rfl
      exact .nil
  | cons d p ih =>
    obtain ⟨hd, hp⟩ := h
    have hstar (rest : List Char) : d :: p ≠ '*' :: rest := fun heq => hd.1 (List.cons.inj heq).1
    cases s with
    | nil =>
      refine iff_of_false (fun hmatch => ?_) (List.cons_ne_nil _ _).symm
      cases hmatch with
      | star => exact hstar _ rfl
    | cons c s =>
      rw [matches_cons hstar, List.cons.injEq]
      simp only [hd.accepts_iff, charsMatch_iff hcase]
      constructor
      · rintro ⟨p', ⟨rfl, rfl⟩, hmatch⟩
        exact ⟨rfl, (ih hp).mp hmatch⟩
      · rintro ⟨rfl, rfl⟩
        exact ⟨_, ⟨rfl, rfl⟩, (ih hp).mpr rfl⟩

/-! ## One match only -/

/-- The pattern matches this string and no other. -/
structure MatchesOnly (flags : Flags) (p s : List Char) : Prop where
  match_ : Matches flags false p s
  only : ∀ t, Matches flags false p t → t = s

/-- A `*` takes one character more. -/
theorem not_matchesOnly_star : ¬ MatchesOnly flags ('*' :: p) s := by
  rintro ⟨hmatch, honly⟩
  obtain ⟨t, hsuffix, h⟩ := matches_star.mp hmatch
  have hlonger := honly ('a' :: s) (.star (hsuffix.trans (List.suffix_cons _ _)) h)
  exact List.cons_ne_self _ _ hlonger

/-- A `?` takes another character. -/
theorem not_matchesOnly_any : ¬ MatchesOnly flags ('?' :: p) s := by
  rintro ⟨hmatch, honly⟩
  cases hmatch with
  | @accept _ _ s c haccepts h =>
    cases haccepts with
    | any =>
      have hfirst := List.cons.inj (honly ('a' :: s) (.accept (.any p 'a') h))
      have hsecond := List.cons.inj (honly ('b' :: s) (.accept (.any p 'b') h))
      exact absurd (hfirst.1.trans hsecond.1.symm) (by decide)
    | ordinary hd => exact hd.2.1 rfl

/-- What follows an element that accepts a character has one match only as well. -/
theorem MatchesOnly.rest {p' : List Char} {c : Char} (h : MatchesOnly flags p (c :: s))
    (haccepts : Accepts flags false p c p') (hrest : Matches flags false p' s) :
    MatchesOnly flags p' s where
  match_ := hrest
  only _ ht := (List.cons.inj (h.only _ (.accept haccepts ht))).2

/-- No element of the pattern is shorter than what it matches. -/
theorem MatchesOnly.length_le (h : MatchesOnly flags p s) : s.length ≤ p.length := by
  obtain ⟨hmatch, honly⟩ := h
  induction hmatch with
  | nil => exact Nat.le_refl _
  | star hsuffix hmatch => exact absurd ⟨.star hsuffix hmatch, honly⟩ not_matchesOnly_star
  | accept haccepts hrest ih =>
    have hlen := ih (MatchesOnly.rest ⟨.accept haccepts hrest, honly⟩ haccepts hrest).only
    have hshort := haccepts.length_lt
    rw [List.length_cons]
    omega

/-- Where nothing of the pattern is lost, every character of it stands for itself. -/
theorem MatchesOnly.literal (h : MatchesOnly flags p s) (hlen : p.length ≤ s.length) :
    Literal flags p := by
  obtain ⟨hmatch, honly⟩ := h
  induction hmatch with
  | nil => trivial
  | star hsuffix hmatch => exact absurd ⟨.star hsuffix hmatch, honly⟩ not_matchesOnly_star
  | accept haccepts hrest ih =>
    have hwhole : MatchesOnly flags _ _ := ⟨.accept haccepts hrest, honly⟩
    have honlyRest := hwhole.rest haccepts hrest
    have hle := honlyRest.length_le
    rw [List.length_cons] at hlen
    cases haccepts with
    | any => exact absurd hwhole not_matchesOnly_any
    | escaped =>
      -- two characters of the pattern for one of the string
      simp only [List.length_cons] at hlen
      omega
    | bracket hparse =>
      have hshort := hparse.length_lt
      simp only [List.length_cons] at hlen
      omega
    | ordinary hd =>
      simp only [List.length_cons] at hlen
      exact ⟨hd, ih (by omega) honlyRest.only⟩

/-- The patterns that match themselves and nothing else. -/
theorem matches_iff_eq_iff_literal (hcase : flags.casefold = false) :
    (∀ s, Matches flags false p s ↔ s = p) ↔ Literal flags p := by
  constructor
  · intro h
    exact MatchesOnly.literal ⟨(h p).mpr rfl, fun t ht => (h t).mp ht⟩ (Nat.le_refl _)
  · intro h s
    exact h.matches_iff hcase

end Migash.Glob
