import Migash.Glob.Meaning

/-! # The elements of a pattern

A pattern is a list of elements, each of which accepts single characters, apart
from `*`. With this view the matcher is described for all four flags: where it
finds a match and where it gives up.
-/

namespace Migash.Glob

open Library

/-- What a pattern is made of. -/
inductive Element where
  | star
  | any
  | bracket (accepts : Char → Bool)
  | literal (c : Char)

/-- A `*`. -/
def Element.isStar : Element → Bool
  | .star => true
  | _ => false

/-- A `/`, escaped or not. -/
def Element.isSlash : Element → Bool
  | .literal c => c = '/'
  | _ => false

/-- The element behind a `[`. One without a closing `]` takes the rest of the pattern. -/
def bracketElement (flags : Flags) (p : List Char) : Element × List Char :=
  (.bracket fun c => (matchBracket flags p c).isSome,
    ((scanMembers flags ' ' (splitNegation p).2).map Prod.snd).getD [])

/-- An element that does not start with an escape. -/
def plainElement (flags : Flags) (d : Char) (p : List Char) : Element × List Char :=
  if d = '*' then (.star, p)
  else if d = '?' then (.any, p)
  else if d = '[' then bracketElement flags p
  else (.literal d, p)

/-- The first element of the pattern and what follows it. -/
def nextElement (flags : Flags) : List Char → Option (Element × List Char)
  | [] => none
  | d :: p =>
    match p with
    | e :: p' =>
      if !flags.noescape && d = '\\' then some (.literal e, p') else some (plainElement flags d p)
    | [] => some (plainElement flags d p)

/-- The first `n` elements of the pattern. -/
def firstElements (flags : Flags) : ℕ → List Char → List Element
  | 0, _ => []
  | n + 1, p =>
    match nextElement flags p with
    | some (e, rest) => e :: firstElements flags n rest
    | none => []

/-- The elements of the pattern. -/
def elements (flags : Flags) (p : List Char) : List Element := firstElements flags p.length p

/-! ## Reading the elements -/

section Reading

variable {flags : Flags} {p rest : List Char} {c : Char}

/-- Where a bracket expression ends does not depend on the character. -/
theorem scanBracket_rest (sc sc' : Char) (n : ℕ) (p : List Char) (found found' : Bool) :
    (scanBracket flags sc n p found).map Prod.snd =
      (scanBracket flags sc' n p found').map Prod.snd := by
  induction n generalizing p found found' with
  | zero => rfl
  | succ n ih =>
    rw [scanBracket, scanBracket]
    rcases readPatternChar flags p with _ | ⟨escaped, ch, p'⟩
    · rfl
    · dsimp only
      split_ifs
      · rfl
      · rcases rangeEnd? p' with _ | q
        · exact ih _ _ _
        · dsimp only
          rcases readPatternChar flags q with _ | ⟨_, endCh, q'⟩
          · rfl
          · exact ih _ _ _

theorem scanMembers_rest (sc sc' : Char) (p : List Char) :
    (scanMembers flags sc p).map Prod.snd = (scanMembers flags sc' p).map Prod.snd := by
  unfold scanMembers
  split <;> exact scanBracket_rest sc sc' _ _ _ _

theorem bracketElement_rest (h : matchBracket flags p c = some rest) :
    (bracketElement flags p).2 = rest := by
  obtain ⟨found, hscan, -⟩ := acceptedRest_eq_some.mp h
  rw [bracketElement, scanMembers_rest ' ' c, hscan]
  rfl

theorem scanMembers_length {found : Bool} (h : scanMembers flags c p = some (found, rest)) :
    rest.length < p.length := by
  unfold scanMembers at h
  split at h
  · obtain ⟨items, hitems, -⟩ := (scanBracket_iff (by omega)).mp h
    have := hitems.length_lt
    rw [List.length_cons]
    omega
  · obtain ⟨items, hitems, -⟩ := (scanBracket_iff (by omega)).mp h
    exact hitems.length_lt

theorem bracketElement_length (flags : Flags) (p : List Char) :
    (bracketElement flags p).2.length ≤ p.length := by
  unfold bracketElement
  dsimp only
  cases hscan : scanMembers flags ' ' (splitNegation p).2 with
  | none => exact Nat.zero_le _
  | some r =>
    obtain ⟨found, rest⟩ := r
    have hnegation : (splitNegation p).2.length ≤ p.length := by
      unfold splitNegation
      split
      · split <;> simp
      · exact Nat.zero_le _
    exact (scanMembers_length hscan).le.trans hnegation

theorem plainElement_length (flags : Flags) (d : Char) (p : List Char) :
    (plainElement flags d p).2.length ≤ p.length := by
  unfold plainElement
  split_ifs
  · exact Nat.le_refl _
  · exact Nat.le_refl _
  · exact bracketElement_length flags p
  · exact Nat.le_refl _

theorem nextElement_length {e : Element} (h : nextElement flags p = some (e, rest)) :
    rest.length < p.length := by
  unfold nextElement at h
  split at h
  · cases h
  · rename_i d p
    have hplain := plainElement_length flags d p
    split at h
    · split_ifs at h
      · cases h
        simp only [List.length_cons]
        omega
      · rw [Option.some.inj h] at hplain
        exact Nat.lt_succ_of_le hplain
    · rw [Option.some.inj h] at hplain
      exact Nat.lt_succ_of_le hplain

theorem firstElements_of_le {n : ℕ} (h : p.length ≤ n) :
    firstElements flags n p = elements flags p := by
  unfold elements
  induction n using Nat.strong_induction_on generalizing p with
  | h n ih =>
    cases n with
    | zero => rw [Nat.le_zero.mp h]
    | succ n =>
      cases hnext : nextElement flags p with
      | none =>
        cases p with
        | nil => rw [firstElements, hnext]; rfl
        | cons d p => rw [List.length_cons, firstElements, firstElements, hnext]
      | some r =>
        obtain ⟨e, rest⟩ := r
        have hlt := nextElement_length hnext
        obtain ⟨m, hm⟩ : ∃ m, p.length = m + 1 := ⟨p.length - 1, by omega⟩
        rw [hm, firstElements, firstElements, hnext]
        dsimp only
        rw [ih n (by omega) (by omega), ih m (by omega) (by omega)]

theorem elements_of_next {e : Element} (h : nextElement flags p = some (e, rest)) :
    elements flags p = e :: elements flags rest := by
  have hlt := nextElement_length h
  obtain ⟨m, hm⟩ : ∃ m, p.length = m + 1 := ⟨p.length - 1, by omega⟩
  rw [elements, hm, firstElements, h]
  exact congrArg (e :: ·) (firstElements_of_le (by omega))

@[simp] theorem elements_nil : elements flags [] = [] := rfl

@[simp] theorem elements_star : elements flags ('*' :: p) = .star :: elements flags p := by
  refine elements_of_next ?_
  cases p <;> simp [nextElement, plainElement]

end Reading

/-! ## What elements fit -/

/-- A `/` that separates the parts of a path. -/
def slash (flags : Flags) (c : Char) : Bool := flags.pathname && c = '/'

/-- A character of the string, and whether nothing but a literal may match it. -/
abbrev Cell := Char × Bool

/-- The string as the matcher sees it: a slash and a leading dot are matched by literals only. -/
def cells (flags : Flags) : Bool → List Char → List Cell
  | _, [] => []
  | leading, c :: s =>
    (c, slash flags c || flags.period && leading && c = '.') :: cells flags (slash flags c) s

/-- The element accepts the character. -/
def Element.accepts (flags : Flags) : Element → Cell → Bool
  | .star, _ => false
  | .any, c => !c.2
  | .bracket accepts, c => !c.2 && accepts c.1
  | .literal d, c => charsMatch flags d c.1

/-- A slash is next. -/
def atSlash (flags : Flags) : List Cell → Bool
  | [] => false
  | c :: _ => slash flags c.1

/-- The elements match the string as the matcher sees it: a `*` takes some characters, but it is not
left at a slash. -/
inductive Fits (flags : Flags) : List Element → List Cell → Prop where
  | nil : Fits flags [] []
  | skip {es : List Element} {s : List Cell} (hslash : atSlash flags s = false)
      (h : Fits flags es s) : Fits flags (.star :: es) s
  | take {es : List Element} {s : List Cell} (c : Char) (h : Fits flags (.star :: es) s) :
      Fits flags (.star :: es) ((c, false) :: s)
  | accept {e : Element} {es : List Element} {c : Cell} {s : List Cell}
      (haccepts : e.accepts flags c = true) (h : Fits flags es s) : Fits flags (e :: es) (c :: s)

section Fits

variable {flags : Flags} {e : Element} {es read : List Element} {c d : Cell} {s : List Cell}

theorem toLower_eq_iff {c d : Char} (hc : c.toNat < 65) : toLower d = c ↔ d = c := by
  unfold toLower
  split_ifs with hupper
  · have hlow : 65 ≤ d.toNat := hupper.1
    have hhigh : d.toNat ≤ 90 := hupper.2
    constructor
    · intro heq
      have hvalid : (d.toNat + 32).isValidChar := .inl (by omega)
      have hnat : (Char.ofNat (d.toNat + 32)).toNat = d.toNat + 32 := by
        rw [Char.ofNat, dif_pos hvalid]
        rfl
      rw [heq] at hnat
      omega
    · rintro rfl
      omega
  · rfl

/-- Characters before the letters match themselves only. -/
theorem charsMatch_eq {c d : Char} (hc : c.toNat < 65) :
    (charsMatch flags d c = true ↔ d = c) ∧ (charsMatch flags c d = true ↔ d = c) := by
  have hself : toLower c = c := (toLower_eq_iff hc).mpr rfl
  have hd := toLower_eq_iff (c := c) (d := d) hc
  simp only [charsMatch, hself, Bool.or_eq_true, Bool.and_eq_true, decide_eq_true_eq, hd,
    eq_comm (a := c)]
  tauto

/-- A slash that is no cell of its own would be a mistake: only literals match it. -/
def Guarded (flags : Flags) (s : List Cell) : Prop := ∀ c ∈ s, slash flags c.1 = true → c.2 = true

theorem guarded_cells (leading : Bool) (s : List Char) : Guarded flags (cells flags leading s) := by
  induction s generalizing leading with
  | nil => simp [cells, Guarded]
  | cons c s ih =>
    rintro d hd hslash
    rcases List.mem_cons.mp hd with rfl | hd
    · simp only at hslash
      simp [hslash]
    · exact ih _ d hd hslash

/-- An element accepts slashes or it accepts none. -/
theorem slash_eq (hc : e.accepts flags c = true) (hd : e.accepts flags d = true)
    (hcg : slash flags c.1 = true → c.2 = true) (hdg : slash flags d.1 = true → d.2 = true) :
    slash flags c.1 = slash flags d.1 := by
  cases e with
  | star => cases hc
  | any =>
    have hc' : c.2 = false := by simpa [Element.accepts] using hc
    have hd' : d.2 = false := by simpa [Element.accepts] using hd
    rw [Bool.eq_false_iff.mpr fun h => absurd (hcg h) (by simp [hc']),
      Bool.eq_false_iff.mpr fun h => absurd (hdg h) (by simp [hd'])]
  | bracket accepts =>
    have hc' : c.2 = false := by
      simp only [Element.accepts, Bool.and_eq_true, Bool.not_eq_true'] at hc
      exact hc.1
    have hd' : d.2 = false := by
      simp only [Element.accepts, Bool.and_eq_true, Bool.not_eq_true'] at hd
      exact hd.1
    rw [Bool.eq_false_iff.mpr fun h => absurd (hcg h) (by simp [hc']),
      Bool.eq_false_iff.mpr fun h => absurd (hdg h) (by simp [hd'])]
  | literal l =>
    have hiff {a b : Char} (ha : charsMatch flags l a = true) (hb : charsMatch flags l b = true)
        (hslash : a = '/') : b = '/' := by
      subst hslash
      obtain rfl := (charsMatch_eq (by decide)).1.mp ha
      exact (charsMatch_eq (by decide)).2.mp hb
    have heq : c.1 = '/' ↔ d.1 = '/' := ⟨hiff hc hd, hiff hd hc⟩
    simp only [slash, heq]

theorem fits_star : Fits flags (.star :: es) s ↔
    ∃ u t, s = u ++ t ∧ (∀ c ∈ u, c.2 = false) ∧ atSlash flags t = false ∧ Fits flags es t := by
  constructor
  · intro h
    generalize hpattern : Element.star :: es = pattern at h
    induction h with
    | nil => cases hpattern
    | skip hslash h =>
      cases hpattern
      exact ⟨[], _, rfl, by simp, hslash, h⟩
    | take c h ih =>
      cases hpattern
      obtain ⟨u, t, rfl, hu, hslash, ht⟩ := ih rfl
      refine ⟨(c, false) :: u, t, rfl, ?_, hslash, ht⟩
      simpa using hu
    | accept haccepts =>
      cases hpattern
      cases haccepts
  · rintro ⟨u, t, rfl, hu, hslash, ht⟩
    induction u with
    | nil => exact .skip hslash ht
    | cons c u ih =>
      obtain ⟨c, guard⟩ := c
      obtain rfl : guard = false := hu (c, guard) List.mem_cons_self
      exact .take c (ih fun d hd => hu d (List.mem_cons_of_mem _ hd))

theorem fits_cons (he : e.isStar = false) :
    Fits flags (e :: es) s ↔ ∃ c t, s = c :: t ∧ e.accepts flags c = true ∧ Fits flags es t := by
  constructor
  · intro h
    cases h with
    | skip => cases he
    | take => cases he
    | accept haccepts h => exact ⟨_, _, rfl, haccepts, h⟩
  · rintro ⟨c, t, rfl, haccepts, h⟩
    exact .accept haccepts h

theorem fits_nil : Fits flags [] s ↔ s = [] := by
  constructor
  · intro h
    cases h
    rfl
  · rintro rfl
    exact .nil

/-- Elements other than `*` accept one character each. -/
abbrev Reads (flags : Flags) : List Element → List Cell → Prop :=
  List.Forall₂ fun e c => e.accepts flags c = true

theorem Reads.isStar {x : List Cell} (h : Reads flags read x) : ∀ e ∈ read, e.isStar = false := by
  induction h with
  | nil => simp
  | cons haccepts h ih =>
    simp only [List.mem_cons, forall_eq_or_imp]
    refine ⟨?_, ih⟩
    rename_i e _ _ _
    cases e with
    | star => cases haccepts
    | _ => rfl

theorem fits_append (hread : ∀ e ∈ read, e.isStar = false) :
    Fits flags (read ++ es) s ↔ ∃ y t, s = y ++ t ∧ Reads flags read y ∧ Fits flags es t := by
  induction read generalizing s with
  | nil =>
    constructor
    · intro h
      exact ⟨[], s, rfl, .nil, h⟩
    · rintro ⟨y, t, rfl, hy, h⟩
      cases hy
      exact h
  | cons e read ih =>
    rw [List.cons_append, fits_cons (hread e List.mem_cons_self)]
    have ih' (t : List Cell) := ih (s := t) fun d hd => hread d (List.mem_cons_of_mem _ hd)
    constructor
    · rintro ⟨c, t, rfl, haccepts, h⟩
      obtain ⟨y, t', rfl, hy, h⟩ := (ih' t).mp h
      exact ⟨c :: y, t', rfl, .cons haccepts hy, h⟩
    · rintro ⟨y, t, rfl, hy, h⟩
      cases hy with
      | cons haccepts hy => exact ⟨_, _, rfl, haccepts, (ih' _).mpr ⟨_, _, rfl, hy, h⟩⟩

/-- What was read elsewhere by the same elements has its slashes in the same places. -/
theorem Reads.no_slash {x y : List Cell} (hx : Reads flags read x) (hy : Reads flags read y)
    (hxg : Guarded flags x) (hyg : Guarded flags y) (h : ∀ c ∈ x, slash flags c.1 = false) :
    ∀ c ∈ y, slash flags c.1 = false := by
  induction hx generalizing y with
  | nil =>
    cases hy
    simp
  | cons hc hx ih =>
    cases hy with
    | cons hd hy =>
      simp only [List.mem_cons, forall_eq_or_imp, Guarded] at h hxg hyg ⊢
      refine ⟨?_, ih hy hxg.2 hyg.2 h.2⟩
      rw [← slash_eq hc hd hxg.1 hyg.1, h.1]

end Fits

end Migash.Glob
