import Migash.Glob.Elements
import Mathlib.Data.List.Forall2

/-! # The remembered star

What the matcher loses by remembering the last `*` only is nothing: as long as
no slash was passed the earliest place of what stands between two stars will do,
and behind a slash no other place is left.
-/

namespace Migash.Glob

open Library

/-! ## Since the last star -/

section Since

variable {flags : Flags} {e : Element} {es se pe rest : List Element} {c : Cell}
  {ss s t w : List Cell} {leading : Bool} {string : List Char}

/-- Two ways to find the first element of a kind. -/
theorem eq_of_first {α : Type} {p : α → Bool} {x y s t : List α} {a b : α}
    (h : x ++ a :: s = y ++ b :: t) (hx : ∀ c ∈ x, p c = false) (hy : ∀ c ∈ y, p c = false)
    (ha : p a = true) (hb : p b = true) : x = y ∧ s = t := by
  induction x generalizing y with
  | nil =>
    cases y with
    | nil => exact ⟨rfl, (List.cons.inj h).2⟩
    | cons c y =>
      rw [(List.cons.inj h).1, hy c List.mem_cons_self] at ha
      cases ha
  | cons c x ih =>
    cases y with
    | nil =>
      rw [← (List.cons.inj h).1, hx c List.mem_cons_self] at hb
      cases hb
    | cons d y =>
      simp only [List.mem_cons, forall_eq_or_imp] at hx hy
      obtain ⟨rfl, rfl⟩ := ih (List.cons.inj h).2 hx.2 hy.2
      exact ⟨congrArg (· :: x) (List.cons.inj h).1, rfl⟩

/-- Up to the next slash only the first character can be guarded. -/
theorem cells_unguarded {a b : List Cell} (h : cells flags leading string = a ++ b)
    (hslash : ∀ c ∈ a, slash flags c.1 = false) (hhead : ∀ c ∈ a.head?, c.2 = false) :
    ∀ c ∈ a, c.2 = false := by
  induction a generalizing leading string with
  | nil => simp
  | cons c a ih =>
    cases string with
    | nil => cases h
    | cons d string =>
      obtain ⟨rfl, hrest⟩ := List.cons.inj h
      simp only [List.mem_cons, forall_eq_or_imp] at hslash ⊢
      refine ⟨hhead _ rfl, ih hrest hslash.2 ?_⟩
      -- the character behind one that is no slash is not a leading one
      intro c hc
      obtain ⟨a, rfl⟩ := List.head?_eq_some_iff.mp hc
      rw [hslash.1] at hrest
      cases string with
      | nil => cases hrest
      | cons d' string =>
        obtain ⟨rfl, -⟩ := List.cons.inj hrest
        simpa using hslash.2 _ List.mem_cons_self

theorem atSlash_of_unguarded (hs : cells flags leading string = s)
    (hhead : ∀ c ∈ s.head?, c.2 = false) : atSlash flags s = false := by
  cases s with
  | nil => rfl
  | cons c s =>
    rw [atSlash, Bool.eq_false_iff]
    intro hslash
    have hguard := guarded_cells leading string c (hs ▸ List.mem_cons_self) hslash
    rw [hhead c rfl] at hguard
    cases hguard

theorem fits_star_append (hw : ∀ c ∈ w, c.2 = false) (h : Fits flags (.star :: es) t) :
    Fits flags (.star :: es) (w ++ t) := by
  obtain ⟨u, t, rfl, hu, hslash, ht⟩ := fits_star.mp h
  refine fits_star.mpr ⟨w ++ u, t, (List.append_assoc ..).symm, ?_, hslash, ht⟩
  intro c hc
  exact (List.mem_append.mp hc).elim (hw c) (hu c)

/-- From behind the last `*`, where the pattern was `se` and the string `ss`, elements that accept one
character each were read, and no slash. -/
def ReadSince (flags : Flags) (se : List Element) (ss : List Cell) (pe : List Element)
    (s : List Cell) : Prop :=
  ∃ read x, se = read ++ pe ∧ ss = x ++ s ∧ Reads flags read x ∧
    ∀ c ∈ x, slash flags c.1 = false

theorem ReadSince.start (se : List Element) (ss : List Cell) : ReadSince flags se ss se ss :=
  ⟨[], [], rfl, rfl, .nil, by simp⟩

theorem ReadSince.accept (h : ReadSince flags se ss (e :: es) (c :: s))
    (haccepts : e.accepts flags c = true) (hslash : slash flags c.1 = false) :
    ReadSince flags se ss es s := by
  obtain ⟨read, x, rfl, rfl, hreads, hx⟩ := h
  refine ⟨read ++ [e], x ++ [c], by simp, by simp, ?_, ?_⟩
  · exact List.rel_append hreads (.cons haccepts .nil)
  · intro d hd
    rcases List.mem_append.mp hd with hd | hd
    · exact hx d hd
    · rw [List.mem_singleton.mp hd]
      exact hslash

theorem ReadSince.enough (h : ReadSince flags se ss pe s) (hfits : Fits flags pe s) :
    Fits flags se ss := by
  obtain ⟨read, x, rfl, rfl, hreads, -⟩ := h
  exact (fits_append hreads.isStar).mpr ⟨x, s, rfl, hreads, hfits⟩

theorem ReadSince.needs (h : ReadSince flags se ss pe s) (hfits : Fits flags se ss) :
    Fits flags pe s := by
  obtain ⟨read, x, rfl, rfl, hreads, -⟩ := h
  obtain ⟨y, t, heq, hy, ht⟩ := (fits_append hreads.isStar).mp hfits
  have hlength : x.length = y.length := hreads.length_eq.symm.trans hy.length_eq
  obtain ⟨-, rfl⟩ := List.append_inj heq hlength
  exact ht

/-- At the end of the string the pattern has to fit as it was read. -/
theorem ReadSince.end_iff (h : ReadSince flags se ss pe []) (hslash : atSlash flags ss = false) :
    Fits flags (.star :: se) ss ↔ Fits flags pe [] := by
  constructor
  · intro hfits
    obtain ⟨u, t, rfl, -, -, ht⟩ := fits_star.mp hfits
    obtain ⟨read, x, rfl, hx, hreads, -⟩ := h
    obtain ⟨y, t, rfl, hy, hrest⟩ := (fits_append hreads.isStar).mp ht
    have hlength := congrArg List.length hx
    have hsame : x.length = y.length := hreads.length_eq.symm.trans hy.length_eq
    simp only [List.length_append, List.length_nil] at hlength
    obtain rfl : t = [] := List.length_eq_zero_iff.mp (by omega)
    exact hrest
  · intro hfits
    exact .skip hslash (h.enough hfits)

/-- A new `*` replaces the last one: the earliest place of what stands between them will do. -/
theorem ReadSince.star_iff (h : ReadSince flags se ss (.star :: rest) s)
    (hss : cells flags leading string = ss) (hhead : ∀ c ∈ ss.head?, c.2 = false) :
    Fits flags (.star :: se) ss ↔ Fits flags (.star :: rest) s := by
  constructor
  · intro hfits
    obtain ⟨u, t, rfl, hu, -, ht⟩ := fits_star.mp hfits
    obtain ⟨read, x, rfl, hx, hreads, hxslash⟩ := h
    obtain ⟨y, t, rfl, hy, hrest⟩ := (fits_append hreads.isStar).mp ht
    have hguarded : Guarded flags (u ++ (y ++ t)) := hss ▸ guarded_cells leading string
    have hxguarded : Guarded flags x := fun c hc => hguarded c (by simp [hx, hc])
    have hyguarded : Guarded flags y := fun c hc => hguarded c (by simp [hc])
    have hyslash := hreads.no_slash hy hxguarded hyguarded hxslash
    have huslash : ∀ c ∈ u, slash flags c.1 = false := by
      intro c hc
      rw [Bool.eq_false_iff]
      intro hslash
      have hguard := hguarded c (by simp [hc]) hslash
      rw [hu c hc] at hguard
      cases hguard
    have hlength : x.length = y.length := hreads.length_eq.symm.trans hy.length_eq
    rw [← List.append_assoc] at hss hx
    -- what the new star takes in addition ends where the old one would have had it start
    obtain ⟨w, hw, rfl⟩ : ∃ w, u ++ y = x ++ w ∧ s = w ++ t := by
      rcases List.append_eq_append_iff.mp hx with ⟨w, hxw, ht⟩ | ⟨w, huy, hs⟩
      · have hlen := congrArg List.length hxw
        simp only [List.length_append] at hlen
        obtain rfl : w = [] := List.length_eq_zero_iff.mp (by omega)
        exact ⟨[], by simpa using hxw.symm, by simpa using ht.symm⟩
      · exact ⟨w, huy, hs⟩
    have hunguarded := cells_unguarded hss
      (fun c hc => (List.mem_append.mp hc).elim (huslash c) (hyslash c)) (by
        intro c hc
        obtain ⟨l, hl⟩ := List.head?_eq_some_iff.mp hc
        refine hhead c ?_
        rw [← List.append_assoc, hl]
        rfl)
    refine fits_star_append (fun c hc => hunguarded c ?_) hrest
    rw [hw]
    exact List.mem_append_right x hc
  · intro hfits
    exact .skip (atSlash_of_unguarded hss hhead) (h.enough hfits)

/-- Behind a slash the last `*` is of no use: the slash was matched where it has to be. -/
theorem ReadSince.slash_iff (h : ReadSince flags se ss (e :: es) (c :: s))
    (hss : cells flags leading string = ss) (hhead : ∀ d ∈ ss.head?, d.2 = false)
    (haccepts : e.accepts flags c = true) (hslash : slash flags c.1 = true) :
    (Fits flags (.star :: se) ss ↔ Fits flags es s) ∧ ¬ Fits flags (.star :: se) ss.tail := by
  have hguarded : Guarded flags ss := hss ▸ guarded_cells leading string
  obtain ⟨read, x, rfl, rfl, hreads, hxslash⟩ := h
  have hestar : e.isStar = false := by
    cases e with
    | star => cases haccepts
    | _ => rfl
  -- whatever fits meets the slash behind as many characters as were read
  have hplace {u t : List Cell} (hsub : ∀ d ∈ u ++ t, d ∈ x ++ c :: s)
      (hu : ∀ d ∈ u, d.2 = false) (ht : Fits flags (read ++ e :: es) t) :
      ∃ y d t', t = y ++ d :: t' ∧ x.length = y.length ∧ slash flags d.1 = true ∧
        (∀ d ∈ u ++ y, slash flags d.1 = false) ∧ Fits flags es t' := by
    obtain ⟨y, t, rfl, hy, hrest⟩ := (fits_append hreads.isStar).mp ht
    obtain ⟨d, t, rfl, hd, hrest⟩ := (fits_cons hestar).mp hrest
    have hg : Guarded flags (u ++ (y ++ d :: t)) := fun a ha => hguarded a (hsub a ha)
    refine ⟨y, d, t, rfl, hreads.length_eq.symm.trans hy.length_eq, ?_, ?_, hrest⟩
    · rw [← slash_eq haccepts hd (hguarded c (by simp)) (hg d (by simp)), hslash]
    · intro a ha
      rcases List.mem_append.mp ha with ha | ha
      · rw [Bool.eq_false_iff]
        intro hslash'
        have hguard := hg a (by simp [ha]) hslash'
        rw [hu a ha] at hguard
        cases hguard
      · exact hreads.no_slash hy (fun b hb => hguarded b (by simp [hb]))
          (fun b hb => hg b (by simp [hb])) hxslash a ha
  refine ⟨⟨fun hfits => ?_, fun hfits => ?_⟩, fun hfits => ?_⟩
  · obtain ⟨u, t, heq, hu, -, ht⟩ := fits_star.mp hfits
    obtain ⟨y, d, t', rfl, -, hd, hno, hrest⟩ := hplace (by simp [heq]) hu ht
    rw [← List.append_assoc] at heq
    obtain ⟨-, rfl⟩ := eq_of_first (p := fun d => slash flags d.1) heq hxslash hno hslash hd
    exact hrest
  · exact .skip (atSlash_of_unguarded hss hhead)
      ((fits_append hreads.isStar).mpr ⟨x, c :: s, rfl, hreads, .accept haccepts hfits⟩)
  · cases x with
    | nil =>
      have hguard := hguarded c (by simp) hslash
      rw [hhead c rfl] at hguard
      cases hguard
    | cons b x =>
      obtain ⟨u, t, heq, hu, -, ht⟩ := fits_star.mp hfits
      rw [List.cons_append, List.tail_cons] at heq
      obtain ⟨y, d, t', rfl, hlength, hd, hno, -⟩ := hplace (by
        intro a ha
        rw [← heq] at ha
        exact List.mem_cons_of_mem b ha) hu ht
      rw [← List.append_assoc] at heq
      obtain ⟨hsame, -⟩ := eq_of_first (p := fun d => slash flags d.1) heq
        (fun a ha => hxslash a (List.mem_cons_of_mem b ha)) hno hslash hd
      have hlen := congrArg List.length hsame
      simp only [List.length_append] at hlen
      simp only [List.length_cons] at hlength
      omega

end Since

/-! ## One character -/

section Character

variable {flags : Flags} {p rest : List Char} {c d : Char} {es : List Element} {s : List Cell}

/-- The branches of the loop are the first element of the pattern. -/
def Move.Reads (flags : Flags) (p : List Char) (c : Char) : Move → Prop
  | .star rest => p = '*' :: rest ∧ slash flags c = false
  | .accept rest => ∃ e, nextElement flags p = some (e, rest) ∧
      e.accepts flags (c, slash flags c) = true
  | .mismatch => p = [] ∨ (∃ rest, p = '*' :: rest) ∧ slash flags c = true ∨
      ∃ e rest, nextElement flags p = some (e, rest) ∧ e.isStar = false ∧
        e.accepts flags (c, slash flags c) = false

theorem moveLiteral_reads (hnext : nextElement flags p = some (.literal d, rest)) :
    (moveLiteral flags d rest c).Reads flags p c := by
  unfold moveLiteral
  split_ifs with hmatch
  · exact ⟨_, hnext, hmatch⟩
  · exact .inr (.inr ⟨_, _, hnext, rfl, Bool.eq_false_iff.mpr hmatch⟩)

theorem movePlain_reads (hnext : nextElement flags (d :: p) = some (plainElement flags d p)) :
    (movePlain flags d p c).Reads flags (d :: p) c := by
  unfold movePlain
  rw [plainElement] at hnext
  have hslash : (flags.pathname && decide (c = '/')) = slash flags c := rfl
  simp only [hslash]
  by_cases hstar : d = '*'
  · rw [if_pos hstar]
    split_ifs with hs
    · exact .inr (.inl ⟨⟨p, congrArg (· :: p) hstar⟩, hs⟩)
    · exact ⟨congrArg (· :: p) hstar, Bool.eq_false_iff.mpr hs⟩
  rw [if_neg hstar] at hnext ⊢
  by_cases hany : d = '?'
  · rw [if_pos hany] at hnext ⊢
    split_ifs with hs
    · exact .inr (.inr ⟨_, _, hnext, rfl, by simp [Element.accepts, hs]⟩)
    · exact ⟨_, hnext, by simp [Element.accepts, hs]⟩
  rw [if_neg hany] at hnext ⊢
  by_cases hbracket : d = '['
  · rw [if_pos hbracket] at hnext ⊢
    rw [bracketElement] at hnext
    split_ifs with hs
    · exact .inr (.inr ⟨_, _, hnext, rfl, by simp [Element.accepts, hs]⟩)
    · cases hmatch : matchBracket flags p c with
      | none => exact .inr (.inr ⟨_, _, hnext, rfl, by simp [Element.accepts, hmatch]⟩)
      | some rest =>
        have hrest := bracketElement_rest hmatch
        rw [bracketElement] at hrest
        dsimp only at hrest
        rw [hrest] at hnext
        exact ⟨_, hnext, by simp [Element.accepts, hmatch, hs]⟩
  · rw [if_neg hbracket] at hnext ⊢
    exact moveLiteral_reads hnext

theorem move_reads (flags : Flags) (p : List Char) (c : Char) :
    (move flags p c).Reads flags p c := by
  unfold move
  match p with
  | [] => exact .inl rfl
  | [d] => exact movePlain_reads rfl
  | d :: e :: p =>
    dsimp only
    split_ifs with hescape
    · exact moveLiteral_reads (if_pos hescape)
    · exact movePlain_reads (if_neg hescape)

/-- A pattern that does not start with `*` starts with another element. -/
theorem nextElement_of_ne_star (hd : d ≠ '*') :
    ∃ e rest, nextElement flags (d :: p) = some (e, rest) ∧ e.isStar = false := by
  have hplain : (plainElement flags d p).1.isStar = false := by
    unfold plainElement
    rw [if_neg hd]
    split_ifs <;> rfl
  unfold nextElement
  split
  · rename_i heq
    cases heq
  · rename_i heq
    cases heq
    split
    · split_ifs
      · exact ⟨_, _, rfl, rfl⟩
      · exact ⟨_, _, rfl, hplain⟩
    · exact ⟨_, _, rfl, hplain⟩

theorem fits_star_cons {c : Cell} : Fits flags (.star :: es) (c :: s) ↔
    slash flags c.1 = false ∧ Fits flags es (c :: s) ∨ c.2 = false ∧ Fits flags (.star :: es) s := by
  constructor
  · intro h
    cases h with
    | skip hslash h => exact .inl ⟨hslash, h⟩
    | take _ h => exact .inr ⟨rfl, h⟩
    | accept haccepts => cases haccepts
  · rintro (⟨hslash, h⟩ | ⟨hguard, h⟩)
    · exact .skip hslash h
    · obtain ⟨c, guard⟩ := c
      obtain rfl : guard = false := hguard
      exact .take c h

theorem fits_star_nil : Fits flags (.star :: es) [] ↔ Fits flags es [] := by
  constructor
  · intro h
    cases h with
    | skip _ h => exact h
  · intro h
    exact .skip rfl h

/-- Only `*` fit the empty string. -/
theorem fits_elements_nil : Fits flags (elements flags p) [] ↔ onlyStars p = true := by
  induction p with
  | nil => exact iff_of_true .nil rfl
  | cons d p ih =>
    by_cases hd : d = '*'
    · subst hd
      rw [elements_star, fits_star_nil, ih]
      rfl
    · obtain ⟨e, rest, hnext, he⟩ := nextElement_of_ne_star hd
      rw [elements_of_next hnext]
      refine iff_of_false (fun h => ?_) (by simp [onlyStars, hd])
      obtain ⟨c, t, heq, -⟩ := (fits_cons he).mp h
      cases heq

theorem not_fits_of_mismatch (h : Move.mismatch.Reads flags p c) :
    ¬ Fits flags (elements flags p) ((c, slash flags c) :: s) := by
  rcases h with rfl | ⟨⟨rest, rfl⟩, hslash⟩ | ⟨e, rest, hnext, he, haccepts⟩
  · rw [elements_nil, fits_nil]
    rintro ⟨⟩
  · rw [elements_star, fits_star_cons, hslash]
    rintro (⟨⟨⟩, -⟩ | ⟨⟨⟩, -⟩)
  · rw [elements_of_next hnext, fits_cons he]
    rintro ⟨d, t, heq, hd, -⟩
    cases heq
    rw [haccepts] at hd
    cases hd

end Character

/-! ## Places in the string -/

section Places

variable {flags : Flags} {string s : List Char} {c : Char}

/-- The rest `s` of the string starts at a leading position. -/
def leading (flags : Flags) (string s : List Char) : Bool :=
  s.length = string.length || flags.pathname && string[string.length - s.length - 1]? = some '/'

/-- The rest `s` of the string as the matcher sees it. -/
def cellsAt (flags : Flags) (string s : List Char) : List Cell :=
  cells flags (leading flags string s) s

theorem isProtectedDot_cons : isProtectedDot flags string (c :: s) =
    (flags.period && leading flags string (c :: s) && c = '.') := by
  simp only [isProtectedDot, leading, List.head?_cons, Option.some.injEq]
  ac_rfl

theorem leading_tail (h : c :: s <:+ string) : leading flags string s = slash flags c := by
  obtain ⟨before, rfl⟩ := h
  have hne : s.length ≠ (before ++ c :: s).length := by
    simp only [List.length_append, List.length_cons]
    omega
  have hplace : (before ++ c :: s).length - s.length - 1 = before.length := by
    simp only [List.length_append, List.length_cons]
    omega
  simp only [leading, hne, hplace, slash, decide_false, Bool.false_or, List.getElem?_append_right,
    le_refl, Nat.sub_self, List.getElem?_cons_zero, Option.some.injEq]

theorem cellsAt_cons (h : c :: s <:+ string) : cellsAt flags string (c :: s) =
    (c, slash flags c || isProtectedDot flags string (c :: s)) :: cellsAt flags string s := by
  rw [cellsAt, cells, isProtectedDot_cons, cellsAt, leading_tail h]

theorem cellsAt_self (string : List Char) : cellsAt flags string string = cells flags true string := by
  simp [cellsAt, leading]

/-- Behind a character that is not guarded another one is not guarded unless it is a slash. -/
theorem isProtectedDot_tail {d : Char} (h : c :: d :: s <:+ string) (hslash : slash flags c = false) :
    isProtectedDot flags string (d :: s) = false := by
  rw [isProtectedDot_cons, leading_tail h, hslash]
  simp

end Places

/-! ## The loop -/

section Loop

variable {flags : Flags} {pattern string : List Char} {st : State}

/-- The pattern matches the string, as far as the matcher can tell. -/
def Aim (flags : Flags) (pattern string : List Char) : Prop :=
  Fits flags (elements flags pattern) (cells flags true string)

/-- What is left has to fit as it is: a restart behind the last `*` will find nothing. -/
def Settled (flags : Flags) (pattern string : List Char) (st : State) : Prop :=
  (Aim flags pattern string ↔ Fits flags (elements flags st.p) (cellsAt flags string st.s)) ∧
    ∀ sp ss, st.star = some (sp, ss) →
      ¬ Fits flags (.star :: elements flags sp) (cellsAt flags string ss).tail

/-- The last `*` may still take more. -/
def Searching (flags : Flags) (pattern string : List Char) (st : State) : Prop :=
  ∃ sp ss, st.star = some (sp, ss) ∧
    (Aim flags pattern string ↔
      Fits flags (.star :: elements flags sp) (cellsAt flags string ss)) ∧
    ReadSince flags (elements flags sp) (cellsAt flags string ss) (elements flags st.p)
      (cellsAt flags string st.s)

/-- A place that is remembered behind a `*`. -/
structure StarPlace (flags : Flags) (pattern string s sp ss : List Char) : Prop where
  pattern_length : sp.length ≤ pattern.length
  suffix : ss <:+ string
  before : s.length ≤ ss.length
  unguarded : ∃ c t, ss = c :: t ∧ slash flags c = false ∧
    isProtectedDot flags string (c :: t) = false

/-- The invariant of the loop. -/
structure Keeps (flags : Flags) (pattern string : List Char) (st : State) : Prop where
  p_length : st.p.length ≤ pattern.length
  suffix : st.s <:+ string
  place : ∀ sp ss, st.star = some (sp, ss) → StarPlace flags pattern string st.s sp ss
  left : Settled flags pattern string st ∨ Searching flags pattern string st

theorem StarPlace.cells_eq {s sp ss : List Char} (h : StarPlace flags pattern string s sp ss) :
    ∃ c t, ss = c :: t ∧ slash flags c = false ∧
      cellsAt flags string ss = (c, false) :: cellsAt flags string t := by
  obtain ⟨c, t, rfl, hslash, hdot⟩ := h.unguarded
  exact ⟨c, t, rfl, hslash, by rw [cellsAt_cons h.suffix, hslash, hdot]; rfl⟩

theorem StarPlace.head_unguarded {s sp ss : List Char}
    (h : StarPlace flags pattern string s sp ss) :
    ∀ d ∈ (cellsAt flags string ss).head?, d.2 = false := by
  obtain ⟨c, t, -, -, hcells⟩ := h.cells_eq
  intro d hd
  rw [hcells, List.head?_cons, Option.mem_some_iff] at hd
  rw [← hd]

/-- A mismatch: the answer is no without a `*`, and otherwise the search goes on one character behind
the place it was started from. -/
theorem backtrack_keeps (h : Keeps flags pattern string st)
    (hno : ¬ Fits flags (elements flags st.p) (cellsAt flags string st.s)) :
    (backtrack flags st.star).Either
      (fun st' => Keeps flags pattern string st' ∧
        measure pattern string st' < measure pattern string st)
      (fun b => b = true ↔ Aim flags pattern string) := by
  unfold backtrack
  cases hstar : st.star with
  | none =>
    refine iff_of_false (by decide) ?_
    rcases h.left with hsettled | ⟨sp, ss, hsome, -⟩
    · exact mt hsettled.1.mp hno
    · rw [hstar] at hsome
      cases hsome
  | some last =>
    obtain ⟨sp, ss⟩ := last
    have hplace := h.place sp ss hstar
    obtain ⟨c, t, rfl, hslash, hcells⟩ := hplace.cells_eq
    have hsuffix := hplace.suffix
    -- from here on only the places behind this one count
    have hnext : Aim flags pattern string ↔
        Fits flags (.star :: elements flags sp) (cellsAt flags string t) := by
      rcases h.left with hsettled | ⟨sp', ss', hsome, haim, hsince⟩
      · have hstale := hsettled.2 sp _ hstar
        rw [hcells, List.tail_cons] at hstale
        exact iff_of_false (mt hsettled.1.mp hno) hstale
      · rw [hstar] at hsome
        cases hsome
        rw [haim, hcells, fits_star_cons]
        rw [hcells] at hsince
        constructor
        · rintro (⟨-, hfits⟩ | ⟨-, hfits⟩)
          · exact absurd (hsince.needs hfits) hno
          · exact hfits
        · intro hfits
          exact .inr ⟨rfl, hfits⟩
    have hmeasure : measure pattern string st =
        (c :: t).length * (pattern.length + string.length + 1) +
          (st.p.length + st.s.length) := by
      rw [measure, hstar]
    dsimp only
    rw [List.tail_cons]
    cases t with
    | nil =>
      rw [Next.either_done, hnext]
      exact (fits_star_nil.trans fits_elements_nil).symm
    | cons d t =>
      have hsuffix' : d :: t <:+ string := (List.suffix_cons c _).trans hsuffix
      have hdot := isProtectedDot_tail hsuffix hslash
      have hif : (flags.pathname && decide (d = '/')) = slash flags d := rfl
      dsimp only
      rw [hif]
      by_cases hd : slash flags d = true
      · rw [if_pos hd, Next.either_done, hnext, cellsAt_cons hsuffix', fits_star_cons, hd]
        refine iff_of_false (by decide) ?_
        rintro (⟨⟨⟩, -⟩ | ⟨⟨⟩, -⟩)
      · rw [if_neg hd, Next.either_again]
        have hsp := hplace.pattern_length
        refine ⟨⟨hsp, hsuffix', ?_, .inr ⟨sp, d :: t, rfl, hnext, .start _ _⟩⟩, ?_⟩
        · rintro sp' ss' ⟨⟩
          exact ⟨hsp, hsuffix', Nat.le_refl _, d, t, rfl, Bool.eq_false_iff.mpr hd, hdot⟩
        · have hlength := hsuffix.length_le
          rw [hmeasure]
          refine measure_lt (.inl ⟨?_, ?_⟩)
          · simp only [List.length_cons]
            omega
          · simp only [List.length_cons] at hlength ⊢
            omega

/-- The elements behind the stars that a protected dot skips. -/
theorem fits_dropWhile {p : List Char} {c : Cell} {s : List Cell} (hslash : slash flags c.1 = false)
    (hguard : c.2 = true) :
    Fits flags (elements flags p) (c :: s) ↔
      Fits flags (elements flags (p.dropWhile (· = '*'))) (c :: s) := by
  induction p with
  | nil => rfl
  | cons d p ih =>
    by_cases hd : d = '*'
    · subst hd
      rw [elements_star, fits_star_cons, hslash, hguard, List.dropWhile_cons_of_pos (by simp), ← ih]
      simp
    · rw [List.dropWhile_cons_of_neg (by simpa using hd)]

/-- Only a literal dot fits a protected one. -/
theorem fits_protected {d : Char} {p : List Char} {s : List Cell} (hstar : d ≠ '*')
    (hdot : d ≠ '.') (hescape : ∀ rest, d :: p = '\\' :: '.' :: rest → flags.noescape = true) :
    ¬ Fits flags (elements flags (d :: p)) (('.', true) :: s) := by
  obtain ⟨e, rest, hnext, he⟩ := nextElement_of_ne_star hstar
  rw [elements_of_next hnext, fits_cons he]
  rintro ⟨c, t, heq, haccepts, -⟩
  cases heq
  have hliteral {l : Char} (hl : l ≠ '.') : Element.accepts flags (.literal l) ('.', true) = false :=
    Bool.eq_false_iff.mpr (mt (charsMatch_eq (by decide)).1.mp hl)
  have hplain : (plainElement flags d p).1.accepts flags ('.', true) = false := by
    unfold plainElement
    rw [if_neg hstar]
    split_ifs
    · rfl
    · rfl
    · exact hliteral hdot
  rw [← Bool.not_eq_true] at hplain
  cases p with
  | nil =>
    obtain ⟨rfl, -⟩ := Prod.mk.inj (Option.some.inj hnext.symm)
    exact hplain haccepts
  | cons l p =>
    rw [nextElement] at hnext
    split_ifs at hnext with hesc
    · obtain ⟨rfl, -⟩ := Prod.mk.inj (Option.some.inj hnext.symm)
      obtain ⟨hno, rfl⟩ : flags.noescape = false ∧ d = '\\' := by simpa using hesc
      rw [hliteral] at haccepts
      · cases haccepts
      · rintro rfl
        rw [hescape p rfl] at hno
        cases hno
    · obtain ⟨rfl, -⟩ := Prod.mk.inj (Option.some.inj hnext.symm)
      exact hplain haccepts

/-- A protected dot is at the start of a part of the path, where no search can be under way. -/
theorem Keeps.settled_of_protected {s : List Char} (h : Keeps flags pattern string st)
    (hs : st.s = '.' :: s) (hdot : isProtectedDot flags string st.s = true) :
    Settled flags pattern string st := by
  rcases h.left with hsettled | ⟨sp, ss, hstar, -, hsince⟩
  · exact hsettled
  · have hplace := h.place sp ss hstar
    have hsuffix := h.suffix
    rw [hs] at hsince hdot hsuffix
    obtain ⟨read, x, -, hx, -, hxslash⟩ := hsince
    have hcell : cellsAt flags string ('.' :: s) = _ := cellsAt_cons hsuffix
    rw [hdot, Bool.or_true] at hcell
    rw [hcell, ← List.singleton_append, ← List.append_assoc] at hx
    have hslash : ∀ c ∈ x ++ [('.', true)], slash flags c.1 = false := by
      intro c hc
      rcases List.mem_append.mp hc with hc | hc
      · exact hxslash c hc
      · rw [List.mem_singleton.mp hc]
        simp [slash]
    have hhead : ∀ c ∈ (x ++ [('.', true)]).head?, c.2 = false := by
      intro c hc
      obtain ⟨l, hl⟩ := List.head?_eq_some_iff.mp hc
      refine hplace.head_unguarded c ?_
      rw [hx, hl]
      rfl
    have hguard := cells_unguarded hx hslash hhead ('.', true) (by simp)
    cases hguard

/-- What is left of the pattern and the string gets shorter, and nothing else changes. -/
theorem Keeps.accept {p s : List Char} {c : Char} (h : Keeps flags pattern string st)
    (hs : st.s = c :: s) (hp : p.length ≤ st.p.length)
    (hleft : Settled flags pattern string { st with p, s } ∨
      Searching flags pattern string { st with p, s }) :
    Keeps flags pattern string { st with p, s } ∧
      measure pattern string { st with p, s } < measure pattern string st := by
  have hlength := h.p_length
  have hsuffix := h.suffix
  rw [hs] at hsuffix
  refine ⟨⟨by dsimp only; omega, (List.suffix_cons c s).trans hsuffix, ?_, hleft⟩, ?_⟩
  · intro sp ss hstar
    obtain ⟨hsp, hss, hbefore, hunguarded⟩ := h.place sp ss hstar
    rw [hs, List.length_cons] at hbefore
    exact ⟨hsp, hss, by dsimp only; omega, hunguarded⟩
  · unfold measure
    rw [hs]
    refine measure_lt (.inr ⟨Nat.le_refl _, ?_⟩)
    simp only [List.length_cons]
    omega

/-- A protected dot is passed by a literal dot or ends the search. -/
theorem protectedDot_keeps {s : List Char} (h : Keeps flags pattern string st)
    (hs : st.s = '.' :: s) (hdot : isProtectedDot flags string st.s = true) :
    (protectedDot flags st s).Either
      (fun st' => Keeps flags pattern string st' ∧
        measure pattern string st' < measure pattern string st)
      (fun b => b = true ↔ Aim flags pattern string) := by
  have hsettled := h.settled_of_protected hs hdot
  have hsuffix := h.suffix
  have haim := hsettled.1
  rw [hs] at hsuffix hdot haim
  rw [cellsAt_cons hsuffix, hdot, Bool.or_true, fits_dropWhile (by simp [slash]) rfl] at haim
  have hshort : (st.p.dropWhile (· = '*')).length ≤ st.p.length := (List.dropWhile_suffix _).length_le
  have hpass {p : List Char} (hp : p.length ≤ st.p.length)
      (hnext : nextElement flags (st.p.dropWhile (· = '*')) = some (.literal '.', p)) :
      Keeps flags pattern string { st with p, s } ∧
        measure pattern string { st with p, s } < measure pattern string st := by
    refine h.accept hs hp (.inl ⟨?_, hsettled.2⟩)
    rw [haim, elements_of_next hnext, fits_cons rfl]
    constructor
    · rintro ⟨c, t, heq, -, hfits⟩
      cases heq
      exact hfits
    · intro hfits
      exact ⟨_, _, rfl, (charsMatch_eq (by decide)).1.mpr rfl, hfits⟩
  unfold protectedDot
  have hhead : ∀ d p, st.p.dropWhile (· = '*') = d :: p → d ≠ '*' := by
    intro d p hp hd
    have hne := List.head?_dropWhile_not (fun c : Char => decide (c = '*')) st.p
    simp [hp, hd] at hne
  split
  · rename_i p hp
    rw [hp] at hshort hpass
    refine hpass ((Nat.le_succ _).trans hshort) ?_
    cases p <;> simp [nextElement, plainElement]
  · rename_i p hp
    rw [hp] at hshort hpass haim
    simp only [List.length_cons] at hshort
    split_ifs with hno
    · rw [Next.either_done, haim]
      refine iff_of_false (by decide) (fits_protected (by decide) (by decide) fun _ _ => hno)
    · refine hpass (by omega) ?_
      simp [nextElement, hno]
  · rename_i hdot' hescape
    rw [Next.either_done, haim]
    refine iff_of_false (by decide) ?_
    cases hp : st.p.dropWhile (· = '*') with
    | nil =>
      rw [elements_nil, fits_nil]
      rintro ⟨⟩
    | cons d p =>
      refine fits_protected (hhead d p hp) ?_ ?_
      · rintro rfl
        exact hdot' p hp
      · intro rest heq
        exact absurd (hp.trans heq) (hescape rest)

/-- A star begins a search where the string is. -/
theorem Keeps.star {rest s : List Char} {c : Char} (h : Keeps flags pattern string st)
    (hs : st.s = c :: s) (hp : st.p = '*' :: rest) (hslash : slash flags c = false)
    (hdot : ¬ isProtectedDot flags string (c :: s) = true) :
    Keeps flags pattern string { p := rest, s := c :: s, star := some (rest, c :: s) } ∧
      measure pattern string { p := rest, s := c :: s, star := some (rest, c :: s) } <
        measure pattern string st := by
  have hsuffix := h.suffix
  rw [hs] at hsuffix
  have hplength := h.p_length
  rw [hp, List.length_cons] at hplength
  have haim : Aim flags pattern string ↔
      Fits flags (.star :: elements flags rest) (cellsAt flags string (c :: s)) := by
    rcases h.left with hsettled | ⟨sp, ss, hstar, haim, hsince⟩
    · have haim := hsettled.1
      rwa [hs, hp, elements_star] at haim
    · rw [hs, hp, elements_star] at hsince
      exact haim.trans (hsince.star_iff rfl (h.place sp ss hstar).head_unguarded)
  refine ⟨⟨by dsimp only; omega, hsuffix, ?_, .inr ⟨rest, c :: s, rfl, haim, .start _ _⟩⟩, ?_⟩
  · rintro sp' ss' ⟨⟩
    exact ⟨by omega, hsuffix, Nat.le_refl _, c, s, rfl, hslash, Bool.eq_false_iff.mpr hdot⟩
  · unfold measure
    rw [hs, hp]
    refine measure_lt (.inr ⟨?_, ?_⟩)
    · cases hstar : st.star with
      | none => exact hsuffix.length_le.trans (Nat.le_succ _)
      | some last =>
        obtain ⟨sp, ss⟩ := last
        have hbefore := (h.place sp ss hstar).before
        rwa [hs] at hbefore
    · simp only [List.length_cons]
      omega

/-- One turn keeps the invariant and goes on, or it answers. -/
theorem turn_keeps (h : Keeps flags pattern string st) :
    Holds (Next.Either
      (fun st' => Keeps flags pattern string st' ∧
        measure pattern string st' < measure pattern string st)
      (fun b => b = true ↔ Aim flags pattern string)) (turn flags string st) := by
  have hsuffix := h.suffix
  have hleft := h.left
  unfold turn
  rw [holds_ok]
  cases hs : st.s with
  | nil =>
    -- the end of the string
    dsimp only
    rw [Next.either_done, ← fits_elements_nil]
    rcases hleft with hsettled | ⟨sp, ss, hstar, haim, hsince⟩
    · have haim := hsettled.1
      rw [hs] at haim
      exact haim.symm
    · rw [hs] at hsince
      have hslash := atSlash_of_unguarded rfl (h.place sp ss hstar).head_unguarded
      exact (haim.trans (hsince.end_iff hslash)).symm
  | cons c s =>
    dsimp only
    by_cases hdot : isProtectedDot flags string (c :: s) = true
    · rw [if_pos hdot]
      obtain rfl : c = '.' := by
        rw [isProtectedDot_cons] at hdot
        simp only [Bool.and_eq_true, decide_eq_true_eq] at hdot
        exact hdot.2
      exact protectedDot_keeps h hs (hs ▸ hdot)
    · rw [if_neg hdot]
      rw [hs] at hsuffix
      have hcells : cellsAt flags string (c :: s) = _ := cellsAt_cons hsuffix
      rw [Bool.eq_false_iff.mpr hdot, Bool.or_false] at hcells
      have hreads := move_reads flags st.p c
      cases hmove : move flags st.p c with
      | star rest =>
        rw [hmove] at hreads
        obtain ⟨hp, hslash⟩ := hreads
        dsimp only
        rw [Next.either_again]
        exact h.star hs hp hslash hdot
      | accept rest =>
        rw [hmove] at hreads
        obtain ⟨e, hnext, haccepts⟩ := hreads
        have hshort := nextElement_length hnext
        have he : e.isStar = false := by
          cases e with
          | star => cases haccepts
          | _ => rfl
        dsimp only
        rw [Next.either_again]
        refine h.accept hs hshort.le ?_
        rcases hleft with hsettled | ⟨sp, ss, hstar, haim, hsince⟩
        · refine .inl ⟨?_, hsettled.2⟩
          rw [hsettled.1, hs, hcells, elements_of_next hnext, fits_cons he]
          constructor
          · rintro ⟨d, t, heq, -, hfits⟩
            cases heq
            exact hfits
          · intro hfits
            exact ⟨_, _, rfl, haccepts, hfits⟩
        · rw [hs, hcells, elements_of_next hnext] at hsince
          have hhead := (h.place sp ss hstar).head_unguarded
          cases hslash : slash flags c with
          | true =>
            have hiff := hsince.slash_iff rfl hhead haccepts hslash
            refine .inl ⟨haim.trans hiff.1, ?_⟩
            intro sp' ss' hstar'
            cases hstar.symm.trans hstar'
            exact hiff.2
          | false => exact .inr ⟨sp, ss, hstar, haim, hsince.accept haccepts hslash⟩
      | mismatch =>
        rw [hmove] at hreads
        refine backtrack_keeps h ?_
        rw [hs, hcells]
        exact not_fits_of_mismatch hreads

/-- The matcher returns, and it finds a match exactly where the elements of the pattern fit the
string. -/
theorem globUtilMatch_fits (pattern string : List Char) (flags : Flags) :
    ∃ b, globUtilMatch pattern string flags = .ok b ∧
      (b = true ↔ Fits flags (elements flags pattern) (cells flags true string)) := by
  have hkeeps : Keeps flags pattern string { p := pattern, s := string } := by
    refine ⟨Nat.le_refl _, List.suffix_rfl, by rintro sp ss ⟨⟩, .inl ⟨?_, by rintro sp ss ⟨⟩⟩⟩
    rw [cellsAt_self, Aim]
  refine iterate_holds (measure pattern string) (fun st h => turn_keeps h) hkeeps
    (measure_start pattern string)

end Loop

end Migash.Glob
