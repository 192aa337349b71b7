import Migash.Glob.Backtracking

/-! # Path names

A pattern and a path name are cut at their slashes. The matcher agrees with the
match part by part, except where a `*` of the pattern stands directly before a
slash: it never gets past such a `*`.
-/

namespace Migash.Glob

open Library

/-- The parts of a pattern between its slashes. A slash in a bracket expression is a member of it. -/
def segments (flags : Flags) (pattern : List Char) : List (List Element) :=
  (elements flags pattern).splitOnP Element.isSlash

/-- The flags without `GLOB_UTIL_PATHNAME`. -/
def Flags.withoutPathname (flags : Flags) : Flags := { flags with pathname := false }

/-- A part of the pattern matches a part of the string: nothing is special about a slash, and with
`GLOB_UTIL_PERIOD` a dot that comes first is matched by a literal dot. -/
def SegmentMatches (flags : Flags) (es : List Element) (s : List Char) : Prop :=
  Fits flags.withoutPathname es (cells flags.withoutPathname true s)

/-- There are as many parts of the one as of the other, and they match one by one. -/
def SegmentsMatch (flags : Flags) (pattern string : List Char) : Prop :=
  List.Forall₂ (SegmentMatches flags) (segments flags pattern) (string.splitOn '/')

/-- A `*` stands directly before a slash. -/
def starBeforeSlash : List Element → Bool
  | [] => false
  | e :: es => e.isStar && es.head?.any Element.isSlash || starBeforeSlash es

/-- The parts match; the string may start in the middle of its first one. -/
def PartsFit (flags : Flags) (leading : Bool) : List (List Element) → List (List Char) → Prop
  | es :: segs, u :: us =>
    Fits flags.withoutPathname es (cells flags.withoutPathname leading u) ∧
      List.Forall₂ (SegmentMatches flags) segs us
  | _, _ => False

/-! ## Part by part -/

section Parts

variable {flags : Flags} {e : Element} {es seg : List Element} {segs : List (List Element)}
  {s u : List Char} {us : List (List Char)} {c : Char} {lead : Bool}

theorem partsFit_true (hsegs : segs ≠ []) :
    PartsFit flags true segs us ↔ List.Forall₂ (SegmentMatches flags) segs us := by
  cases segs with
  | nil => exact absurd rfl hsegs
  | cons seg segs =>
    cases us with
    | nil => exact iff_of_false id (by rintro ⟨⟩)
    | cons u us =>
      rw [PartsFit, List.forall₂_cons]
      rfl

theorem splitOn_slash (s : List Char) : ('/' :: s).splitOn '/' = [] :: s.splitOn '/' :=
  List.splitOnP_cons_eq_if_modifyHead '/' s

theorem splitOn_of_ne (hc : c ≠ '/') (h : s.splitOn '/' = u :: us) :
    (c :: s).splitOn '/' = (c :: u) :: us := by
  have hcons := List.splitOnP_cons_eq_if_modifyHead (p := (· == '/')) c s
  rw [if_neg (by simpa using hc)] at hcons
  exact hcons.trans (congrArg (List.modifyHead (c :: ·)) h)

theorem exists_splitOn (s : List Char) : ∃ u us, s.splitOn '/' = u :: us :=
  List.exists_cons_of_ne_nil (List.splitOnP_ne_nil _ s)

theorem splitOnP_slash (he : e.isSlash = true) (es : List Element) :
    (e :: es).splitOnP Element.isSlash = [] :: es.splitOnP Element.isSlash := by
  rw [List.splitOnP_cons_eq_if_modifyHead, if_pos he]

theorem splitOnP_of_ne (he : e.isSlash = false) (h : es.splitOnP Element.isSlash = seg :: segs) :
    (e :: es).splitOnP Element.isSlash = (e :: seg) :: segs := by
  rw [List.splitOnP_cons_eq_if_modifyHead, if_neg (by simp [he]), h]
  rfl

theorem accepts_withoutPathname (e : Element) (c : Cell) :
    e.accepts flags.withoutPathname c = e.accepts flags c := by
  cases e <;> rfl

/-- A character that is no slash is guarded alike in the whole and in its part. -/
theorem cells_cons (hc : c ≠ '/') (flags : Flags) (lead : Bool) (s : List Char) :
    cells flags lead (c :: s) =
      (c, flags.period && lead && c = '.') :: cells flags false s := by
  simp [cells, slash, hc]

theorem cells_slash (hpath : flags.pathname = true) (lead : Bool) (s : List Char) :
    cells flags lead ('/' :: s) = ('/', true) :: cells flags true s := by
  simp [cells, slash, hpath]

theorem slash_slash (hpath : flags.pathname = true) : slash flags '/' = true := by
  simp [slash, hpath]

/-- Only a slash of the pattern accepts a slash. -/
theorem accepts_slash (e : Element) : e.accepts flags ('/', true) = e.isSlash := by
  cases e with
  | literal d =>
    rw [Bool.eq_iff_iff]
    exact (charsMatch_eq (by decide)).1.trans (by simp [Element.isSlash])
  | _ => rfl

theorem accepts_of_isSlash (he : e.isSlash = true) {c : Cell} :
    e.accepts flags c = true ↔ c.1 = '/' := by
  cases e with
  | literal d =>
    obtain rfl : d = '/' := by simpa [Element.isSlash] using he
    exact (charsMatch_eq (by decide)).2
  | _ => cases he

/-- A part that fits nothing consists of stars, and the last of them stands before the slash. -/
theorem starBeforeSlash_of_fits_nil (hes : es.splitOnP Element.isSlash = seg :: segs)
    (hsegs : segs ≠ []) (h : Fits flags seg []) : starBeforeSlash (.star :: es) = true := by
  induction es generalizing seg segs with
  | nil =>
    rw [List.splitOnP_nil] at hes
    cases hes
    exact absurd rfl hsegs
  | cons e es ih =>
    by_cases he : e.isSlash = true
    · simp [starBeforeSlash, Element.isStar, he]
    · obtain ⟨seg', segs', hes'⟩ := List.exists_cons_of_ne_nil
        (List.splitOnP_ne_nil Element.isSlash es)
      rw [splitOnP_of_ne (Bool.eq_false_iff.mpr he) hes'] at hes
      cases hes
      cases h with
      | skip _ h =>
        rw [starBeforeSlash, ih hes' hsegs h, Bool.or_true]

variable (flags) in
/-- The string fits as a whole where its parts do, unless a `*` stands before a slash. -/
def FitsInParts (es : List Element) : Prop :=
  ∀ lead s, Fits flags es (cells flags lead s) ↔
    starBeforeSlash es = false ∧
      PartsFit flags lead (es.splitOnP Element.isSlash) (s.splitOn '/')

theorem fitsInParts_nil : FitsInParts flags [] := by
  intro lead s
  rw [fits_nil, List.splitOnP_nil]
  cases s with
  | nil => exact iff_of_true rfl ⟨rfl, .nil, .nil⟩
  | cons c s =>
    refine iff_of_false (by rw [cells]; exact List.cons_ne_nil _ _) ?_
    rintro ⟨-, hparts⟩
    obtain ⟨u, us, hs⟩ := exists_splitOn s
    by_cases hc : c = '/'
    · subst hc
      rw [splitOn_slash, hs] at hparts
      cases hparts.2
    · rw [splitOn_of_ne hc hs] at hparts
      cases hparts.1

theorem FitsInParts.cons_slash (hpath : flags.pathname = true) (ih : FitsInParts flags es)
    (hslash : e.isSlash = true) : FitsInParts flags (e :: es) := by
  intro lead s
  obtain ⟨seg, segs, hes⟩ := List.exists_cons_of_ne_nil (List.splitOnP_ne_nil Element.isSlash es)
  have hstar : e.isStar = false := by
    cases e with
    | star => cases hslash
    | _ => rfl
  have hbefore : starBeforeSlash (e :: es) = starBeforeSlash es := by
    simp [starBeforeSlash, hstar]
  rw [fits_cons hstar, hbefore, splitOnP_slash hslash]
  cases s with
  | nil =>
    refine iff_of_false ?_ ?_
    · rintro ⟨c, t, heq, -⟩
      cases heq
    · rintro ⟨-, -, hrest⟩
      rw [hes] at hrest
      cases hrest
  | cons c s =>
    by_cases hc : c = '/'
    · subst hc
      have ih' := ih true s
      rw [partsFit_true (List.splitOnP_ne_nil _ _)] at ih'
      rw [cells_slash hpath, splitOn_slash]
      constructor
      · rintro ⟨d, t, heq, -, hfits⟩
        cases heq
        obtain ⟨hno, hrest⟩ := ih'.mp hfits
        exact ⟨hno, .nil, hrest⟩
      · rintro ⟨hno, -, hrest⟩
        exact ⟨_, _, rfl, (accepts_of_isSlash hslash).mpr rfl, ih'.mpr ⟨hno, hrest⟩⟩
    · obtain ⟨u, us, hs⟩ := exists_splitOn s
      rw [cells_cons hc, splitOn_of_ne hc hs]
      refine iff_of_false ?_ ?_
      · rintro ⟨d, t, heq, haccepts, -⟩
        cases heq
        exact hc ((accepts_of_isSlash hslash).mp haccepts)
      · rintro ⟨-, hfits, -⟩
        cases hfits

theorem FitsInParts.cons_plain (hpath : flags.pathname = true) (ih : FitsInParts flags es)
    (hslash : e.isSlash = false) (hstar : e.isStar = false) : FitsInParts flags (e :: es) := by
  intro lead s
  obtain ⟨seg, segs, hes⟩ := List.exists_cons_of_ne_nil (List.splitOnP_ne_nil Element.isSlash es)
  rw [splitOnP_of_ne hslash hes]
  have hbefore : starBeforeSlash (e :: es) = starBeforeSlash es := by
    simp [starBeforeSlash, hstar]
  rw [fits_cons hstar, hbefore]
  cases s with
  | nil =>
    refine iff_of_false ?_ ?_
    · rintro ⟨c, t, heq, -⟩
      cases heq
    · rintro ⟨-, hfits, -⟩
      obtain ⟨c, t, heq, -⟩ := (fits_cons hstar).mp hfits
      cases heq
  | cons c s =>
    by_cases hc : c = '/'
    · subst hc
      rw [cells_slash hpath, splitOn_slash]
      refine iff_of_false ?_ ?_
      · rintro ⟨d, t, heq, haccepts, -⟩
        cases heq
        rw [accepts_slash, hslash] at haccepts
        cases haccepts
      · rintro ⟨-, hfits, -⟩
        obtain ⟨c, t, heq, -⟩ := (fits_cons hstar).mp hfits
        cases heq
    · obtain ⟨u, us, hs⟩ := exists_splitOn s
      have ih' := ih false s
      rw [hes, hs] at ih'
      rw [cells_cons hc, splitOn_of_ne hc hs, PartsFit, cells_cons hc, fits_cons hstar]
      constructor
      · rintro ⟨d, t, heq, haccepts, hfits⟩
        cases heq
        obtain ⟨hno, hfits, hrest⟩ := ih'.mp hfits
        exact ⟨hno, ⟨_, _, rfl, (accepts_withoutPathname e _).trans haccepts, hfits⟩, hrest⟩
      · rintro ⟨hno, ⟨d, t, heq, haccepts, hfits⟩, hrest⟩
        cases heq
        exact ⟨_, _, rfl, (accepts_withoutPathname e _).symm.trans haccepts,
          ih'.mpr ⟨hno, hfits, hrest⟩⟩

theorem FitsInParts.cons_star (hpath : flags.pathname = true) (ih : FitsInParts flags es) :
    FitsInParts flags (.star :: es) := by
  intro lead s
  obtain ⟨seg, segs, hes⟩ := List.exists_cons_of_ne_nil (List.splitOnP_ne_nil Element.isSlash es)
  rw [splitOnP_of_ne rfl hes]
  -- the star takes the string character by character
  induction s generalizing lead with
  | nil =>
    have ih' := ih lead []
    rw [hes, List.splitOn_nil] at ih'
    rw [cells, fits_star_nil, List.splitOn_nil]
    refine ih'.trans ?_
    rw [PartsFit, PartsFit, cells, fits_star_nil, starBeforeSlash, Bool.or_eq_false_iff]
    refine ⟨?_, fun h => ⟨h.1.2, h.2⟩⟩
    rintro ⟨hno, hfits, hrest⟩
    refine ⟨⟨?_, hno⟩, hfits, hrest⟩
    -- the last part is not followed by a slash
    cases hrest
    rw [Bool.eq_false_iff]
    intro hnext
    cases es with
    | nil => cases hnext
    | cons e es =>
      have he : e.isSlash = true := by simpa [Element.isStar] using hnext
      rw [splitOnP_slash he] at hes
      exact List.splitOnP_ne_nil _ _ (List.cons.inj hes).2
  | cons c s ihs =>
    by_cases hc : c = '/'
    · subst hc
      rw [cells_slash hpath, splitOn_slash, fits_star_cons, slash_slash hpath]
      refine iff_of_false ?_ ?_
      · rintro (⟨⟨⟩, -⟩ | ⟨⟨⟩, -⟩)
      · rintro ⟨hno, hfits, hrest⟩
        have hsegs : segs ≠ [] := by
          rintro rfl
          exact List.splitOnP_ne_nil _ _ (List.forall₂_nil_left_iff.mp hrest)
        rw [cells, fits_star_nil] at hfits
        rw [starBeforeSlash_of_fits_nil hes hsegs hfits] at hno
        cases hno
    · obtain ⟨u, us, hs⟩ := exists_splitOn s
      have ih' := ih lead (c :: s)
      have ihs' := ihs false
      rw [hes, splitOn_of_ne hc hs, cells_cons hc, PartsFit, cells_cons hc] at ih'
      rw [hs, PartsFit] at ihs'
      have hno : slash flags c = false := by simp [slash, hc]
      have hno' : slash flags.withoutPathname c = false := by simp [slash, hc]
      rw [cells_cons hc, splitOn_of_ne hc hs, PartsFit, cells_cons hc, fits_star_cons,
        fits_star_cons, ih', ihs', hno, hno']
      simp only [true_and]
      constructor
      · rintro (⟨hbefore, hfits, hrest⟩ | ⟨hguard, hbefore, hfits, hrest⟩)
        · refine ⟨?_, .inl hfits, hrest⟩
          rw [starBeforeSlash, hbefore, Bool.or_false, Bool.eq_false_iff]
          intro hnext
          cases es with
          | nil => cases hnext
          | cons e es =>
            have he : e.isSlash = true := by simpa [Element.isStar] using hnext
            rw [splitOnP_slash he] at hes
            cases hes
            cases hfits
        · exact ⟨hbefore, .inr ⟨hguard, hfits⟩, hrest⟩
      · rintro ⟨hbefore, hfits | ⟨hguard, hfits⟩, hrest⟩
        · rw [starBeforeSlash, Bool.or_eq_false_iff] at hbefore
          exact .inl ⟨hbefore.2, hfits, hrest⟩
        · exact .inr ⟨hguard, hbefore, hfits, hrest⟩

theorem fits_iff_partsFit (hpath : flags.pathname = true) (es : List Element) :
    FitsInParts flags es := by
  induction es with
  | nil => exact fitsInParts_nil
  | cons e es ih =>
    cases hslash : e.isSlash with
    | true => exact ih.cons_slash hpath hslash
    | false =>
      cases hstar : e.isStar with
      | false => exact ih.cons_plain hpath hslash hstar
      | true =>
        obtain rfl : e = .star := by
          cases e with
          | star => rfl
          | _ => cases hstar
        exact ih.cons_star hpath

end Parts

/-! ## What a part of the pattern is -/

section Text

variable {flags : Flags} {p s : List Char}

theorem scanBracket_withoutPathname (sc : Char) (n : ℕ) (p : List Char) (found : Bool) :
    scanBracket flags.withoutPathname sc n p found = scanBracket flags sc n p found := by
  induction n generalizing p found with
  | zero => rfl
  | succ n ih =>
    have hread (p : List Char) :
        readPatternChar flags.withoutPathname p = readPatternChar flags p := rfl
    have hrange (start end_ : Char) :
        charInRange flags.withoutPathname sc start end_ = charInRange flags sc start end_ := rfl
    have hchar (c : Char) : charsMatch flags.withoutPathname sc c = charsMatch flags sc c := rfl
    rw [scanBracket, scanBracket]
    simp only [hread, hrange, hchar, ih]

theorem scanMembers_withoutPathname (sc : Char) (p : List Char) :
    scanMembers flags.withoutPathname sc p = scanMembers flags sc p := by
  unfold scanMembers
  split <;> exact scanBracket_withoutPathname sc _ _ _

theorem nextElement_withoutPathname (p : List Char) :
    nextElement flags.withoutPathname p = nextElement flags p := by
  have hbracket (p : List Char) :
      bracketElement flags.withoutPathname p = bracketElement flags p := by
    simp only [bracketElement, matchBracket, scanMembers_withoutPathname]
  have hplain (d : Char) (p : List Char) :
      plainElement flags.withoutPathname d p = plainElement flags d p := by
    simp only [plainElement, hbracket]
  have hescape : flags.withoutPathname.noescape = flags.noescape := rfl
  cases p with
  | nil => rfl
  | cons d p =>
    cases p with
    | nil => exact congrArg some (hplain d [])
    | cons e p => simp only [nextElement, hplain, hescape]

theorem elements_withoutPathname (p : List Char) :
    elements flags.withoutPathname p = elements flags p := by
  unfold elements
  generalize p.length = n
  induction n generalizing p with
  | zero => rfl
  | succ n ih => simp only [firstElements, nextElement_withoutPathname, ih]

/-- A part matches where the matcher itself says so when it is called without
`GLOB_UTIL_PATHNAME`. -/
theorem segmentMatches_iff_globUtilMatch :
    SegmentMatches flags (elements flags p) s ↔
      globUtilMatch p s flags.withoutPathname = .ok true := by
  obtain ⟨b, hb, hiff⟩ := globUtilMatch_fits p s flags.withoutPathname
  rw [elements_withoutPathname] at hiff
  rw [SegmentMatches, ← hiff, hb]
  exact ⟨congrArg Except.ok, Except.ok.inj⟩

/-- Without brackets and escapes the parts of a pattern are the texts between its slashes. -/
theorem segments_eq_map (h : ∀ c ∈ p, c ≠ '[' ∧ c ≠ '\\') :
    segments flags p = (p.splitOn '/').map (elements flags) := by
  unfold segments
  induction p with
  | nil => rfl
  | cons c p ih =>
    simp only [List.mem_cons, forall_eq_or_imp] at h
    obtain ⟨u, us, hp⟩ := exists_splitOn p
    have hnext (q : List Char) :
        nextElement flags (c :: q) = some ((plainElement flags c []).1, q) := by
      have hplain : plainElement flags c q = ((plainElement flags c []).1, q) := by
        unfold plainElement
        rw [if_neg h.1.1, if_neg h.1.1]
        split_ifs <;> rfl
      refine Eq.trans ?_ (congrArg some hplain)
      cases q with
      | nil => rfl
      | cons d q => rw [nextElement, if_neg (by simp [h.1.2])]
    have ih' := ih h.2
    rw [elements_of_next (hnext p)]
    by_cases hc : c = '/'
    · subst hc
      rw [splitOn_slash, splitOnP_slash rfl, ih']
      rfl
    · have he : (plainElement flags c []).1.isSlash = false := by
        unfold plainElement
        rw [if_neg h.1.1]
        split_ifs
        · rfl
        · rfl
        · simp [Element.isSlash, hc]
      rw [hp, List.map_cons] at ih'
      rw [splitOn_of_ne hc hp, splitOnP_of_ne he ih', List.map_cons, elements_of_next (hnext u)]

end Text

/-! ## The matcher -/

/-- With `GLOB_UTIL_PATHNAME` the matcher finds a match where the parts match and no `*` of the
pattern stands directly before a slash. -/
theorem globUtilMatch_pathname {flags : Flags} (hpath : flags.pathname = true)
    (pattern string : List Char) :
    ∃ b, globUtilMatch pattern string flags = .ok b ∧
      (b = true ↔ starBeforeSlash (elements flags pattern) = false ∧
        SegmentsMatch flags pattern string) := by
  obtain ⟨b, hb, hiff⟩ := globUtilMatch_fits pattern string flags
  rw [fits_iff_partsFit hpath _ _ _, partsFit_true (List.splitOnP_ne_nil _ _)] at hiff
  exact ⟨b, hb, hiff⟩

/-- The answer is the match part by part if and only if the parts do not match when a `*` of the
pattern stands directly before a slash. -/
theorem globUtilMatch_segments_iff (pattern string : List Char) (flags : Flags)
    (hpath : flags.pathname = true) :
    (∃ b, globUtilMatch pattern string flags = .ok b ∧
      (b = true ↔ SegmentsMatch flags pattern string)) ↔
    (starBeforeSlash (elements flags pattern) = true → ¬ SegmentsMatch flags pattern string) := by
  obtain ⟨b, hb, hiff⟩ := globUtilMatch_pathname hpath pattern string
  constructor
  · rintro ⟨b', hb', hiff'⟩ hstar hmatch
    cases Except.ok.inj (hb.symm.trans hb')
    have hno := (hiff.mp (hiff'.mpr hmatch)).1
    rw [hstar] at hno
    cases hno
  · intro h
    refine ⟨b, hb, hiff.trans ⟨fun hmatch => hmatch.2, fun hmatch => ⟨?_, hmatch⟩⟩⟩
    rw [Bool.eq_false_iff]
    exact fun hstar => h hstar hmatch

/-- `*a/b` against `xa/b`. -/
theorem globUtilMatch_segments_path :
    (∃ b, globUtilMatch ['*', 'a', '/', 'b'] ['x', 'a', '/', 'b'] { pathname := true } = .ok b ∧
      (b = true ↔
        SegmentsMatch { pathname := true } ['*', 'a', '/', 'b'] ['x', 'a', '/', 'b'])) ↔
    (starBeforeSlash (elements { pathname := true } ['*', 'a', '/', 'b']) = true →
      ¬ SegmentsMatch { pathname := true } ['*', 'a', '/', 'b'] ['x', 'a', '/', 'b']) :=
  globUtilMatch_segments_iff ['*', 'a', '/', 'b'] ['x', 'a', '/', 'b'] { pathname := true } rfl

/-- `a*/b` does not match `a/b`, although `a*` matches `a`. -/
theorem globUtilMatch_star_slash :
    globUtilMatch ['a', '*', '/', 'b'] ['a', '/', 'b'] { pathname := true } = .ok false ∧
      SegmentsMatch { pathname := true } ['a', '*', '/', 'b'] ['a', '/', 'b'] := by
  refine ⟨by decide, ?_⟩
  rw [SegmentsMatch, segments_eq_map (List.forall_iff_forall_mem.mp (by decide))]
  refine .cons ?_ (.cons ?_ .nil)
  · exact segmentMatches_iff_globUtilMatch.mpr (by decide)
  · exact segmentMatches_iff_globUtilMatch.mpr (by decide)

end Migash.Glob
