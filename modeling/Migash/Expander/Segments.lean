import Migash.Expander.Heredoc
import Migash.Expander.Quoting
import Migash.Lexer.DoubleQuotes

/-! # Two scanners of one text

What a text of characters and parameter expansions expands to between double
quotes, where the lexer takes it apart, and in a here-document, where
`expand_heredoc` does.
-/

namespace Migash.Expander

open Exec (Shell)
open Library Lexer

variable {δ W : Type} {env : Env δ W} {s : Shell δ W}

/-- Between double quotes the text expands to one field, the given one. -/
def ExpandsQuoted (env : Env δ W) (s : Shell δ W) (body text : List Char) : Prop :=
  ∃ lx tok t, Tokenizes (lexerCreateWithInput (quotedText body)) (.ok, lx, [tok]) ∧
    (execFrameExpanderExpandWord env tok).run s = .ok (some [String.ofList text], t)

/-- A here-document with the text expands to the same. -/
def Agrees (env : Env δ W) (s : Shell δ W) (body : List Char) : Prop :=
  ExpandsQuoted env s body (expandHeredoc env s body false)

/-- No character of a name follows a number behind a dollar sign. -/
def DelimitedBefore (more : List Char) : Segment → Prop
  | .bare (.positional ..) => ∀ c ∈ more.head?, isNameChar c = false
  | _ => True

/-- Every segment is delimited by the next one, and the last one by the given text. -/
def AllDelimited (more : List Char) : List Segment → Prop
  | [] => True
  | seg :: segs => DelimitedBefore (segmentsText segs ++ more) seg ∧ AllDelimited more segs

/-- A here-document finds a brace that closes the expansion. -/
def Closes : Segment → Prop
  | .operator _ _ w => (closingBrace 1 (w ++ [rbrace])).isSome
  | _ => True

/-- Both scanners read the same segments. -/
structure ReadAlike (segs : List Segment) : Prop where
  readable : ∀ seg ∈ segs, seg.Readable
  plain : ∀ seg ∈ segs, seg.IsPlain
  delimited : AllDelimited [] segs

variable {seg : Segment} {segs : List Segment} {value : List Char → List Char} {p : Parameter}
variable {more : List Char} {c : Char}

/-! ## The scan of a here-document -/

theorem heredocStep_length_le (value : List Char → List Char) (c : Char) (cs : List Char) :
    (heredocStep value c cs).2.length ≤ cs.length := by
  unfold heredocStep
  split_ifs
  · cases cs with
    | nil => exact le_rfl
    | cons next rest =>
      dsimp only
      split_ifs <;> simp
  · cases cs with
    | nil => exact le_rfl
    | cons next rest =>
      dsimp only
      split_ifs
      · exact le_rfl
      · cases hclose : closingBrace 1 rest with
        | none => exact le_rfl
        | some found => exact (closingBrace_length hclose).le.trans (Nat.le_succ _)
      · exact Nat.le_succ _
      · exact (List.dropWhile_suffix _).length_le
      · exact le_rfl
  · exact le_rfl

/-- The scan with as many turns as it may need. -/
def scanned (value : List Char → List Char) (cs : List Char) : List Char :=
  heredocScan value cs.length cs

theorem heredocScan_eq {n : ℕ} {cs : List Char} (hn : cs.length ≤ n) :
    heredocScan value n cs = scanned value cs := by
  induction hlen : cs.length using Nat.strong_induction_on generalizing cs n with
  | _ k ih =>
    subst hlen
    cases cs with
    | nil => cases n <;> rfl
    | cons c cs =>
      have hstep := heredocStep_length_le value c cs
      rw [List.length_cons] at hn
      obtain ⟨n, rfl⟩ : ∃ m, n = m + 1 := ⟨n - 1, by omega⟩
      rw [scanned, List.length_cons, heredocScan, heredocScan]
      rw [ih _ (Nat.lt_succ_of_le hstep) (by omega) rfl,
        ih _ (Nat.lt_succ_of_le hstep) hstep rfl]

theorem scanned_cons (value : List Char → List Char) (c : Char) (cs : List Char) :
    scanned value (c :: cs) =
      (heredocStep value c cs).1 ++ scanned value (heredocStep value c cs).2 := by
  rw [scanned, List.length_cons, heredocScan, heredocScan_eq (heredocStep_length_le value c cs)]

theorem closingBrace_append {depth : ℕ} {cs name after : List Char}
    (h : closingBrace depth cs = some (name, after)) (more : List Char) :
    closingBrace depth (cs ++ more) = some (name, after ++ more) := by
  induction cs generalizing depth name after with
  | nil => cases h
  | cons c cs ih =>
    have hmap {d : ℕ} (h : (closingBrace d cs).map (fun r => (c :: r.1, r.2)) = some (name, after)) :
        (closingBrace d (cs ++ more)).map (fun r => (c :: r.1, r.2)) = some (name, after ++ more) := by
      obtain ⟨⟨r₁, r₂⟩, hr, heq⟩ := Option.map_eq_some_iff.mp h
      cases heq
      rw [ih hr]
      rfl
    rw [closingBrace] at h
    rw [List.cons_append, closingBrace]
    split_ifs at h ⊢
    · exact hmap h
    · cases h
      rfl
    · exact hmap h
    · exact hmap h

/-- What contains no braces is part of the name. -/
theorem closingBrace_of_noBraces {text : List Char}
    (htext : ∀ c ∈ text, c ≠ lbrace ∧ c ≠ rbrace) (more : List Char) :
    closingBrace 1 (text ++ more) = (closingBrace 1 more).map fun r => (text ++ r.1, r.2) := by
  induction text with
  | nil => simp
  | cons c text ih =>
    obtain ⟨hopen, hclose⟩ := htext c List.mem_cons_self
    rw [List.cons_append, closingBrace, if_neg hopen, if_neg hclose,
      ih fun d hd => htext d (List.mem_cons_of_mem c hd), Option.map_map]
    rfl

theorem scanned_char (hc : (Segment.char c).Stands more) :
    scanned value (c :: more) = c :: scanned value more := by
  have hnone : startsExpansion c more = false := by
    obtain ⟨-, hplain | ⟨rfl, hnext⟩⟩ := hc
    · simp only [List.mem_cons, List.not_mem_nil, or_false, not_or] at hplain
      rw [startsExpansion.eq_def, if_neg hplain.2.2.1, if_neg hplain.1]
    · rw [startsExpansion.eq_def, if_neg (by decide), if_pos rfl]
      cases more with
      | nil => rfl
      | cons d more =>
        have hd := hnext d rfl
        simp only [isExpansionStart, Bool.or_eq_false_iff, decide_eq_false_iff_not] at hd
        obtain ⟨⟨⟨hstart, hspecial⟩, hbrace⟩, hopen⟩ := hd
        dsimp only
        rw [if_neg hbrace]
        rw [isSpecialParamChar, Bool.or_eq_false_iff] at hspecial
        have hname : isNameChar d = false := by
          simp only [isNameStartChar, Bool.or_eq_false_iff] at hstart
          simp [isNameChar, Char.isAlphanum, hstart, hspecial.2]
        have hsingle : isSingleParam d = false := by
          by_contra h
          rw [Bool.not_eq_false, isSingleParam, List.contains_iff_mem] at h
          simp only [List.mem_cons, List.not_mem_nil, or_false] at h
          rcases h with rfl | rfl | rfl | rfl | rfl | rfl | rfl | rfl <;>
            first | exact absurd hspecial.1 (by decide) | exact absurd hspecial.2 (by decide)
        rw [hsingle, hname]
        rfl
  rw [scanned_cons, heredocStep_of_not hnone]
  rfl

/-- A name behind a dollar sign, which may start with a digit. -/
theorem scanned_name (value : List Char → List Char) {first : Char} (cs : List Char) (hname : isNameChar first = true)
    (hsingle : isSingleParam first = false) :
    scanned value ('$' :: first :: cs) =
      value (first :: cs.takeWhile isNameChar) ++ scanned value (cs.dropWhile isNameChar) := by
  have hopen : first ≠ '(' := by
    rintro rfl
    exact absurd hname (by decide)
  have hbrace : first ≠ lbrace := by
    rintro rfl
    exact absurd hname (by decide)
  rw [scanned_cons, heredocStep, if_neg (by decide), if_pos rfl]
  simp only [hopen, hbrace, hsingle, Bool.false_eq_true, if_false, hname, if_true,
    List.takeWhile_cons_of_pos, List.dropWhile_cons_of_pos]

theorem scanned_single {cs : List Char} (hsingle : isSingleParam c = true) :
    scanned value ('$' :: c :: cs) = value [c] ++ scanned value cs := by
  have hopen : c ≠ '(' := by
    rintro rfl
    exact absurd hsingle (by decide)
  have hbrace : c ≠ lbrace := by
    rintro rfl
    exact absurd hsingle (by decide)
  rw [scanned_cons, heredocStep, if_neg (by decide), if_pos rfl]
  simp only [hopen, hbrace, hsingle, if_false, if_true]

theorem scanned_brace {cs name after : List Char} (hclose : closingBrace 1 cs = some (name, after)) :
    scanned value ('$' :: lbrace :: cs) = value name ++ scanned value after := by
  have hopen : lbrace ≠ '(' := by decide
  rw [scanned_cons, heredocStep, if_neg (by decide), if_pos rfl]
  simp only [hopen, if_false, if_true, hclose]

theorem parameter_noBraces (p : Parameter) : ∀ c ∈ p.text, c ≠ lbrace ∧ c ≠ rbrace := by
  intro c hc
  cases p with
  | name first others start valid =>
    have hname : isNameChar c = true := by
      rcases List.mem_cons.mp hc with rfl | hc
      · exact isNameChar_of_start start
      · exact valid c hc
    constructor <;> (rintro rfl; exact absurd hname (by decide))
  | positional first others valid positive =>
    have hdigit := valid c hc
    constructor <;> (rintro rfl; exact absurd hdigit (by decide))
  | special d valid =>
    cases List.mem_singleton.mp hc
    constructor <;> (rintro rfl; exact absurd valid (by decide))

theorem scanned_braced (p : Parameter) :
    scanned value (bracedParameter p ++ more) = value p.text ++ scanned value more := by
  have hclose : closingBrace 1 (p.text ++ rbrace :: more) = some (p.text, more) := by
    have hend : closingBrace 1 (rbrace :: more) = some ([], more) := rfl
    rw [closingBrace_of_noBraces (parameter_noBraces p), hend, Option.map_some, List.append_nil]
  rw [← scanned_brace hclose]
  simp [bracedParameter]

/-- A digit from 1 on. -/
theorem positional_head {first : Char} {others : List Char}
    (valid : ∀ c ∈ first :: others, c.isDigit = true) (hp : others = [])
    (positive : 0 < decimalValue (first :: others)) :
    isNameChar first = true ∧ isSingleParam first = false := by
  subst hp
  have hdigit := valid first List.mem_cons_self
  refine ⟨by simp [isNameChar, Char.isAlphanum, hdigit], ?_⟩
  by_contra h
  rw [Bool.not_eq_false, isSingleParam, List.contains_iff_mem] at h
  simp only [List.mem_cons, List.not_mem_nil, or_false] at h
  rcases h with rfl | rfl | rfl | rfl | rfl | rfl | rfl | rfl <;>
    first | exact absurd hdigit (by decide) | exact absurd positive (by decide)

/-- A segment is scanned as what it stands for, unless it is a number that is not delimited: then
the name goes on. -/
theorem scanned_segment (value : List Char → List Char) (hplain : seg.IsPlain) (hstands : seg.Stands more) :
    (DelimitedBefore more seg →
      scanned value (seg.text ++ more) = seg.meaning value ++ scanned value more) ∧
    (¬ DelimitedBefore more seg → ∃ first, more.takeWhile isNameChar ≠ [] ∧
      scanned value (seg.text ++ more) =
        value (first :: more.takeWhile isNameChar) ++ scanned value (more.dropWhile isNameChar)) := by
  cases seg with
  | char c => exact ⟨fun _ => scanned_char hstands, fun h => absurd trivial h⟩
  | braced p => exact ⟨fun _ => scanned_braced p, fun h => absurd trivial h⟩
  | operator p op w => exact absurd hplain id
  | bare p =>
    cases p with
    | name first others start valid =>
      refine ⟨fun _ => ?_, fun h => absurd trivial h⟩
      have hall : ∀ c ∈ others, isNameChar c = true := valid
      have hends : ∀ c ∈ more.head?, isNameChar c = false := hstands.2
      have hsingle : isSingleParam first = false := by
        by_contra h
        rw [Bool.not_eq_false, isSingleParam, List.contains_iff_mem] at h
        simp only [List.mem_cons, List.not_mem_nil, or_false] at h
        rcases h with rfl | rfl | rfl | rfl | rfl | rfl | rfl | rfl <;>
          exact absurd start (by decide)
      have hnone : more.takeWhile isNameChar = [] ∧ more.dropWhile isNameChar = more := by
        cases more with
        | nil => exact ⟨rfl, rfl⟩
        | cons d more =>
          have hd := hends d rfl
          exact ⟨List.takeWhile_cons_of_neg (by simp [hd]), List.dropWhile_cons_of_neg (by simp [hd])⟩
      have hscan := scanned_name value (others ++ more) (isNameChar_of_start start) hsingle
      rw [List.takeWhile_append_of_pos hall, List.dropWhile_append_of_pos hall, hnone.1, hnone.2,
        List.append_nil] at hscan
      exact hscan
    | positional first others valid positive =>
      obtain rfl : others = [] := hstands.1
      obtain ⟨hname, hsingle⟩ := positional_head valid rfl positive
      have hscan := scanned_name value more hname hsingle
      refine ⟨fun hdelimited => ?_, fun hdelimited => ⟨first, ?_, hscan⟩⟩
      · have hdelimited : ∀ c ∈ more.head?, isNameChar c = false := hdelimited
        cases more with
        | nil => exact hscan
        | cons d more =>
          have hd := hdelimited d rfl
          rw [List.takeWhile_cons_of_neg (by simp [hd]), List.dropWhile_cons_of_neg (by simp [hd])]
            at hscan
          exact hscan
      · have hdelimited : ¬ ∀ c ∈ more.head?, isNameChar c = false := hdelimited
        cases more with
        | nil => simp at hdelimited
        | cons d more =>
          have hd : isNameChar d = true := by simpa using hdelimited
          rw [List.takeWhile_cons_of_pos hd]
          exact List.cons_ne_nil _ _
    | special d valid =>
      refine ⟨fun _ => ?_, fun h => absurd trivial h⟩
      exact scanned_single (by
        simp only [List.mem_cons, List.not_mem_nil, or_false] at valid
        rcases valid with rfl | rfl | rfl | rfl | rfl | rfl | rfl | rfl <;> decide)

/-- The text goes on with no character of a name. -/
def EndsName (more : List Char) : Prop := ∀ c ∈ more.head?, isNameChar c = false

theorem EndsName.takeWhile (h : EndsName more) :
    more.takeWhile isNameChar = [] ∧ more.dropWhile isNameChar = more := by
  cases more with
  | nil => exact ⟨rfl, rfl⟩
  | cons c more =>
    have hc := h c rfl
    exact ⟨List.takeWhile_cons_of_neg (by simp [hc]), List.dropWhile_cons_of_neg (by simp [hc])⟩

/-- The name that a number goes on with consists of characters that stand for themselves. -/
theorem exists_afterName (value : List Char → List Char) (hstand : Stand more segs)
    (hplain : ∀ seg ∈ segs, seg.IsPlain) (hmore : EndsName more) :
    ∃ segs', segs'.length ≤ segs.length ∧ Stand more segs' ∧ (∀ seg ∈ segs', seg.IsPlain) ∧
      segmentsText segs' ++ more = (segmentsText segs ++ more).dropWhile isNameChar ∧
      (plainText value segs).length =
        ((segmentsText segs ++ more).takeWhile isNameChar).length +
          (plainText value segs').length := by
  induction segs with
  | nil =>
    refine ⟨[], le_rfl, trivial, hplain, ?_, ?_⟩
    · exact hmore.takeWhile.2.symm
    · simp [hmore.takeWhile.1]
  | cons seg segs ih =>
    have hstop : EndsName (segmentsText (seg :: segs) ++ more) → ∃ segs' : List Segment,
        segs'.length ≤ (seg :: segs).length ∧ Stand more segs' ∧ (∀ seg ∈ segs', seg.IsPlain) ∧
        segmentsText segs' ++ more =
          (segmentsText (seg :: segs) ++ more).dropWhile isNameChar ∧
        (plainText value (seg :: segs)).length =
          ((segmentsText (seg :: segs) ++ more).takeWhile isNameChar).length +
            (plainText value segs').length := by
      intro hends
      refine ⟨seg :: segs, le_rfl, hstand, hplain, hends.takeWhile.2.symm, ?_⟩
      simp only [hends.takeWhile.1, List.length_nil, Nat.zero_add]
    have hdollar : ∀ cs, EndsName ('$' :: cs) := by
      intro cs c hc
      cases hc
      decide
    cases seg with
    | char c =>
      by_cases hc : isNameChar c = true
      · obtain ⟨segs', hle, hstand', hplain', hdrop, hlen⟩ :=
          ih hstand.2 fun seg hmem => hplain seg (List.mem_cons_of_mem _ hmem)
        refine ⟨segs', hle.trans (Nat.le_succ _), hstand', hplain', ?_, ?_⟩
        · rw [hdrop]
          exact (List.dropWhile_cons_of_pos hc).symm
        · have htake : (segmentsText (.char c :: segs) ++ more).takeWhile isNameChar =
              c :: (segmentsText segs ++ more).takeWhile isNameChar := List.takeWhile_cons_of_pos hc
          rw [htake, plainText_cons, List.length_append, hlen, List.length_cons]
          simp only [Segment.meaning, List.length_singleton]
          omega
      · refine hstop fun d hd => ?_
        cases hd
        simpa using hc
    | bare p => exact hstop (hdollar _)
    | braced p => exact hstop (hdollar _)
    | operator p op w => exact hstop (hdollar _)

/-- Where no name of several characters has a value. -/
def OneCharacterNames (value : List Char → List Char) : Prop :=
  ∀ first second others, value (first :: second :: others) = []

/-- Plain segments are scanned one by one as what they stand for if all numbers are delimited. If
names of several characters have no value, the text is shorter otherwise. -/
theorem scanned_segments (value : List Char → List Char) (hstand : Stand more segs)
    (hplain : ∀ seg ∈ segs, seg.IsPlain) (hmore : EndsName more) :
    ∃ text, scanned value (segmentsText segs ++ more) = text ++ scanned value more ∧
      (AllDelimited more segs → text = plainText value segs) ∧
      (OneCharacterNames value → text.length ≤ (plainText value segs).length ∧
        (text.length = (plainText value segs).length → AllDelimited more segs)) := by
  induction hlen : segs.length using Nat.strong_induction_on generalizing segs with
  | _ n ih =>
    subst hlen
    cases segs with
    | nil => exact ⟨[], rfl, fun _ => rfl, fun _ => ⟨le_rfl, fun _ => trivial⟩⟩
    | cons seg segs =>
      have hrest : ∀ seg ∈ segs, seg.IsPlain := fun seg hmem => hplain seg (List.mem_cons_of_mem _ hmem)
      obtain ⟨hscan, hname⟩ := scanned_segment value (hplain seg List.mem_cons_self) hstand.1
      rw [segmentsText_cons, List.append_assoc, plainText_cons]
      by_cases hdelimited : DelimitedBefore (segmentsText segs ++ more) seg
      · obtain ⟨text, htext, heq, hshort⟩ := ih segs.length (Nat.lt_succ_self _) hstand.2 hrest rfl
        refine ⟨seg.meaning value ++ text, ?_, fun hall => by rw [heq hall.2], fun hvalue => ?_⟩
        · rw [hscan hdelimited, htext, List.append_assoc]
        · obtain ⟨hle, hall⟩ := hshort hvalue
          simp only [List.length_append]
          exact ⟨by omega, fun h => ⟨hdelimited, hall (by omega)⟩⟩
      · obtain ⟨first, hne, hscan⟩ := hname hdelimited
        obtain ⟨segs', hle, hstand', hplain', hdrop, hsize⟩ :=
          exists_afterName value hstand.2 hrest hmore
        obtain ⟨text, htext, -, hshort⟩ :=
          ih segs'.length (Nat.lt_succ_of_le hle) hstand' hplain' rfl
        refine ⟨value (first :: (segmentsText segs ++ more).takeWhile isNameChar) ++ text, ?_,
          fun hall => absurd hall.1 hdelimited, fun hvalue => ?_⟩
        · rw [hscan, ← hdrop, htext, List.append_assoc]
        · obtain ⟨second, others, hothers⟩ := List.exists_cons_of_ne_nil hne
          have hshorter := (hshort hvalue).1
          rw [hothers] at hsize ⊢
          rw [hvalue, List.nil_append, List.length_append]
          rw [List.length_cons] at hsize
          exact ⟨by omega, fun h => by omega⟩

/-! ## The parts of a word -/

variable {ps : List Part} {part : Part}

/-- What the lexer makes between double quotes: literals that have a text, and parameters. -/
structure Built (part : Part) : Prop where
  quoted : part.wasDoubleQuoted = true
  content : part.type = .literal ∧ part.text ≠ none ∨
    part.type = .parameter ∧ part.paramKind ≠ .indirect ∧
      ∃ p : Parameter, part.paramName = some (String.ofList p.text)

theorem built_nil : ∀ part ∈ [], Built part := fun _ hmem => absurd hmem List.not_mem_nil

/-- The literal for a character. -/
def literalPart (c : Char) : Part :=
  { type := .literal, text := some (String.ofList [c]), wasDoubleQuoted := true }

/-- A character goes into the last part or into a new one. -/
theorem appendLiteral_cases (ps : List Part) (c : Char) :
    appendLiteral ps c = ps ++ [literalPart c] ∨ ∃ front last, ps = front ++ [last] ∧
      last.type = .literal ∧ appendLiteral ps c =
        front ++ [{ last with text := last.text.map fun text => text.push c }] := by
  unfold appendLiteral Token.appendChar
  cases hlast : ps.getLast? with
  | none =>
    rw [List.getLast?_eq_none_iff] at hlast
    subst hlast
    exact .inl rfl
  | some last =>
    dsimp only
    split_ifs with hliteral
    · obtain ⟨front, rfl⟩ := List.getLast?_eq_some_iff.mp hlast
      exact .inr ⟨front, last, rfl, hliteral.1, by rw [List.dropLast_concat]⟩
    · exact .inl rfl

theorem built_literalPart (c : Char) : Built (literalPart c) := ⟨rfl, .inl ⟨rfl, nofun⟩⟩

theorem built_dquoted {word : Option (List Char)} {kind : ParamSubtype} (p : Parameter)
    (hkind : kind ≠ .indirect) (colon : Bool) : Built (dquoted (paramPart p.text kind colon word)) :=
  ⟨rfl, .inr ⟨rfl, hkind, p, rfl⟩⟩

theorem kind_ne_indirect (op : Operator) : op.kind ≠ .indirect := by
  cases op with
  | modifier colon op => cases op <;> nofun
  | pattern op => cases op <;> nofun

theorem built_add (h : ∀ part ∈ ps, Built part) : ∀ part ∈ seg.add ps, Built part := by
  have hsnoc {part : Part} (hpart : Built part) : ∀ part' ∈ ps ++ [part], Built part' := by
    intro part' hmem
    rcases List.mem_append.mp hmem with hmem | hmem
    · exact h part' hmem
    · cases List.mem_singleton.mp hmem
      exact hpart
  cases seg with
  | char c =>
    intro part hmem
    rcases appendLiteral_cases ps c with heq | ⟨front, last, rfl, htype, heq⟩
    · exact hsnoc (built_literalPart c) part (heq ▸ hmem)
    · have hmem : part ∈ appendLiteral (front ++ [last]) c := hmem
      rw [heq] at hmem
      rcases List.mem_append.mp hmem with hmem | hmem
      · exact h part (List.mem_append_left _ hmem)
      · cases List.mem_singleton.mp hmem
        obtain ⟨hquoted, hcontent⟩ := h last (by simp)
        rcases hcontent with ⟨-, htext⟩ | ⟨hparameter, -⟩
        · exact ⟨hquoted, .inl ⟨htype, by simpa using htext⟩⟩
        · rw [hparameter] at htype
          cases htype
  | bare p | braced p =>
    have hkind : ParamSubtype.plain ≠ .indirect := nofun
    exact hsnoc (built_dquoted p hkind false)
  | operator p op w => exact hsnoc (built_dquoted p (kind_ne_indirect op) _)

theorem built_segments (segs : List Segment) (h : ∀ part ∈ ps, Built part) :
    ∀ part ∈ segs.foldl Segment.add ps, Built part := by
  induction segs generalizing ps with
  | nil => exact h
  | cons seg segs ih => exact ih (built_add h)

theorem expandParts_append {qs : List Part} {t u : Shell δ W} {texts texts' : List String}
    (hps : (expandParts env ps).run s = .ok (texts, t))
    (hqs : (expandParts env qs).run t = .ok (texts', u)) :
    (expandParts env (ps ++ qs)).run s = .ok (texts ++ texts', u) := by
  induction ps generalizing s texts with
  | nil =>
    cases hps
    exact hqs
  | cons part ps ih =>
    rw [expandParts, Stateful.run_bind_eq_ok] at hps
    obtain ⟨text, v, hpart, hps⟩ := hps
    obtain ⟨texts, w, hrest, hpure⟩ := Stateful.run_bind_eq_ok.mp hps
    cases hpure
    rw [List.cons_append, expandParts, Stateful.run_bind_ok hpart, Stateful.run_bind_ok (ih hrest)]
    rfl

/-- The parts expand to the text and leave the shell as it is. -/
def PartsText (env : Env δ W) (s : Shell δ W) (ps : List Part) (text : List Char) : Prop :=
  ∃ texts, (expandParts env ps).run s = .ok (texts, s) ∧ (String.join texts).toList = text

theorem PartsText.append {text value : List Char} {qs : List Part} (h : PartsText env s ps text)
    (hqs : PartsText env s qs value) : PartsText env s (ps ++ qs) (text ++ value) := by
  obtain ⟨texts, hrun, rfl⟩ := h
  obtain ⟨texts', hrun', rfl⟩ := hqs
  exact ⟨texts ++ texts', expandParts_append hrun hrun', by simp⟩

theorem partsText_singleton {value : String} (h : (expandPart env part).run s = .ok (value, s)) :
    PartsText env s [part] value.toList := by
  refine ⟨[value], ?_, by simp⟩
  rw [expandParts, Stateful.run_bind_ok h]
  rfl

theorem expandPart_plainPart (env : Env δ W) (s : Shell δ W) (p : Parameter) :
    (expandPart env (dquoted (plainPart p))).run s =
      .ok ((getParameterValue env s (String.ofList p.text)).getD "", s) := rfl

/-- A literal with one more character. -/
theorem PartsText.appendLiteral {text : List Char} (h : PartsText env s ps text)
    (hbuilt : ∀ part ∈ ps, Built part) (c : Char) :
    PartsText env s (appendLiteral ps c) (text ++ [c]) := by
  rcases appendLiteral_cases ps c with heq | ⟨front, last, rfl, htype, heq⟩
  · rw [heq]
    have hfresh : (expandPart env (literalPart c)).run s = .ok (String.ofList [c], s) := rfl
    simpa using h.append (partsText_singleton hfresh)
  · rw [heq]
    obtain ⟨old, hold⟩ : ∃ old, last.text = some old := by
      rcases (hbuilt last (by simp)).content with ⟨-, htext⟩ | ⟨hparameter, -⟩
      · exact Option.ne_none_iff_exists'.mp htext
      · rw [hparameter] at htype
        cases htype
    have hliteral (part : Part) {value : String} (htype : part.type = .literal)
        (htext : part.text = some value) (t : Shell δ W) :
        (expandPart env part).run t = .ok (value, t) := by
      rw [expandPart, htype, htext]
      rfl
    obtain ⟨texts, hrun, rfl⟩ := h
    obtain ⟨texts₁, t, hfront, -⟩ := expandParts_run env front s
    have hlast : (expandParts env [last]).run t = .ok ([old], t) := by
      rw [expandParts, Stateful.run_bind_ok (hliteral last htype hold t)]
      rfl
    have hwhole := expandParts_append hfront hlast
    cases hrun.symm.trans hwhole
    refine ⟨texts₁ ++ [old.push c], expandParts_append hfront ?_, by simp⟩
    have hpushed : ({ last with text := last.text.map fun text => text.push c } : Part).text =
        some (old.push c) := by rw [hold]; rfl
    rw [expandParts, Stateful.run_bind_ok (hliteral { last with
      text := last.text.map fun text => text.push c } htype hpushed s)]
    rfl

/-- Plain segments expand to what they stand for. -/
theorem partsText_segments {text : List Char} (h : PartsText env s ps text)
    (hbuilt : ∀ part ∈ ps, Built part) (hplain : ∀ seg ∈ segs, seg.IsPlain) :
    PartsText env s (segs.foldl Segment.add ps)
      (text ++ plainText (expandParameter env s) segs) := by
  induction segs generalizing ps text with
  | nil => simpa using h
  | cons seg segs ih =>
    have hseg : PartsText env s (seg.add ps) (text ++ seg.meaning (expandParameter env s)) := by
      cases seg with
      | char c => exact h.appendLiteral hbuilt c
      | bare p => exact h.append (partsText_singleton (expandPart_plainPart env s p))
      | braced p => exact h.append (partsText_singleton (expandPart_plainPart env s p))
      | operator p op w => exact absurd (hplain _ List.mem_cons_self) id
    have hall := ih hseg (built_add hbuilt) fun seg hmem => hplain seg (List.mem_cons_of_mem _ hmem)
    rwa [List.append_assoc] at hall

/-- A word whose parts are all quoted expands to one field. -/
theorem expandWord_built {tok : Token} {texts : List String} {t : Shell δ W} (hword : IsWord tok ps)
    (hbuilt : ∀ part ∈ ps, Built part) (hrun : (expandParts env ps).run s = .ok (texts, t)) :
    (execFrameExpanderExpandWord env tok).run s = .ok (some [String.join texts], t) := by
  have hsplit : ps.any isSplit = false := by
    rw [List.any_eq_false]
    intro part hpart
    simp [isSplit, isQuoted, (hbuilt part hpart).quoted]
  have hpathname : tok.needsPathnameExpansion = false := by
    rw [hword.needsPathnameExpansion]
    simp only [Token.recomputeExpansionFlags, if_true, List.any_eq_false]
    intro part hpart
    simp [(hbuilt part hpart).quoted]
  have hfields : wordFields env tok = wordFields env (Expander.wordOf ps) := by
    have hparts : (Expander.wordOf ps).parts = ps := rfl
    rw [wordFields, wordFields, Token.getAllText, Token.getAllText, hword.parts, hparts,
      hword.needsExpansion, hword.needsFieldSplitting, hword.needsPathnameExpansion]
    rfl
  rw [execFrameExpanderExpandWord, if_neg (not_not.mpr hword.type), hfields, hpathname]
  change (wordFields env (Expander.wordOf ps) >>= _).run s = _
  rw [Stateful.run_bind_ok (wordFields_of_not_isSplit env hsplit hrun)]
  rfl

/-! ## The two scanners -/

/-- A text that is one word between double quotes expands to what its parts expand to. -/
theorem expandsQuoted_iff {lx : Lexer} {tok : Token} {body text : List Char}
    (h : Tokenizes (lexerCreateWithInput (quotedText body)) (.ok, lx, [tok])) (hword : IsWord tok ps)
    (hbuilt : ∀ part ∈ ps, Built part) :
    ExpandsQuoted env s body text ↔ ∃ texts t, (expandParts env ps).run s = .ok (texts, t) ∧
      (String.join texts).toList = text := by
  constructor
  · rintro ⟨lx', tok', t, htokenizes, hexpand⟩
    cases tokenizes_unique h htokenizes
    obtain ⟨texts, u, hrun, -⟩ := expandParts_run env ps s
    obtain ⟨hfields, -⟩ :=
      Prod.mk.inj (Except.ok.inj ((expandWord_built hword hbuilt hrun).symm.trans hexpand))
    have heq : String.join texts = String.ofList text :=
      (List.cons.inj (Option.some.inj hfields)).1
    exact ⟨texts, u, hrun, by rw [heq, String.toList_ofList]⟩
  · rintro ⟨texts, t, hrun, rfl⟩
    refine ⟨lx, tok, t, h, ?_⟩
    rw [expandWord_built hword hbuilt hrun, String.ofList_toList]

theorem expandHeredoc_eq (env : Env δ W) (s : Shell δ W) (body : List Char) :
    expandHeredoc env s body false = scanned (expandParameter env s) body := rfl

theorem endsName_nil : EndsName [] := nofun

/-- What both scanners read alike expands to the same text. -/
theorem ReadAlike.agrees (h : ReadAlike segs) (hstand : Stand [] segs) :
    Agrees env s (segmentsText segs) := by
  obtain ⟨lx, tok, htokenizes, hword⟩ := tokenizes_body hstand h.readable
  obtain ⟨text, hscan, heq, -⟩ := scanned_segments (expandParameter env s) hstand h.plain endsName_nil
  have hnone : PartsText env s [] [] := ⟨[], rfl, rfl⟩
  obtain ⟨texts, hrun, htext⟩ := partsText_segments hnone built_nil h.plain
  rw [Agrees, expandsQuoted_iff htokenizes hword (built_segments segs built_nil), expandHeredoc_eq]
  refine ⟨texts, s, hrun, ?_⟩
  rw [List.append_nil] at hscan
  rw [htext, hscan, heq h.delimited]
  exact (List.append_nil _).symm

/-! ## Where they differ -/

/-- A name that is a number as a whole has nothing but digits behind its first character. -/
theorem isDigit_of_strtol {first : Char} {cs : List Char} (hspace : isspace first = false)
    (h : (strtol (first :: cs)).2 = []) : ∀ d ∈ cs, d.isDigit = true := by
  have hall {l : List Char} (h : l.drop (l.takeWhile Char.isDigit).length = []) :
      ∀ d ∈ l, d.isDigit = true := by
    rw [List.drop_eq_nil_iff] at h
    have heq := (List.takeWhile_prefix Char.isDigit).eq_of_length_le h
    exact List.takeWhile_eq_self_iff.mp heq
  rw [strtol, List.dropWhile_cons_of_neg (by simp [hspace])] at h
  split at h
  next negative digits hmatch =>
    dsimp only at h
    by_cases hnumber : digits.takeWhile Char.isDigit = []
    · rw [if_pos hnumber] at h
      cases h
    · rw [if_neg hnumber] at h
      dsimp only at h
      split at hmatch
      · next heq =>
        cases hmatch
        cases heq
        exact hall h
      · next heq =>
        cases hmatch
        cases heq
        exact hall h
      · cases hmatch
        exact fun d hd => hall h d (List.mem_cons_of_mem _ hd)

/-- The system without an environment but for one variable. -/
def withVariable (δ W : Type) (name value : String) : Env δ W :=
  { Env.plain δ W with getenv := fun n => if n = name then some value else none }

/-- The value of a name that is neither a number nor a variable comes from the environment. -/
theorem expandParameter_withVariable (world : W) {first second : Char} {others : List Char}
    (hspace : isspace first = false) (hdigit : ¬ ∀ d ∈ second :: others, d.isDigit = true)
    (value : String) :
    expandParameter (withVariable δ W (String.ofList (first :: second :: others)) value)
      (bareShell δ world) (first :: second :: others) = value.toList := by
  have hrest : (strtol (first :: second :: others)).2 ≠ [] := fun h =>
    hdigit (isDigit_of_strtol hspace h)
  have hnumber : positionalParam? (bareShell δ world)
      (String.ofList (first :: second :: others)) = none := by
    rw [positionalParam?, String.toList_ofList]
    split
    · next heq =>
      rw [heq] at hrest
      exact absurd rfl hrest
    · rfl
  have hspecial : expandSpecialParam (bareShell δ world)
      (String.ofList (first :: second :: others)) = none := by
    rw [expandSpecialParam, String.toList_ofList]
    exact hnumber
  have hvariable : execFrameGetVariable (bareShell δ world)
      (String.ofList (first :: second :: others)) = none := rfl
  rw [expandParameter, getParameterValue, if_neg (by simp), hspecial, hvariable]
  simp [withVariable]

theorem oneCharacterNames_bareShell (world : W) :
    OneCharacterNames (expandParameter (Env.plain δ W) (bareShell δ world)) := by
  intro first second others
  have hvariable : execFrameGetVariable (bareShell δ world)
      (String.ofList (first :: second :: others)) = none := rfl
  have hnumber : (positionalParam? (bareShell δ world)
      (String.ofList (first :: second :: others))).getD "" = "" := by
    have hparams : (bareShell δ world).frame.positionalParams = some ⟨some "", []⟩ := rfl
    unfold positionalParam? positionalParamsGet
    rw [hparams]
    split
    · split_ifs <;> rfl
    · rfl
  have hspecial : expandSpecialParam (bareShell δ world)
      (String.ofList (first :: second :: others)) =
        positionalParam? (bareShell δ world) (String.ofList (first :: second :: others)) := by
    rw [expandSpecialParam, String.toList_ofList]
  rw [expandParameter, getParameterValue, if_neg (by simp), hspecial, hvariable]
  change ((Option.or (Option.or _ none) none).getD "").toList = []
  rw [Option.or_none, Option.or_none, hnumber]
  rfl

/-- Parameters do not depend on variables of the environment with other names. -/
theorem expandParts_congr {env' : Env δ W}
    (hget : ∀ p : Parameter, env.getenv (String.ofList p.text) = env'.getenv (String.ofList p.text))
    (hremove : env.removePattern = env'.removePattern) (hbuilt : ∀ part ∈ ps, Built part) :
    expandParts env ps = expandParts env' ps := by
  induction ps with
  | nil => rfl
  | cons part ps ih =>
    have hpart : expandPart env part = expandPart env' part := by
      rcases (hbuilt part List.mem_cons_self).content with ⟨htype, -⟩ | ⟨htype, hkind, p, hname⟩
      · rw [expandPart, expandPart, htype]
      · have hvalue (s : Shell δ W) : getParameterValue env s (String.ofList p.text) =
            getParameterValue env' s (String.ofList p.text) := by
          rw [getParameterValue, getParameterValue, hget]
        rw [expandPart, expandPart, htype]
        dsimp only
        rw [expandParameterWithModifier, expandParameterWithModifier, hname]
        simp only [Option.getD_some, hvalue, hremove]
        cases hparamKind : part.paramKind <;> first | rfl | exact absurd hparamKind hkind
    rw [expandParts, expandParts, hpart,
      ih fun part hmem => hbuilt part (List.mem_cons_of_mem _ hmem)]

theorem parameter_first (p : Parameter) :
    ∃ first others, p.text = first :: others ∧ isspace first = false := by
  obtain ⟨first, others, htext⟩ := p.text_eq_cons
  refine ⟨first, others, htext, ?_⟩
  have hstarts := p.head_starts htext
  by_contra hspace
  rw [Bool.not_eq_false, isspace, Bool.or_eq_true] at hspace
  rcases hspace with hblank | hcontrol
  · rw [decide_eq_true_eq] at hblank
    subst hblank
    exact absurd hstarts (by decide)
  · simp only [Bool.and_eq_true, decide_eq_true_eq] at hcontrol
    have hchar : first = Char.ofNat first.toNat := (Char.ofNat_toNat first).symm
    rcases (by omega : first.toNat = 9 ∨ first.toNat = 10 ∨ first.toNat = 11 ∨ first.toNat = 12 ∨
      first.toNat = 13) with h | h | h | h | h <;>
      (rw [h] at hchar; subst hchar; exact absurd hstarts (by decide))

/-- What a here-document takes for the name of an expansion with an operator. -/
theorem exists_operatorName (p : Parameter) (op : Operator) {w : List Char}
    (hcloses : Closes (.operator p op w)) (more : List Char) :
    ∃ name after, (∀ value, scanned value (expansionText p op w ++ more) =
        value name ++ scanned value after) ∧
      (∀ q : Parameter, q.text ≠ name) ∧ ∃ first second others, name = first :: second :: others ∧
        isspace first = false ∧ ¬ ∀ d ∈ second :: others, d.isDigit = true := by
  obtain ⟨first, digits, htext, hspace⟩ := parameter_first p
  obtain ⟨c, cs, hop, hends⟩ := op.text_head
  obtain ⟨⟨x, after⟩, hclose⟩ := Option.isSome_iff_exists.mp hcloses
  have hword := closingBrace_append hclose more
  have hbraces : ∀ d ∈ p.text ++ op.text, d ≠ lbrace ∧ d ≠ rbrace := by
    intro d hd
    rcases List.mem_append.mp hd with hd | hd
    · exact parameter_noBraces p d hd
    · have hall : (op.text.all fun d => d ≠ lbrace ∧ d ≠ rbrace) = true := by
        cases op with
        | modifier colon op => cases colon <;> cases op <;> decide
        | pattern op => cases op <;> decide
      simpa using List.all_eq_true.mp hall d hd
  have hname := closingBrace_of_noBraces hbraces (w ++ [rbrace] ++ more)
  rw [hword, Option.map_some] at hname
  refine ⟨p.text ++ op.text ++ x, after ++ more, fun value => ?_, ?_, ?_⟩
  · rw [← scanned_brace hname]
    simp [expansionText]
  · -- The operator is in the name, and in no other parameter of several characters.
    intro q hq
    have hmem : c ∈ q.text := by simp [hq, hop]
    have hlen : 2 ≤ q.text.length := by
      rw [hq, htext, hop]
      simp
      omega
    cases q with
    | name start others hstart valid =>
      have hchar : isNameChar c = true := by
        rcases List.mem_cons.mp hmem with rfl | hmem
        · exact isNameChar_of_start hstart
        · exact valid c hmem
      rw [hends.1] at hchar
      cases hchar
    | positional start others valid positive =>
      have hchar : isNameChar c = true := by simp [isNameChar, Char.isAlphanum, valid c hmem]
      rw [hends.1] at hchar
      cases hchar
    | special d valid => simp [Parameter.text] at hlen
  · have hdigit : c.isDigit = false := by
      have hchar := hends.1
      simp only [isNameChar, Char.isAlphanum, Bool.or_eq_false_iff] at hchar
      exact hchar.1.2
    obtain ⟨second, others, hothers⟩ : ∃ second others, digits ++ (op.text ++ x) =
        second :: others := List.exists_cons_of_ne_nil (by simp [hop])
    refine ⟨first, second, others, by rw [← hothers, htext]; simp, hspace, fun hall => ?_⟩
    have hc := hall c (by rw [← hothers, hop]; simp)
    rw [hdigit] at hc
    cases hc

/-- A segment with an operator is preceded by plain ones. -/
theorem exists_operator (h : ¬ ∀ seg ∈ segs, seg.IsPlain) :
    ∃ before p op w after, segs = before ++ .operator p op w :: after ∧
      ∀ seg ∈ before, seg.IsPlain := by
  induction segs with
  | nil => exact absurd (fun _ hmem => absurd hmem List.not_mem_nil) h
  | cons seg segs ih =>
    have hnext (hseg : seg.IsPlain) : ∃ before p op w after,
        seg :: segs = before ++ .operator p op w :: after ∧ ∀ seg ∈ before, seg.IsPlain := by
      obtain ⟨before, p, op, w, after, rfl, hbefore⟩ := ih fun hall =>
        h (List.forall_mem_cons.mpr ⟨hseg, hall⟩)
      exact ⟨seg :: before, p, op, w, after, rfl, List.forall_mem_cons.mpr ⟨hseg, hbefore⟩⟩
    cases seg with
    | operator p op w => exact ⟨[], p, op, w, segs, rfl, nofun⟩
    | char | bare | braced => exact hnext trivial

/-- A variable of the environment with the name that the here-document sees tells the two texts
apart. -/
theorem plain_of_agrees (world : W) (hstand : Stand [] segs) (hread : ∀ seg ∈ segs, seg.Readable)
    (hcloses : ∀ seg ∈ segs, Closes seg)
    (hall : ∀ (env : Env δ W) (s : Shell δ W), Agrees env s (segmentsText segs)) :
    ∀ seg ∈ segs, seg.IsPlain := by
  by_contra hplain
  obtain ⟨lx, tok, htokenizes, hword⟩ := tokenizes_body hstand hread
  have hbuilt := built_segments segs built_nil
  obtain ⟨texts, t, hrun, -⟩ := expandParts_run (Env.plain δ W) (segs.foldl Segment.add [])
    (bareShell δ world)
  obtain ⟨before, p, op, w, after, rfl, hbefore⟩ := exists_operator hplain
  obtain ⟨name, rest, hscan, hother, first, second, others, hname, hspace, hdigit⟩ :=
    exists_operatorName p op (w := w) (hcloses _ (by simp)) (segmentsText after)
  -- The value is longer than what the word expands to.
  let long := String.ofList (List.replicate ((String.join texts).toList.length + 1) 'a')
  let env := withVariable δ W (String.ofList name) long
  have hget (q : Parameter) :
      env.getenv (String.ofList q.text) = (Env.plain δ W).getenv (String.ofList q.text) :=
    if_neg fun h => hother q (by simpa using congrArg String.toList h)
  have hsame := expandParts_congr hget rfl hbuilt
  obtain ⟨texts', t', hrun', htext⟩ :=
    (expandsQuoted_iff htokenizes hword hbuilt).mp (hall env (bareShell δ world))
  rw [hsame] at hrun'
  cases hrun.symm.trans hrun'
  have hends : EndsName (segmentsText (.operator p op w :: after) ++ []) := by
    intro c hc
    cases hc
    decide
  obtain ⟨text, hfirst, -⟩ := scanned_segments (expandParameter env (bareShell δ world))
    (stand_append.mp hstand).1 hbefore hends
  have hvalue : expandParameter env (bareShell δ world) name = long.toList := by
    subst hname
    exact expandParameter_withVariable world hspace hdigit long
  have hlong := congrArg List.length htext
  simp only [List.append_nil] at hfirst
  rw [expandHeredoc_eq, segmentsText_append, hfirst, segmentsText_cons, Segment.text, hscan,
    hvalue] at hlong
  simp only [long, String.toList_ofList, List.length_append, List.length_replicate] at hlong
  omega

/-- A here-document with a text and a word in double quotes with it always expand to the same if
and only if the text has no operator, no number of several digits between braces and no number
behind a dollar sign that a character of a name follows. -/
theorem agrees_iff (world : W) (hstand : Stand [] segs) (hcloses : ∀ seg ∈ segs, Closes seg) :
    (∀ (env : Env δ W) (s : Shell δ W), Agrees env s (segmentsText segs)) ↔ ReadAlike segs := by
  refine ⟨fun hall => ?_, fun h env s => h.agrees hstand⟩
  have hbare := hall (Env.plain δ W) (bareShell δ world)
  have hread : ∀ seg ∈ segs, seg.Readable := by
    by_contra hread
    obtain ⟨lx, herror⟩ := tokenizes_unreadable hstand hread
    obtain ⟨lx', tok, t, htokenizes, -⟩ := hbare
    cases tokenizes_unique herror htokenizes
  have hplain := plain_of_agrees world hstand hread hcloses hall
  refine ⟨hread, hplain, ?_⟩
  obtain ⟨lx, tok, htokenizes, hword⟩ := tokenizes_body hstand hread
  obtain ⟨texts, t, hrun, htext⟩ :=
    (expandsQuoted_iff htokenizes hword (built_segments segs built_nil)).mp hbare
  have hnone : PartsText (Env.plain δ W) (bareShell δ world) [] [] := ⟨[], rfl, rfl⟩
  obtain ⟨texts', hrun', htext'⟩ := partsText_segments hnone built_nil hplain
  cases hrun.symm.trans hrun'
  obtain ⟨text, hscan, -, hshort⟩ := scanned_segments
    (expandParameter (Env.plain δ W) (bareShell δ world)) hstand hplain endsName_nil
  have hnil : scanned (expandParameter (Env.plain δ W) (bareShell δ world)) [] = [] := rfl
  rw [List.append_nil, hnil, List.append_nil] at hscan
  refine (hshort (oneCharacterNames_bareShell world)).2 ?_
  rw [← hscan, ← expandHeredoc_eq, ← htext, htext', List.nil_append]

/-- The text `a $x`. -/
theorem agrees_name :
    (∀ (env : Env Unit Unit) (s : Shell Unit Unit),
      Agrees env s (segmentsText [.char 'a', .char ' ', .bare xParameter])) ↔
    ReadAlike [.char 'a', .char ' ', .bare xParameter] := by
  refine agrees_iff () ?_ ?_
  · refine ⟨⟨by decide, .inl (by decide)⟩, ⟨by decide, .inl (by decide)⟩, ⟨trivial, ?_⟩, trivial⟩
    exact endsName_nil
  · intro seg hmem
    simp only [List.mem_cons, List.not_mem_nil, or_false] at hmem
    rcases hmem with rfl | rfl | rfl <;> trivial

/-- The text `${x:-w}`. -/
def defaultSegment : Segment := .operator xParameter (.modifier true .useDefault) ['w']

/-- The word that the lexer makes of it between double quotes. -/
def defaultWord : Token where
  type := .word
  firstLine := 1
  firstColumn := 2
  parts := [{ type := .parameter, paramKind := .useDefault, hasColon := true, paramName := some "x",
              word := some "w", wasDoubleQuoted := true }]
  needsExpansion := true
  wasQuoted := true

/-- `"${x:-w}"` is `w` where `x` is not set, and `${x:-w}` in a here-document is nothing. -/
theorem heredoc_without_operator : ∃ segs, Stand [] segs ∧ (∀ seg ∈ segs, Closes seg) ∧
    ¬ Agrees (Env.plain Unit Unit) (Shell.initial ()) (segmentsText segs) := by
  refine ⟨[defaultSegment], ⟨⟨by decide, nofun, ?_⟩, trivial⟩, ?_, ?_⟩
  · exact .atom (a := ['w']) (.inl ⟨'w', rfl, rfl⟩) .nil
  · exact List.forall_mem_singleton.mpr rfl
  · rintro ⟨lx', tok, t, htokenizes, hexpand⟩
    obtain ⟨lx, hlex⟩ : ∃ lx, lexerTokenize 5 (lexerCreateWithInput
        (quotedText (segmentsText [defaultSegment]))) = .ok (.ok, lx, [defaultWord]) := ⟨_, rfl⟩
    cases tokenizes_unique ⟨5, hlex⟩ htokenizes
    have hword : (execFrameExpanderExpandWord (Env.plain Unit Unit) defaultWord).run
        (Shell.initial ()) = .ok (some ["w"], Shell.initial ()) := rfl
    have hdocument : expandHeredoc (Env.plain Unit Unit) (Shell.initial ())
        (segmentsText [defaultSegment]) false = [] := by decide
    rw [hdocument] at hexpand
    have hfields := (Prod.mk.inj (Except.ok.inj (hword.symm.trans hexpand))).1
    exact absurd hfields (by decide)

end Migash.Expander
