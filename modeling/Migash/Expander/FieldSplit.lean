import Mathlib.Data.List.TakeWhile
import Migash.Library.While

/-! # Field splitting

`expand_field_split`, and the splitting that POSIX describes. Both are read as
machines over the role that each character has in `IFS`: white space, a hard
delimiter, or no delimiter at all.
-/

namespace Migash.Expander

open Library

/-! ## The loops of the source -/

/-- `is_ifs_whitespace`. -/
def isIfsWhitespace (c : Char) : Bool := c = ' ' || c = '\t' || c = '\n'

/-- `ifs_ws`. -/
def ifsWs (ifs : List Char) : List Char := ifs.filter isIfsWhitespace

/-- `ifs_nws`. -/
def ifsNws (ifs : List Char) : List Char := ifs.filter fun c => !isIfsWhitespace c

section Loops

variable (ifs : List Char)

/-- The inner loop over hard delimiters: the empty fields it pushes, the text after it and
`in_delimiter`. -/
def hardDelimiters : List Char → List (List Char) × List Char × Bool
  | [] => ([], [], true)
  | c :: rest =>
    if (ifsNws ifs).contains c then
      match rest with
      | [] => ([[]], [], true)
      | d :: _ =>
        if ifs.contains d then
          let (pushed, rest, inDelimiter) := hardDelimiters rest
          ([] :: pushed, rest, inDelimiter)
        else ([], rest, false)
    else ([], c :: rest, true)

/-- One turn of the loop over the delimiter sequence. Where only white space is left, the source
goes to its cleanup: nothing remains to be read. -/
def delimiterTurn (s : List (List Char) × List Char) :
    Except Fault (Next (List (List Char) × List Char) (List (List Char) × List Char)) :=
  let (fields, text) := s
  if text = [] then return .done (fields, [])
  else
    let text := text.dropWhile (ifsWs ifs).contains
    if text = [] then return .done (fields, [])
    else
      let (pushed, text, inDelimiter) := hardDelimiters ifs text
      let startsField := text.head?.any fun c => !ifs.contains c
      if inDelimiter && !startsField then return .again (fields ++ pushed, text)
      else return .done (fields ++ pushed, text)

/-- One turn of the loop over the fields. -/
def fieldTurn (s : List (List Char) × List Char) :
    Except Fault (Next (List (List Char) × List Char) (List (List Char))) := do
  let (fields, text) := s
  if text = [] then return .done fields
  else
    let field := text.takeWhile fun c => !ifs.contains c
    let text := text.dropWhile fun c => !ifs.contains c
    if text = [] then return .done (fields ++ [field])
    else
      let s ← iterate (delimiterTurn ifs) (text.length + 1) (fields ++ [field], text)
      return .again s

/-- `expand_field_split` with the value of `IFS`. -/
def expandFieldSplit (text : List Char) : Except Fault (List (List Char)) :=
  if text = [] then .ok []
  else if ifs = [] then .ok [text]
  else
    let text := text.dropWhile (ifsWs ifs).contains
    iterate (fieldTurn ifs) (text.length + 1) ([], text)

end Loops

/-! ## Machines -/

/-- What a character does to the text it stands in. -/
inductive Role where
  | white | hard | other
  deriving DecidableEq, Repr

/-- The role that the value of `IFS` gives a character. -/
def role (ifs : List Char) (c : Char) : Role :=
  if ifs.contains c then if isIfsWhitespace c then .white else .hard else .other

section Machines

variable {α : Type} (roleOf : α → Role)

/-- Where the source stands in the text. -/
inductive Phase (α : Type) where
  | begin
  | field (chars : List α)
  | delimiter
  | afterHard

/-- The fields that the source pushes from here on. -/
def fieldsOf : Phase α → List α → List (List α)
  | .begin, [] => []
  | .field chars, [] => [chars]
  | .delimiter, [] => []
  | .afterHard, [] => [[]]
  | .begin, c :: rest =>
    match roleOf c with
    | .white => fieldsOf .begin rest
    | .hard => [] :: fieldsOf .afterHard rest
    | .other => fieldsOf (.field [c]) rest
  | .field chars, c :: rest =>
    match roleOf c with
    | .white => chars :: fieldsOf .delimiter rest
    | .hard => chars :: fieldsOf .afterHard rest
    | .other => fieldsOf (.field (chars ++ [c])) rest
  | .delimiter, c :: rest =>
    match roleOf c with
    | .white => fieldsOf .delimiter rest
    | .hard => fieldsOf .afterHard rest
    | .other => fieldsOf (.field [c]) rest
  | .afterHard, c :: rest =>
    match roleOf c with
    | .white => [] :: fieldsOf .delimiter rest
    | .hard => [] :: fieldsOf .afterHard rest
    | .other => fieldsOf (.field [c]) rest

/-- Where the text stands for POSIX: before a field, in one, or behind one that white space has
ended, where one hard delimiter still belongs to the same separator. -/
inductive Place (α : Type) where
  | start
  | field (chars : List α)
  | afterWhite

/-- The fields that POSIX prescribes. -/
def posixFields : Place α → List α → List (List α)
  | .start, [] => []
  | .field chars, [] => [chars]
  | .afterWhite, [] => []
  | .start, c :: rest =>
    match roleOf c with
    | .white => posixFields .start rest
    | .hard => [] :: posixFields .start rest
    | .other => posixFields (.field [c]) rest
  | .field chars, c :: rest =>
    match roleOf c with
    | .white => chars :: posixFields .afterWhite rest
    | .hard => chars :: posixFields .start rest
    | .other => posixFields (.field (chars ++ [c])) rest
  | .afterWhite, c :: rest =>
    match roleOf c with
    | .white => posixFields .afterWhite rest
    | .hard => posixFields .start rest
    | .other => posixFields (.field [c]) rest

/-- What follows a hard delimiter when no field is pushed for it in vain: a field, or one more hard
delimiter, which white space may stand before. -/
def Continues : List α → Prop
  | [] => False
  | c :: rest =>
    if roleOf c = .white then
      ∃ d ∈ (rest.dropWhile fun c => roleOf c = .white).head?, roleOf d = .hard
    else True

instance : DecidablePred (Continues roleOf) := fun text =>
  match text with
  | [] => isFalse id
  | _ :: _ => by unfold Continues; infer_instance

/-- Every hard delimiter of the text is followed by a field or by one more hard delimiter. -/
def Delimited (text : List α) : Prop :=
  ∀ before c after, text = before ++ c :: after → roleOf c = .hard → Continues roleOf after

variable {roleOf} {c : α} {rest : List α}

theorem delimited_nil : Delimited roleOf [] := by
  intro before c after h
  simp at h

theorem delimited_cons :
    Delimited roleOf (c :: rest) ↔
      (roleOf c = .hard → Continues roleOf rest) ∧ Delimited roleOf rest := by
  constructor
  · intro h
    exact ⟨h [] c rest rfl, fun before d after hrest => h (c :: before) d after (by simp [hrest])⟩
  · rintro ⟨hc, hrest⟩ before d after heq
    cases before with
    | nil =>
      obtain ⟨rfl, rfl⟩ := List.cons.inj heq
      exact hc
    | cons b before => exact hrest before d after (List.cons.inj heq).2

/-- A text without fields is white space. -/
theorem fieldsOf_begin_eq_nil {text : List α} :
    fieldsOf roleOf .begin text = [] ↔ ∀ c ∈ text, roleOf c = .white := by
  have hfield (chars rest : List α) : fieldsOf roleOf (.field chars) rest ≠ [] := by
    induction rest generalizing chars with
    | nil => simp [fieldsOf]
    | cons c rest ih => cases hrole : roleOf c <;> simp [fieldsOf, hrole, ih]
  induction text with
  | nil => simp [fieldsOf]
  | cons c rest ih => cases hrole : roleOf c <;> simp [fieldsOf, hrole, hfield, ih]

/-- What the source has read of the field it is in. -/
def Phase.read : Phase α → List α
  | .field chars => chars
  | _ => []

/-- The fields are what the text has beside its separators. -/
theorem flatten_fieldsOf (phase : Phase α) (text : List α) :
    (fieldsOf roleOf phase text).flatten =
      phase.read ++ text.filter fun c => roleOf c = .other := by
  induction text generalizing phase with
  | nil => cases phase <;> simp [fieldsOf, Phase.read]
  | cons c rest ih =>
    cases phase <;> cases hrole : roleOf c <;> simp [fieldsOf, Phase.read, hrole, ih]

theorem fieldsOf_congr {roleOf' : α → Role} (phase : Phase α) {text : List α}
    (h : ∀ c ∈ text, roleOf c = roleOf' c) :
    fieldsOf roleOf phase text = fieldsOf roleOf' phase text := by
  induction text generalizing phase with
  | nil => cases phase <;> rfl
  | cons c rest ih =>
    have hrest := fun phase => ih phase fun d hd => h d (List.mem_cons_of_mem _ hd)
    have hc := h c List.mem_cons_self
    cases phase <;> simp only [fieldsOf, hc, hrest]

def Phase.map {β : Type} (f : α → β) : Phase α → Phase β
  | .begin => .begin
  | .field chars => .field (chars.map f)
  | .delimiter => .delimiter
  | .afterHard => .afterHard

theorem fieldsOf_map {β : Type} (f : β → α) (phase : Phase β) (text : List β) :
    fieldsOf roleOf (phase.map f) (text.map f) =
      (fieldsOf (fun c => roleOf (f c)) phase text).map (List.map f) := by
  induction text generalizing phase with
  | nil => cases phase <;> simp [fieldsOf, Phase.map]
  | cons c rest ih =>
    have hstart := ih (.field [c])
    have hdelimiter := ih .delimiter
    have hhard := ih .afterHard
    have hbegin := ih .begin
    simp only [Phase.map, List.map_cons, List.map_nil] at hstart hdelimiter hhard hbegin
    cases phase with
    | field chars =>
      have hmore := ih (.field (chars ++ [c]))
      simp only [Phase.map, List.map_append, List.map_cons, List.map_nil] at hmore
      cases hrole : roleOf (f c) <;>
        simp [fieldsOf, Phase.map, hrole, hdelimiter, hhard, hmore]
    | begin =>
      cases hrole : roleOf (f c) <;> simp [fieldsOf, Phase.map, hrole, hbegin, hhard, hstart]
    | delimiter =>
      cases hrole : roleOf (f c) <;> simp [fieldsOf, Phase.map, hrole, hdelimiter, hhard, hstart]
    | afterHard =>
      cases hrole : roleOf (f c) <;> simp [fieldsOf, Phase.map, hrole, hdelimiter, hhard, hstart]

/-- Two answers of which the second is the first, or has more fields. -/
structure AtMost (expected actual : List (List α)) (P : Prop) : Prop where
  length : expected.length ≤ actual.length
  eq_iff : actual = expected ↔ P

theorem AtMost.cons {expected actual : List (List α)} {P : Prop} (h : AtMost expected actual P)
    (field : List α) : AtMost (field :: expected) (field :: actual) P where
  length := by simpa using h.length
  eq_iff := by simpa using h.eq_iff

theorem AtMost.extra {expected actual : List (List α)} {P Q : Prop} (h : AtMost expected actual P)
    (hQ : ¬ Q) (field : List α) : AtMost expected (field :: actual) Q where
  length := h.length.trans (Nat.le_succ _)
  eq_iff := by
    refine iff_of_false (fun heq => ?_) hQ
    have hlt := congrArg List.length heq
    have := h.length
    simp only [List.length_cons] at hlt
    omega

/-- The two machines side by side. Behind a hard delimiter the source pushes a field as soon as it
sees another character of `IFS`, and POSIX only at the next hard delimiter. -/
structure Compares (roleOf : α → Role) (text : List α) : Prop where
  begin : AtMost (posixFields roleOf .start text) (fieldsOf roleOf .begin text)
    (Delimited roleOf text)
  field : ∀ chars, AtMost (posixFields roleOf (.field chars) text)
    (fieldsOf roleOf (.field chars) text) (Delimited roleOf text)
  delimiter : AtMost (posixFields roleOf .afterWhite text) (fieldsOf roleOf .delimiter text)
    (Delimited roleOf text)
  afterHard : AtMost (posixFields roleOf .start text) (fieldsOf roleOf .afterHard text)
    (Continues roleOf text ∧ Delimited roleOf text)
  pushed : AtMost (posixFields roleOf .start text) ([] :: fieldsOf roleOf .delimiter text)
    ((∃ d ∈ (text.dropWhile fun c => roleOf c = .white).head?, roleOf d = .hard) ∧
      Delimited roleOf text)

theorem compares (text : List α) : Compares roleOf text := by
  induction text with
  | nil =>
    have hsame (l : List (List α)) : AtMost l l (Delimited roleOf []) :=
      ⟨le_refl _, by simp [delimited_nil]⟩
    exact {
      begin := hsame _
      field := fun chars => hsame _
      delimiter := hsame _
      afterHard := (hsame []).extra (by simp [Continues]) []
      pushed := (hsame []).extra (by simp) [] }
  | cons c rest ih =>
    cases hrole : roleOf c with
    | white =>
      have hclean : Delimited roleOf (c :: rest) ↔ Delimited roleOf rest := by
        simp [delimited_cons, hrole]
      exact {
        begin := by simpa [posixFields, fieldsOf, hrole, hclean] using ih.begin
        field := fun chars => by
          simpa [posixFields, fieldsOf, hrole, hclean] using ih.delimiter.cons chars
        delimiter := by simpa [posixFields, fieldsOf, hrole, hclean] using ih.delimiter
        afterHard := by simpa [posixFields, fieldsOf, hrole, hclean, Continues] using ih.pushed
        pushed := by simpa [posixFields, fieldsOf, hrole, hclean] using ih.pushed }
    | hard =>
      have hclean : Delimited roleOf (c :: rest) ↔ Continues roleOf rest ∧ Delimited roleOf rest := by
        simp [delimited_cons, hrole]
      exact {
        begin := by simpa [posixFields, fieldsOf, hrole, hclean] using ih.afterHard.cons []
        field := fun chars => by
          simpa [posixFields, fieldsOf, hrole, hclean] using ih.afterHard.cons chars
        delimiter := by simpa [posixFields, fieldsOf, hrole, hclean] using ih.afterHard
        afterHard := by
          simpa [posixFields, fieldsOf, hrole, hclean, Continues] using ih.afterHard.cons []
        pushed := by simpa [posixFields, fieldsOf, hrole, hclean] using ih.afterHard.cons [] }
    | other =>
      have hclean : Delimited roleOf (c :: rest) ↔ Delimited roleOf rest := by
        simp [delimited_cons, hrole]
      exact {
        begin := by simpa [posixFields, fieldsOf, hrole, hclean] using ih.field [c]
        field := fun chars => by
          simpa [posixFields, fieldsOf, hrole, hclean] using ih.field (chars ++ [c])
        delimiter := by simpa [posixFields, fieldsOf, hrole, hclean] using ih.field [c]
        afterHard := by
          simpa [posixFields, fieldsOf, hrole, hclean, Continues] using ih.field [c]
        pushed := by
          simpa [posixFields, fieldsOf, hrole] using (ih.field [c]).extra (by simp) [] }

end Machines

/-! ## The loops run the first machine -/

section Correspondence

variable {ifs : List Char} {text : List Char}

theorem ifsWs_contains (c : Char) : (ifsWs ifs).contains c = true ↔ role ifs c = .white := by
  by_cases hmem : c ∈ ifs <;> cases hwhite : isIfsWhitespace c <;> simp [ifsWs, role, hmem, hwhite]

theorem ifsNws_contains (c : Char) : (ifsNws ifs).contains c = true ↔ role ifs c = .hard := by
  by_cases hmem : c ∈ ifs <;> cases hwhite : isIfsWhitespace c <;> simp [ifsNws, role, hmem, hwhite]

theorem role_eq_other {c : Char} : role ifs c = .other ↔ c ∉ ifs := by
  by_cases hmem : c ∈ ifs <;> cases hwhite : isIfsWhitespace c <;> simp [role, hmem, hwhite]

/-- A field ends where the machine leaves it. -/
theorem fieldsOf_field (ifs text chars : List Char) :
    fieldsOf (role ifs) (.field chars) text =
      (chars ++ text.takeWhile fun c => !ifs.contains c) ::
        fieldsOf (role ifs) .delimiter (text.dropWhile fun c => !ifs.contains c) := by
  induction text generalizing chars with
  | nil => simp [fieldsOf]
  | cons c rest ih =>
    by_cases hc : c ∈ ifs
    · have hne : role ifs c ≠ .other := fun h => role_eq_other.mp h hc
      cases hrole : role ifs c with
      | other => exact absurd hrole hne
      | white => simp [fieldsOf, hrole, hc]
      | hard => simp [fieldsOf, hrole, hc]
    · simp only [fieldsOf, role_eq_other.mpr hc]
      rw [ih]
      simp [hc]

/-- White space before a delimiter or a field changes nothing. -/
theorem fieldsOf_delimiter_dropWhile (ifs text : List Char) :
    fieldsOf (role ifs) .delimiter (text.dropWhile (ifsWs ifs).contains) =
      fieldsOf (role ifs) .delimiter text := by
  induction text with
  | nil => rfl
  | cons c rest ih =>
    rw [List.dropWhile_cons]
    split
    · rename_i hc
      rw [ih]
      simp [fieldsOf, (ifsWs_contains c).mp hc]
    · rfl

theorem fieldsOf_begin_dropWhile :
    fieldsOf (role ifs) .begin (text.dropWhile (ifsWs ifs).contains) =
      fieldsOf (role ifs) .begin text := by
  induction text with
  | nil => rfl
  | cons c rest ih =>
    rw [List.dropWhile_cons]
    split
    · rename_i hc
      rw [ih]
      simp [fieldsOf, (ifsWs_contains c).mp hc]
    · rfl

/-- What is still to be pushed where the source is about to read a field. -/
def remaining (ifs text : List Char) : List (List Char) :=
  if text = [] then [] else fieldsOf (role ifs) (.field []) text

theorem fieldsOf_delimiter_of_not_mem (h : ∀ c ∈ text.head?, c ∉ ifs) :
    fieldsOf (role ifs) .delimiter text = remaining ifs text := by
  cases text with
  | nil => rfl
  | cons c rest => simp [fieldsOf, remaining, role_eq_other.mpr (h c rfl)]

theorem hardDelimiters_of_ne (text : List Char) {c : Char} (hc : role ifs c ≠ .hard) :
    hardDelimiters ifs (c :: text) = ([], c :: text, true) := by
  have hno : (ifsNws ifs).contains c = false := by
    rwa [← Bool.not_eq_true, ifsNws_contains]
  cases text <;> rw [hardDelimiters, hno] <;> rfl

/-- Hard delimiters are consumed until white space, a field or the end of the text. -/
theorem hardDelimiters_eq (text : List Char) {c : Char} (hc : role ifs c = .hard) :
    ∃ pushed rest inDelimiter, hardDelimiters ifs (c :: text) = (pushed, rest, inDelimiter) ∧
      fieldsOf (role ifs) .afterHard text = pushed ++ fieldsOf (role ifs) .delimiter rest ∧
      rest.length ≤ text.length ∧ (inDelimiter = false → ∀ d ∈ rest.head?, d ∉ ifs) := by
  have hhard := (ifsNws_contains c).mpr hc
  induction text generalizing c with
  | nil =>
    refine ⟨[[]], [], true, ?_, by simp [fieldsOf], le_refl _, by simp⟩
    rw [hardDelimiters, if_pos hhard]
  | cons d rest ih =>
    rw [hardDelimiters, if_pos hhard]
    by_cases hmem : d ∈ ifs
    · rw [if_pos (List.contains_iff_mem.mpr hmem)]
      cases hrole : role ifs d with
      | other => exact absurd hmem (role_eq_other.mp hrole)
      | white =>
        refine ⟨[[]], d :: rest, true, ?_, by simp [fieldsOf, hrole], le_refl _, by simp⟩
        rw [hardDelimiters_of_ne _ (by rw [hrole]; decide)]
      | hard =>
        obtain ⟨pushed, rest', inDelimiter, heq, hfields, hlen, hend⟩ :=
          ih hrole ((ifsNws_contains d).mpr hrole)
        refine ⟨[] :: pushed, rest', inDelimiter, by rw [heq], ?_, ?_, hend⟩
        · simp [fieldsOf, hrole, hfields]
        · exact hlen.trans (Nat.le_succ _)
    · have hrole := role_eq_other.mpr hmem
      rw [if_neg (mt List.contains_iff_mem.mp hmem)]
      exact ⟨[], d :: rest, false, rfl, by simp [fieldsOf, hrole], le_refl _, by simpa using hmem⟩

/-- The loop over a delimiter sequence ends before a field or at the end of the text. -/
theorem delimiterLoop_eq (ifs : List Char) {n : ℕ} (fields : List (List Char)) (hn : text.length < n) :
    ∃ pushed rest, iterate (delimiterTurn ifs) n (fields, text) = .ok (fields ++ pushed, rest) ∧
      fieldsOf (role ifs) .delimiter text = pushed ++ remaining ifs rest ∧
      rest.length ≤ text.length ∧ ((∃ c ∈ text.head?, c ∈ ifs) → rest.length < text.length) := by
  induction n generalizing fields text with
  | zero => exact absurd hn (Nat.not_lt_zero _)
  | succ n ih =>
    by_cases hnil : text = []
    · subst hnil
      refine ⟨[], [], ?_, by simp [fieldsOf, remaining], le_refl _, by simp⟩
      rw [iterate_done (a := (fields, []))]
      · simp
      · simp [delimiterTurn, pure, Except.pure]
    have hdrop := fieldsOf_delimiter_dropWhile ifs text
    have hsuffix := List.dropWhile_suffix (l := text) (ifsWs ifs).contains
    cases hskip : text.dropWhile (ifsWs ifs).contains with
    | nil =>
      refine ⟨[], [], ?_, ?_, Nat.zero_le _, fun _ => List.length_pos_iff.mpr hnil⟩
      · rw [iterate_done (a := (fields, []))]
        · simp
        · simp only [delimiterTurn, hnil, hskip, if_true, if_false]
          rfl
      · rw [← hdrop, hskip]
        simp [fieldsOf, remaining]
    | cons c rest =>
      rw [hskip] at hdrop hsuffix
      have hlen := hsuffix.length_le
      have hwhite : role ifs c ≠ .white := by
        have := List.head?_dropWhile_not (ifsWs ifs).contains text
        rw [hskip] at this
        simpa [← ifsWs_contains] using this
      cases hrole : role ifs c with
      | white => exact absurd hrole hwhite
      | other =>
        have hmem := role_eq_other.mp hrole
        have hne : role ifs c ≠ .hard := by rw [hrole]; decide
        have hhard := hardDelimiters_of_ne rest hne
        refine ⟨[], c :: rest, ?_, ?_, hlen, ?_⟩
        · rw [iterate_done (a := (fields ++ [], c :: rest))]
          simp [delimiterTurn, hnil, hskip, hhard, hmem, pure, Except.pure]
        · rw [← hdrop]
          exact fieldsOf_delimiter_of_not_mem (by simpa using hmem)
        · rintro ⟨d, hd, hdmem⟩
          refine lt_of_le_of_ne hlen fun heq => ?_
          rw [← hsuffix.eq_of_length heq] at hd
          cases hd
          exact hmem hdmem
      | hard =>
        obtain ⟨pushed, rest', inDelimiter, heq, hfields, hle, hend⟩ :=
          hardDelimiters_eq rest hrole
        have hshort : rest'.length < text.length := by
          simp only [List.length_cons] at hlen
          omega
        have htext : fieldsOf (role ifs) .delimiter text =
            pushed ++ fieldsOf (role ifs) .delimiter rest' := by
          rw [← hdrop, ← hfields]
          simp [fieldsOf, hrole]
        cases hagain : inDelimiter && !rest'.head?.any fun c => !ifs.contains c with
        | false =>
          refine ⟨pushed, rest', ?_, ?_, hshort.le, fun _ => hshort⟩
          · rw [iterate_done (a := (fields ++ pushed, rest'))]
            simp only [delimiterTurn, hnil, hskip, heq, hagain, if_false, Bool.false_eq_true]
            rfl
          · rw [htext, fieldsOf_delimiter_of_not_mem]
            cases inDelimiter with
            | false => exact hend rfl
            | true =>
              intro d hd
              rw [Option.mem_def] at hd
              simpa [hd] using hagain
        | true =>
          have hless : rest'.length < n := by omega
          obtain ⟨pushed', rest'', hrun, hfields', hle', -⟩ := ih (fields ++ pushed) hless
          refine ⟨pushed ++ pushed', rest'', ?_, ?_, by omega, fun _ => by omega⟩
          · rw [iterate_again (t := (fields ++ pushed, rest')), hrun, List.append_assoc]
            simp only [delimiterTurn, hnil, hskip, heq, hagain, if_false, if_true]
            rfl
          · rw [htext, hfields', List.append_assoc]

/-- The loop over the fields pushes what the machine says. -/
theorem fieldLoop_eq {n : ℕ} (fields : List (List Char)) (hn : text.length < n) :
    iterate (fieldTurn ifs) n (fields, text) = .ok (fields ++ remaining ifs text) := by
  induction n generalizing fields text with
  | zero => exact absurd hn (Nat.not_lt_zero _)
  | succ n ih =>
    by_cases hnil : text = []
    · subst hnil
      rw [iterate_done (a := fields)]
      · simp [remaining]
      · simp [fieldTurn, pure, Except.pure]
    have hfield := fieldsOf_field ifs text []
    have hsuffix := List.dropWhile_suffix (l := text) fun c => !ifs.contains c
    obtain ⟨field, hdef⟩ : ∃ field, field = text.takeWhile fun c => !ifs.contains c := ⟨_, rfl⟩
    rw [List.nil_append, ← hdef] at hfield
    cases hrest : text.dropWhile fun c => !ifs.contains c with
    | nil =>
      rw [iterate_done (a := fields ++ [field])]
      · rw [remaining, if_neg hnil, hfield, hrest]
        rfl
      · simp only [fieldTurn, hnil, hrest, ← hdef, if_true, if_false]
        rfl
    | cons c rest =>
      have hmem : c ∈ ifs := by
        have := List.head?_dropWhile_not (fun c => !ifs.contains c) text
        rw [hrest] at this
        simpa using this
      obtain ⟨pushed, rest', hrun, hfields, -, hlt⟩ :=
        delimiterLoop_eq ifs (fields ++ [field]) (Nat.lt_succ_self (c :: rest).length)
      have hshort := hlt ⟨c, rfl, hmem⟩
      have hlen := hsuffix.length_le
      rw [hrest] at hlen
      rw [iterate_again (t := (fields ++ [field] ++ pushed, rest')), ih]
      · rw [remaining.eq_1 ifs text, if_neg hnil, hfield, hrest, hfields]
        simp
      · omega
      · simp only [fieldTurn, hnil, hrest, ← hdef, if_false, reduceCtorEq]
        rw [hrun]
        rfl

/-- Splitting comes to an end, with the fields of the machine. -/
theorem expandFieldSplit_eq :
    expandFieldSplit ifs text = .ok (fieldsOf (role ifs) .begin text) := by
  unfold expandFieldSplit
  by_cases hnil : text = []
  · rw [if_pos hnil, hnil]
    rfl
  rw [if_neg hnil]
  by_cases hifs : ifs = []
  · subst hifs
    cases text with
    | nil => exact absurd rfl hnil
    | cons c rest =>
      rw [if_pos rfl]
      have hall : rest.takeWhile (fun c => !([] : List Char).contains c) = rest :=
        List.takeWhile_eq_self_iff.mpr (by simp)
      have hnone : rest.dropWhile (fun c => !([] : List Char).contains c) = [] :=
        List.dropWhile_eq_nil_iff.mpr (by simp)
      simp only [fieldsOf, role_eq_other.mpr List.not_mem_nil]
      rw [fieldsOf_field, hall, hnone]
      rfl
  · rw [if_neg hifs, fieldLoop_eq _ (Nat.lt_succ_self _), ← fieldsOf_begin_dropWhile]
    cases hskip : text.dropWhile (ifsWs ifs).contains with
    | nil => rfl
    | cons c rest =>
      have hwhite : role ifs c ≠ .white := by
        have := List.head?_dropWhile_not (ifsWs ifs).contains text
        rw [hskip] at this
        simpa [← ifsWs_contains] using this
      cases hrole : role ifs c with
      | white => exact absurd hrole hwhite
      | hard => simp [remaining, fieldsOf, hrole]
      | other => simp [remaining, fieldsOf, hrole]

end Correspondence

/-- The expander splits a text into the fields of POSIX exactly if every hard delimiter of the text
is followed by a field or by one more hard delimiter. -/
theorem expandFieldSplit_posix_iff (ifs text : List Char) :
    expandFieldSplit ifs text = .ok (posixFields (role ifs) .start text) ↔
      Delimited (role ifs) text := by
  rw [expandFieldSplit_eq, Except.ok.injEq]
  exact (compares text).begin.eq_iff

/-- With `:` in `IFS`, the text `a:` ends with an empty field. -/
theorem trailing_delimiter_adds_field :
    expandFieldSplit [' ', ':'] ['a', ':'] = .ok [['a'], []] ∧
      expandFieldSplit [' ', ':'] ['a', ':'] ≠
        .ok (posixFields (role [' ', ':']) .start ['a', ':']) := by
  rw [expandFieldSplit_eq]
  decide

end Migash.Expander
