import Migash.Lexer.PlainWord
import Migash.Lexer.Stable

/-! # The lead of a word

The unquoted characters that a word begins with, up to its first quote, escape
or expansion, and what they leave in the token: the decision about assignments
reads no more than this.
-/

namespace Migash.Lexer

variable {text text' more : List Char} {c : Char} {tok : Token}

/-! ## The text -/

/-- A character that goes unquoted into the word. -/
def isLeadChar (c : Char) : Bool :=
  isWordChar c && !([backslash, backtick, squote, dquote, '$'].contains c)

/-- The unquoted characters that the text of a word begins with. A line that is continued goes
on. -/
def lead : List Char → List Char
  | [] => []
  | c :: cs =>
    if isLeadChar c then c :: lead cs
    else if c = backslash then
      match cs with
      | next :: cs => if next = newline then lead cs else []
      | [] => []
    else []

theorem lead_cons (hc : isLeadChar c = true) : lead (c :: text) = c :: lead text := by
  rw [lead.eq_def]
  exact if_pos hc

theorem lead_stop (hc : isLeadChar c = false) (hback : c ≠ backslash) :
    lead (c :: text) = [] := by
  rw [lead.eq_def]
  simp only [hc, Bool.false_eq_true, if_false, hback]

theorem isLeadChar_backslash : isLeadChar backslash = false := by decide

theorem lead_backslash : lead [backslash] = [] := by decide

theorem lead_continuation : lead (backslash :: newline :: text) = lead text := by
  rw [lead.eq_def]
  simp only [isLeadChar_backslash, Bool.false_eq_true, if_false, if_true]

theorem lead_escape (hc : c ≠ newline) : lead (backslash :: c :: text) = [] := by
  rw [lead.eq_def]
  simp only [isLeadChar_backslash, Bool.false_eq_true, if_false, if_true, hc]

/-- The lead goes on behind the text. -/
def LeadGrows (text : List Char) : Prop := ∀ more, lead (text ++ more) = lead text ++ lead more

/-- The lead is over within the text. -/
def LeadEnds (text : List Char) : Prop := ∀ more, lead (text ++ more) = lead text

theorem leadGrows_nil : LeadGrows [] := fun _ => rfl

theorem LeadGrows.append (h : LeadGrows text) (h' : LeadGrows text') :
    LeadGrows (text ++ text') := by
  intro more
  rw [List.append_assoc, h, h', h, List.append_assoc]

theorem LeadGrows.ends (h : LeadGrows text) (h' : LeadEnds text') : LeadEnds (text ++ text') := by
  intro more
  rw [List.append_assoc, h, h', h]

theorem LeadEnds.append (h : LeadEnds text) (text' : List Char) : LeadEnds (text ++ text') := by
  intro more
  rw [List.append_assoc, h, h]

theorem leadGrows_char (hc : isLeadChar c = true) : LeadGrows [c] := by
  intro more
  rw [List.singleton_append, lead_cons hc, lead_cons hc]
  rfl

theorem leadGrows_continuation : LeadGrows [backslash, newline] := fun _ => lead_continuation

theorem leadEnds_stop (hc : isLeadChar c = false) (hback : c ≠ backslash) :
    LeadEnds (c :: text) := by
  intro more
  rw [List.cons_append, lead_stop hc hback, lead_stop hc hback]

theorem leadEnds_escape (hc : c ≠ newline) : LeadEnds (backslash :: c :: text) := by
  intro more
  rw [List.cons_append, List.cons_append, lead_escape hc, lead_escape hc]

theorem lead_append_left (text more : List Char) : lead text <+: lead (text ++ more) := by
  induction text using lead.induct with
  | case1 => exact List.nil_prefix
  | case2 c cs hc ih =>
    rw [List.cons_append, lead_cons hc, lead_cons hc]
    exact (List.prefix_cons_inj c).mpr ih
  | case3 cs _ ih =>
    rw [List.cons_append, List.cons_append, lead_continuation, lead_continuation]
    exact ih
  | case4 next cs hnext _ =>
    rw [lead_escape hnext]
    exact List.nil_prefix
  | case5 =>
    rw [lead_backslash]
    exact List.nil_prefix
  | case6 c cs hc hback =>
    rw [lead_stop (by simpa using hc) hback]
    exact List.nil_prefix

theorem lead_subset : lead text ⊆ text := by
  induction text using lead.induct with
  | case1 => exact List.Subset.refl _
  | case2 c cs hc ih =>
    rw [lead_cons hc]
    exact List.cons_subset_cons c ih
  | case3 cs _ ih =>
    rw [lead_continuation]
    exact List.subset_cons_of_subset _ (List.subset_cons_of_subset _ ih)
  | case4 next cs hnext _ =>
    rw [lead_escape hnext]
    exact List.nil_subset _
  | case5 =>
    rw [lead_backslash]
    exact List.nil_subset _
  | case6 c cs hc hback =>
    rw [lead_stop (by simpa using hc) hback]
    exact List.nil_subset _

/-- What stands in front of the first equals sign of the lead. -/
def leadName (text : List Char) : List Char := (lead text).takeWhile (· ≠ '=')

theorem takeWhile_equals {name rest : List Char} (h : '=' ∉ name) :
    (name ++ '=' :: rest).takeWhile (· ≠ '=') = name := by
  have hall : ∀ c ∈ name, decide (c ≠ '=') = true :=
    fun c hmem => decide_eq_true fun heq => h (heq ▸ hmem)
  rw [List.takeWhile_append_of_pos hall]
  simp

theorem lead_eq (h : '=' ∈ lead text) : ∃ rest, lead text = leadName text ++ '=' :: rest ∧
    '=' ∉ leadName text := by
  obtain ⟨name, rest, hlead, hname⟩ := List.eq_append_cons_of_mem h
  refine ⟨rest, ?_, ?_⟩
  · rw [leadName, hlead, takeWhile_equals hname]
  · rwa [leadName, hlead, takeWhile_equals hname]

theorem leadName_append (h : '=' ∈ lead text) (more : List Char) :
    leadName (text ++ more) = leadName text := by
  obtain ⟨rest, hrest⟩ := lead_append_left text more
  obtain ⟨value, hlead, hname⟩ := lead_eq h
  rw [leadName, ← hrest, hlead, List.append_assoc, List.cons_append, takeWhile_equals hname]

theorem equals_mem_append (h : '=' ∈ lead text) (more : List Char) :
    '=' ∈ lead (text ++ more) := (lead_append_left text more).subset h

/-! ## The token -/

/-- The first equals sign of the lead is in the first part, behind the name. -/
structure Named (text : List Char) (tok : Token) : Prop where
  equals : '=' ∈ lead text
  flag : tok.hasEqualsBeforeQuote = true
  parts : ∃ value others, tok.parts =
    { type := .literal, text := some (String.ofList (leadName text ++ '=' :: value)) } :: others

/-- No equals sign that is still to come makes the word an assignment: it is behind a quote, or the
first part is over. -/
def Barred (tok : Token) : Prop :=
  tok.wasQuoted = true ∧ tok.hasEqualsBeforeQuote = false ∨
    ∃ first others, tok.parts = first :: others ∧
      (first.type ≠ .literal ∨ others ≠ [] ∧ '=' ∉ (first.text.getD "").toList)

/-- No equals sign was found. -/
structure Plain (tok : Token) : Prop where
  flag : tok.hasEqualsBeforeQuote = false
  first : ∀ first ∈ tok.parts.head?, '=' ∉ (first.text.getD "").toList

/-- Whether the word is an assignment is settled, up to what follows the equals sign. -/
inductive Settled (text : List Char) (tok : Token) : Prop where
  | named (h : Named text tok)
  | barred (hequals : '=' ∉ lead text) (hends : LeadEnds text) (h : Barred tok)

/-- The ways a word changes. -/
inductive Change : (Token → Token) → Prop where
  | character (single double : Bool) (c : Char) : Change fun tok => tok.appendChar single double c
  | quoted : Change fun tok => { tok with wasQuoted := true }
  | equals (c : Char) : Change fun tok =>
      { tok with hasEqualsBeforeQuote := tok.hasEqualsBeforeQuote || c = '=' && !tok.wasQuoted }
  | part (part : Part) : Change fun tok => tok.addPart part

theorem WordChange.change {f : Token → Token} (h : WordChange f) : Change f := by
  cases h with
  | single c => exact .character true false c
  | double c => exact .character false true c
  | quoted => exact .quoted
  | part part _ => exact .part part

/-- A character goes behind the first part, or into it if it is the only one. -/
theorem appendChar_parts {first : Part} {others : List Part} (h : tok.parts = first :: others)
    (single double : Bool) (c : Char) :
    (∃ others', others' ≠ [] ∧ (tok.appendChar single double c).parts = first :: others') ∨
      others = [] ∧ first.type = .literal ∧ (tok.appendChar single double c).parts =
        [{ first with text := first.text.map fun text => text.push c }] := by
  cases others using List.reverseRecOn with
  | nil =>
    simp only [Token.appendChar, h, List.getLast?_singleton]
    split
    · next hlast => exact .inr ⟨trivial, hlast.1, rfl⟩
    · exact .inl ⟨_, List.cons_ne_nil _ _, rfl⟩
  | append_singleton init last =>
    have hlast : (first :: (init ++ [last])).getLast? = some last := by
      rw [← List.cons_append, List.getLast?_concat]
    simp only [Token.appendChar, h, hlast]
    split
    · refine .inl ⟨init ++ [{ last with text := last.text.map fun text => text.push c }],
        List.concat_ne_nil _ _, ?_⟩
      rw [← List.cons_append, List.dropLast_concat, List.cons_append]
    · exact .inl ⟨init ++ [last] ++ [_], List.concat_ne_nil _ _, rfl⟩

theorem appendChar_wasQuoted (single double : Bool) (c : Char) :
    (tok.appendChar single double c).wasQuoted = tok.wasQuoted := by
  unfold Token.appendChar
  dsimp only
  split
  · split <;> rfl
  · rfl

theorem appendChar_flag (single double : Bool) (c : Char) :
    (tok.appendChar single double c).hasEqualsBeforeQuote = tok.hasEqualsBeforeQuote := by
  unfold Token.appendChar
  dsimp only
  split
  · split <;> rfl
  · rfl

theorem Named.change {f : Token → Token} (h : Named text tok) (hf : Change f) :
    Named text (f tok) := by
  obtain ⟨value, others, hparts⟩ := h.parts
  cases hf with
  | character single double c =>
    refine ⟨h.equals, (appendChar_flag _ _ _).trans h.flag, ?_⟩
    rcases appendChar_parts hparts single double c with ⟨others', -, hparts'⟩ | ⟨-, -, hparts'⟩
    · exact ⟨value, others', hparts'⟩
    · refine ⟨value ++ [c], [], hparts'.trans ?_⟩
      rw [Option.map_some, String.push_eq_append, String.singleton_eq_ofList,
        ← String.ofList_append, List.append_assoc, List.cons_append]
  | quoted => exact ⟨h.equals, h.flag, value, others, hparts⟩
  | equals c => exact ⟨h.equals, by simp [h.flag], value, others, hparts⟩
  | part part => exact ⟨h.equals, h.flag, value, others ++ [part], by simp [Token.addPart, hparts]⟩

theorem Barred.change {f : Token → Token} (h : Barred tok) (hf : Change f) : Barred (f tok) := by
  rcases h with ⟨hquoted, hflag⟩ | ⟨first, others, hparts, hfirst⟩
  · refine .inl ?_
    cases hf with
    | character single double c =>
      exact ⟨(appendChar_wasQuoted _ _ _).trans hquoted, (appendChar_flag _ _ _).trans hflag⟩
    | quoted => exact ⟨rfl, hflag⟩
    | equals c => exact ⟨hquoted, by simp [hflag, hquoted]⟩
    | part part => exact ⟨hquoted, hflag⟩
  · refine .inr ?_
    have hmore : ∀ others' : List Part, others' ≠ [] →
        first.type ≠ .literal ∨ others' ≠ [] ∧ '=' ∉ (first.text.getD "").toList :=
      fun others' hne => hfirst.imp id fun hothers => ⟨hne, hothers.2⟩
    cases hf with
    | character single double c =>
      rcases appendChar_parts hparts single double c with ⟨others', hne, hparts'⟩ | ⟨hnil, htype, -⟩
      · exact ⟨first, others', hparts', hmore others' hne⟩
      · exact (hfirst.elim (fun hne => hne htype) fun hothers => hothers.1 hnil).elim
    | quoted => exact ⟨first, others, hparts, hfirst⟩
    | equals c => exact ⟨first, others, hparts, hfirst⟩
    | part part =>
      exact ⟨first, others ++ [part], by simp [Token.addPart, hparts], hmore _ (by simp)⟩

theorem Settled.change {f : Token → Token} (h : Settled text tok) (hf : Change f) :
    Settled text (f tok) := by
  cases h with
  | named h => exact .named (h.change hf)
  | barred hequals hends h => exact .barred hequals hends (h.change hf)

theorem Settled.append (h : Settled text tok) (more : List Char) : Settled (text ++ more) tok := by
  cases h with
  | named h =>
    refine .named ⟨equals_mem_append h.equals more, h.flag, ?_⟩
    rw [leadName_append h.equals]
    exact h.parts
  | barred hequals hends h => exact .barred (by rwa [hends]) (hends.append more) h

/-- An expansion bars the equals signs behind it. -/
theorem Plain.addPart (h : Plain tok) {part : Part} (htype : part.type ≠ .literal) :
    Barred (tok.addPart part) := by
  cases hparts : tok.parts with
  | nil => exact .inr ⟨part, [], by simp [Token.addPart, hparts], .inl htype⟩
  | cons first others =>
    have hfirst := h.first first (by simp [hparts])
    exact .inr ⟨first, others ++ [part], by simp [Token.addPart, hparts],
      .inr ⟨by simp, hfirst⟩⟩

theorem Plain.quoted (h : Plain tok) : Barred { tok with wasQuoted := true } :=
  .inl ⟨rfl, h.flag⟩

theorem Plain.appendChar (h : Plain tok) (hc : c ≠ '=') : Plain (tok.appendChar false false c) := by
  refine ⟨(appendChar_flag _ _ _).trans h.flag, fun first' hfirst' => ?_⟩
  cases hparts : tok.parts with
  | nil =>
    simp only [Token.appendChar, hparts, List.getLast?_nil, List.head?_cons, Option.mem_def,
      Option.some.injEq] at hfirst'
    subst hfirst'
    simpa using hc.symm
  | cons first others =>
    have hfirst := h.first first (by simp [hparts])
    rcases appendChar_parts hparts false false c with ⟨others', -, hparts'⟩ | ⟨-, -, hparts'⟩
    · rw [hparts'] at hfirst'
      cases hfirst'
      exact hfirst
    · rw [hparts'] at hfirst'
      cases hfirst'
      cases htext : first.text with
      | none => simp
      | some text =>
        rw [htext] at hfirst
        simpa [htext, hc.symm] using hfirst

/-- The token of a word that is all lead. -/
def leadToken (text : List Char) : Token := (lead text).foldl Token.addOrdinary { type := .word }

theorem leadToken_eq (h : lead text ≠ []) : leadToken text = Token.ordinary (lead text) := by
  unfold leadToken
  cases hlead : lead text with
  | nil => exact absurd hlead h
  | cons c cs => exact Token.foldl_addOrdinary c cs

theorem leadToken_plain (h : '=' ∉ lead text) : Plain (leadToken text) := by
  unfold leadToken
  cases hlead : lead text with
  | nil => exact ⟨rfl, fun first hfirst => absurd hfirst (Option.not_mem_none first)⟩
  | cons c cs =>
    rw [Token.foldl_addOrdinary, ← hlead]
    refine ⟨by simpa [Token.ordinary] using h, fun first hfirst => ?_⟩
    cases hfirst
    simpa using h

end Migash.Lexer
