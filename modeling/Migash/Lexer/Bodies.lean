import Mathlib.Data.List.TakeWhile
import Migash.Lexer.Reading
import Migash.Library.Gives

/-! # Literal bodies

The loop for a body looks for the delimiter at every character. It ends the body
at the first line that ends with the delimiter.
-/

namespace Migash.Lexer

open Library

variable {lx : Lexer} {entry : HeredocEntry} {line more : List Char}

/-! ## One turn -/

/-- A line of the body as it counts: `<<-` leaves its leading tabs out. -/
def HeredocEntry.strip (entry : HeredocEntry) (line : List Char) : List Char :=
  if entry.stripTabs then line.dropWhile (· = tab) else line

/-- The tabs that are left out. -/
def HeredocEntry.tabs (entry : HeredocEntry) (line : List Char) : List Char :=
  if entry.stripTabs then line.takeWhile (· = tab) else []

theorem HeredocEntry.tabs_append_strip (entry : HeredocEntry) (line : List Char) :
    entry.tabs line ++ entry.strip line = line := by
  unfold HeredocEntry.tabs HeredocEntry.strip
  split
  · exact List.takeWhile_append_dropWhile
  · rfl

theorem HeredocEntry.strip_suffix (entry : HeredocEntry) (line : List Char) :
    entry.strip line <:+ line := by
  unfold HeredocEntry.strip
  split
  · exact List.dropWhile_suffix _
  · exact List.suffix_refl line

theorem HeredocEntry.strip_strip (entry : HeredocEntry) (line : List Char) :
    entry.strip (entry.strip line) = entry.strip line := by
  unfold HeredocEntry.strip
  split
  · refine List.dropWhile_eq_self_iff.mpr fun hl => ?_
    exact List.dropWhile_get_zero_not _ _ hl
  · rfl

/-- The end of a line is no part of its tabs. -/
theorem takeWhile_tabs :
    (line ++ newline :: more).takeWhile (· = tab) = line.takeWhile (· = tab) := by
  rw [List.takeWhile_append]
  split
  · next h =>
    have hall := (List.takeWhile_prefix (· = tab)).eq_of_length h
    have hnewline : (newline :: more).takeWhile (· = tab) = [] :=
      List.takeWhile_cons_of_neg (by decide)
    rw [hnewline, List.append_nil, hall]
  · rfl

/-- A text within a line starts a line exactly if it starts what is before the line's end. -/
theorem prefix_line (line more : List Char) {text : List Char} (htext : newline ∉ text) :
    text <+: line ++ newline :: more ↔ text <+: line := by
  induction line generalizing text with
  | nil =>
    cases text with
    | nil => simp
    | cons c text =>
      rw [List.mem_cons, not_or] at htext
      simp [List.cons_prefix_cons, Ne.symm htext.1]
  | cons d line ih =>
    cases text with
    | nil => simp
    | cons c text =>
      rw [List.mem_cons, not_or] at htext
      rw [List.cons_append, List.cons_prefix_cons, List.cons_prefix_cons, ih htext.2]

/-- The input behind the tabs that are left out. -/
theorem drop_tabs (hrest : lx.rest = line ++ newline :: more) :
    lx.input.drop (lx.pos + (entry.tabs line).length) = entry.strip line ++ newline :: more := by
  have hsplit : line ++ newline :: more = entry.tabs line ++ (entry.strip line ++ newline :: more) := by
    rw [← List.append_assoc, entry.tabs_append_strip]
  rw [← List.drop_drop, ← rest, hrest, hsplit, List.drop_left]

/-- Where the delimiter would end. -/
theorem delimiterEnd?_line (hrest : lx.rest = line ++ newline :: more)
    (hdelim : newline ∉ entry.delimiter) :
    lx.delimiterEnd? entry =
      if entry.delimiter <+: entry.strip line then
        some (lx.pos + (entry.tabs line).length + entry.delimiter.length)
      else none := by
  have hlength := congrArg List.length hrest
  rw [rest_length, List.length_append, List.length_cons] at hlength
  have htabs := (List.takeWhile_prefix (· = tab) (l := line)).length_le
  have hpos : (if entry.stripTabs ∧
      lx.pos + (lx.rest.takeWhile (· = tab)).length < lx.input.length then
        lx.pos + (lx.rest.takeWhile (· = tab)).length else lx.pos) =
      lx.pos + (entry.tabs line).length := by
    rw [hrest, takeWhile_tabs, HeredocEntry.tabs]
    by_cases hstrip : entry.stripTabs = true
    · rw [if_pos ⟨hstrip, by omega⟩, if_pos hstrip]
    · rw [if_neg fun h => hstrip h.1, if_neg hstrip]
      rfl
  have hprefix := prefix_line (entry.strip line) more hdelim
  simp only [delimiterEnd?, hpos, drop_tabs hrest, List.isPrefixOf_iff_prefix, hprefix]

/-- The delimiter is found exactly at a line that is the delimiter. -/
theorem lexerCheckHeredocDelimiter_line (entry : HeredocEntry)
    (hrest : lx.rest = line ++ newline :: more)
    (hline : newline ∉ line) (hdelim : newline ∉ entry.delimiter) :
    lx.lexerCheckHeredocDelimiter entry =
      .ok (if entry.strip line = entry.delimiter then (true, lx.advancedBy (line.length + 1))
        else (false, lx)) := by
  have hlength := congrArg List.length hrest
  rw [rest_length, List.length_append, List.length_cons] at hlength
  have hsplit := congrArg List.length (entry.tabs_append_strip line)
  rw [List.length_append] at hsplit
  rw [lexerCheckHeredocDelimiter, delimiterEnd?_line hrest hdelim]
  by_cases hprefix : entry.delimiter <+: entry.strip line
  · obtain ⟨behind, hbehind⟩ := hprefix
    have hstrip := congrArg List.length hbehind
    rw [List.length_append] at hstrip
    rw [if_pos ⟨behind, hbehind⟩]
    have hdrop : lx.input.drop (lx.pos + (entry.tabs line).length + entry.delimiter.length) =
        behind ++ newline :: more := by
      rw [← List.drop_drop, drop_tabs hrest, ← hbehind, List.append_assoc, List.drop_left]
    have hnext : lx.input.getD (lx.pos + (entry.tabs line).length + entry.delimiter.length) nul =
        (behind ++ newline :: more).headD nul := by
      rw [← hdrop, List.headD_eq_head?_getD, List.head?_drop, List.getD_eq_getElem?_getD]
    have hend : lx.pos + (entry.tabs line).length + entry.delimiter.length ≠ lx.input.length := by
      omega
    dsimp only
    rw [if_neg hend, hnext]
    cases behind with
    | nil =>
      rw [List.append_nil] at hbehind
      have hcount : lx.pos + (entry.tabs line).length + entry.delimiter.length - lx.pos + 1 =
          line.length + 1 := by
        rw [List.length_nil] at hstrip
        omega
      rw [List.nil_append, List.headD_cons, if_pos rfl, if_pos hbehind.symm, hcount,
        lexerAdvanceNChars, if_pos (by omega)]
      rfl
    | cons c behind =>
      have hc : c ≠ newline := by
        rintro rfl
        refine hline ((entry.strip_suffix line).subset ?_)
        rw [← hbehind]
        exact List.mem_append_right _ List.mem_cons_self
      have hne : entry.strip line ≠ entry.delimiter := by
        intro heq
        rw [heq, List.length_cons] at hstrip
        omega
      rw [List.cons_append, List.headD_cons, if_neg hc, if_neg hne]
      rfl
  · have hne : entry.strip line ≠ entry.delimiter := by
      intro heq
      exact hprefix (heq ▸ List.prefix_refl _)
    rw [if_neg hprefix, if_neg hne]
    rfl

/-- In a line, the lexer is not at the end. -/
theorem lexerAtEnd_line (hrest : lx.rest = line ++ newline :: more) : lx.lexerAtEnd = false := by
  cases line with
  | nil => exact lexerAtEnd_of_rest hrest
  | cons c line => exact lexerAtEnd_of_rest hrest

/-! ## The loop -/

/-- What is left of the text and what has been collected, in a loop that was started in `lx`. -/
structure Reads (lx : Lexer) (s : TextScan) (text content : List Char) : Prop where
  context : SameContext lx s.lx
  rest : s.lx.rest = text
  content : s.text = content
  col : 1 ≤ s.lx.colNo

variable {s : TextScan} {content cs : List Char} {c : Char}

/-- Tabs are only skipped at the start of a line. -/
theorem skipTabs_of_rest (hrest : lx.rest = c :: cs)
    (htab : entry.stripTabs = true → lx.colNo = 1 → c ≠ tab) : lx.skipTabs entry = lx := by
  unfold skipTabs
  split
  · next h =>
    have hnone : lx.rest.takeWhile (· = tab) = [] := by
      rw [hrest]
      exact List.takeWhile_cons_of_neg (by simpa using htab h.1 h.2)
    rw [advancedWhile, hnone]
    rfl
  · rfl

/-- At the delimiter the body ends. -/
theorem heredocTurn_delimiter {tok : Token} (h : Reads lx s (line ++ newline :: more) content)
    (htok : lx.currentToken = some tok) (hline : newline ∉ line)
    (hdelim : newline ∉ entry.delimiter) (hskip : s.lx.skipTabs entry = s.lx)
    (heq : entry.strip line = entry.delimiter) :
    ∃ lx', heredocTurn entry s = .ok (.done (.ok, lx')) ∧ lx'.rest = more ∧
      lx'.tokens = lx.tokens ++
        [{ type := .endOfHeredoc, heredocDelimiter := some (String.ofList entry.delimiter)
           heredocContent := (tok.appendContent content).heredocContent
           heredocDelimQuoted := entry.delimiterQuoted
           needsExpansion := !entry.delimiterQuoted }] := by
  have hend := lexerAtEnd_line h.rest
  have hcheck := lexerCheckHeredocDelimiter_line entry h.rest hline hdelim
  rw [if_pos heq] at hcheck
  have hrest : (s.lx.advancedBy (line.length + 1)).rest = more := by
    have hsplit : s.lx.rest = (line ++ [newline]) ++ more := by
      rw [h.rest, List.append_assoc]
      rfl
    have := rest_advancedBy_length hsplit
    rwa [List.length_append, List.length_singleton] at this
  have htoken : (s.lx.advancedBy (line.length + 1)).currentToken = some tok := by
    rw [advancedBy_currentToken, h.context.currentToken, htok]
  refine ⟨finishHeredoc { s.lx.advancedBy (line.length + 1) with
    currentToken := some (tok.appendContent content) } entry, ?_, ?_, ?_⟩
  · rw [heredocTurn, hend, hskip, hcheck]
    simp only [Bool.false_eq_true, if_false, if_true, bind, Except.bind, appendContent, onWord,
      htoken, pure, Except.pure, h.content]
  · unfold finishHeredoc
    dsimp only
    split <;> exact hrest
  · unfold finishHeredoc
    dsimp only
    split <;> simp [append, h.context.tokens, lexerPopMode]

/-- Another character of a literal body is collected. -/
theorem heredocTurn_character (h : Reads lx s (c :: cs) content)
    (hquoted : entry.delimiterQuoted = true) (hskip : s.lx.skipTabs entry = s.lx)
    (hcheck : s.lx.lexerCheckHeredocDelimiter entry = .ok (false, s.lx)) :
    ∃ s', heredocTurn entry s = .ok (.again s') ∧ Reads lx s' cs (content ++ [c]) ∧
      s'.lx.colNo = if c = newline then 1 else s.lx.colNo + 1 := by
  have hend := lexerAtEnd_of_rest h.rest
  have hadvance := lexerAdvance_of_rest h.rest
  have hpeek := lexerPeek_of_rest h.rest
  have hcontext : SameContext lx s.lx.advanced := h.context.trans (sameContext_advancedBy 1 s.lx)
  have hcol := colNo_advanced h.rest
  by_cases hc : c = newline
  · refine ⟨{ lx := s.lx.advanced.countLine, text := s.text ++ [c] }, ?_, ?_, (if_pos hc).symm⟩
    · rw [heredocTurn, hend, hskip, hcheck]
      simp only [Bool.false_eq_true, if_false, bind, Except.bind, readLine, hpeek, hc, if_true,
        hadvance, pure, Except.pure]
    · exact ⟨hcontext.trans ⟨rfl, rfl, rfl, rfl, rfl, rfl, rfl⟩, rest_advanced h.rest,
        by rw [h.content], le_refl 1⟩
  · rw [if_neg hc] at hcol
    refine ⟨{ lx := s.lx.advanced, text := s.text ++ [c] }, ?_, ?_, ?_⟩
    · rw [heredocTurn, hend, hskip, hcheck]
      simp only [Bool.false_eq_true, if_false, bind, Except.bind, readLine, hpeek, hc, hquoted,
        Bool.not_true, false_and, hadvance, pure, Except.pure]
    · exact ⟨hcontext, rest_advanced h.rest, by rw [h.content], by dsimp only; omega⟩
    · rw [if_neg hc]
      exact hcol

/-- The tabs of a line have been skipped, or are not to be skipped any more. -/
def Skipped (entry : HeredocEntry) (lx : Lexer) (line : List Char) : Prop :=
  entry.stripTabs = true → lx.colNo = 1 → line.head? ≠ some tab

theorem Skipped.skipTabs (h : Skipped entry lx line) (hrest : lx.rest = line ++ newline :: more) :
    lx.skipTabs entry = lx := by
  cases line with
  | nil => exact skipTabs_of_rest hrest fun _ _ => by decide
  | cons c line => exact skipTabs_of_rest hrest fun hstrip hcol => by simpa using h hstrip hcol

/-- Behind a character that has been collected, nothing is skipped before the next line. -/
theorem skipped_of_col {col : ℕ} (h : lx.colNo = col + 1) (hcol : 1 ≤ col) :
    Skipped entry lx line := fun _ hone => by omega

/-- A line that does not end with the delimiter is collected. -/
theorem iterate_line (h : Reads lx s (line ++ newline :: more) content)
    (hquoted : entry.delimiterQuoted = true) (hline : newline ∉ line)
    (hdelim : newline ∉ entry.delimiter) (hskip : Skipped entry s.lx line)
    (hnone : ∀ x, x <:+ line → entry.strip x ≠ entry.delimiter) :
    ∃ s', Reads lx s' more (content ++ (line ++ [newline])) ∧ s'.lx.colNo = 1 ∧
      ∀ k, iterate (heredocTurn entry) (k + (line.length + 1)) s =
        iterate (heredocTurn entry) k s' := by
  have hcheck := lexerCheckHeredocDelimiter_line entry h.rest hline hdelim
  rw [if_neg (hnone line (List.suffix_refl line))] at hcheck
  induction line generalizing s content with
  | nil =>
    obtain ⟨s', hturn, hreads, hcol⟩ :=
      heredocTurn_character h hquoted (hskip.skipTabs h.rest) hcheck
    exact ⟨s', hreads, hcol, fun k => iterate_again hturn k⟩
  | cons c line ih =>
    rw [List.mem_cons, not_or] at hline
    obtain ⟨t, hturn, hreads, hcol⟩ :=
      heredocTurn_character h hquoted (hskip.skipTabs h.rest) hcheck
    rw [if_neg (Ne.symm hline.1)] at hcol
    have hnone' : ∀ x, x <:+ line → entry.strip x ≠ entry.delimiter := fun x hx =>
      hnone x (hx.trans (List.suffix_cons c line))
    have hcheck' := lexerCheckHeredocDelimiter_line entry hreads.rest hline.2 hdelim
    rw [if_neg (hnone' line (List.suffix_refl line))] at hcheck'
    obtain ⟨s', hreads', hcol', hrun⟩ :=
      ih hreads hline.2 (skipped_of_col hcol h.col) hnone' hcheck'
    refine ⟨s', by simpa using hreads', hcol', fun k => ?_⟩
    rw [List.length_cons, ← Nat.add_assoc, iterate_again hturn, hrun]

/-- At a line that ends with the delimiter the body ends. -/
theorem iterate_closing_line {tok : Token} (h : Reads lx s (line ++ newline :: more) content)
    (htok : lx.currentToken = some tok) (hquoted : entry.delimiterQuoted = true)
    (hline : newline ∉ line) (hdelim : newline ∉ entry.delimiter) (hne : entry.delimiter ≠ [])
    (hskip : Skipped entry s.lx line)
    (hsome : ∃ x, x <:+ line ∧ entry.strip x = entry.delimiter) :
    ∃ lx', lx'.rest = more ∧ ∀ k, iterate (heredocTurn entry) (k + (line.length + 1)) s =
      .ok (.ok, lx') := by
  induction line generalizing s content with
  | nil =>
    obtain ⟨x, hx, heq⟩ := hsome
    rw [List.suffix_nil.mp hx] at heq
    refine absurd heq.symm fun hnil => hne (List.eq_nil_of_suffix_nil ?_)
    exact hnil ▸ entry.strip_suffix []
  | cons c line ih =>
    by_cases heq : entry.strip (c :: line) = entry.delimiter
    · obtain ⟨lx', hturn, hrest, -⟩ :=
        heredocTurn_delimiter h htok hline hdelim (hskip.skipTabs h.rest) heq
      exact ⟨lx', hrest, fun k => iterate_done hturn _⟩
    · have hcheck := lexerCheckHeredocDelimiter_line entry h.rest hline hdelim
      rw [if_neg heq] at hcheck
      rw [List.mem_cons, not_or] at hline
      obtain ⟨t, hturn, hreads, hcol⟩ :=
        heredocTurn_character h hquoted (hskip.skipTabs h.rest) hcheck
      rw [if_neg (Ne.symm hline.1)] at hcol
      have hsome' : ∃ x, x <:+ line ∧ entry.strip x = entry.delimiter := by
        obtain ⟨x, hx, hxeq⟩ := hsome
        rcases List.suffix_cons_iff.mp hx with rfl | hx
        · exact absurd hxeq heq
        · exact ⟨x, hx, hxeq⟩
      obtain ⟨lx', hrest, hrun⟩ := ih hreads hline.2 (skipped_of_col hcol h.col) hsome'
      refine ⟨lx', hrest, fun k => ?_⟩
      rw [List.length_cons, ← Nat.add_assoc, iterate_again hturn, hrun]

/-- A turn at the start of a line skips the tabs that are left out, and goes on as it would behind
them. -/
theorem heredocTurn_tabs (entry : HeredocEntry)
    (h : Reads lx s (line ++ newline :: more) content) (hcol : s.lx.colNo = 1) :
    ∃ s', Reads lx s' (entry.strip line ++ newline :: more) content ∧
      Skipped entry s'.lx (entry.strip line) ∧ heredocTurn entry s = heredocTurn entry s' := by
  by_cases hstrip : entry.stripTabs = true
  · have htabs : entry.tabs line = line.takeWhile (· = tab) := if_pos hstrip
    have hlx : s.lx.skipTabs entry = s.lx.advancedBy (entry.tabs line).length := by
      rw [skipTabs, if_pos ⟨hstrip, hcol⟩, advancedWhile, h.rest, takeWhile_tabs, htabs]
    have hsplit : s.lx.rest = entry.tabs line ++ (entry.strip line ++ newline :: more) := by
      rw [h.rest, ← List.append_assoc, entry.tabs_append_strip]
    have hno : newline ∉ entry.tabs line := by
      intro hmem
      rw [htabs] at hmem
      exact absurd (List.mem_takeWhile_imp hmem) (by decide)
    have hrest : (s.lx.skipTabs entry).rest = entry.strip line ++ newline :: more := by
      rw [hlx]
      exact rest_advancedBy_length hsplit
    have hskip : Skipped entry (s.lx.skipTabs entry) (entry.strip line) := by
      intro _ _ hhead
      have hnot := List.head?_dropWhile_not (· = tab) line
      rw [HeredocEntry.strip, if_pos hstrip] at hhead
      rw [hhead] at hnot
      exact absurd hnot (by decide)
    refine ⟨{ s with lx := s.lx.skipTabs entry }, ?_, hskip, ?_⟩
    · refine ⟨h.context.trans (hlx ▸ sameContext_advancedBy _ _), hrest, h.content, ?_⟩
      rw [hlx, colNo_advancedBy hsplit hno]
      exact h.col.trans (Nat.le_add_right _ _)
    · rw [heredocTurn, heredocTurn, lexerAtEnd_line h.rest, lexerAtEnd_line hrest,
        hskip.skipTabs hrest]
      rfl
  · have heq : entry.strip line = line := if_neg hstrip
    exact ⟨s, heq.symm ▸ h, fun h => absurd h hstrip, rfl⟩

/-! ## The body -/

/-- The lines of a body, as they stand in the text. -/
def bodyText (lines : List (List Char)) : List Char := lines.flatMap (· ++ [newline])

/-- What a body of these lines says. -/
def HeredocEntry.bodyContent (entry : HeredocEntry) (lines : List (List Char)) : List Char :=
  bodyText (lines.map entry.strip)

/-- The token for a body with this content. -/
def HeredocEntry.endToken (entry : HeredocEntry) (content : List Char) : Token where
  type := .endOfHeredoc
  heredocDelimiter := some (String.ofList entry.delimiter)
  heredocContent := some (String.ofList content)
  heredocDelimQuoted := entry.delimiterQuoted
  needsExpansion := !entry.delimiterQuoted

/-- In a line that does not start with a tab, what is left out of an ending does not matter. -/
theorem exists_suffix_strip (hstart : entry.strip entry.delimiter = entry.delimiter) :
    (∃ x, x <:+ line ∧ entry.strip x = entry.delimiter) ↔ entry.delimiter <:+ line :=
  ⟨fun ⟨x, hx, heq⟩ => heq ▸ (entry.strip_suffix x).trans hx, fun h => ⟨_, h, hstart⟩⟩

theorem strip_no_newline (entry : HeredocEntry) (hline : newline ∉ line) :
    newline ∉ entry.strip line :=
  fun hmem => hline ((entry.strip_suffix line).subset hmem)

section Body

variable {lines : List (List Char)} {final after : List Char}

/-- Lines none of which ends with the delimiter are collected. -/
theorem iterate_lines (h : Reads lx s (bodyText lines ++ more) content) (hcol : s.lx.colNo = 1)
    (hquoted : entry.delimiterQuoted = true) (hlines : ∀ l ∈ lines, newline ∉ l)
    (hdelim : newline ∉ entry.delimiter)
    (hstart : entry.strip entry.delimiter = entry.delimiter)
    (hnone : ∀ l ∈ lines, ¬ entry.delimiter <:+ entry.strip l) :
    ∃ s' m, Reads lx s' more (content ++ entry.bodyContent lines) ∧ s'.lx.colNo = 1 ∧
      m ≤ (bodyText lines).length ∧
      ∀ k, iterate (heredocTurn entry) (k + m) s = iterate (heredocTurn entry) k s' := by
  induction lines generalizing s content with
  | nil =>
    exact ⟨s, 0, by simpa [HeredocEntry.bodyContent, bodyText] using h, hcol, le_refl _,
      fun _ => rfl⟩
  | cons l lines ih =>
    have htext : bodyText (l :: lines) ++ more = l ++ newline :: (bodyText lines ++ more) := by
      simp [bodyText]
    rw [htext] at h
    obtain ⟨s₁, hreads₁, hskip₁, hturn₁⟩ := heredocTurn_tabs entry h hcol
    have hnone₁ := mt (exists_suffix_strip hstart).mp (hnone l List.mem_cons_self)
    obtain ⟨s₂, hreads₂, hcol₂, hrun₂⟩ := iterate_line hreads₁ hquoted
      (strip_no_newline entry (hlines l List.mem_cons_self)) hdelim hskip₁
      fun x hx heq => hnone₁ ⟨x, hx, heq⟩
    obtain ⟨s', m, hreads, hcol', hm, hrun⟩ := ih hreads₂ hcol₂
      (fun l hl => hlines l (List.mem_cons_of_mem _ hl))
      fun l hl => hnone l (List.mem_cons_of_mem _ hl)
    refine ⟨s', m + ((entry.strip l).length + 1), ?_, hcol', ?_, fun k => ?_⟩
    · simpa [HeredocEntry.bodyContent, bodyText, List.append_assoc] using hreads
    · have := (entry.strip_suffix l).length_le
      simp only [bodyText, List.flatMap_cons, List.length_append, List.length_singleton] at hm ⊢
      omega
    · rw [← hrun, ← hrun₂, iterate_congr hturn₁, Nat.add_assoc]

/-- Where one of the lines ends with the delimiter, the body ends within them. -/
theorem iterate_closing_lines {tok : Token} (h : Reads lx s (bodyText lines ++ more) content)
    (htok : lx.currentToken = some tok) (hcol : s.lx.colNo = 1)
    (hquoted : entry.delimiterQuoted = true) (hlines : ∀ l ∈ lines, newline ∉ l)
    (hdelim : newline ∉ entry.delimiter) (hne : entry.delimiter ≠ [])
    (hstart : entry.strip entry.delimiter = entry.delimiter)
    (hsome : ∃ l ∈ lines, entry.delimiter <:+ entry.strip l) :
    ∃ lx' m, more.length ≤ lx'.rest.length ∧ m ≤ (bodyText lines).length ∧
      ∀ k, iterate (heredocTurn entry) (k + m) s = .ok (.ok, lx') := by
  induction lines generalizing s content with
  | nil =>
    obtain ⟨l, hl, -⟩ := hsome
    cases hl
  | cons l lines ih =>
    have htext : bodyText (l :: lines) ++ more = l ++ newline :: (bodyText lines ++ more) := by
      simp [bodyText]
    have hlength : (bodyText (l :: lines)).length = l.length + 1 + (bodyText lines).length := by
      simp only [bodyText, List.flatMap_cons, List.length_append, List.length_singleton]
    rw [htext] at h
    obtain ⟨s₁, hreads₁, hskip₁, hturn₁⟩ := heredocTurn_tabs entry h hcol
    have hstrip := (entry.strip_suffix l).length_le
    have hno := strip_no_newline entry (hlines l List.mem_cons_self)
    by_cases hends : entry.delimiter <:+ entry.strip l
    · obtain ⟨lx', hrest, hrun⟩ := iterate_closing_line hreads₁ htok hquoted hno hdelim hne hskip₁
        ((exists_suffix_strip hstart).mpr hends)
      refine ⟨lx', (entry.strip l).length + 1, ?_, by omega, fun k => ?_⟩
      · rw [hrest, List.length_append]
        exact Nat.le_add_left _ _
      · rw [iterate_congr hturn₁, hrun]
    · have hnone₁ := mt (exists_suffix_strip hstart).mp hends
      obtain ⟨s₂, hreads₂, hcol₂, hrun₂⟩ := iterate_line hreads₁ hquoted hno hdelim hskip₁
        fun x hx heq => hnone₁ ⟨x, hx, heq⟩
      have hsome' : ∃ l ∈ lines, entry.delimiter <:+ entry.strip l := by
        obtain ⟨l', hl', hl⟩ := hsome
        rcases List.mem_cons.mp hl' with rfl | hl'
        · exact absurd hl hends
        · exact ⟨l', hl', hl⟩
      obtain ⟨lx', m, hrest, hm, hrun⟩ := ih hreads₂ hcol₂
        (fun l hl => hlines l (List.mem_cons_of_mem _ hl)) hsome'
      refine ⟨lx', m + ((entry.strip l).length + 1), hrest, by omega, fun k => ?_⟩
      rw [iterate_congr hturn₁, ← Nat.add_assoc, hrun₂, hrun]

/-- A document with a quoted delimiter, from the start of its body on: lines before the first one
that is the delimiter, that one, and what follows. -/
structure Document (lx : Lexer) (entry : HeredocEntry) (lines : List (List Char))
    (final after : List Char) : Prop where
  queued : lx.heredocQueue[lx.heredocIndex]? = some entry
  quoted : entry.delimiterQuoted = true
  delimiter : entry.delimiter ≠ [] ∧ newline ∉ entry.delimiter
  fresh : lx.currentToken = none ∧ lx.colNo = 1
  before : ∀ l ∈ lines, newline ∉ l ∧ entry.strip l ≠ entry.delimiter
  close : newline ∉ final ∧ entry.strip final = entry.delimiter
  rest : lx.rest = bodyText lines ++ (final ++ newline :: after)

/-- The document ends at its delimiter line, and says what is before it. -/
def ReadsDocument (lx : Lexer) (entry : HeredocEntry) (lines : List (List Char))
    (after : List Char) : Prop :=
  ∃ lx', lx.lexerProcessHeredocBody = .ok (.ok, lx') ∧ lx'.rest = after ∧
    lx'.tokens = lx.tokens ++ [entry.endToken (entry.bodyContent lines)]

/-- The body of a document with a quoted delimiter is read as it is meant exactly if no line before
its end ends with the delimiter. -/
theorem readsDocument_iff (h : Document lx entry lines final after) :
    ReadsDocument lx entry lines after ↔
      ∀ l ∈ lines, ¬ entry.delimiter <:+ entry.strip l := by
  have hstart : entry.strip entry.delimiter = entry.delimiter := by
    rw [← h.close.2, entry.strip_strip]
  have hdoc : lx.startDocument =
      { lx with currentToken := some { type := .word, heredocContent := some "" } } :=
    if_pos h.fresh.1
  have hrun : lx.lexerProcessHeredocBody =
      iterate (heredocTurn entry) lx.turns { lx := lx.startDocument } := by
    rw [lexerProcessHeredocBody, h.queued]
  have hreads : Reads lx.startDocument { lx := lx.startDocument }
      (bodyText lines ++ (final ++ newline :: after)) [] :=
    ⟨⟨rfl, rfl, rfl, rfl, rfl, rfl, rfl⟩, by rw [hdoc]; exact h.rest, rfl,
      by rw [hdoc]; exact h.fresh.2.ge⟩
  have hcol : lx.startDocument.colNo = 1 := by rw [hdoc]; exact h.fresh.2
  have htok : lx.startDocument.currentToken =
      some { type := .word, heredocContent := some "" } := by rw [hdoc]
  have hlength := congrArg List.length h.rest
  rw [rest_length, List.length_append, List.length_append, List.length_cons] at hlength
  have hturns : ∀ m ≤ (bodyText lines).length, ∃ k, lx.turns = (k + 1) + m := fun m hm =>
    ⟨lx.turns - m - 1, by rw [turns]; omega⟩
  constructor
  · rintro ⟨lx', hok, hrest, -⟩
    by_contra hsome
    push Not at hsome
    obtain ⟨lx'', m, hlong, hm, hrun'⟩ := iterate_closing_lines hreads htok hcol h.quoted
      (fun l hl => (h.before l hl).1) h.delimiter.2 h.delimiter.1 hstart hsome
    obtain ⟨k, hk⟩ := hturns m hm
    rw [hrun, hk, hrun'] at hok
    cases hok
    rw [hrest, List.length_append, List.length_cons] at hlong
    omega
  · intro hnone
    obtain ⟨s', m, hreads', hcol', hm, hrun'⟩ := iterate_lines hreads hcol h.quoted
      (fun l hl => (h.before l hl).1) h.delimiter.2 hstart hnone
    obtain ⟨s'', hreads'', hskip, hturn⟩ := heredocTurn_tabs entry hreads' hcol'
    obtain ⟨lx', hdone, hrest, htokens⟩ := heredocTurn_delimiter hreads'' htok
      (strip_no_newline entry h.close.1) h.delimiter.2 (hskip.skipTabs hreads''.rest)
      (by rw [entry.strip_strip, h.close.2])
    obtain ⟨k, hk⟩ := hturns m hm
    refine ⟨lx', ?_, hrest, ?_⟩
    · rw [hrun, hk, hrun', iterate_congr hturn]
      exact iterate_done hdone k
    · rw [htokens, hdoc]
      simp [HeredocEntry.endToken, Token.appendContent]

/-! ## Examples -/

/-- A lexer at the start of a body that ends with the line `E`. -/
def atBody (body : List Char) : Lexer where
  input := body
  modeStack := [.heredocBody]
  heredocQueue := [⟨['E'], 0, false, true⟩]
  readingHeredoc := true

theorem readsDocument_letter :
    ReadsDocument (atBody ['a', newline, 'E', newline]) ⟨['E'], 0, false, true⟩ [['a']] [] :=
  have h : Document (atBody ['a', newline, 'E', newline]) ⟨['E'], 0, false, true⟩ [['a']] ['E'] [] :=
    ⟨rfl, rfl, by decide, ⟨rfl, rfl⟩, by decide, by decide, rfl⟩
  (readsDocument_iff h).mpr (by decide)

/-- The line `aE` ends the body although it is not the delimiter. -/
theorem ending_closes_document :
    Document (atBody ['a', 'E', newline, 'E', newline]) ⟨['E'], 0, false, true⟩ [['a', 'E']] ['E']
        [] ∧
      ¬ ReadsDocument (atBody ['a', 'E', newline, 'E', newline]) ⟨['E'], 0, false, true⟩
        [['a', 'E']] [] := by
  refine ⟨⟨rfl, rfl, by decide, ⟨rfl, rfl⟩, by decide, by decide, rfl⟩, ?_⟩
  rintro ⟨lx', hok, hrest, -⟩
  have hrun : ∃ lx'', (atBody ['a', 'E', newline, 'E', newline]).lexerProcessHeredocBody =
      .ok (.ok, lx'') ∧ lx''.rest = ['E', newline] := ⟨_, rfl, rfl⟩
  obtain ⟨lx'', hok', hrest'⟩ := hrun
  cases hok.symm.trans hok'
  cases hrest.symm.trans hrest'

end Body

end Migash.Lexer
