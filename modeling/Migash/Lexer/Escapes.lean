import Migash.Lexer.Bodies

/-! # Escaped bodies

In the body of a here-document whose delimiter is not quoted a backslash before
a `$`, a backquote or a backslash is removed. A text in which all of these are
escaped is read as the text itself, unless the delimiter is seen too early.
-/

namespace Migash.Lexer

open Library

variable {lx : Lexer} {entry : HeredocEntry} {s : TextScan} {r content after : List Char} {c : Char}

/-- The characters that a text escapes in a here-document. -/
def isEscapedInDocument (c : Char) : Bool := ['$', backtick, backslash].contains c

/-- A character as the text has it. -/
def escapeDocumentChar (c : Char) : List Char :=
  if isEscapedInDocument c then [backslash, c] else [c]

/-- The text with a backslash before each `$`, backquote and backslash. -/
def escapeDocument (s : List Char) : List Char := s.flatMap escapeDocumentChar

/-- The line that the rest `r` of the text starts with, if the delimiter stands behind the text. -/
def HeredocEntry.lineAt (entry : HeredocEntry) (r : List Char) : List Char :=
  (escapeDocument r ++ entry.delimiter).takeWhile (· ≠ newline)

/-- Reading the text nothing is left out and no delimiter is seen. -/
def Undisturbed (entry : HeredocEntry) : Bool → List Char → Prop
  | _, [] => True
  | start, c :: r =>
    (start = true → entry.strip (c :: r) = c :: r) ∧
      entry.strip (entry.lineAt (c :: r)) ≠ entry.delimiter ∧ Undisturbed entry (c = newline) r

/-! ## Lines -/

theorem escapeDocument_cons (c : Char) (r : List Char) :
    escapeDocument (c :: r) = escapeDocumentChar c ++ escapeDocument r := rfl

theorem escapeDocument_append (r r' : List Char) :
    escapeDocument (r ++ r') = escapeDocument r ++ escapeDocument r' := List.flatMap_append

theorem escapeDocument_eq_self (h : ∀ c ∈ r, isEscapedInDocument c = false) :
    escapeDocument r = r := by
  induction r with
  | nil => rfl
  | cons c r ih =>
    rw [escapeDocument_cons, escapeDocumentChar, h c List.mem_cons_self,
      ih fun d hd => h d (List.mem_cons_of_mem _ hd)]
    rfl

theorem length_le_escapeDocument (r : List Char) : r.length ≤ (escapeDocument r).length := by
  induction r with
  | nil => rfl
  | cons c r ih =>
    have hc : 1 ≤ (escapeDocumentChar c).length := by
      rw [escapeDocumentChar]
      split <;> simp
    rw [escapeDocument_cons, List.length_append, List.length_cons]
    omega

theorem newline_notMem_lineAt : newline ∉ entry.lineAt r := by
  intro hmem
  exact absurd (List.mem_takeWhile_imp hmem) (by simp)

/-- The text consists of the line and what follows its end. -/
theorem exists_line (entry : HeredocEntry) (r after : List Char) :
    ∃ more, escapeDocument r ++ (entry.delimiter ++ newline :: after) =
      entry.lineAt r ++ newline :: more := by
  have hsplit := List.takeWhile_append_dropWhile (p := (· ≠ newline))
    (l := escapeDocument r ++ entry.delimiter)
  rw [← List.append_assoc]
  cases hdrop : (escapeDocument r ++ entry.delimiter).dropWhile (· ≠ newline) with
  | nil =>
    rw [hdrop, List.append_nil] at hsplit
    exact ⟨after, by rw [HeredocEntry.lineAt, hsplit]⟩
  | cons d more =>
    have hd := List.head?_dropWhile_not (fun c : Char => decide (c ≠ newline))
      (escapeDocument r ++ entry.delimiter)
    rw [hdrop] at hd hsplit
    obtain rfl : d = newline := by simpa using hd
    refine ⟨more ++ newline :: after, ?_⟩
    rw [HeredocEntry.lineAt, ← List.cons_append, ← List.append_assoc, hsplit]

/-- A line of the escaped text does not start with a tab where the text does not. -/
theorem strip_lineAt_strip (hstart : entry.strip entry.delimiter = entry.delimiter)
    (r : List Char) : entry.strip (entry.lineAt (entry.strip r)) = entry.lineAt (entry.strip r) := by
  by_cases htabs : entry.stripTabs = true
  · have hno : (escapeDocument (entry.strip r) ++ entry.delimiter).head? ≠ some tab := by
      cases hr : entry.strip r with
      | nil =>
        intro hhead
        have hnot := List.head?_dropWhile_not (· = tab) entry.delimiter
        rw [HeredocEntry.strip, if_pos htabs] at hstart
        rw [hstart] at hnot
        rw [escapeDocument, List.flatMap_nil, List.nil_append] at hhead
        rw [hhead] at hnot
        exact absurd hnot (by decide)
      | cons c r' =>
        have hnot := List.head?_dropWhile_not (· = tab) r
        rw [HeredocEntry.strip, if_pos htabs] at hr
        rw [hr] at hnot
        have hc : c ≠ tab := by simpa using hnot
        rw [escapeDocument_cons, escapeDocumentChar]
        split <;> simp [hc]
        decide
    rw [HeredocEntry.strip, if_pos htabs, HeredocEntry.lineAt]
    generalize escapeDocument (entry.strip r) ++ entry.delimiter = text at hno
    cases text with
    | nil => rfl
    | cons d text =>
      have hd : d ≠ tab := by simpa using hno
      rw [List.takeWhile_cons]
      split
      · exact List.dropWhile_cons_of_neg (by simpa using hd)
      · rfl
  · exact if_neg htabs

theorem eq_tab_of_mem_tabs (h : c ∈ entry.tabs r) : c = tab := by
  rw [HeredocEntry.tabs] at h
  split at h
  · simpa using List.mem_takeWhile_imp h
  · cases h

theorem escapeDocument_tabs (entry : HeredocEntry) (r : List Char) :
    escapeDocument r = entry.tabs r ++ escapeDocument (entry.strip r) := by
  conv_lhs => rw [← entry.tabs_append_strip r]
  rw [escapeDocument_append, escapeDocument_eq_self]
  intro c hc
  rw [eq_tab_of_mem_tabs hc]
  decide

theorem lineAt_tabs (entry : HeredocEntry) (r : List Char) :
    entry.lineAt r = entry.tabs r ++ entry.lineAt (entry.strip r) := by
  rw [HeredocEntry.lineAt, escapeDocument_tabs, List.append_assoc, List.takeWhile_append_of_pos,
    HeredocEntry.lineAt]
  intro c hc
  rw [eq_tab_of_mem_tabs hc]
  decide

/-- What is left of the first line is the first line of what is left. -/
theorem strip_lineAt (hstart : entry.strip entry.delimiter = entry.delimiter) (r : List Char) :
    entry.strip (entry.lineAt r) = entry.lineAt (entry.strip r) := by
  rw [lineAt_tabs]
  refine Eq.trans ?_ (strip_lineAt_strip hstart r)
  by_cases htabs : entry.stripTabs = true
  · simp only [HeredocEntry.strip, if_pos htabs]
    exact List.dropWhile_append_of_pos fun c hc => by simpa using eq_tab_of_mem_tabs hc
  · have hnone : entry.tabs r = [] := if_neg htabs
    rw [hnone, List.nil_append]

/-! ## Reading -/

theorem isEscapedInDocument_iff :
    isEscapedInDocument c = true ↔ isHeredocEscapable c = true ∧ c ≠ newline := by
  simp only [isEscapedInDocument, isHeredocEscapable, List.contains_iff_mem, List.mem_cons,
    List.not_mem_nil, or_false]
  constructor
  · rintro (rfl | rfl | rfl) <;> decide
  · rintro ⟨rfl | rfl | rfl | rfl, hc⟩
    · exact .inl rfl
    · exact .inr (.inl rfl)
    · exact .inr (.inr rfl)
    · exact absurd rfl hc

/-- A character of the text is collected, without the backslash before it. -/
theorem heredocTurn_escaped {tail : List Char}
    (h : Reads lx s (escapeDocument (c :: r) ++ tail) content)
    (hunquoted : entry.delimiterQuoted = false) (hskip : s.lx.skipTabs entry = s.lx)
    (hcheck : s.lx.lexerCheckHeredocDelimiter entry = .ok (false, s.lx)) :
    ∃ s', heredocTurn entry s = .ok (.again s') ∧
      Reads lx s' (escapeDocument r ++ tail) (content ++ [c]) ∧
      (s'.lx.colNo = 1 ↔ c = newline) := by
  have hrest := h.rest
  have hcol := h.col
  rw [escapeDocument_cons, List.append_assoc, escapeDocumentChar] at hrest
  by_cases hc : isEscapedInDocument c = true
  · obtain ⟨hescapable, hne⟩ := isEscapedInDocument_iff.mp hc
    rw [if_pos hc] at hrest
    have hrest₁ := rest_advanced hrest
    have hcol₁ := colNo_advanced hrest
    rw [if_neg (by decide)] at hcol₁
    have hcol₂ := colNo_advanced hrest₁
    rw [if_neg hne] at hcol₂
    have hcontext : SameContext lx (s.lx.advancedBy 2) :=
      h.context.trans (sameContext_advancedBy 2 s.lx)
    refine ⟨{ lx := s.lx.advanced.advanced, text := s.text ++ [c] }, ?_,
      ⟨hcontext, rest_advanced hrest₁, by rw [h.content], by dsimp only; omega⟩,
      iff_of_false (by dsimp only; omega) hne⟩
    have hback : backslash ≠ newline := by decide
    rw [heredocTurn, lexerAtEnd_of_rest hrest, hskip, hcheck]
    simp only [Bool.false_eq_true, if_false, bind, Except.bind, readLine, lexerPeek_of_rest hrest,
      lexerPeekAhead_of_rest hrest, hback, hne, hunquoted, hescapable, Bool.not_false, and_false,
      and_self, if_true, lexerAdvance_of_rest hrest, lexerAdvance_of_rest hrest₁, pure,
      Except.pure]
  · rw [if_neg hc] at hrest
    have hback : c ≠ backslash := by
      rintro rfl
      exact hc (by decide)
    have hcol₁ := colNo_advanced hrest
    have hcontext : SameContext lx s.lx.advanced := h.context.trans (sameContext_advancedBy 1 s.lx)
    have hadvance := lexerAdvance_of_rest hrest
    by_cases hnewline : c = newline
    · refine ⟨{ lx := s.lx.advanced.countLine, text := s.text ++ [c] }, ?_,
        ⟨hcontext.trans ⟨rfl, rfl, rfl, rfl, rfl, rfl, rfl⟩, rest_advanced hrest,
          by rw [h.content], le_refl 1⟩, iff_of_true rfl hnewline⟩
      rw [heredocTurn, lexerAtEnd_of_rest hrest, hskip, hcheck]
      simp only [Bool.false_eq_true, if_false, bind, Except.bind, readLine, hnewline ▸
        lexerPeek_of_rest hrest, hnewline, if_true, hadvance, pure, Except.pure]
    · rw [if_neg hnewline] at hcol₁
      refine ⟨{ lx := s.lx.advanced, text := s.text ++ [c] }, ?_,
        ⟨hcontext, rest_advanced hrest, by rw [h.content], by dsimp only; omega⟩,
        iff_of_false (by dsimp only; omega) hnewline⟩
      rw [heredocTurn, lexerAtEnd_of_rest hrest, hskip, hcheck]
      simp only [Bool.false_eq_true, if_false, bind, Except.bind, readLine,
        lexerPeek_of_rest hrest, hnewline, hback, false_and, and_false, hadvance, pure,
        Except.pure]

/-- The document is read to an end: what is collected is the text if nothing disturbs, and less of
it otherwise. -/
theorem iterate_document {tok : Token}
    (h : Reads lx s (escapeDocument r ++ (entry.delimiter ++ newline :: after)) content)
    (htok : lx.currentToken = some tok) (hunquoted : entry.delimiterQuoted = false)
    (hdelim : newline ∉ entry.delimiter)
    (hstart : entry.strip entry.delimiter = entry.delimiter) :
    ∃ lx' c m, m ≤ r.length ∧
      (∀ k, iterate (heredocTurn entry) (k + 1 + m) s = .ok (.ok, lx')) ∧
      lx'.tokens = lx.tokens ++
        [{ type := .endOfHeredoc, heredocDelimiter := some (String.ofList entry.delimiter)
           heredocContent := (tok.appendContent (content ++ c)).heredocContent
           heredocDelimQuoted := entry.delimiterQuoted
           needsExpansion := !entry.delimiterQuoted }] ∧
      c.length ≤ r.length ∧ (c = r ↔ Undisturbed entry (s.lx.colNo = 1) r) := by
  induction hn : r.length using Nat.strong_induction_on generalizing r s content with
  | h n ih =>
    subst hn
    obtain ⟨more, hline⟩ := exists_line entry r after
    by_cases hskipped : s.lx.colNo = 1 ∧ entry.strip r ≠ r
    · -- tabs at the start of a line are left out
      obtain ⟨hcol, hne⟩ := hskipped
      have hlength : (entry.strip r).length < r.length := by
        refine lt_of_le_of_ne (entry.strip_suffix r).length_le fun heq => ?_
        exact hne ((entry.strip_suffix r).eq_of_length heq)
      have h' := h
      rw [hline] at h'
      obtain ⟨s', hreads, -, hturn⟩ := heredocTurn_tabs entry h' hcol
      have hrest : entry.strip (entry.lineAt r) ++ newline :: more =
          escapeDocument (entry.strip r) ++ (entry.delimiter ++ newline :: after) := by
        rw [escapeDocument_tabs entry, lineAt_tabs, List.append_assoc, List.append_assoc] at hline
        rw [strip_lineAt hstart, ← List.append_cancel_left hline]
      rw [hrest] at hreads
      obtain ⟨lx', c, m, hm, hrun, htokens, hc, -⟩ := ih _ hlength hreads rfl
      refine ⟨lx', c, m, by omega, fun k => ?_, htokens, by omega, iff_of_false ?_ ?_⟩
      · rw [iterate_congr hturn, hrun]
      · rintro rfl
        omega
      · cases r with
        | nil => exact absurd (List.suffix_nil.mp (entry.strip_suffix [])) hne
        | cons d r =>
          rintro ⟨hstrip, -⟩
          exact hne (hstrip (decide_eq_true hcol))
    · have hskip : s.lx.skipTabs entry = s.lx := by
        have hrest := h.rest
        rw [hline] at hrest
        refine Skipped.skipTabs (fun htabs hcol hhead => hskipped ⟨hcol, fun heq => ?_⟩) hrest
        have hnot := List.head?_dropWhile_not (· = tab) (entry.lineAt r)
        have hstrip := strip_lineAt hstart r
        rw [heq, HeredocEntry.strip, if_pos htabs] at hstrip
        rw [hstrip, hhead] at hnot
        exact absurd hnot (by decide)
      have hrest := h.rest
      rw [hline] at hrest
      have hcheck := lexerCheckHeredocDelimiter_line entry hrest newline_notMem_lineAt hdelim
      have h' := h
      rw [hline] at h'
      by_cases hend : entry.strip (entry.lineAt r) = entry.delimiter
      · obtain ⟨lx', hturn, -, htokens⟩ :=
          heredocTurn_delimiter h' htok newline_notMem_lineAt hdelim hskip hend
        refine ⟨lx', [], 0, Nat.zero_le _, fun k => iterate_done hturn _, ?_, Nat.zero_le _, ?_⟩
        · rw [List.append_nil]
          exact htokens
        · cases r with
          | nil => exact iff_of_true rfl trivial
          | cons d r => exact iff_of_false (List.cons_ne_nil _ _).symm fun hno => hno.2.1 hend
      · rw [if_neg hend] at hcheck
        cases r with
        | nil =>
          refine absurd ?_ hend
          have hnil : entry.lineAt [] = entry.delimiter :=
            List.takeWhile_eq_self_iff.mpr fun d hd => by
              simpa using ne_of_mem_of_not_mem hd hdelim
          rw [hnil, hstart]
        | cons d r =>
          obtain ⟨s', hturn, hreads, hcol⟩ := heredocTurn_escaped h hunquoted hskip hcheck
          obtain ⟨lx', c, m, hm, hrun, htokens, hc, hiff⟩ := ih _ (Nat.lt_succ_self _) hreads rfl
          refine ⟨lx', d :: c, m + 1, Nat.succ_le_succ hm, fun k => ?_, ?_, Nat.succ_le_succ hc, ?_⟩
          · rw [← Nat.add_assoc, iterate_again hturn, hrun]
          · rw [List.append_assoc] at htokens
            exact htokens
          · rw [List.cons.injEq, hiff, decide_eq_decide.mpr hcol, Undisturbed]
            constructor
            · rintro ⟨-, hrest⟩
              refine ⟨fun hcol => ?_, hend, hrest⟩
              by_contra hne
              exact hskipped ⟨of_decide_eq_true hcol, hne⟩
            · rintro ⟨-, -, hrest⟩
              exact ⟨rfl, hrest⟩

/-- A document whose delimiter is not quoted, from the start of its body on: a text in which all
special characters are escaped, the delimiter and what follows. -/
structure EscapedDocument (lx : Lexer) (entry : HeredocEntry) (s after : List Char) : Prop where
  queued : lx.heredocQueue[lx.heredocIndex]? = some entry
  unquoted : entry.delimiterQuoted = false
  delimiter : newline ∉ entry.delimiter ∧ entry.strip entry.delimiter = entry.delimiter
  fresh : lx.currentToken = none ∧ lx.colNo = 1
  rest : lx.rest = escapeDocument s ++ (entry.delimiter ++ newline :: after)

/-- The content of the document is the text exactly if nothing disturbs, and shorter otherwise. -/
theorem lexerProcessHeredocBody_escaped {text : List Char}
    (h : EscapedDocument lx entry text after) :
    ∃ lx' content, lx.lexerProcessHeredocBody = .ok (.ok, lx') ∧
      lx'.tokens = lx.tokens ++ [entry.endToken content] ∧ content.length ≤ text.length ∧
      (content = text ↔ Undisturbed entry true text) := by
  have hdoc : lx.startDocument =
      { lx with currentToken := some { type := .word, heredocContent := some "" } } :=
    if_pos h.fresh.1
  have hrun : lx.lexerProcessHeredocBody =
      iterate (heredocTurn entry) lx.turns { lx := lx.startDocument } := by
    rw [lexerProcessHeredocBody, h.queued]
  have hcol : lx.startDocument.colNo = 1 := by rw [hdoc]; exact h.fresh.2
  have hreads : Reads lx.startDocument { lx := lx.startDocument }
      (escapeDocument text ++ (entry.delimiter ++ newline :: after)) [] :=
    ⟨⟨rfl, rfl, rfl, rfl, rfl, rfl, rfl⟩, by rw [hdoc]; exact h.rest, rfl, hcol.ge⟩
  have htok : lx.startDocument.currentToken =
      some { type := .word, heredocContent := some "" } := by rw [hdoc]
  obtain ⟨lx', content, m, hm, hiterate, htokens, hlength, hiff⟩ :=
    iterate_document hreads htok h.unquoted h.delimiter.1 h.delimiter.2
  have hlong := length_le_escapeDocument text
  refine ⟨lx', content, ?_, ?_, hlength, ?_⟩
  · have hrest := congrArg List.length h.rest
    rw [rest_length, List.length_append, List.length_append, List.length_cons] at hrest
    obtain ⟨k, hk⟩ : ∃ k, lx.turns = k + 1 + m := ⟨lx.turns - m - 1, by rw [turns]; omega⟩
    rw [hrun, hk, hiterate]
  · rw [htokens, hdoc]
    simp [HeredocEntry.endToken, Token.appendContent]
  · rw [hiff]
    simp only [hcol, decide_true]

end Migash.Lexer
