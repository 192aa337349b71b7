import Migash.Lexer.ArithExp

/-! # Command substitutions

Where the scan for the end of `$(` comes to its end: it counts parentheses,
passes over what a backslash escapes and knows nothing of quotes.
-/

namespace Migash.Lexer

open Library

variable {lx : Lexer} {p more : List Char} {c d : Char} {stack : List Unit}

/-! ## Parentheses -/

/-- A character that is neither a parenthesis nor a backslash. -/
def isPassed (c : Char) : Bool := !(['(', ')', backslash].contains c)

/-- Every parenthesis counts unless a backslash is before it. -/
def counted : Brackets Char Unit where
  atom a _ := (∃ c, isPassed c = true ∧ a = [c]) ∨ ∃ c, a = [backslash, c]
  stray _ := False
  opening _ o := o = ['(']
  closing _ c := c = [')']
  atom_closing _ := Iff.rfl

theorem isPassed_iff : isPassed c = true ↔ c ≠ '(' ∧ c ≠ ')' ∧ c ≠ backslash := by
  simp [isPassed]

theorem special_of_not_isPassed (h : ¬ isPassed c = true) : c = '(' ∨ c = ')' ∨ c = backslash := by
  rw [isPassed_iff] at h
  by_contra hne
  rw [not_or, not_or] at hne
  exact h hne

/-- What a first character makes of the number of open parentheses. -/
theorem nested_cons : counted.Nested stack (c :: p) ↔
    isPassed c = true ∧ counted.Nested stack p ∨
      (∃ d rest, c = backslash ∧ p = d :: rest ∧ counted.Nested stack rest) ∨
      c = '(' ∧ counted.Nested (() :: stack) p ∨
      ∃ rest, c = ')' ∧ stack = () :: rest ∧ counted.Nested rest p := by
  constructor
  · intro h
    generalize htext : c :: p = text at h
    cases h with
    | nil => cases htext
    | atom ha ht =>
      rcases ha with ⟨d, hd, rfl⟩ | ⟨d, rfl⟩
      · cases htext
        exact .inl ⟨hd, ht⟩
      · cases htext
        exact .inr (.inl ⟨d, _, rfl, rfl, ht⟩)
    | stray ha ht => exact ha.elim
    | opening ho ht =>
      cases ho
      cases htext
      exact .inr (.inr (.inl ⟨rfl, ht⟩))
    | closing hc ht =>
      cases hc
      cases htext
      exact .inr (.inr (.inr ⟨_, rfl, rfl, ht⟩))
  · rintro (⟨hc, ht⟩ | ⟨d, rest, rfl, rfl, ht⟩ | ⟨rfl, ht⟩ | ⟨rest, rfl, rfl, ht⟩)
    · exact .atom (a := [c]) (.inl ⟨c, hc, rfl⟩) ht
    · exact .atom (a := [backslash, d]) (.inr ⟨d, rfl⟩) ht
    · exact .opening (k := ()) rfl ht
    · exact .closing (k := ()) rfl ht

theorem nested_nil : counted.Nested stack [] ↔ stack = [] := by
  constructor
  · intro h
    generalize htext : ([] : List Char) = text at h
    cases h with
    | nil => rfl
    | atom ha ht =>
      rcases ha with ⟨d, -, rfl⟩ | ⟨d, rfl⟩
      · cases htext
      · cases htext
    | stray ha ht => exact ha.elim
    | opening ho ht =>
      cases ho
      cases htext
    | closing hc ht =>
      cases hc
      cases htext
  · rintro rfl
    exact .nil

theorem nested_passed (hc : isPassed c = true) :
    counted.Nested stack (c :: p) ↔ counted.Nested stack p := by
  obtain ⟨hopen, hclose, hescape⟩ := isPassed_iff.mp hc
  simp [nested_cons, hc, hopen, hclose, hescape]

theorem nested_escape :
    counted.Nested stack (backslash :: d :: p) ↔ counted.Nested stack p := by
  have hne : isPassed backslash = false ∧ backslash ≠ '(' ∧ backslash ≠ ')' := by decide
  simp [nested_cons (c := backslash), hne]

/-- The last backslash would escape what is behind the text. -/
theorem not_nested_backslash : ¬ counted.Nested stack [backslash] := by
  have hne : isPassed backslash = false ∧ backslash ≠ '(' ∧ backslash ≠ ')' := by decide
  simp [nested_cons (c := backslash), hne]

theorem nested_open : counted.Nested stack ('(' :: p) ↔ counted.Nested (() :: stack) p := by
  have hne : isPassed '(' = false ∧ '(' ≠ backslash ∧ '(' ≠ ')' := by decide
  simp [nested_cons (c := '('), hne]

theorem nested_close : counted.Nested stack (')' :: p) ↔
    ∃ rest, stack = () :: rest ∧ counted.Nested rest p := by
  have hne : isPassed ')' = false ∧ ')' ≠ backslash ∧ ')' ≠ '(' := by decide
  simp [nested_cons (c := ')'), hne]

/-! ## The turns -/

/-- What the scan has read. -/
def ParenScan.text (s : ParenScan) : List Char := (s.lx.input.take s.lx.pos).drop s.startPos

/-- The part for the text of a command. -/
def cmdPart (text : List Char) : Part := { type := .commandSubst, text := some (String.ofList text) }

section turns

variable {s : ParenScan} {cs : List Char}

/-- The text grows with what is read. -/
theorem text_moved {piece : List Char} {lx : Lexer} (hrest : s.lx.rest = piece ++ cs)
    (hstart : s.startPos ≤ s.lx.pos) (hinput : lx.input = s.lx.input)
    (hpos : lx.pos = s.lx.pos + piece.length) (hle : s.lx.pos ≤ s.lx.input.length) (depth : ℕ) :
    ParenScan.text { lx, startPos := s.startPos, parenDepth := depth } = s.text ++ piece := by
  have htake : s.lx.input.take (s.lx.pos + piece.length) = s.lx.input.take s.lx.pos ++ piece := by
    rw [List.take_add]
    change _ ++ s.lx.rest.take piece.length = _
    rw [hrest, List.take_left]
  have hlength : s.startPos ≤ (s.lx.input.take s.lx.pos).length := by
    rw [List.length_take]
    omega
  rw [ParenScan.text, ParenScan.text]
  dsimp only
  rw [hinput, hpos, htake, List.drop_append_of_le_length hlength]

theorem parenTurn_passed (hrest : s.lx.rest = c :: cs) (hc : isPassed c = true) :
    parenTurn s = .ok (.again { s with lx := s.lx.advanced }) := by
  obtain ⟨hopen, hclose, hescape⟩ := isPassed_iff.mp hc
  rw [parenTurn, lexerAtEnd_of_rest hrest, lexerPeek_of_rest hrest]
  simp only [Bool.false_eq_true, if_false, hopen, hclose, hescape, false_and,
    lexerAdvance_of_rest hrest, bind, Except.bind, pure, Except.pure]

theorem parenTurn_open (hrest : s.lx.rest = '(' :: cs) :
    parenTurn s = .ok (.again { s with lx := s.lx.advanced, parenDepth := s.parenDepth + 1 }) := by
  have hne : '(' ≠ backslash ∧ '(' ≠ ')' := by decide
  rw [parenTurn, lexerAtEnd_of_rest hrest, lexerPeek_of_rest hrest]
  simp only [Bool.false_eq_true, if_false, hne, false_and, if_true, lexerAdvance_of_rest hrest, bind,
    Except.bind, pure, Except.pure]

theorem parenTurn_close (hrest : s.lx.rest = ')' :: cs) (hdepth : s.parenDepth ≠ 1) :
    parenTurn s = .ok (.again { s with lx := s.lx.advanced, parenDepth := s.parenDepth - 1 }) := by
  have hne : ')' ≠ backslash := by decide
  rw [parenTurn, lexerAtEnd_of_rest hrest, lexerPeek_of_rest hrest]
  simp only [Bool.false_eq_true, if_false, hne, hdepth, and_false, if_true,
    lexerAdvance_of_rest hrest, bind, Except.bind, pure, Except.pure]

/-- A backslash takes the next character along. -/
theorem parenTurn_escape (hrest : s.lx.rest = backslash :: d :: cs) (hnul : d ≠ nul)
    (hcs : d = newline → cs ≠ []) :
    ∃ lx', parenTurn s = .ok (.again { s with lx := lx' }) ∧ SameContext s.lx lx' ∧
      lx'.pos = s.lx.pos + 2 := by
  have hne : backslash ≠ ')' := by decide
  have hrest₁ : s.lx.advanced.rest = d :: cs := rest_advanced hrest
  have hsame := (sameContext_advanced s.lx).trans (sameContext_advanced s.lx.advanced)
  by_cases hline : d = newline
  · obtain ⟨e, cs', rfl⟩ := List.exists_cons_of_ne_nil (hcs hline)
    subst hline
    have hrest₂ : s.lx.advanced.advanced.countLine.rest = e :: cs' := rest_advanced hrest₁
    refine ⟨s.lx.advanced.advanced.countLine, ?_, hsame.trans (sameContext_countLine _), by simp⟩
    rw [parenTurn, lexerAtEnd_of_rest hrest, lexerPeek_of_rest hrest, lexerPeekAhead_of_rest hrest]
    simp only [Bool.false_eq_true, if_false, hne, false_and, if_true, hnul,
      lexerAdvance_of_rest hrest, lexerAdvance_of_rest hrest₁, lexerAtEnd_of_rest hrest₂, bind,
      Except.bind, pure, Except.pure]
  · refine ⟨s.lx.advanced.advanced, ?_, hsame, by simp⟩
    rw [parenTurn, lexerAtEnd_of_rest hrest, lexerPeek_of_rest hrest, lexerPeekAhead_of_rest hrest]
    simp only [Bool.false_eq_true, if_false, hne, false_and, if_true, hnul, hline,
      lexerAdvance_of_rest hrest, lexerAdvance_of_rest hrest₁, bind, Except.bind, pure, Except.pure]

/-- The parenthesis that closes the substitution. -/
theorem parenTurn_end (h : Sound s.lx) (hword : s.lx.inWord = true) (hrest : s.lx.rest = ')' :: cs)
    (hdepth : s.parenDepth = 1) :
    ∃ lx', parenTurn s = .ok (.done (.ok, lx')) ∧
      Adds s.lx lx' s.lx.modeStack.tail 1 (s.lx.quotedIn (cmdPart s.text)) := by
  have hsame := sameContext_advanced s.lx
  have hle : s.lx.pos + 1 ≤ s.lx.input.length := by
    have := congrArg List.length hrest
    rw [rest_length] at this
    simp only [List.length_cons] at this
    omega
  have hsound : Sound s.lx.advanced := h.congr hsame.input (by simpa using hle) hsame.modeStack
    hsame.inWord (by rw [hsame.currentToken]) hsame.heredocQueue hsame.heredocIndex
  obtain ⟨lx', hclose⟩ := hsound.closeExpansion (hsame.inWord.trans hword) .commandSubst s.text
  have hadds := adds_closeExpansion (hsame.inWord.trans hword) hclose
  rw [hsame.modeStack, quotedIn_congr hsame.modeStack] at hadds
  refine ⟨lx', ?_, (adds_moved hsame (m := 1) (n := 0) (by simp)).mpr hadds⟩
  rw [parenTurn, lexerAtEnd_of_rest hrest, lexerPeek_of_rest hrest]
  simp only [Bool.false_eq_true, if_false, hdepth, and_self, if_true, lexerAdvance_of_rest hrest,
    bind, Except.bind, pure, Except.pure, advanced_input, advanced_pos, Nat.add_sub_cancel]
  rw [show (List.take s.lx.pos s.lx.input).drop s.startPos = s.text from rfl, hclose]

end turns

/-! ## The run -/

section run

variable {s : ParenScan}

theorem Sound.goes_parenTurn (h : Sound s.lx) (hword : s.lx.inWord = true) {t : ParenScan}
    (hturn : parenTurn s = .ok (.again t)) : Goes s.lx t.lx ∧ t.lx.inWord = true := by
  by_cases hlast : LastIs [backslash] s.lx
  · rw [parenTurn_last hlast] at hturn
    cases hturn
  · exact (h.holds_parenTurn hword hlast).of_eq hturn

/-- A turn that ends the scan well has read the closing parenthesis. -/
theorem parenTurn_ok {lx' : Lexer} (hword : s.lx.inWord = true)
    (hturn : parenTurn s = .ok (.done (.ok, lx'))) : s.lx.pos < lx'.pos := by
  unfold parenTurn at hturn
  dsimp only at hturn
  split_ifs at hturn
  all_goals try cases hturn
  all_goals simp only [except_bind_eq_ok] at hturn
  · obtain ⟨t, ht, u, hu, hdone⟩ := hturn
    cases hdone
    rw [lexerAdvance_eq ht] at hu
    have hadds := adds_closeExpansion (advanced_inWord.trans hword) hu
    rw [hadds.pos, advanced_pos]
    omega
  · obtain ⟨t, -, u, -, hturn⟩ := hturn
    split_ifs at hturn
    all_goals cases hturn
  · obtain ⟨t, -, u, -, hagain⟩ := hturn
    cases hagain
  all_goals
    obtain ⟨t, -, hagain⟩ := hturn
    cases hagain

theorem paren_end {n : ℕ} {lx' : Lexer} (h : Sound s.lx) (hword : s.lx.inWord = true)
    (hrun : iterate parenTurn n s = .ok (.ok, lx')) : s.lx.pos < lx'.pos := by
  have hall := iterate_rule
    (I := fun t : ParenScan => Sound t.lx ∧ t.lx.inWord = true ∧ s.lx.pos ≤ t.lx.pos)
    (Q := fun a : Answer => a.1 = .ok → s.lx.pos < a.2.pos) ?_ ?_ ⟨h, hword, le_refl _⟩ hrun
  · exact hall rfl
  · rintro t u ⟨ht, htword, hle⟩ hturn
    obtain ⟨hgoes, huword⟩ := ht.goes_parenTurn htword hturn
    exact ⟨hgoes.sound, huword, hle.trans (Nat.le_of_lt hgoes.pos)⟩
  · rintro t ⟨status, lx''⟩ ⟨ht, htword, hle⟩ hturn hok
    cases hok
    exact Nat.lt_of_le_of_lt hle (parenTurn_ok htword hturn)

/-- The scan ends behind the text if and only if the text closes what is open. -/
def ClosesBehind (more p : List Char) : Prop :=
  ∀ (s : ParenScan) (stack : List Unit), Sound s.lx → s.lx.inWord = true → s.startPos ≤ s.lx.pos →
    s.parenDepth = stack.length + 1 → s.lx.rest = p ++ ')' :: more →
      (Closes parenTurn (fun s => s.lx) s (p.length + 1) (cmdPart (s.text ++ p)) ↔
        counted.Nested stack p)

/-- The rest of the text is left to the next turn. -/
theorem ClosesBehind.again (hcloses : ClosesBehind more p) (piece : List Char)
    (stack : List Unit) {lx : Lexer} (h : Sound s.lx) (hword : s.lx.inWord = true) (hstart : s.startPos ≤ s.lx.pos)
    (hrest : s.lx.rest = piece ++ (p ++ ')' :: more))
    (hturn : parenTurn s =
      .ok (.again { lx, startPos := s.startPos, parenDepth := stack.length + 1 }))
    (hsame : SameContext s.lx lx) (hpos : lx.pos = s.lx.pos + piece.length) :
    Closes parenTurn (fun s => s.lx) s ((piece ++ p).length + 1) (cmdPart (s.text ++ (piece ++ p))) ↔
      counted.Nested stack p := by
  obtain ⟨hgoes, hword'⟩ := h.goes_parenTurn hword hturn
  have hrest' : lx.rest = p ++ ')' :: more := by
    rw [Lexer.rest, hsame.input, hpos, ← List.drop_drop]
    change s.lx.rest.drop piece.length = _
    rw [hrest, List.drop_left]
  have htext := text_moved hrest hstart hsame.input hpos h.inside (stack.length + 1)
  rw [← List.append_assoc, ← htext, List.length_append, Nat.add_assoc,
    closes_again hturn hsame hpos]
  exact hcloses _ _ hgoes.sound hword' (by dsimp only; omega) rfl hrest'

/-- Where more characters have been read than are left of the text, the scan ends elsewhere. -/
theorem not_closes_of_pos {t : ParenScan} {n : ℕ} {part : Part} (h : Sound s.lx)
    (hword : s.lx.inWord = true) (hturn : parenTurn s = .ok (.again t)) (hsame : SameContext s.lx t.lx)
    (hpos : t.lx.pos = s.lx.pos + n) : ¬ Closes parenTurn (fun s => s.lx) s n part := by
  rw [← Nat.add_zero n, closes_again hturn hsame hpos]
  rintro ⟨k, lx', hrun, hadds⟩
  obtain ⟨hgoes, hword'⟩ := h.goes_parenTurn hword hturn
  have hlt := paren_end hgoes.sound hword' hrun
  rw [hadds.pos, Nat.add_zero] at hlt
  exact absurd hlt (lt_irrefl _)

/-- So it does if it does with every shorter text. -/
theorem closesBehind_of_shorter (ih : ∀ p', p'.length < p.length → ClosesBehind more p') :
    ClosesBehind more p := by
  intro s stack h hword hstart hdepth hrest
  have hsame := sameContext_advanced s.lx
  have hpos : s.lx.advanced.pos = s.lx.pos + 1 := advanced_pos
  have hnul : ∀ d ∈ s.lx.rest, d ≠ nul := by
    rintro d hd rfl
    exact h.text (List.mem_of_mem_drop hd)
  cases p with
  | nil =>
    rw [nested_nil]
    cases stack with
    | nil =>
      obtain ⟨lx', hturn, hadds⟩ := parenTurn_end h hword hrest hdepth
      simpa [closes_done hturn] using hadds
    | cons _ stack =>
      refine iff_of_false ?_ (by simp)
      exact not_closes_of_pos h hword (parenTurn_close hrest (by rw [hdepth]; simp)) hsame hpos
  | cons c p =>
    have hshort : ClosesBehind more p := ih p (by simp)
    by_cases hpassed : isPassed c = true
    · rw [nested_passed hpassed]
      exact hshort.again [c] stack h hword hstart hrest
        (by rw [parenTurn_passed hrest hpassed, ← hdepth]) hsame hpos
    rcases special_of_not_isPassed hpassed with rfl | rfl | rfl
    · rw [nested_open]
      exact hshort.again ['('] (() :: stack) h hword hstart hrest
        (by rw [parenTurn_open hrest, hdepth]; rfl) hsame hpos
    · rw [nested_close]
      cases stack with
      | nil =>
        refine iff_of_false ?_ (by simp)
        obtain ⟨lx', hturn, hadds⟩ := parenTurn_end h hword hrest hdepth
        rw [closes_done hturn]
        intro hadds'
        have := hadds.pos.symm.trans hadds'.pos
        rw [List.length_cons] at this
        omega
      | cons _ stack =>
        have hagain := hshort.again [')'] stack h hword hstart hrest
          (by rw [parenTurn_close hrest (by rw [hdepth]; simp), hdepth]; rfl) hsame hpos
        simpa using hagain
    · cases p with
      | nil =>
        refine iff_of_false ?_ not_nested_backslash
        obtain ⟨lx', hturn, hmoved, hpos₂⟩ := parenTurn_escape hrest (by decide) nofun
        exact not_closes_of_pos h hword hturn hmoved hpos₂
      | cons d p =>
        rw [nested_escape]
        have hd : d ≠ nul := hnul d (by rw [hrest]; simp)
        obtain ⟨lx', hturn, hmoved, hpos₂⟩ := parenTurn_escape hrest hd (by simp)
        exact (ih p (by simp only [List.length_cons]; omega)).again [backslash, d] stack h hword hstart hrest
          (by rw [hturn, ← hdepth]) hmoved hpos₂

theorem closesBehind (p more : List Char) : ClosesBehind more p := by
  induction hlen : p.length using Nat.strong_induction_on generalizing p with
  | _ n ih =>
    subst hlen
    exact closesBehind_of_shorter fun p' hlt => ih p'.length hlt p' rfl

/-- The substitution of a command. -/
def cmdText (p : List Char) : List Char := '$' :: '(' :: (p ++ [')'])

/-- A command that starts with a parenthesis is taken for an arithmetic expansion. -/
theorem not_readsAs_cmdText (h : Sound lx) (hmeets : lx.MeetsExpansions)
    (hrest : lx.rest = cmdText ('(' :: p) ++ more) :
    ¬ ReadsAs lx (cmdText ('(' :: p)) (cmdPart ('(' :: p)) := by
  have hrest' : lx.rest = ['$', '(', '('] ++ (p ++ ')' :: more) := by simpa [cmdText] using hrest
  obtain ⟨lx₁, hfirst, hentered⟩ := h.enters hmeets .arith hrest'
  rw [readsAs_iff hfirst]
  rintro ⟨lx₂, hsecond, hadds⟩
  have hmode : lx₁.lexerCurrentMode = .arithExp := by simp [lexerCurrentMode, hentered.modeStack]
  rw [lexerProcessMode, hmode] at hsecond
  obtain ⟨lx₀, hensure, hstarted, -⟩ := hentered.ensureWord ⟨by decide, by decide⟩
  simp only [lexerProcessArithExp, hensure, bind, Except.bind] at hsecond
  obtain ⟨-, text, hparts⟩ := arith_end (s := { lx := lx₀ }) hstarted.inWord hsecond
  have hsame : lx₀.parts = lx.parts := (parts_ensureWord hensure).trans hentered.parts
  rw [hadds.parts, hsame] at hparts
  have htype := congrArg Part.type (List.singleton_inj.mp (List.append_cancel_left hparts))
  rw [quotedIn_type, quotedIn_type] at htype
  cases htype

/-- A command is read as one part that holds it if and only if it does not start with a parenthesis
and its parentheses match, where those in quotes and comments count as well. -/
theorem readsAs_cmdText_iff (h : Sound lx) (hmeets : lx.MeetsExpansions)
    (hrest : lx.rest = cmdText p ++ more) :
    ReadsAs lx (cmdText p) (cmdPart p) ↔ p.head? ≠ some '(' ∧ counted.Matched true p := by
  by_cases hhead : p.head? = some '('
  · obtain ⟨p, rfl⟩ := List.head?_eq_some_iff.mp hhead
    exact iff_of_false (not_readsAs_cmdText h hmeets hrest) (fun hand => hand.1 hhead)
  · have hrest' : lx.rest = ['$', '('] ++ (p ++ ')' :: more) := by simpa [cmdText] using hrest
    have hopens : Opens ['$', '('] (p ++ ')' :: more) .cmdSubstParen := by
      refine .paren ?_
      cases p with
      | nil => simp
      | cons c p => simpa using hhead
    obtain ⟨lx₁, hfirst, hentered⟩ := h.enters hmeets hopens hrest'
    have hmode : lx₁.lexerCurrentMode = .cmdSubstParen := by
      simp [lexerCurrentMode, hentered.modeStack]
    have hprocess : lx₁.lexerProcessMode =
        lx₁.ensureWord >>= fun lx => iterate parenTurn lx.turns { lx, startPos := lx.pos } := by
      rw [lexerProcessMode, hmode]
      rfl
    obtain ⟨lx₀, hstarted, hreads⟩ := hentered.reads_iff_closes (p.length + 1) (cmdPart p)
      (l := fun s : ParenScan => s.lx) ⟨by decide, by decide⟩ hprocess (fun _ => rfl)
      (fun s t hs hword hturn => hs.goes_parenTurn hword hturn)
    have hbehind : lx₁.rest = p ++ ')' :: more := by
      rw [hentered.rest, hrest']
      rfl
    have hlength : (cmdText p).length = 2 + (p.length + 1) := by
      simp [cmdText]
      omega
    let s : ParenScan := { lx := lx₀, startPos := lx₀.pos }
    have htext : s.text = [] := by simp [s, ParenScan.text]
    have hcloses := closesBehind p more s [] hstarted.sound hstarted.inWord
      (le_refl _) rfl (hstarted.rest.trans hbehind)
    rw [htext, List.nil_append, Brackets.nested_iff_matched] at hcloses
    rw [readsAs_iff hfirst, hlength, and_iff_right hhead]
    exact hreads.trans hcloses

theorem readsAs_cmdText_escape : ReadsAs (lexerCreateWithInput (cmdText ['a', backslash, ')']))
    (cmdText ['a', backslash, ')']) (cmdPart ['a', backslash, ')']) := by
  have hmatched : counted.Matched true ['a', backslash, ')'] :=
    .atom (a := ['a']) (.inl ⟨'a', rfl, rfl⟩)
      (.atom (a := [backslash, ')']) (.inr ⟨')', rfl⟩) .nil)
  exact (readsAs_cmdText_iff (sound_create (by decide)) (.inl rfl)
    (List.append_nil _).symm).mpr ⟨by decide, hmatched⟩

/-- The substitution `$(echo ")")` ends in its quotes. -/
theorem cmdText_quoted_paren : ∃ p, shellText.Matched true p ∧
    Sound (lexerCreateWithInput (cmdText p)) ∧
    ¬ ReadsAs (lexerCreateWithInput (cmdText p)) (cmdText p) (cmdPart p) := by
  let p := ['e', 'c', 'h', 'o', ' ', dquote, ')', dquote]
  refine ⟨p, ?_, sound_create (by decide), ?_⟩
  · exact matched_ordinary (s := ['e', 'c', 'h', 'o', ' ']) (List.all_eq_true.mp rfl)
      (.atom (a := [dquote, ')', dquote]) (.inr (.inr ⟨.double, [')'], nofun, rfl⟩)) .nil)
  · rintro ⟨lx₁, lx₂, hfirst, hsecond, hadds⟩
    have hlast : ((lexerCreateWithInput (cmdText p)).lexerProcessMode.bind
        fun answer => answer.2.lexerProcessMode.map fun answer => answer.2.pos) = .ok 9 := by
      decide +kernel
    rw [hfirst] at hlast
    simp only [Except.bind, hsecond, Except.map, hadds.pos] at hlast
    cases hlast

end run

end Migash.Lexer
