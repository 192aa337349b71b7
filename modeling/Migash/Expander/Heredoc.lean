import Migash.Expander.Words
import Migash.Lexer.Escapes

/-! # Here-documents at run time

`expand_heredoc` scans the content for escapes and expansions. The escapes that
the lexer has removed are not there any more, so what they escaped is expanded.
-/

namespace Migash.Expander

open Exec (Shell)
open Lexer
open Library

variable {δ W : Type}

/-! ## The scan -/

/-- What is between braces of which `depth` are open, and what follows the last one. -/
def closingBrace : ℕ → List Char → Option (List Char × List Char)
  | _, [] => none
  | depth, c :: cs =>
    if c = lbrace then (closingBrace (depth + 1) cs).map fun r => (c :: r.1, r.2)
    else if c = rbrace then
      if depth = 1 then some ([], cs)
      else (closingBrace (depth - 1) cs).map fun r => (c :: r.1, r.2)
    else (closingBrace depth cs).map fun r => (c :: r.1, r.2)

/-- The parameters that have one character for their name. -/
def isSingleParam (c : Char) : Bool := ['?', '$', '!', '#', '@', '*', '-', '0'].contains c

/-- A turn of the loop of `expand_heredoc` at the character `c`: what it appends and where it goes
on. `value` is `expand_parameter`. -/
def heredocStep (value : List Char → List Char) (c : Char) (cs : List Char) :
    List Char × List Char :=
  if c = backslash then
    match cs with
    | next :: rest =>
      if isHeredocEscapable next then (if next = newline then [] else [next], rest) else ([c], cs)
    | [] => ([c], cs)
  else if c = '$' then
    match cs with
    | next :: rest =>
      if next = '(' then ([c], cs)
      else if next = lbrace then
        match closingBrace 1 rest with
        | some (name, after) => (value name, after)
        | none => ([c], cs)
      else if isSingleParam next then (value [next], rest)
      else if isNameChar next then (value (cs.takeWhile isNameChar), cs.dropWhile isNameChar)
      else ([c], cs)
    | [] => ([c], cs)
  else ([c], cs)

/-- The loop of `expand_heredoc`, at most `n` turns. -/
def heredocScan (value : List Char → List Char) : ℕ → List Char → List Char
  | n + 1, c :: cs => (heredocStep value c cs).1 ++ heredocScan value n (heredocStep value c cs).2
  | _, _ => []

/-- `expand_parameter`. -/
def expandParameter (env : Env δ W) (s : Shell δ W) (name : List Char) : List Char :=
  ((getParameterValue env s (String.ofList name)).getD "").toList

/-- `expand_heredoc`. -/
def expandHeredoc (env : Env δ W) (s : Shell δ W) (body : List Char) (isQuoted : Bool) : List Char :=
  if isQuoted then body else heredocScan (expandParameter env s) body.length body

/-! ## What is left alone -/

/-- The character starts an escape or an expansion. -/
def startsExpansion (c : Char) (cs : List Char) : Bool :=
  if c = backslash then cs.head?.any isHeredocEscapable
  else if c = '$' then
    match cs with
    | next :: rest =>
      if next = lbrace then (closingBrace 1 rest).isSome else isSingleParam next || isNameChar next
    | [] => false
  else false

/-- No character of the text starts an escape or an expansion. -/
def Inert : List Char → Prop
  | [] => True
  | c :: cs => startsExpansion c cs = false ∧ Inert cs

section Scan

variable {value : List Char → List Char} {c : Char} {cs : List Char}

theorem heredocStep_of_not (h : startsExpansion c cs = false) :
    heredocStep value c cs = ([c], cs) := by
  unfold startsExpansion at h
  unfold heredocStep
  by_cases hback : c = backslash
  · rw [if_pos hback] at h ⊢
    cases cs with
    | nil => rfl
    | cons next rest =>
      have hnext : isHeredocEscapable next = false := by simpa using h
      simp [hnext]
  · rw [if_neg hback] at h ⊢
    by_cases hdollar : c = '$'
    · rw [if_pos hdollar] at h ⊢
      cases cs with
      | nil => rfl
      | cons next rest =>
        dsimp only at h ⊢
        by_cases hbrace : next = lbrace
        · rw [if_pos hbrace, Option.isSome_eq_false_iff, Option.isNone_iff_eq_none] at h
          rw [if_neg (by rw [hbrace]; decide), if_pos hbrace, h]
        · rw [if_neg hbrace, Bool.or_eq_false_iff] at h
          rw [if_neg hbrace, h.1, h.2]
          simp
    · rw [if_neg hdollar]

theorem closingBrace_length {depth : ℕ} {name after : List Char}
    (h : closingBrace depth cs = some (name, after)) : after.length < cs.length := by
  induction cs generalizing depth name after with
  | nil => cases h
  | cons c cs ih =>
    have hmap {d : ℕ} (h : (closingBrace d cs).map (fun r => (c :: r.1, r.2)) = some (name, after)) :
        after.length < (c :: cs).length := by
      obtain ⟨r, hr, heq⟩ := Option.map_eq_some_iff.mp h
      obtain ⟨r₁, r₂⟩ := r
      cases heq
      exact (ih hr).trans (Nat.lt_succ_self _)
    rw [closingBrace] at h
    split_ifs at h
    · exact hmap h
    · cases h
      exact Nat.lt_succ_self _
    · exact hmap h
    · exact hmap h

/-- An escape or an expansion is longer than what takes its place, if values are short. -/
theorem heredocStep_length (hvalue : ∀ name, (value name).length ≤ 1)
    (h : startsExpansion c cs = true) :
    (heredocStep value c cs).1.length + (heredocStep value c cs).2.length ≤ cs.length := by
  unfold startsExpansion at h
  unfold heredocStep
  by_cases hback : c = backslash
  · rw [if_pos hback] at h ⊢
    cases cs with
    | nil => cases h
    | cons next rest =>
      have hnext : isHeredocEscapable next = true := by simpa using h
      simp only [hnext, if_true, List.length_cons]
      split <;> simp only [List.length_nil, List.length_cons] <;> omega
  · rw [if_neg hback] at h ⊢
    by_cases hdollar : c = '$'
    · rw [if_pos hdollar] at h ⊢
      cases cs with
      | nil => cases h
      | cons next rest =>
        dsimp only at h ⊢
        by_cases hbrace : next = lbrace
        · rw [if_pos hbrace] at h
          rw [if_neg (by rw [hbrace]; decide), if_pos hbrace]
          obtain ⟨⟨name, after⟩, hclose⟩ := Option.isSome_iff_exists.mp h
          have hafter := closingBrace_length hclose
          have hshort := hvalue name
          rw [hclose]
          simp only [List.length_cons]
          omega
        · rw [if_neg hbrace, Bool.or_eq_true] at h
          have hparen : next ≠ '(' := by
            rintro rfl
            revert h
            decide
          rw [if_neg hparen, if_neg hbrace]
          by_cases hsingle : isSingleParam next = true
          · have hshort := hvalue [next]
            rw [if_pos hsingle]
            simp only [List.length_cons]
            omega
          · have hname : isNameChar next = true := h.resolve_left hsingle
            have hshort := hvalue ((next :: rest).takeWhile isNameChar)
            have hdrop := (List.dropWhile_suffix isNameChar (l := rest)).length_le
            rw [if_neg hsingle, if_pos hname, List.dropWhile_cons_of_pos hname]
            simp only [List.length_cons]
            omega
    · rw [if_neg hdollar] at h
      cases h

theorem heredocScan_inert (h : Inert cs) {n : ℕ} (hn : cs.length ≤ n) :
    heredocScan value n cs = cs := by
  induction cs generalizing n with
  | nil => cases n <;> rfl
  | cons c cs ih =>
    cases n with
    | zero => simp at hn
    | succ n =>
      rw [heredocScan, heredocStep_of_not h.1]
      exact congrArg (c :: ·) (ih h.2 (Nat.le_of_succ_le_succ hn))

/-- Where values are short the text gets shorter unless it is left alone. -/
theorem heredocScan_length (hvalue : ∀ name, (value name).length ≤ 1) (n : ℕ) (cs : List Char) :
    (heredocScan value n cs).length ≤ cs.length ∧
      ((heredocScan value n cs).length = cs.length → Inert cs) := by
  induction n generalizing cs with
  | zero =>
    cases cs with
    | nil => exact ⟨Nat.le_refl _, fun _ => trivial⟩
    | cons c cs => exact ⟨Nat.zero_le _, by rintro ⟨⟩⟩
  | succ n ih =>
    cases cs with
    | nil => exact ⟨Nat.le_refl _, fun _ => trivial⟩
    | cons c cs =>
      rw [heredocScan]
      cases hstart : startsExpansion c cs with
      | true =>
        have hstep := heredocStep_length hvalue hstart
        have hrest := (ih (heredocStep value c cs).2).1
        have hshort : ((heredocStep value c cs).1 ++
            heredocScan value n (heredocStep value c cs).2).length < (c :: cs).length := by
          rw [List.length_append, List.length_cons]
          omega
        exact ⟨hshort.le, fun heq => absurd heq hshort.ne⟩
      | false =>
        rw [heredocStep_of_not hstart]
        exact ⟨Nat.succ_le_succ (ih cs).1, fun heq => ⟨hstart, (ih cs).2 (Nat.succ.inj heq)⟩⟩

end Scan

/-! ## What the command gets -/

section Delivery

variable {lx : Lexer} {entry : HeredocEntry} {text after : List Char}

/-- A shell none of whose parameters has more than one character. -/
def bareShell (δ : Type) {W : Type} (world : W) : Shell δ W :=
  { Shell.initial world with
    frame := { type := .topLevel, positionalParams := some ⟨some "", []⟩ } }

theorem expandParameter_bareShell (world : W) (name : List Char) :
    (expandParameter (Env.plain δ W) (bareShell δ world) name).length ≤ 1 := by
  have hparams : (bareShell δ world).frame.positionalParams = some ⟨some "", []⟩ := rfl
  have hvariable : execFrameGetVariable (bareShell δ world) (String.ofList name) = none := rfl
  have hpositional (name : String) :
      ((positionalParam? (bareShell δ world) name).getD "").toList.length ≤ 1 := by
    unfold positionalParam?
    rw [hparams]
    split
    · split_ifs
      · exact Nat.zero_le _
      · exact Nat.zero_le _
      · unfold positionalParamsGet
        split_ifs <;> simp
    · exact Nat.zero_le _
  have hspecial (name : String) :
      ((expandSpecialParam (bareShell δ world) name).getD "").toList.length ≤ 1 := by
    unfold expandSpecialParam
    split
    · exact Nat.zero_le _
    · rename_i c _
      cases hc : specialParam? (bareShell δ world) c with
      | none => exact hpositional name
      | some value =>
        rw [Option.some_or, Option.getD_some]
        unfold specialParam? at hc
        split at hc
        all_goals
          cases hc
          try exact (by decide : (toString (0 : ℤ)).toList.length ≤ 1)
        · exact Nat.zero_le _
        · exact Nat.zero_le _
        · exact Nat.zero_le _
        · exact Nat.zero_le _
    · exact hpositional name
  unfold expandParameter getParameterValue
  rw [hvariable, Option.or_none]
  split_ifs
  · exact Nat.zero_le _
  · rw [show (Env.plain δ W).getenv (String.ofList name) = none from rfl, Option.or_none]
    exact hspecial _

/-- The document is read, and its content expands to the text. -/
def Delivers (env : Env δ W) (s : Shell δ W) (lx : Lexer) (entry : HeredocEntry)
    (text : List Char) : Prop :=
  ∃ lx' content, lx.lexerProcessHeredocBody = .ok (.ok, lx') ∧
    lx'.tokens = lx.tokens ++ [entry.endToken content] ∧
    expandHeredoc env s content entry.delimiterQuoted = text

theorem endToken_injective (entry : HeredocEntry) :
    Function.Injective entry.endToken := by
  intro content content' h
  have hcontent := congrArg Token.heredocContent h
  simpa only [HeredocEntry.endToken, Option.some.injEq, String.ofList_inj] using hcontent

/-- A text with all its special characters escaped is delivered as it is, whatever the shell, if and
only if it is read without the delimiter being seen too early, and contains nothing that would be
an escape or an expansion if it were not escaped. -/
theorem delivers_escaped_iff (world : W) (h : EscapedDocument lx entry text after) :
    (∀ (env : Env δ W) (s : Shell δ W), Delivers env s lx entry text) ↔
      Undisturbed entry true text ∧ Inert text := by
  obtain ⟨lx', content, hrun, htokens, hlength, hiff⟩ := lexerProcessHeredocBody_escaped h
  have hexpand (env : Env δ W) (s : Shell δ W) : Delivers env s lx entry text ↔
      heredocScan (expandParameter env s) content.length content = text := by
    unfold Delivers expandHeredoc
    rw [h.unquoted]
    constructor
    · rintro ⟨lx'', content', hrun', htokens', hresult⟩
      cases hrun.symm.trans hrun'
      have htoken := List.append_cancel_left (htokens.symm.trans htokens')
      obtain rfl := endToken_injective entry (List.cons.inj htoken).1
      exact hresult
    · intro hresult
      exact ⟨lx', content, hrun, htokens, hresult⟩
  simp only [hexpand]
  constructor
  · intro hall
    have hbare := hall (Env.plain δ W) (bareShell δ world)
    obtain ⟨hshort, hinert⟩ :=
      heredocScan_length (expandParameter_bareShell (δ := δ) world) content.length content
    rw [hbare] at hshort hinert
    have hcontent := hinert (le_antisymm hshort hlength)
    rw [heredocScan_inert hcontent (Nat.le_refl _)] at hbare
    exact ⟨hiff.mp hbare, hbare ▸ hcontent⟩
  · rintro ⟨hundisturbed, hinert⟩ env s
    rw [hiff.mpr hundisturbed]
    exact heredocScan_inert hinert (Nat.le_refl _)

/-- A lexer at the start of an unquoted body that ends with the line `E`. -/
def atUnquotedBody (body : List Char) : Lexer where
  input := body
  modeStack := [.heredocBody]
  heredocQueue := [⟨['E'], 0, false, false⟩]
  readingHeredoc := true

/-- The text `a\b` with a newline. -/
theorem delivers_escaped_backslash :
    (∀ (env : Env Unit Unit) (s : Shell Unit Unit),
      Delivers env s
        (atUnquotedBody ['a', backslash, backslash, 'b', newline, 'E', newline])
        ⟨['E'], 0, false, false⟩ ['a', backslash, 'b', newline]) ↔
    Undisturbed ⟨['E'], 0, false, false⟩ true ['a', backslash, 'b', newline] ∧
      Inert ['a', backslash, 'b', newline] := by
  have h : EscapedDocument
      (atUnquotedBody ['a', backslash, backslash, 'b', newline, 'E', newline])
      ⟨['E'], 0, false, false⟩ ['a', backslash, 'b', newline] [] :=
    ⟨rfl, rfl, by decide, ⟨rfl, rfl⟩, rfl⟩
  exact delivers_escaped_iff () h

/-- The body is the escaped text `$a`, and the shell, which has no variable `a`, delivers an empty
line. -/
theorem escaped_dollar_expanded :
    EscapedDocument (atUnquotedBody [backslash, '$', 'a', newline, 'E', newline])
        ⟨['E'], 0, false, false⟩ ['$', 'a', newline] [] ∧
      Delivers (Env.plain Unit Unit) (Shell.initial ())
        (atUnquotedBody [backslash, '$', 'a', newline, 'E', newline])
        ⟨['E'], 0, false, false⟩ [newline] ∧
      ¬ Delivers (Env.plain Unit Unit) (Shell.initial ())
        (atUnquotedBody [backslash, '$', 'a', newline, 'E', newline])
        ⟨['E'], 0, false, false⟩ ['$', 'a', newline] := by
  have h : EscapedDocument (atUnquotedBody [backslash, '$', 'a', newline, 'E', newline])
      ⟨['E'], 0, false, false⟩ ['$', 'a', newline] [] :=
    ⟨rfl, rfl, by decide, ⟨rfl, rfl⟩, rfl⟩
  obtain ⟨lx', content, hrun, htokens, -, hiff⟩ := lexerProcessHeredocBody_escaped h
  have hcontent : content = ['$', 'a', newline] := by
    refine hiff.mpr ⟨by decide, by decide, ?_⟩
    exact ⟨by decide, by decide, by decide, by decide, trivial⟩
  subst hcontent
  have hexpand : expandHeredoc (Env.plain Unit Unit) (Shell.initial ()) ['$', 'a', newline] false =
      [newline] := by decide
  refine ⟨h, ⟨lx', _, hrun, htokens, hexpand⟩, ?_⟩
  rintro ⟨lx'', content', hrun', htokens', hresult⟩
  cases hrun.symm.trans hrun'
  have htoken := List.append_cancel_left (htokens.symm.trans htokens')
  obtain rfl := endToken_injective _ (List.cons.inj htoken).1
  rw [h.unquoted, hexpand] at hresult
  exact absurd hresult (by decide)

end Delivery

end Migash.Expander
