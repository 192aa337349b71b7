import Migash.Exec.Dispatch
import Migash.Expander.Words
import Migash.Glob.Literal
import Migash.Lexer.Quoted

/-! # Quoted case patterns

A pattern is expanded to a flat text, and the text is matched. Nothing in it
tells a quoted character from an unquoted one, so a quoted `*` is a `*`.
-/

namespace Migash.Exec

open Library Glob

variable {δ W : Type}

/-- The pattern test of the executor is the matcher of the repository. -/
def Env.UsesGlobUtil (env : Env δ W) : Prop :=
  ∀ pattern text : String,
    globUtilMatch pattern.toList text.toList {} = .ok (env.fnmatch pattern text)

/-- The executor gets from the word what the expander makes of it. -/
def Env.UsesExpander (env : Env δ W) (expander : Expander.Env δ W) (tok : Token) : Prop :=
  ∀ s, (Expander.expandWordNosplit expander tok).run s =
    .ok ((env.expandWordNosplit tok s).value, s.expanded (env.expandWordNosplit tok s))

/-- A word all of whose characters are quoted. A backslash leaves no trace but the character behind
it, in a literal that may just as well not be quoted. -/
structure AllQuoted (tok : Token) : Prop where
  type : tok.type = .word
  parts : ∀ part ∈ tok.parts, part.type = .literal

section

variable {expander : Expander.Env δ W} {tok : Token}

theorem join_getD_text (parts : List Part) :
    String.join (parts.map fun part => part.text.getD "") =
      String.join (parts.filterMap Part.text) := by
  apply String.toList_injective
  induction parts with
  | nil => rfl
  | cons part parts ih =>
    cases htext : part.text <;>
      simpa [List.filterMap_cons, htext] using ih

/-- The expansion of a quoted word is its text, whatever the quotes were. -/
theorem AllQuoted.expandWordNosplit_run (h : AllQuoted tok) (s : Shell δ W) :
    (Expander.expandWordNosplit expander tok).run s = .ok (some tok.getAllText, s) := by
  unfold Expander.expandWordNosplit
  rw [if_neg (not_not.mpr h.type)]
  split
  · rfl
  · have hparts := Expander.expandPartsToString_run expander
      (Expander.expandParts_literal expander h.parts s)
    rw [join_getD_text] at hparts
    exact Stateful.run_bind_ok hparts

/-- The item is tested with the text as a pattern. -/
theorem AllQuoted.anyPattern_run {env : Env δ W} (h : AllQuoted tok)
    (hexpander : env.UsesExpander expander tok) (word : String) (s : Shell δ W) :
    (anyPattern env word [tok]).run s = .ok (env.fnmatch tok.getAllText word, s) := by
  have hrun := (h.expandWordNosplit_run s).symm.trans (hexpander s)
  have hpair := Prod.mk.inj (Except.ok.inj hrun)
  have hexpand : (expand (env.expandWordNosplit tok)).run s = .ok (some tok.getAllText, s) := by
    rw [hpair.1]
    exact congrArg (fun t => Except.ok ((env.expandWordNosplit tok s).value, t)) hpair.2.symm
  rw [anyPattern, Stateful.run_bind_ok hexpand]
  cases hmatch : env.fnmatch tok.getAllText word <;> simp only [hmatch] <;> rfl

end

/-- A quoted pattern selects exactly the words equal to its text if and only if the text has no
character that the matcher treats in a way of its own: no `*`, no `?`, no `[` and no backslash with
a character behind it. -/
theorem anyPattern_quoted_iff {env : Env δ W} {expander : Expander.Env δ W} {tok : Token}
    (s : Shell δ W) (hquoted : AllQuoted tok) (hexpander : env.UsesExpander expander tok)
    (hmatcher : env.UsesGlobUtil) :
    (∀ word, ∃ b t, (anyPattern env word [tok]).run s = .ok (b, t) ∧
      (b = true ↔ word = tok.getAllText)) ↔ Literal {} tok.getAllText.toList := by
  have hmatch (word : String) : env.fnmatch tok.getAllText word = true ↔
      Matches {} false tok.getAllText.toList word.toList := by
    obtain ⟨b, hb, hiff⟩ := globUtilMatch_matches tok.getAllText.toList word.toList {} rfl rfl
    rw [← Except.ok.inj (hb.symm.trans (hmatcher _ _))]
    exact hiff
  rw [← matches_iff_eq_iff_literal rfl]
  constructor
  · intro h text
    obtain ⟨b, t, hrun, hiff⟩ := h (String.ofList text)
    have hpair := Prod.mk.inj (Except.ok.inj
      (hrun.symm.trans (hquoted.anyPattern_run hexpander (String.ofList text) s)))
    rw [hpair.1, hmatch, String.toList_ofList] at hiff
    rw [hiff, ← String.toList_inj, String.toList_ofList]
  · intro h word
    refine ⟨_, s, hquoted.anyPattern_run hexpander word s, ?_⟩
    rw [hmatch, h, String.toList_inj]

/-- An environment with the matcher and the expander of the repository. -/
def quotingEnv : Env Unit Unit :=
  { Env.idle Unit Unit with
    fnmatch pattern text := globUtilMatch pattern.toList text.toList {} = .ok true }

theorem quotingEnv_usesGlobUtil : quotingEnv.UsesGlobUtil := by
  intro pattern text
  obtain ⟨b, hb, -⟩ := globUtilMatch_matches pattern.toList text.toList {} rfl rfl
  have hfnmatch : quotingEnv.fnmatch pattern text =
      decide (globUtilMatch pattern.toList text.toList {} = .ok true) := rfl
  rw [hfnmatch, hb]
  cases b <;> rfl

theorem AllQuoted.quotingEnv_usesExpander {tok : Token} (h : AllQuoted tok) :
    quotingEnv.UsesExpander (Expander.Env.plain Unit Unit) tok := by
  intro s
  rw [h.expandWordNosplit_run s]
  rfl

/-- The pattern `"ab"`. -/
theorem anyPattern_quoted_ab :
    (∀ word, ∃ b t, (anyPattern quotingEnv word [Lexer.Quoting.double.word ['a', 'b']]).run
        (Shell.initial ()) = .ok (b, t) ∧
      (b = true ↔ word = (Lexer.Quoting.double.word ['a', 'b']).getAllText)) ↔
    Literal {} (Lexer.Quoting.double.word ['a', 'b']).getAllText.toList := by
  have hquoted : AllQuoted (Lexer.Quoting.double.word ['a', 'b']) := by
    refine ⟨rfl, fun part hpart => ?_⟩
    have hmem : part ∈ Lexer.Quoting.double.parts ['a', 'b'] := hpart
    exact (Lexer.flags_of_mem_parts hmem).1
  exact anyPattern_quoted_iff (Shell.initial ()) hquoted hquoted.quotingEnv_usesExpander
    quotingEnv_usesGlobUtil

/-- The pattern that is read from a `*` in single quotes selects the word `a`. -/
theorem anyPattern_quoted_star :
    ∃ lx tok, Lexer.lexerTokenize 3
        (Lexer.lexerCreateWithInput (Lexer.Quoting.single.text ['*'])) = .ok (.ok, lx, [tok]) ∧
      tok.wasQuoted = true ∧ AllQuoted tok ∧
      (anyPattern quotingEnv "a" [tok]).run (Shell.initial ()) = .ok (true, Shell.initial ()) ∧
      "a" ≠ tok.getAllText := by
  obtain ⟨lx, tok, hrun, htype, hwas, htext, hparts⟩ :=
    Lexer.lexerTokenize_quoted .single ['*'] (fun _ => by decide) 0
  have hquoted : AllQuoted tok := ⟨htype, fun part hpart => (hparts part hpart).1⟩
  have hmatch : quotingEnv.fnmatch "*" "a" = true := by decide
  have htest := hquoted.anyPattern_run hquoted.quotingEnv_usesExpander "a" (Shell.initial ())
  refine ⟨lx, tok, hrun, hwas, hquoted, ?_, ?_⟩
  · rw [htest, htext]
    exact congrArg (fun b => Except.ok (b, Shell.initial ())) hmatch
  · rw [htext]
    decide

end Migash.Exec
