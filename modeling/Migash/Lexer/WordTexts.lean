import Migash.Lexer.Lead
import Migash.Lexer.Trace

/-! # Words and their texts

The word under construction against the text it was read from, kept through the
turns of all modes along the run of `lexer_tokenize`: how far the lead of the
text has settled what the token becomes.
-/

namespace Migash.Lexer

open Library

variable {text : List Char} {tok : Token} {lx u : Lexer} {input : List Char}

/-! ## The text of the word -/

/-- The text of the word that began at the position, as far as it is read. -/
def textFrom (lx : Lexer) (start : ℕ) : List Char := (lx.input.take lx.pos).drop start

variable {start n : ℕ} {c : Char} {more : List Char}

theorem textFrom_moved (hinput : u.input = lx.input) (hpos : u.pos = lx.pos + n)
    (hle : start ≤ lx.pos) : u.textFrom start = lx.textFrom start ++ lx.rest.take n := by
  rw [textFrom, textFrom, rest, hinput, hpos, List.take_add, List.drop_append]
  congr 1
  by_cases hlt : lx.pos ≤ lx.input.length
  · rw [List.length_take, Nat.min_eq_left hlt, Nat.sub_eq_zero_of_le hle, List.drop_zero]
  · have hnil : lx.input.drop lx.pos = [] := List.drop_eq_nil_of_le (by omega)
    rw [hnil, List.take_nil, List.drop_nil]

theorem take_rest_one (hpos : lx.pos < lx.input.length) : lx.rest.take 1 = [lx.lexerPeek] := by
  rw [rest_eq_cons hpos]
  rfl

theorem take_rest_two (hpos : lx.pos + 1 < lx.input.length) :
    lx.rest.take 2 = [lx.lexerPeek, lx.lexerPeekAhead 1] := by
  rw [rest_eq_cons (by omega)]
  have hnext : lx.input.drop (lx.pos + 1) =
      lx.lexerPeekAhead 1 :: lx.input.drop (lx.pos + 1 + 1) := by
    rw [List.drop_eq_getElem_cons hpos, lexerPeekAhead, List.getD_eq_getElem?_getD,
      List.getElem?_eq_getElem hpos, Option.getD_some]
  rw [hnext]
  rfl

/-! ## The invariant -/

/-- The word fits its text: it is settled, or an expansion or a quote is about to settle it, or it
is all lead, or it is about to end. -/
inductive Fits (lx : Lexer) (text : List Char) (tok : Token) : Prop where
  | settled (h : Settled text tok)
  | entered (hstack : lx.modeStack ≠ []) (hequals : '=' ∉ lead text) (hends : LeadEnds text)
      (h : Plain tok)
  | growing (hstack : lx.modeStack = []) (hequals : '=' ∉ lead text) (hgrows : LeadGrows text)
      (htok : tok = leadToken text)
  | ending (hstack : lx.modeStack = []) (hequals : '=' ∉ lead text) (h : Plain tok)
      (hpeek : isWordChar lx.lexerPeek = false)

namespace Fits

theorem fresh (hstack : lx.modeStack = []) : Fits lx [] { type := .word } :=
  .growing hstack List.not_mem_nil leadGrows_nil rfl

theorem congr (h : Fits lx text tok) (hstack : u.modeStack = lx.modeStack)
    (hpeek : u.lexerPeek = lx.lexerPeek) : Fits u text tok := by
  cases h with
  | settled h => exact .settled h
  | entered hne hequals hends h => exact .entered (by rwa [hstack]) hequals hends h
  | growing hnil hequals hgrows htok => exact .growing (by rwa [hstack]) hequals hgrows htok
  | ending hnil hequals h hend => exact .ending (by rwa [hstack]) hequals h (by rwa [hpeek])

/-- In front of a character of a word the word is settled or all lead. -/
theorem cases_normal (h : Fits lx text tok) (hstack : lx.modeStack = [])
    (hpeek : isWordChar lx.lexerPeek = true) :
    Settled text tok ∨ '=' ∉ lead text ∧ LeadGrows text ∧ tok = leadToken text := by
  cases h with
  | settled h => exact .inl h
  | entered hne => exact absurd hstack hne
  | growing _ hequals hgrows htok => exact .inr ⟨hequals, hgrows, htok⟩
  | ending _ _ _ hend =>
    rw [hend] at hpeek
    cases hpeek

theorem continuation (h : Fits lx text tok) (hstack : lx.modeStack = [])
    (hpeek : lx.lexerPeek = backslash) (hu : u.modeStack = []) :
    Fits u (text ++ [backslash, newline]) tok := by
  rcases h.cases_normal hstack (by rw [hpeek]; decide) with h | ⟨hequals, hgrows, rfl⟩
  · exact .settled (h.append _)
  · have hlead : lead (text ++ [backslash, newline]) = lead text := by
      rw [hgrows, lead_continuation]
      exact List.append_nil _
    refine .growing hu (by rwa [hlead]) (hgrows.append leadGrows_continuation) ?_
    rw [leadToken, leadToken, hlead]

/-- The text of a location goes beside the word. -/
theorem location (h : Fits lx text tok) (hstack : lx.modeStack = [])
    (hpeek : isWordChar lx.lexerPeek = true) (hmore : '=' ∉ more) (hu : u.modeStack = [])
    (hend : isWordChar u.lexerPeek = false) : Fits u (text ++ more) tok := by
  rcases h.cases_normal hstack hpeek with h | ⟨hequals, hgrows, rfl⟩
  · exact .settled (h.append _)
  · refine .ending hu ?_ (leadToken_plain hequals) hend
    rw [hgrows, List.mem_append, not_or]
    exact ⟨hequals, fun hmem => hmore (lead_subset hmem)⟩

theorem character (h : Fits lx text tok) (hstack : lx.modeStack = [])
    (hpeek : isWordChar lx.lexerPeek = true) (hc : isLeadChar c = true) (hu : u.modeStack = []) :
    Fits u (text ++ [c]) (tok.addOrdinary c) := by
  rcases h.cases_normal hstack hpeek with h | ⟨hequals, hgrows, rfl⟩
  · exact .settled (((h.change (.equals c)).change (.character false false c)).append _)
  have hlead : lead (text ++ [c]) = lead text ++ [c] := by
    rw [hgrows, lead_cons hc]
    rfl
  have htok : (leadToken text).addOrdinary c = leadToken (text ++ [c]) := by
    rw [leadToken, leadToken, hlead, List.foldl_append]
    rfl
  by_cases heq : c = '='
  · subst heq
    have hordinary : (leadToken text).addOrdinary '=' = Token.ordinary (lead text ++ ['=']) := by
      rw [htok, leadToken_eq (by simp [hlead]), hlead]
    have hname : leadName (text ++ ['=']) = lead text := by
      rw [leadName, hlead, takeWhile_equals hequals]
    rw [hordinary]
    refine .settled (.named ⟨by simp [hlead], by simp [Token.ordinary], [], [], ?_⟩)
    rw [hname]
    rfl
  · refine .growing hu ?_ (hgrows.append (leadGrows_char hc)) htok
    rw [hlead, List.mem_append, not_or, List.mem_singleton]
    exact ⟨hequals, fun h => heq h.symm⟩

theorem escape (h : Fits lx text tok) (hstack : lx.modeStack = [])
    (hpeek : lx.lexerPeek = backslash) (hc : c ≠ newline) :
    Fits u (text ++ [backslash, c]) { tok.appendChar false false c with wasQuoted := true } := by
  rcases h.cases_normal hstack (by rw [hpeek]; decide) with h | ⟨hequals, hgrows, rfl⟩
  · exact .settled (((h.change (.character false false c)).change .quoted).append _)
  · have hends : LeadEnds (text ++ [backslash, c]) := hgrows.ends (leadEnds_escape hc)
    refine .settled (.barred ?_ hends (.inl ⟨rfl, ?_⟩))
    · rw [hgrows, lead_escape hc, List.append_nil]
      exact hequals
    · exact (appendChar_flag _ _ _).trans (leadToken_plain hequals).flag

theorem dollar (h : Fits lx text tok) (hstack : lx.modeStack = []) (hpeek : lx.lexerPeek = '$')
    (hu : u.modeStack = []) (hend : isWordChar u.lexerPeek = false) :
    Fits u (text ++ ['$']) (tok.appendChar false false '$') := by
  rcases h.cases_normal hstack (by rw [hpeek]; decide) with h | ⟨hequals, hgrows, rfl⟩
  · exact .settled ((h.change (.character false false '$')).append _)
  · refine .ending hu ?_ ((leadToken_plain hequals).appendChar (by decide)) hend
    rw [hgrows, lead_stop (by decide) (by decide), List.append_nil]
    exact hequals

theorem enter (h : Fits lx text tok) (hstack : lx.modeStack = [])
    (hpeek : isWordChar lx.lexerPeek = true) (hc : isLeadChar c = false) (hback : c ≠ backslash)
    (hu : u.modeStack ≠ []) : Fits u (text ++ c :: more) tok := by
  rcases h.cases_normal hstack hpeek with h | ⟨hequals, hgrows, rfl⟩
  · exact .settled (h.append _)
  · refine .entered hu ?_ (hgrows.ends (leadEnds_stop hc hback)) (leadToken_plain hequals)
    rw [hgrows, lead_stop hc hback, List.append_nil]
    exact hequals

end Fits

/-- The word that began at the position fits its text. -/
structure Tracks (start : ℕ) (lx : Lexer) : Prop where
  le : start ≤ lx.pos
  notNormal : LexMode.normal ∉ lx.modeStack
  documents : LexMode.heredocBody ∈ lx.modeStack →
    lx.modeStack = [.heredocBody] ∧ lx.inWord = false
  word : lx.inWord = true → ∃ tok, lx.currentToken = some tok ∧ Fits lx (lx.textFrom start) tok
  entered : lx.inWord = false → lx.modeStack ≠ [] → LexMode.heredocBody ∉ lx.modeStack →
    Fits lx (lx.textFrom start) { type := .word }

/-! ## A turn of the normal mode -/

/-- Further on in the same modes, and in no word. -/
structure Left (lx u : Lexer) : Prop where
  pos : lx.pos ≤ u.pos
  modeStack : u.modeStack = lx.modeStack
  inWord : u.inWord = false

namespace Left

theorem advancedBy (h : Left lx u) (n : ℕ) : Left lx (u.advancedBy n) where
  pos := by rw [advancedBy_pos]; exact h.pos.trans (Nat.le_add_right _ _)
  modeStack := by rw [advancedBy_modeStack, h.modeStack]
  inWord := by rw [advancedBy_inWord, h.inWord]

theorem lexerAdvance (h : Left lx u) : Gives (Left lx) u.lexerAdvance := by
  unfold Lexer.lexerAdvance
  split
  · exact .ok (h.advancedBy 1)
  · exact .error

theorem lexerAdvanceNChars (h : Left lx u) (n : ℕ) : Gives (Left lx) (u.lexerAdvanceNChars n) := by
  unfold Lexer.lexerAdvanceNChars
  split
  · exact .ok (h.advancedBy n)
  · exact .error

theorem lexerEmitToken (h : Left lx u) (type : TokenType) :
    Gives (Left lx) (u.lexerEmitToken type) := by
  unfold Lexer.lexerEmitToken
  split
  · exact .error
  · exact .ok { h with }

theorem lexerFinalizeWord (hpos : lx.pos ≤ u.pos) (hstack : u.modeStack = lx.modeStack) :
    Gives (Left lx) u.lexerFinalizeWord := by
  unfold Lexer.lexerFinalizeWord
  split
  · exact .ok ⟨hpos, hstack, rfl⟩
  · exact .error

theorem endWord (lx : Lexer) : Gives (Left lx) lx.endWord := by
  unfold Lexer.endWord
  split
  · exact lexerFinalizeWord (le_refl _) rfl
  · next hword => exact .pure ⟨le_refl _, rfl, by simpa using hword⟩

theorem processDelimiter (h : Left lx u) (stripTabs : Bool) :
    Gives (fun
      | .notHeredoc _ => False
      | .success v => Left lx v
      | .error v => Left lx v) (u.processDelimiter stripTabs) := by
  unfold Lexer.processDelimiter
  extract_lets scan v
  have hv : Left lx v := h.advancedBy _
  split
  · exact .pure { hv with }
  have hstart : Gives (fun w => lx.pos ≤ w.pos ∧ w.modeStack = lx.modeStack) v.lexerStartWord := by
    unfold lexerStartWord
    split
    · exact .error
    split
    · exact .error
    · exact .ok ⟨hv.pos, hv.modeStack⟩
  refine hstart.bind fun w hw => ?_
  have happend : Gives (fun x => lx.pos ≤ x.pos ∧ x.modeStack = lx.modeStack)
      (w.lexerAppendLiteralCstrToWord scan.text) := by
    unfold lexerAppendLiteralCstrToWord
    split
    · exact .error
    · unfold onWord
      split
      · exact .ok hw
      · exact .error
  exact happend.bind fun x hx => (lexerFinalizeWord hx.1 hx.2).bind fun y hy => .pure { hy with }

theorem tracks (h : Left lx u) (hle : start ≤ lx.pos)
    (hstack : lx.modeStack = [] ∨ lx.modeStack = [.heredocBody]) : Tracks start u where
  le := hle.trans h.pos
  notNormal := by
    rw [h.modeStack]
    rcases hstack with hstack | hstack <;> rw [hstack] <;> decide
  documents hmem := by
    rw [h.modeStack] at hmem ⊢
    rcases hstack with hstack | hstack
    · rw [hstack] at hmem
      cases hmem
    · exact ⟨hstack, h.inWord⟩
  word hword := by
    rw [h.inWord] at hword
    cases hword
  entered _ hne hheredoc := by
    rw [h.modeStack] at hne hheredoc
    rcases hstack with hstack | hstack
    · exact absurd hstack hne
    · rw [hstack] at hheredoc
      exact absurd List.mem_cons_self hheredoc

end Left

/-- At the head of a turn of the normal mode. -/
structure AtWord (start : ℕ) (lx : Lexer) (tok : Token) : Prop where
  le : start ≤ lx.pos
  stack : lx.modeStack = []
  word : lx.inWord = true ∧ lx.currentToken = some tok ∨
    lx.inWord = false ∧ tok = { type := .word }
  fits : Fits lx (lx.textFrom start) tok

/-- `n` characters further in the word. -/
structure Built (lx : Lexer) (n : ℕ) (tok : Token) (u : Lexer) : Prop where
  input : u.input = lx.input
  pos : u.pos = lx.pos + n
  modeStack : u.modeStack = lx.modeStack
  inWord : u.inWord = true
  currentToken : u.currentToken = some tok

namespace Built

theorem onWord (h : Built lx n tok u) (f : Token → Token) :
    Gives (Built lx n (f tok)) (u.onWord f) := by
  unfold Lexer.onWord
  rw [h.currentToken]
  exact .ok ⟨h.input, h.pos, h.modeStack, h.inWord, rfl⟩

theorem lexerAdvance (h : Built lx n tok u) :
    Gives (fun v => Built lx (n + 1) tok v ∧ lx.pos + n < lx.input.length) u.lexerAdvance := by
  unfold Lexer.lexerAdvance
  split
  · next hlt =>
    refine .ok ⟨⟨by rw [advanced_input, h.input], by rw [advanced_pos, h.pos]; rfl,
      by rw [advanced_modeStack, h.modeStack], by rw [advanced_inWord, h.inWord],
      by rw [advanced_currentToken, h.currentToken]⟩, ?_⟩
    rwa [h.pos, h.input] at hlt
  · exact .error

theorem tracks {tok' : Token} (h : Built lx n tok' u) (hat : AtWord start lx tok)
    (hfits : Fits u (lx.textFrom start ++ lx.rest.take n) tok') : Tracks start u where
  le := by rw [h.pos]; exact hat.le.trans (Nat.le_add_right _ _)
  notNormal := by rw [h.modeStack, hat.stack]; exact List.not_mem_nil
  documents hmem := by
    rw [h.modeStack, hat.stack] at hmem
    cases hmem
  word _ := ⟨tok', h.currentToken, by rwa [textFrom_moved h.input h.pos hat.le]⟩
  entered hword := by
    rw [h.inWord] at hword
    cases hword

end Built

/-- What a turn of the normal mode leads to. -/
abbrev TurnTracks (start : ℕ) : Next Lexer Answer → Prop :=
  Next.Either (fun u => Tracks start u ∧ u.modeStack = []) fun answer => Tracks start answer.2

theorem Left.again (h : Left lx u) (hat : AtWord start lx tok) :
    TurnTracks start (.again u) :=
  ⟨h.tracks hat.le (.inl hat.stack), h.modeStack.trans hat.stack⟩

namespace AtWord

theorem currentToken (h : AtWord start lx tok) (hword : lx.inWord = true) :
    lx.currentToken = some tok := by
  rcases h.word with ⟨-, htok⟩ | ⟨hout, -⟩
  · exact htok
  · rw [hout] at hword
    cases hword

theorem ensureWord (h : AtWord start lx tok) : Gives (Built lx 0 tok) lx.ensureWord := by
  unfold Lexer.ensureWord
  rcases h.word with ⟨hword, htok⟩ | ⟨hword, rfl⟩
  · rw [if_pos hword]
    exact .ok ⟨rfl, rfl, rfl, hword, htok⟩
  · rw [if_neg (by simp [hword])]
    unfold lexerStartWord
    split
    · exact .error
    split
    · exact .error
    · exact .ok ⟨rfl, rfl, rfl, rfl, rfl⟩

/-- The lexer is where it was. -/
theorem tracks (h : AtWord start lx tok) : Tracks start lx where
  le := h.le
  notNormal := by rw [h.stack]; exact List.not_mem_nil
  documents hmem := by
    rw [h.stack] at hmem
    cases hmem
  word hword := ⟨tok, h.currentToken hword, h.fits⟩
  entered _ hne := absurd h.stack hne

/-- The lexer is further on, with the same word. -/
theorem moved (h : AtWord start lx tok) (hinput : u.input = lx.input) (hpos : u.pos = lx.pos + n)
    (hstack : u.modeStack = lx.modeStack) (hword : u.inWord = lx.inWord)
    (htok : u.currentToken = lx.currentToken)
    (hfits : Fits u (lx.textFrom start ++ lx.rest.take n) tok) : Tracks start u := by
  rcases h.word with ⟨hin, hcurrent⟩ | ⟨hout, -⟩
  · have hbuilt : Built lx n tok u :=
      ⟨hinput, hpos, hstack, hword.trans hin, htok.trans hcurrent⟩
    exact hbuilt.tracks h hfits
  · have hleft : Left lx u := ⟨by omega, hstack, hword.trans hout⟩
    exact hleft.tracks h.le (.inl h.stack)

end AtWord

theorem bracedIoLocation?_eq_some (h : lx.bracedIoLocation? = some text) :
    ∃ next more, lx.rest = text ++ next :: more ∧ isRedirectionStartChar next = true ∧
      '=' ∉ text ∧ lx.lexerPeek = lbrace := by
  unfold bracedIoLocation? at h
  split at h
  · next opening cs hrest =>
    dsimp only at h
    split at h
    · next closing next more hdrop =>
      split at h
      · next hlocation =>
        obtain ⟨rfl, -, rfl, hnext⟩ := hlocation
        cases h
        refine ⟨next, more, ?_, hnext, ?_, lexerPeek_of_rest hrest⟩
        · have htake : cs.takeWhile isNameChar = cs.take (cs.takeWhile isNameChar).length :=
            List.prefix_iff_eq_take.mp (List.takeWhile_prefix _)
          have hcs : cs = cs.takeWhile isNameChar ++ rbrace :: next :: more := by
            rw [← hdrop]
            calc cs = cs.take (cs.takeWhile isNameChar).length ++
                  cs.drop (cs.takeWhile isNameChar).length := (List.take_append_drop _ _).symm
              _ = _ := by rw [← htake]
          rw [hrest]
          nth_rewrite 1 [hcs]
          simp
        · intro hmem
          rcases List.mem_append.mp hmem with hmem | hmem
          · rcases List.mem_cons.mp hmem with heq | hmem
            · cases heq
            · exact absurd (List.mem_takeWhile_imp hmem) (by decide)
          · exact absurd hmem (by decide)
      · cases h
    · cases h
  · cases h

/-- The character is added to the word, and the word fits. -/
theorem wordTurn_tracks {tok' : Token} (hat : AtWord start lx tok)
    (hensure : Gives (Built lx 0 tok') u.ensureWord) (hpos : lx.pos < lx.input.length)
    (hfits : ∀ v : Lexer, v.modeStack = [] → v.lexerPeek = lx.lexerPeekAhead 1 →
      Fits v (lx.textFrom start ++ [lx.lexerPeek]) (tok'.appendChar false false c)) :
    Gives (TurnTracks start) (u.wordTurn c) := by
  unfold Lexer.wordTurn
  refine hensure.bind fun v hv => (hv.onWord _).bind fun w hw => hw.lexerAdvance.bind fun x hx => ?_
  have hstack : x.modeStack = [] := hx.1.modeStack.trans hat.stack
  refine .pure ⟨hx.1.tracks hat ?_, hstack⟩
  rw [take_rest_one hpos]
  refine hfits x hstack ?_
  rw [lexerPeek, lexerPeekAhead, lexerPeekAhead, hx.1.input, hx.1.pos]

/-- Where no expansion starts, what follows the dollar sign ends the word. -/
theorem not_canStart {canStart : Char → Bool}
    (h : ∀ mode n, lx.expansionAt? canStart = some (mode, n) → False) :
    canStart (lx.lexerPeekAhead 1) = false := by
  by_contra hstart
  have hstart : canStart (lx.lexerPeekAhead 1) = true := by simpa using hstart
  have hsome : ∃ mode n, lx.expansionAt? canStart = some (mode, n) := by
    unfold expansionAt?
    dsimp only
    rw [if_pos hstart]
    split_ifs <;> exact ⟨_, _, rfl⟩
  obtain ⟨mode, n, heq⟩ := hsome
  exact h mode n heq

namespace AtWord

theorem enter (h : AtWord start lx tok) {mode : LexMode} (hnormal : mode ≠ .normal)
    (hheredoc : mode ≠ .heredocBody) (hpos : lx.pos < lx.input.length) (hn : 0 < n)
    (hword : isWordChar lx.lexerPeek = true) (hlead : isLeadChar lx.lexerPeek = false)
    (hback : lx.lexerPeek ≠ backslash) : Gives (TurnTracks start) (lx.enter mode n) := by
  unfold Lexer.enter lexerAdvanceNChars
  split
  · refine Gives.bind (.ok rfl) fun u hu => .pure ?_
    subst hu
    have hstack : ((lx.lexerPushMode mode).advancedBy n).modeStack = [mode] := by
      rw [advancedBy_modeStack, lexerPushMode, h.stack]
    have hinput : ((lx.lexerPushMode mode).advancedBy n).input = lx.input := advancedBy_input ..
    have hmoved : ((lx.lexerPushMode mode).advancedBy n).pos = lx.pos + n := advancedBy_pos ..
    have hin : ((lx.lexerPushMode mode).advancedBy n).inWord = lx.inWord := advancedBy_inWord ..
    have htok : ((lx.lexerPushMode mode).advancedBy n).currentToken = lx.currentToken :=
      advancedBy_currentToken ..
    generalize (lx.lexerPushMode mode).advancedBy n = u at hstack hinput hmoved hin htok
    have hfits : Fits u (u.textFrom start) tok := by
      obtain ⟨k, rfl⟩ : ∃ k, n = k + 1 := ⟨n - 1, by omega⟩
      rw [textFrom_moved hinput hmoved h.le, rest_eq_cons hpos, List.take_succ_cons]
      exact h.fits.enter h.stack hword hlead hback (by simp [hstack])
    refine ⟨?_, ?_, ?_, ?_, ?_⟩
    · rw [hmoved]
      exact h.le.trans (Nat.le_add_right _ _)
    · rw [hstack, List.mem_singleton]
      exact hnormal.symm
    · intro hmem
      rw [hstack, List.mem_singleton] at hmem
      exact absurd hmem.symm hheredoc
    · exact fun hword => ⟨tok, htok.trans (h.currentToken (hin ▸ hword)), hfits⟩
    · intro hout _ _
      rcases h.word with ⟨hword, -⟩ | ⟨-, rfl⟩
      · rw [hin, hword] at hout
        cases hout
      · exact hfits
  · exact .error

theorem characterTurn (h : AtWord start lx tok) (hpos : lx.pos < lx.input.length)
    (hline : ¬ (lx.lexerPeek = backslash ∧ lx.lexerPeekAhead 1 = newline)) :
    Gives (TurnTracks start) lx.characterTurn := by
  unfold Lexer.characterTurn
  extract_lets c next
  split
  · next hback =>
    split
    · exact .pure h.tracks
    · refine h.ensureWord.bind fun u hu => hu.lexerAdvance.bind fun v hv =>
        (hv.1.onWord _).bind fun w hw => hw.lexerAdvance.bind fun x hx => ?_
      refine .pure ⟨hx.1.tracks h ?_, hx.1.modeStack.trans h.stack⟩
      rw [take_rest_two hx.2, show lx.lexerPeek = backslash from hback]
      exact h.fits.escape h.stack hback fun hnext => hline ⟨hback, hnext⟩
  split
  · next hback hc =>
    have hpeek : lx.lexerPeek = backtick := hc
    refine h.enter (by decide) (by decide) hpos (by decide) ?_ ?_ hback <;>
    · rw [hpeek]
      decide
  split
  · next hback _ hc =>
    have hpeek : lx.lexerPeek = squote := hc
    refine h.enter (by decide) (by decide) hpos (by decide) ?_ ?_ hback <;>
    · rw [hpeek]
      decide
  split
  · next hback _ _ hc =>
    have hpeek : lx.lexerPeek = dquote := hc
    refine h.enter (by decide) (by decide) hpos (by decide) ?_ ?_ hback <;>
    · rw [hpeek]
      decide
  split
  · next hback _ _ _ hc =>
    have hpeek : lx.lexerPeek = '$' := hc
    split
    · exact .pure h.tracks
    split
    · next hat =>
      obtain ⟨hnormal, hheredoc, hn, -⟩ := expansionAt?_eq_some hat
      refine h.enter hnormal hheredoc hpos hn ?_ ?_ hback <;>
      · rw [hpeek]
        decide
    · next hnone =>
      have hnext : isWordChar (lx.lexerPeekAhead 1) = false := by
        have hstart := not_canStart hnone
        simp only [Bool.or_eq_false_iff] at hstart
        exact hstart.1
      refine wordTurn_tracks h h.ensureWord hpos fun v hstack hv => ?_
      rw [hpeek, show c = '$' from hc]
      exact h.fits.dollar h.stack hpeek hstack (by rw [hv, hnext])
  split
  · split
    · next hout =>
      have hleft : Left lx lx := ⟨le_refl _, rfl, by simpa using hout⟩
      exact .pure ((hleft.advancedBy _).again h)
    · -- In a word the contract of `lexer_start_word` is broken.
      have hstart : Gives (fun _ => False) lx.lexerStartWord := by
        unfold lexerStartWord
        split
        · exact .error
        · rw [if_pos (by simp_all)]
          exact .error
      exact hstart.bind fun _ hfalse => hfalse.elim
  split
  · next hback hbacktick hsquote hdquote hdollar hhash hword =>
    have hlead : isLeadChar c = true := by
      simp [isLeadChar, hword, hback, hbacktick, hsquote, hdquote, hdollar]
    refine h.ensureWord.bind fun u hu => (hu.onWord _).bind fun v hv => ?_
    have hensure : Gives (Built lx 0 { tok with
        hasEqualsBeforeQuote := tok.hasEqualsBeforeQuote || c = '=' && !tok.wasQuoted })
        v.ensureWord := by
      unfold Lexer.ensureWord
      rw [if_pos hv.inWord]
      exact .ok hv
    exact wordTurn_tracks h hensure hpos fun w hstack _ =>
      h.fits.character h.stack hword hlead hstack
  · have hfits : Fits (lx.lexerSetError s!"Unexpected character '{c}'")
        (lx.textFrom start ++ lx.rest.take 0) tok := by
      rw [List.take_zero, List.append_nil]
      exact h.fits.congr rfl rfl
    exact .pure (h.moved rfl rfl rfl rfl rfl hfits)

/-- Where a token may be emitted there is no word. -/
theorem left (h : AtWord start lx tok) (hnone : ¬ lx.currentToken ≠ none) : Left lx lx := by
  refine ⟨le_refl _, rfl, ?_⟩
  rcases h.word with ⟨-, htok⟩ | ⟨hout, -⟩
  · rw [htok] at hnone
    exact absurd nofun hnone
  · exact hout

theorem lexerEmitToken (h : AtWord start lx tok) (n : ℕ) (type : TokenType) :
    Gives (Left lx) ((lx.advancedBy n).lexerEmitToken type) := by
  unfold Lexer.lexerEmitToken
  split
  · exact .error
  · next hnone =>
    rw [advancedBy_currentToken] at hnone
    have hleft : Left lx (lx.advancedBy n) := (h.left hnone).advancedBy n
    exact .ok { hleft with }

theorem processOperator (h : AtWord start lx tok) :
    Gives (fun
      | .notHeredoc v => v = lx
      | .success v => Left lx v
      | .error v => Left lx v) lx.processOperator := by
  have hdelimiter : ∀ n type stripTabs, Gives (fun
      | .notHeredoc v => v = lx
      | .success v => Left lx v
      | .error v => Left lx v) (do
        (← (lx.advancedBy n).lexerEmitToken type).lexerSkipWhitespace.processDelimiter
          stripTabs) := by
    intro n type stripTabs
    refine (h.lexerEmitToken n type).bind fun u hu => ?_
    have hblanks : Left lx u.lexerSkipWhitespace := hu.advancedBy _
    refine (hblanks.processDelimiter stripTabs).mono ?_
    rintro (v | v | v) hv
    · exact hv.elim
    · exact hv
    · exact hv
  unfold Lexer.processOperator
  split
  · exact .pure rfl
  unfold Lexer.lexerAdvanceNChars
  split
  · refine Gives.bind (.ok rfl) fun u hu => ?_
    subst hu
    split
    · unfold Lexer.lexerAdvance
      split
      · refine Gives.bind (.ok rfl) fun u hu => ?_
        subst hu
        exact hdelimiter 3 .dlessdash true
      · exact .error
    · exact hdelimiter 2 .dless false
  · exact .error

theorem operatorTurn (h : AtWord start lx tok) (hpos : lx.pos < lx.input.length)
    (hline : ¬ (lx.lexerPeek = backslash ∧ lx.lexerPeekAhead 1 = newline))
    (hnumber : lx.ioNumber? = none) : Gives (TurnTracks start) lx.operatorTurn := by
  unfold Lexer.operatorTurn
  rw [tryProcessHeredoc_eq hnumber]
  refine h.processOperator.bind fun result hresult => ?_
  cases result with
  | success v => exact .pure (Left.again hresult h)
  | error v => exact .pure (Left.tracks hresult h.le (.inl h.stack))
  | notHeredoc v =>
    obtain rfl : v = lx := hresult
    dsimp only
    split
    · exact (Left.endWord v).bind fun _ hu => (hu.lexerAdvanceNChars _).bind fun _ hu =>
        (hu.lexerEmitToken _).bind fun _ hu => .pure (hu.tracks h.le (.inl h.stack))
    · exact h.characterTurn hpos hline

/-- The location goes beside the word, which ends behind it. -/
theorem locationTurn (h : AtWord start lx tok) {text : List Char}
    (hlocation : lx.bracedIoLocation? = some text) :
    Gives (TurnTracks start) (do
      return .again (← (lx.lexerEmitIoLocationToken text).lexerAdvanceNChars text.length)) := by
  obtain ⟨next, more, hrest, hnext, hequals, hpeek⟩ := bracedIoLocation?_eq_some hlocation
  unfold Lexer.lexerAdvanceNChars
  split
  · refine Gives.bind (.ok rfl) fun u hu => ?_
    subst hu
    have hstack : ((lx.lexerEmitIoLocationToken text).advancedBy text.length).modeStack = [] :=
      (advancedBy_modeStack ..).trans h.stack
    refine .pure ⟨h.moved (advancedBy_input ..) (advancedBy_pos ..) (advancedBy_modeStack ..)
      (advancedBy_inWord ..) (advancedBy_currentToken ..) ?_, hstack⟩
    rw [hrest, List.take_left]
    refine h.fits.location h.stack (by rw [hpeek]; decide) hequals hstack ?_
    have hbehind : ((lx.lexerEmitIoLocationToken text).advancedBy text.length).rest =
        next :: more := by
      rw [rest, advancedBy_input, advancedBy_pos, ← List.drop_drop]
      change (lx.rest).drop text.length = _
      rw [hrest, List.drop_left]
    rw [lexerPeek_of_rest hbehind]
    simp only [isRedirectionStartChar, decide_eq_true_eq] at hnext
    rcases hnext with rfl | rfl <;> decide
  · exact .error

/-- A turn of the normal mode keeps the word and its text together. -/
theorem normalTurn (h : AtWord start lx tok) : Gives (TurnTracks start) lx.normalTurn := by
  unfold Lexer.normalTurn
  split
  · unfold Lexer.endOfInput
    split
    · have hfits : Fits (lx.lexerSetError "Unexpected end of input")
          (lx.textFrom start ++ lx.rest.take 0) tok := by
        rw [List.take_zero, List.append_nil]
        exact h.fits.congr rfl rfl
      exact .pure (h.moved rfl rfl rfl rfl rfl hfits)
    · exact (Left.endWord lx).bind fun _ hu => (hu.lexerEmitToken _).bind fun _ hu =>
        .pure (hu.tracks h.le (.inl h.stack))
  next hend =>
  have hpos : lx.pos < lx.input.length := by
    rw [lexerAtEnd_iff] at hend
    omega
  extract_lets c
  split
  · next hline =>
    have htwo : lx.pos + 1 < lx.input.length → ∀ u : Lexer, u = lx.advancedBy 2 →
        Tracks start u := by
      rintro hlt u rfl
      refine h.moved (advancedBy_input ..) (advancedBy_pos ..) (advancedBy_modeStack ..)
        (advancedBy_inWord ..) (advancedBy_currentToken ..) ?_
      rw [take_rest_two hlt, hline.2, show lx.lexerPeek = backslash from hline.1]
      exact h.fits.continuation h.stack hline.1 ((advancedBy_modeStack ..).trans h.stack)
    unfold Lexer.lexerAdvance
    rw [if_pos hpos]
    refine Gives.bind (.ok rfl) fun u hu => ?_
    subst hu
    split
    · next hlt =>
      rw [advanced_pos, advanced_input] at hlt
      refine Gives.bind (.ok rfl) fun u hu => ?_
      split
      · exact .pure (htwo hlt u hu.symm)
      · refine .pure ⟨htwo hlt u hu.symm, ?_⟩
        rw [← hu, advanced_modeStack, advanced_modeStack, h.stack]
    · exact Gives.bind (.error : Gives (fun _ => False) _) fun _ hfalse => hfalse.elim
  next hline =>
  split
  · exact (Left.endWord lx).bind fun _ hu => .pure ((hu.advancedBy _).again h)
  split
  · unfold Lexer.newlineTurn
    refine (Left.endWord lx).bind fun _ hu => hu.lexerAdvance.bind fun _ hu =>
      (hu.lexerEmitToken _).bind fun u hu => ?_
    split
    · have hpushed : Left _ (lexerPushMode { u with readingHeredoc := true, heredocIndex := 0 }
        .heredocBody) := ⟨le_refl _, rfl, hu.inWord⟩
      refine .pure (hpushed.tracks (h.le.trans hu.pos) (.inr ?_))
      rw [lexerPushMode, hu.modeStack, h.stack]
    · exact .pure (hu.again h)
  unfold Lexer.redirectionTurn
  split
  · unfold lexerEmitIoNumberToken
    split
    · exact .error
    · next hnone =>
      have hleft := h.left hnone
      refine Gives.bind (.ok rfl) fun u hu => ?_
      have hu : Left lx u := hu ▸ { hleft with }
      exact (hu.lexerAdvanceNChars _).bind fun _ hu => .pure (hu.again h)
  · next hnumber =>
    split
    · next hlocation => exact h.locationTurn hlocation
    · exact h.operatorTurn hpos hline hnumber

end AtWord

/-! ## The other modes -/

/-- Within a word that began at the position. -/
structure Within (start : ℕ) (lx : Lexer) : Prop where
  le : start ≤ lx.pos
  notNormal : LexMode.normal ∉ lx.modeStack
  notDocument : LexMode.heredocBody ∉ lx.modeStack
  inWord : lx.inWord = true

theorem Within.advanced (h : Within start lx) : Within start lx.advanced where
  le := by rw [advanced_pos]; exact h.le.trans (Nat.le_succ _)
  notNormal := by rw [advanced_modeStack]; exact h.notNormal
  notDocument := by rw [advanced_modeStack]; exact h.notDocument
  inWord := by rw [advanced_inWord, h.inWord]

theorem textFrom_advanced (hle : start ≤ lx.pos) :
    lx.advanced.textFrom start = lx.textFrom start ++ lx.rest.take 1 :=
  textFrom_moved (advanced_input ..) (advanced_pos ..) hle

/-- Within a word that is settled. -/
structure SettledWord (start : ℕ) (lx : Lexer) : Prop extends Within start lx where
  word : ∃ tok, lx.currentToken = some tok ∧ Settled (lx.textFrom start) tok

/-- Within a word that is settled, or that the mode is about to settle. -/
structure UnsettledWord (start : ℕ) (lx : Lexer) : Prop extends Within start lx where
  stack : lx.modeStack ≠ []
  word : ∃ tok, lx.currentToken = some tok ∧ (Settled (lx.textFrom start) tok ∨
    '=' ∉ lead (lx.textFrom start) ∧ LeadEnds (lx.textFrom start) ∧ Plain tok)

theorem stable_settledWord (start : ℕ) : Stable (SettledWord start) where
  advanced h := by
    obtain ⟨tok, htok, hsettled⟩ := h.word
    refine ⟨h.toWithin.advanced, tok, advanced_currentToken.trans htok, ?_⟩
    rw [textFrom_advanced h.le]
    exact hsettled.append _
  push hnormal hheredoc h :=
    ⟨⟨h.le, fun hmem => (List.mem_cons.mp hmem).elim (fun heq => hnormal heq.symm) h.notNormal,
      fun hmem => (List.mem_cons.mp hmem).elim (fun heq => hheredoc heq.symm) h.notDocument,
      h.inWord⟩, h.word⟩
  pop h := ⟨⟨h.le, fun hmem => h.notNormal (List.mem_of_mem_tail hmem),
    fun hmem => h.notDocument (List.mem_of_mem_tail hmem), h.inWord⟩, h.word⟩
  setError h := { h with }
  word h htok hf := by
    obtain ⟨tok, htok', hsettled⟩ := h.word
    obtain rfl := Option.some.inj (htok.symm.trans htok')
    exact ⟨⟨h.le, h.notNormal, h.notDocument, h.inWord⟩, _, rfl, hsettled.change hf.change⟩

theorem expands_unsettledWord (start : ℕ) :
    Expands (UnsettledWord start) (SettledWord start) (SettledWord start) where
  advanced h := by
    obtain ⟨tok, htok, hword⟩ := h.word
    refine ⟨h.toWithin.advanced, by rw [advanced_modeStack]; exact h.stack, tok,
      advanced_currentToken.trans htok, ?_⟩
    rw [textFrom_advanced h.le]
    rcases hword with hsettled | ⟨hequals, hends, hplain⟩
    · exact .inl (hsettled.append _)
    · exact .inr ⟨by rwa [hends], hends.append _, hplain⟩
  setError h := { h with }
  part h htok htype := by
    obtain ⟨tok, htok', hword⟩ := h.word
    obtain rfl := Option.some.inj (htok.symm.trans htok')
    refine ⟨⟨h.le, h.notNormal, h.notDocument, h.inWord⟩, _, rfl, ?_⟩
    rcases hword with hsettled | ⟨hequals, hends, hplain⟩
    · exact hsettled.change (.part _)
    · exact .barred hequals hends (hplain.addPart htype)
  advancedPart h := (stable_settledWord start).advanced h
  pop h := (stable_settledWord start).pop h

theorem SettledWord.tracks (h : SettledWord start lx) : Tracks start lx where
  le := h.le
  notNormal := h.notNormal
  documents hmem := absurd hmem h.notDocument
  word _ := by
    obtain ⟨tok, htok, hsettled⟩ := h.word
    exact ⟨tok, htok, .settled hsettled⟩
  entered hword := by
    rw [h.inWord] at hword
    cases hword

theorem UnsettledWord.tracks (h : UnsettledWord start lx) : Tracks start lx where
  le := h.le
  notNormal := h.notNormal
  documents hmem := absurd hmem h.notDocument
  word _ := by
    obtain ⟨tok, htok, hsettled | ⟨hequals, hends, hplain⟩⟩ := h.word
    · exact ⟨tok, htok, .settled hsettled⟩
    · exact ⟨tok, htok, .entered h.stack hequals hends hplain⟩
  entered hword := by
    rw [h.inWord] at hword
    cases hword

namespace Tracks

theorem ensureWord (h : Tracks start lx) (hstack : lx.modeStack ≠ [])
    (hheredoc : LexMode.heredocBody ∉ lx.modeStack) :
    Gives (UnsettledWord start) lx.ensureWord := by
  have hfits : ∀ {tok}, Fits lx (lx.textFrom start) tok → Settled (lx.textFrom start) tok ∨
      '=' ∉ lead (lx.textFrom start) ∧ LeadEnds (lx.textFrom start) ∧ Plain tok := by
    intro tok hfits
    cases hfits with
    | settled h => exact .inl h
    | entered _ hequals hends h => exact .inr ⟨hequals, hends, h⟩
    | growing hnil => exact absurd hnil hstack
    | ending hnil => exact absurd hnil hstack
  unfold Lexer.ensureWord
  split
  · next hword =>
    obtain ⟨tok, htok, hfit⟩ := h.word hword
    exact .pure ⟨⟨h.le, h.notNormal, hheredoc, hword⟩, hstack, tok, htok, hfits hfit⟩
  · next hword =>
    have hfit := h.entered (by simpa using hword) hstack hheredoc
    unfold lexerStartWord
    split
    · exact .error
    · exact .ok ⟨⟨h.le, h.notNormal, hheredoc, rfl⟩, hstack, _, rfl, hfits hfit⟩

theorem startQuoted (h : Tracks start lx) (hstack : lx.modeStack ≠ [])
    (hheredoc : LexMode.heredocBody ∉ lx.modeStack) :
    Gives (SettledWord start) lx.startQuoted := by
  refine (h.ensureWord hstack hheredoc).bind fun u hu => ?_
  obtain ⟨tok, htok, hword⟩ := hu.word
  unfold onWord
  rw [htok]
  refine .ok ⟨⟨hu.le, hu.notNormal, hu.notDocument, hu.inWord⟩, _, rfl, ?_⟩
  rcases hword with hsettled | ⟨hequals, hends, hplain⟩
  · exact hsettled.change .quoted
  · exact .barred hequals hends hplain.quoted

theorem wordMode (h : Tracks start lx) (hstack : lx.modeStack ≠ [])
    (hheredoc : LexMode.heredocBody ∉ lx.modeStack) :
    Gives (fun answer => answer.2.inWord = true ∧ Tracks start answer.2) lx.lexerProcessMode := by
  have hstable := stable_settledWord start
  have hexpands := expands_unsettledWord start
  have hensure := h.ensureWord hstack hheredoc
  have hquoted := h.startQuoted hstack hheredoc
  have hsettled : ∀ answer : Answer, Stable.Answers (SettledWord start) answer →
      answer.2.inWord = true ∧ Tracks start answer.2 := fun _ h => ⟨h.inWord, h.tracks⟩
  have hanswer : ∀ answer : Answer,
      Expands.Answers (UnsettledWord start) (SettledWord start) answer →
        answer.2.inWord = true ∧ Tracks start answer.2 := by
    rintro answer (h | h)
    · exact ⟨h.inWord, h.tracks⟩
    · exact ⟨h.inWord, h.tracks⟩
  have hmem : lx.lexerCurrentMode ∈ lx.modeStack := by
    unfold lexerCurrentMode
    cases hcons : lx.modeStack with
    | nil => exact absurd hcons hstack
    | cons mode stack => exact List.mem_cons_self
  unfold lexerProcessMode
  cases hmode : lx.lexerCurrentMode with
  | normal => exact absurd (hmode ▸ hmem) h.notNormal
  | heredocBody => exact absurd (hmode ▸ hmem) hheredoc
  | singleQuote => exact (hstable.lexerProcessSquote hquoted).mono hsettled
  | doubleQuote => exact (hstable.lexerProcessDquote hquoted).mono hsettled
  | paramExpBraced => exact (hexpands.lexerProcessParamExpBraced hensure).mono hanswer
  | paramExpUnbraced => exact (hexpands.lexerProcessParamExpUnbraced hensure).mono hanswer
  | arithExp => exact (hexpands.lexerProcessArithExp hensure).mono hanswer
  | cmdSubstParen =>
    have hcall := hexpands.lexerProcessCmdSubstParen hensure fun _ _ _ _ _ _ h => { h with }
    exact hcall.mono hanswer
  | cmdSubstBacktick =>
    have hcall := hexpands.lexerProcessCmdSubstBacktick hensure fun _ _ _ _ _ _ h => { h with }
    exact hcall.mono hanswer

end Tracks

/-! ## Here-documents -/

/-- In a here-document there is no word. -/
theorem Left.heredocTurn {t : TextScan} {stack : List LexMode}
    (h : Left lx t.lx) (hstack : lx.modeStack = .heredocBody :: stack) (entry : HeredocEntry) :
    Gives (Next.Either (fun t => Left lx t.lx) fun answer => answer.2.inWord = false ∧
      (answer.2.modeStack = .heredocBody :: stack ∨ answer.2.modeStack = stack))
      (Lexer.heredocTurn entry t) := by
  have hcontent : ∀ (v : Lexer) text, Left lx v → Gives (Left lx) (v.appendContent text) := by
    intro v text hv
    unfold appendContent onWord
    split
    · exact .ok { hv with }
    · exact .error
  have hskip : Left lx (t.lx.skipTabs entry) := by
    unfold skipTabs
    split
    · exact h.advancedBy _
    · exact h
  have hcheck : Gives (fun answer => Left lx answer.2)
      ((t.lx.skipTabs entry).lexerCheckHeredocDelimiter entry) := by
    unfold lexerCheckHeredocDelimiter
    split
    · exact .pure hskip
    split
    · exact (hskip.lexerAdvanceNChars _).bind fun _ hu => .pure hu
    split
    · exact (hskip.lexerAdvanceNChars _).bind fun _ hu => .pure hu
    · exact .pure hskip
  unfold Lexer.heredocTurn
  split
  · exact (hcontent _ _ h).bind fun _ hu => .pure ⟨hu.inWord, .inl (hu.modeStack.trans hstack)⟩
  refine hcheck.bind fun answer hv => ?_
  obtain ⟨found, v⟩ := answer
  cases found with
  | true =>
    refine (hcontent v _ hv).bind fun u hu => .pure ?_
    have hu := hu.modeStack.trans hstack
    unfold finishHeredoc
    extract_lets content w
    split
    · exact ⟨rfl, .inr (congrArg List.tail hu)⟩
    · exact ⟨rfl, .inl hu⟩
  | false =>
    dsimp only at hv ⊢
    rw [if_neg Bool.false_ne_true]
    unfold readLine
    dsimp only
    split
    · exact hv.lexerAdvance.bind fun _ hu => .pure { hu with }
    split
    · exact hv.lexerAdvance.bind fun _ hu => hu.lexerAdvance.bind fun _ hu => .pure { hu with }
    split
    · exact hv.lexerAdvance.bind fun _ hu => hu.lexerAdvance.bind fun _ hu => .pure hu
    · exact hv.lexerAdvance.bind fun _ hu => .pure hu

theorem Tracks.heredocMode (h : Tracks start lx) (hheredoc : .heredocBody ∈ lx.modeStack) :
    Gives (fun answer => answer.2.inWord = false ∧ Tracks answer.2.pos answer.2)
      lx.lexerProcessMode := by
  obtain ⟨hstack, hword⟩ := h.documents hheredoc
  have htracks : ∀ {u : Lexer}, u.inWord = false → u.modeStack = [.heredocBody] ∨ u.modeStack = [] →
      u.inWord = false ∧ Tracks u.pos u := by
    intro u hout hu
    have hleft : Left u u := ⟨le_refl _, rfl, hout⟩
    exact ⟨hout, hleft.tracks (le_refl _) hu.symm⟩
  have hmode : lx.lexerCurrentMode = .heredocBody := by rw [lexerCurrentMode, hstack]; rfl
  unfold lexerProcessMode
  rw [hmode]
  dsimp only
  unfold lexerProcessHeredocBody
  split
  · exact .pure (htracks hword (.inl hstack))
  · next entry hentry =>
    have hstart : Left lx lx.startDocument := by
      unfold startDocument
      split
      · exact ⟨le_refl _, rfl, hword⟩
      · exact ⟨le_refl _, rfl, hword⟩
    have hturns : ∀ t : TextScan, Left lx t.lx → Gives (Next.Either (fun t => Left lx t.lx)
        fun answer => answer.2.inWord = false ∧
          (answer.2.modeStack = [.heredocBody] ∨ answer.2.modeStack = []))
        (Lexer.heredocTurn entry t) := fun t ht => ht.heredocTurn hstack entry
    exact (gives_iterate hturns (s := { lx := lx.startDocument }) hstart lx.turns).mono
      fun answer h => htracks h.1 h.2

/-! ## The run -/

theorem Tracks.atWord {s : Traced} (h : Tracks s.wordStart s.lx) (hstack : s.lx.modeStack = []) :
    ∃ tok, AtWord s.wordFrom s.lx tok := by
  unfold Traced.wordFrom
  cases hword : s.lx.inWord with
  | true =>
    obtain ⟨tok, htok, hfits⟩ := h.word hword
    exact ⟨tok, h.le, hstack, .inl ⟨hword, htok⟩, hfits⟩
  | false =>
    have htext : s.lx.textFrom s.lx.pos = [] := by
      rw [textFrom, List.drop_eq_nil_of_le]
      exact List.length_take_le _ _
    refine ⟨_, le_refl _, hstack, .inr ⟨hword, rfl⟩, ?_⟩
    simp only [Bool.false_eq_true, if_false, htext]
    exact .fresh hstack

/-- The invariant at the heads of the turns of a call of the normal mode. -/
theorem Tracks.normalTurn {s : Traced} (h : Tracks s.wordStart s.lx)
    (hstack : s.lx.modeStack = []) :
    Gives (Next.Either (fun u => Tracks u.wordStart u.lx ∧ u.lx.modeStack = [])
      fun answer => Tracks answer.2.wordStart answer.2.lx) (tracedNormalTurn s) := by
  obtain ⟨tok, hat⟩ := h.atWord hstack
  refine hat.normalTurn.bind fun next hnext => ?_
  cases next with
  | again u => exact .pure hnext
  | done answer => exact .pure hnext

theorem Tracks.modeStack_eq_nil (h : Tracks start lx) (hmode : lx.lexerCurrentMode = .normal) :
    lx.modeStack = [] := by
  have hnormal := h.notNormal
  unfold lexerCurrentMode at hmode
  cases hstack : lx.modeStack with
  | nil => rfl
  | cons mode stack =>
    rw [hstack] at hmode hnormal
    exact absurd List.mem_cons_self (hmode ▸ hnormal)

theorem Tracks.processMode {s : Traced} (h : Tracks s.wordStart s.lx) :
    Gives (fun answer => Tracks answer.2.wordStart answer.2.lx) (tracedProcessMode s) := by
  unfold tracedProcessMode
  split
  · next hmode =>
    have hturns : ∀ t : Traced, (Tracks t.wordStart t.lx ∧ t.lx.modeStack = []) →
        Gives (Next.Either (fun u => Tracks u.wordStart u.lx ∧ u.lx.modeStack = [])
          fun answer => Tracks answer.2.wordStart answer.2.lx) (tracedNormalTurn t) :=
      fun t ht => ht.1.normalTurn ht.2
    exact gives_iterate hturns ⟨h, h.modeStack_eq_nil hmode⟩ _
  next hmode =>
  have hstack : s.lx.modeStack ≠ [] := by
    intro hnil
    rw [lexerCurrentMode, hnil] at hmode
    exact hmode rfl
  by_cases hheredoc : .heredocBody ∈ s.lx.modeStack
  · refine (h.heredocMode hheredoc).bind fun answer hanswer => .pure ?_
    simp only [Traced.afterCall, hanswer.1, Bool.false_eq_true, if_false]
    exact hanswer.2
  · refine (h.wordMode hstack hheredoc).bind fun answer hanswer => .pure ?_
    simp only [Traced.afterCall, hanswer.1, if_true]
    exact hanswer.2

theorem tracks_of_visits {t : Tracing} (h : Visits tracedTokenizeTurn (startTracing input) t) :
    Tracks t.wordStart t.s.lx := by
  induction h with
  | start =>
    have hleft : Left (lexerCreateWithInput input) (lexerCreateWithInput input) :=
      ⟨le_refl _, rfl, rfl⟩
    exact hleft.tracks (le_refl _) (.inl rfl)
  | next _ hturn ih =>
    obtain ⟨status, called, hcall, hword, -, hs⟩ := tracedTokenizeTurn_call hturn
    have hcalled : Tracks called.wordStart called.lx :=
      (Tracks.processMode (s := Tracing.head _) ih).answer _ hcall
    rw [hword]
    rcases hs with hs | hs
    · rw [hs]
      exact hcalled
    · rw [hs]
      refine ⟨hcalled.le, hcalled.notNormal, hcalled.documents, fun hin => ?_,
        fun hout hne hno => ?_⟩
      · obtain ⟨tok, htok, hfits⟩ := hcalled.word hin
        exact ⟨tok, htok, hfits.congr rfl rfl⟩
      · exact (hcalled.entered hout hne hno).congr rfl rfl

end Migash.Lexer
