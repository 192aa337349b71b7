import Migash.Parser.Progress

/-! # The in part of a for clause

What stands behind the name of a for clause, and what `gparse_for_clause` makes
of it: no node without an in part, and a node without a word list for one
without words.
-/

namespace Migash

/-- Is it the word `in`? -/
def Token.isIn (tok : Token) : Bool := tok.type = .in_ || (tok.tryPromote "in" .in_).isSome

namespace Parser

open Library Forward

variable {s t : Parser} {m : Production Gnode} {g : Gnode}

/-- The tokens that are left. -/
def rest (s : Parser) : List Token := s.tokens.drop s.position

/-- The words behind `in`, if the text behind the name starts with it. -/
def inPart? (toks : List Token) : Option (List Token) :=
  match toks.dropWhile (·.type = .newline) with
  | [] => none
  | tok :: toks => if tok.isIn then some (toks.takeWhile (·.type = .word)) else none

/-! ## The tokens that are left -/

theorem currentToken?_eq_head? (s : Parser) : s.currentToken? = s.rest.head? :=
  List.head?_drop.symm

theorem rest_advance (s : Parser) : s.advance.rest = s.rest.tail := by
  rw [rest, rest, advance_tokens, List.tail_drop]
  by_cases h : s.position < s.tokens.length
  · rw [advance_position h]
  · have hsame : s.advance = s := by simp [advance, h]
    rw [hsame, List.drop_eq_nil_of_le (by omega), List.drop_eq_nil_of_le (by omega)]

theorem rest_skipNewlines (s : Parser) :
    s.skipNewlines.rest = s.rest.dropWhile (·.type = .newline) := by
  induction h : remaining s using Nat.strong_induction_on generalizing s with
  | _ n ih =>
    by_cases hnl : s.currentTokenType = .newline
    · obtain ⟨tok, htok, htype⟩ := exists_token (s := s) (by simp [hnl])
      have hlt := remaining_advance (position_lt (s := s) (by simp [hnl]))
      rw [skipNewlines_of_newline hnl, ih _ (h ▸ hlt) _ rfl, rest_advance]
      rw [currentToken?_eq_head?] at htok
      obtain ⟨toks, hrest⟩ := List.head?_eq_some_iff.mp htok
      rw [hrest, List.tail_cons, List.dropWhile_cons_of_pos (by simp [htype, hnl])]
    · rw [skipNewlines_of_ne hnl]
      cases hrest : s.rest with
      | nil => rfl
      | cons tok toks =>
        have htype : s.currentTokenType = tok.type := by
          rw [currentTokenType, currentToken?_eq_head?, hrest]
          rfl
        rw [List.dropWhile_cons_of_neg (by simpa [htype] using hnl)]

theorem rest_tryPromote (s : Parser) (word : String) (type : TokenType) :
    (s.tryPromote 0 word type).rest =
      s.rest.modifyHead fun tok => (tok.tryPromote word type).getD tok := by
  have hpeek : s.peekToken? 0 = s.rest.head? := currentToken?_eq_head? s
  unfold tryPromote
  cases hrest : s.rest with
  | nil =>
    rw [hpeek, hrest]
    exact hrest
  | cons tok toks =>
    rw [hpeek, hrest, List.head?_cons, Option.bind_some]
    cases hpromote : tok.tryPromote word type with
    | none =>
      rw [List.modifyHead_cons, hpromote]
      exact hrest
    | some tok' =>
      change (s.tokens.set (s.position + 0) tok').drop s.position = _
      rw [List.drop_set, if_neg (by omega), List.modifyHead_cons, hpromote]
      change (s.rest).set _ tok' = _
      rw [hrest, Nat.add_zero, Nat.sub_self]
      rfl

theorem currentTokenType_of_rest {tok : Token} {toks : List Token} (h : s.rest = tok :: toks) :
    s.currentTokenType = tok.type := by
  rw [currentTokenType, currentToken?_eq_head?, h]
  rfl

/-! ## The node -/

theorem isIn_iff (tok : Token) :
    tok.isIn = true ↔ ((tok.tryPromote "in" .in_).getD tok).type = .in_ := by
  unfold Token.isIn
  cases hpromote : tok.tryPromote "in" .in_ with
  | none => simp
  | some tok' =>
    unfold Token.tryPromote at hpromote
    split_ifs at hpromote
    cases hpromote
    simp

theorem currentTokenType_of_nil (h : s.rest = []) : s.currentTokenType = .eof := by
  rw [currentTokenType, currentToken?_eq_head?, h]
  rfl

theorem gparseInClause_none (h : inPart? s.rest = none) :
    ∃ e u, gparseInClause.run s = .fail e u := by
  let u := s.skipNewlines.tryPromote 0 "in" .in_
  have hne : u.currentTokenType ≠ .in_ := by
    unfold inPart? at h
    rw [← rest_skipNewlines] at h
    have hrest := rest_tryPromote s.skipNewlines "in" .in_
    cases hskip : s.skipNewlines.rest with
    | nil =>
      rw [hskip] at hrest
      rw [currentTokenType_of_nil hrest]
      decide
    | cons tok toks =>
      rw [hskip] at h hrest
      rw [currentTokenType_of_rest hrest, Ne, ← isIn_iff]
      intro hin
      simp [hin] at h
  refine ⟨.error, u.setError "Expected 'in' keyword", ?_⟩
  have hexpect : (expect .in_ "Expected 'in' keyword").run u =
      .fail .error (u.setError "Expected 'in' keyword") := by rw [run_expect, if_neg hne]
  simp only [gparseInClause, parserTokenTryPromoteToIn, run_bind, run_parserSkipNewlines,
    run_tryPromoteTo, Reply.bind_ok]
  rw [hexpect]
  rfl

theorem gparseInClause_empty (h : inPart? s.rest = some []) :
    ∃ tok origin u, gparseInClause.run s = .ok (.token .inNode .token tok origin) u := by
  let u := s.skipNewlines.tryPromote 0 "in" .in_
  unfold inPart? at h
  rw [← rest_skipNewlines] at h
  have hrest := rest_tryPromote s.skipNewlines "in" .in_
  cases hskip : s.skipNewlines.rest with
  | nil =>
    rw [hskip] at h
    cases h
  | cons tok toks =>
    rw [hskip] at h hrest
    dsimp only at h
    split_ifs at h with hin
    have hword : u.advance.currentTokenType ≠ .word := by
      have htail : u.advance.rest = toks := by rw [rest_advance, hrest]; rfl
      cases toks with
      | nil =>
        rw [currentTokenType_of_nil htail]
        decide
      | cons next toks =>
        rw [currentTokenType_of_rest htail]
        intro heq
        simp [heq] at h
    have htype : u.currentTokenType = .in_ :=
      (currentTokenType_of_rest hrest).trans ((isIn_iff tok).mp hin)
    have htok : u.currentToken? = some ((tok.tryPromote "in" .in_).getD tok) := by
      rw [currentToken?_eq_head?, hrest]
      rfl
    have hexpect : (expect .in_ "Expected 'in' keyword").run u = .ok () u := by
      rw [run_expect, if_pos htype]
    have hwords : (attempt gparseWordlist).run u.advance =
        .ok (.error .error) (u.advance.setError "Expected word in wordlist") := by
      have hfail : gparseWordlist.run u.advance =
          .fail .error (u.advance.setError "Expected word in wordlist") := by
        rw [gparseWordlist, run_bind, run_expect, if_neg hword]
        rfl
      rw [run_attempt, hfail]
    refine ⟨(tok.tryPromote "in" .in_).getD tok, u.position,
      u.advance.setError "Expected word in wordlist", ?_⟩
    simp only [gparseInClause, parserTokenTryPromoteToIn, run_bind, run_parserSkipNewlines,
      run_tryPromoteTo, Reply.bind_ok]
    rw [hexpect, Reply.bind_ok, run_cloneToken htok, Reply.bind_ok, run_parserAdvance,
      Reply.bind_ok, hwords]
    rfl

/-- The node of a for clause tells an absent in part from one without words. -/
theorem gparseForClause_ok (h : (gparseForClause m).run s = .ok g t) :
    ∃ forTok nameTok i j inClause doGrp,
      g = .ofMulti .forClause (some (.ofToken .wordNode forTok i))
        (some (.ofToken .nameNode nameTok j)) inClause (some doGrp) ∧
      (inPart? (s.tokens.drop (s.position + 2)) = none → inClause = none) ∧
      (inPart? (s.tokens.drop (s.position + 2)) = some [] →
        ∃ tok origin, inClause = some (.token .inNode .token tok origin)) := by
  simp only [gparseForClause, run_bind, Reply.bind_eq_ok] at h
  obtain ⟨_, s₁, hrequire, forTok, s₂, hfor, _, s₃, hexpect, name, s₄, hname, inClause, s₅, hin, _,
    s₆, -, doGrp, s₇, -, hpure⟩ := h
  rw [run_require] at hrequire
  split_ifs at hrequire with htype
  cases hrequire
  obtain ⟨tok, htok, -⟩ := exists_token (s := s) (by rw [htype]; decide)
  rw [run_takeLeaf htok] at hfor
  cases hfor
  rw [run_expect] at hexpect
  split_ifs at hexpect with htype'
  cases hexpect
  obtain ⟨tok', htok', -⟩ := exists_token (s := s.advance) (by rw [htype']; decide)
  rw [run_takeLeaf htok'] at hname
  cases hname
  cases hpure
  have hrest : s.advance.advance.rest = s.tokens.drop (s.position + 2) := by
    rw [rest_advance, rest_advance, rest, List.tail_drop, List.tail_drop]
  rw [run_attempt] at hin
  refine ⟨tok, tok', s.position, s.advance.position, inClause.toOption, doGrp, rfl, ?_, ?_⟩
  · intro hnone
    obtain ⟨e, u, hfail⟩ := gparseInClause_none (hrest ▸ hnone)
    rw [hfail] at hin
    cases hin
    rfl
  · intro hempty
    obtain ⟨inTok, origin, u, hok⟩ := gparseInClause_empty (hrest ▸ hempty)
    rw [hok] at hin
    cases hin
    exact ⟨inTok, origin, rfl⟩

end Parser

end Migash
