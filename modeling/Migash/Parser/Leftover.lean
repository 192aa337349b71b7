import Migash.Parser.Stops

/-! # What an accepted program leaves unread

`gparse_program` never looks for the end of the token list. It accepts with
tokens left over exactly when some accepted pipeline is followed by something
that does not connect it to the end of the input.
-/

namespace Migash.Parser

open Library Forward

variable {gparseCompoundList : Production Gnode}

/-! ## Connected input -/

/-- The input behind an accepted pipeline is connected to the end: it is over, or an operator,
a separator or newlines lead to a further pipeline that is accepted and followed by connected
input, or a last separator or newlines end it. The state after a separator that is followed by a
newline carries the message of the attempt to read a pipeline there. -/
inductive Connected (gparseCompoundList : Production Gnode) : Parser → Prop where
  | done {s : Parser} (hend : s.atEnd) : Connected gparseCompoundList s
  | operator {s t : Parser} {node : Gnode}
      (hop : s.currentTokenType = .andIf ∨ s.currentTokenType = .orIf)
      (hnext : (gparsePipeline gparseCompoundList).run s.advance.skipNewlines = .ok node t)
      (hrest : Connected gparseCompoundList t) : Connected gparseCompoundList s
  | separator {s t : Parser} {node : Gnode}
      (hsep : s.currentTokenType = .amper ∨ s.currentTokenType = .semi)
      (hnext : (gparsePipeline gparseCompoundList).run s.advance = .ok node t)
      (hrest : Connected gparseCompoundList t) : Connected gparseCompoundList s
  | lastSeparator {s : Parser}
      (hsep : s.currentTokenType = .amper ∨ s.currentTokenType = .semi)
      (hend : s.advance.atEnd) : Connected gparseCompoundList s
  | separatorNewline {s : Parser}
      (hsep : s.currentTokenType = .amper ∨ s.currentTokenType = .semi)
      (hnl : s.advance.currentTokenType = .newline)
      (hrest : Connected gparseCompoundList (s.advance.setError noOpenerText)) :
      Connected gparseCompoundList s
  | newline {s t : Parser} {node : Gnode} (hnl : s.currentTokenType = .newline)
      (hnext : (gparsePipeline gparseCompoundList).run s.skipNewlines = .ok node t)
      (hrest : Connected gparseCompoundList t) : Connected gparseCompoundList s
  | lastNewline {s : Parser} (hnl : s.currentTokenType = .newline) (hend : s.skipNewlines.atEnd) :
      Connected gparseCompoundList s

/-! ## The rest of a program behind a pipeline -/

section Rest

variable (gparseCompoundList)

/-- What is left of `gparse_program` behind the list of a complete command. -/
private def afterCommands (cmds : List Gnode) : Production (List Gnode) := do
  let cmds ← loop (completeCommandsStep gparseCompoundList) cmds
  parserSkipNewlines
  return cmds

/-- What is left of it behind an and_or of a list. -/
private def afterAndOr (nodes cmds : List Gnode) : Production (List Gnode) := do
  let nodes ← loop (listStep gparseCompoundList) nodes
  let sep ← attempt gparseSeparatorOp
  afterCommands gparseCompoundList
    (cmds ++ [.ofMulti .completeCommand (some (.ofList .list nodes)) sep.toOption none none])

/-- What is left of it behind a pipeline of an and_or. -/
private def afterPipeline (left : Gnode) (nodes cmds : List Gnode) : Production (List Gnode) := do
  let andOr ← loop (andOrStep gparseCompoundList) left
  afterAndOr gparseCompoundList (nodes ++ [andOr]) cmds

end Rest

private theorem run_afterPipeline_operator {s t : Parser} {node : Gnode}
    (hop : s.currentTokenType = .andIf ∨ s.currentTokenType = .orIf)
    (hnext : (gparsePipeline gparseCompoundList).run s.advance.skipNewlines = .ok node t)
    (left : Gnode) (nodes cmds : List Gnode) :
    ∃ left', (afterPipeline gparseCompoundList left nodes cmds).run s =
      (afterPipeline gparseCompoundList left' nodes cmds).run t := by
  obtain ⟨tok, htok, -⟩ := exists_token (s := s) (by rcases hop with h | h <;> simp [h])
  refine ⟨.ofMulti .andOr (some left) (some (.ofToken .andOr tok s.position)) (some node) none, ?_⟩
  have hstep : (andOrStep gparseCompoundList left).run s =
      .ok (some (.ofMulti .andOr (some left) (some (.ofToken .andOr tok s.position))
        (some node) none)) t := by
    have hne : ¬ (s.currentTokenType ≠ .andIf ∧ s.currentTokenType ≠ .orIf) := by
      rcases hop with h | h <;> simp [h]
    simp [andOrStep, hne, orRewind, run_orBack, gparseAndOrTail, run_cloneToken htok, hnext]
  simp only [afterPipeline, run_bind]
  rw [run_loop consumes_andOrStep, hstep]
  rfl

private theorem run_afterPipeline_stop {s : Parser}
    (hop : ¬ (s.currentTokenType = .andIf ∨ s.currentTokenType = .orIf))
    (left : Gnode) (nodes cmds : List Gnode) :
    (afterPipeline gparseCompoundList left nodes cmds).run s =
      (afterAndOr gparseCompoundList (nodes ++ [left]) cmds).run s := by
  rw [not_or] at hop
  have hstep : (andOrStep gparseCompoundList left).run s = .ok none s := by
    simp [andOrStep, hop]
  simp [afterPipeline, run_loop_break hstep]

/-- An operator that no pipeline follows is given back, and with it all that follows. -/
private theorem run_afterPipeline_giveBack {s t : Parser} {e : ParseFailure}
    (hop : s.currentTokenType = .andIf ∨ s.currentTokenType = .orIf)
    (hnext : (gparsePipeline gparseCompoundList).run s.advance.skipNewlines = .fail e t)
    (left : Gnode) (nodes cmds : List Gnode) :
    (afterPipeline gparseCompoundList left nodes cmds).run s =
      (afterAndOr gparseCompoundList (nodes ++ [left]) cmds).run
        (t.rewindToPosition s.position) := by
  obtain ⟨tok, htok, -⟩ := exists_token (s := s) (by rcases hop with h | h <;> simp [h])
  have hne : ¬ (s.currentTokenType ≠ .andIf ∧ s.currentTokenType ≠ .orIf) := by
    rcases hop with h | h <;> simp [h]
  have hstep : (andOrStep gparseCompoundList left).run s =
      .ok none (t.rewindToPosition s.position) := by
    simp [andOrStep, hne, orRewind, run_orBack, gparseAndOrTail, run_cloneToken htok, hnext]
  simp [afterPipeline, run_loop_break hstep]

private theorem run_gparseSeparatorOp {s : Parser} {tok : Token}
    (htok : s.currentToken? = some tok)
    (hsep : s.currentTokenType = .amper ∨ s.currentTokenType = .semi) :
    gparseSeparatorOp.run s = .ok (.ofToken .separatorOp tok s.position) s.advance := by
  simp [gparseSeparatorOp, run_requireOneOf, hsep, run_takeLeaf htok]

private theorem run_gparseSeparatorOp_fail {s : Parser}
    (hsep : ¬ (s.currentTokenType = .amper ∨ s.currentTokenType = .semi)) :
    gparseSeparatorOp.run s = .fail .error s := by
  simp [gparseSeparatorOp, run_requireOneOf, hsep]

private theorem run_afterAndOr_separator {s t : Parser} {node : Gnode}
    (hsep : s.currentTokenType = .amper ∨ s.currentTokenType = .semi)
    (hnext : (gparsePipeline gparseCompoundList).run s.advance = .ok node t)
    (nodes cmds : List Gnode) :
    ∃ nodes', (afterAndOr gparseCompoundList nodes cmds).run s =
      (afterPipeline gparseCompoundList node nodes' cmds).run t := by
  obtain ⟨tok, htok, -⟩ := exists_token (s := s) (by rcases hsep with h | h <;> simp [h])
  refine ⟨nodes ++ [.ofToken .separatorOp tok s.position], ?_⟩
  simp only [afterAndOr, afterPipeline, run_bind]
  rw [run_loop consumes_listStep]
  simp only [listStep, run_bind, orRewind, run_orBack, run_gparseSeparatorOp htok hsep,
    Reply.bind_ok, gparseAndOr, hnext]
  cases hloop : (loop (andOrStep gparseCompoundList) node).run t with
  | ok andOr u => simp
  | fail e u => exact (failsOnly_andOrLoop (p := fun _ => False) node _ _ _ hloop).elim
  | fault c => simp

private theorem run_afterAndOr_stop {s : Parser}
    (hsep : ¬ (s.currentTokenType = .amper ∨ s.currentTokenType = .semi))
    (nodes cmds : List Gnode) :
    ∃ cmds', (afterAndOr gparseCompoundList nodes cmds).run s =
      (afterCommands gparseCompoundList cmds').run s := by
  have hstep : (listStep gparseCompoundList nodes).run s = .ok none s := by
    simp [listStep, orRewind, run_orBack, run_gparseSeparatorOp_fail hsep,
      rewindToPosition_self]
  refine ⟨cmds ++ [.ofMulti .completeCommand (some (.ofList .list nodes)) none none none], ?_⟩
  simp [afterAndOr, run_loop_break hstep, run_attempt, run_gparseSeparatorOp_fail hsep,
    Except.toOption]

/-- A separator that no pipeline follows is given back by the list and taken by the complete
command. -/
private theorem run_afterAndOr_giveBack {s t : Parser} {e : ParseFailure}
    (hsep : s.currentTokenType = .amper ∨ s.currentTokenType = .semi)
    (hnext : (gparsePipeline gparseCompoundList).run s.advance = .fail e t)
    (nodes cmds : List Gnode) :
    ∃ cmds', (afterAndOr gparseCompoundList nodes cmds).run s =
      (afterCommands gparseCompoundList cmds').run
        (t.rewindToPosition s.position).advance := by
  have hne : s.currentTokenType ≠ .eof := by rcases hsep with h | h <;> simp [h]
  have hw : s.currentTokenType ≠ .word := by rcases hsep with h | h <;> simp [h]
  obtain ⟨tok, htok, -⟩ := exists_token hne
  have hstep : (listStep gparseCompoundList nodes).run s =
      .ok none (t.rewindToPosition s.position) := by
    simp [listStep, orRewind, run_orBack, run_gparseSeparatorOp htok hsep, gparseAndOr, hnext]
  have hle : s ≤ t := (le_advance s).trans (le_of_fail hnext)
  have hback := le_rewindToPosition hle
  have hpos := rewindToPosition_position hle (position_lt hne)
  have htok' : (t.rewindToPosition s.position).currentToken? = some tok := by
    rw [currentToken?_of_le hback hpos hw, htok]
  have hsep' : (t.rewindToPosition s.position).currentTokenType = .amper ∨
      (t.rewindToPosition s.position).currentTokenType = .semi := by
    rwa [currentTokenType_of_le hback hpos hw]
  refine ⟨cmds ++ [.ofMulti .completeCommand (some (.ofList .list nodes))
    (some (.ofToken .separatorOp tok s.position)) none none], ?_⟩
  simp [afterAndOr, run_loop_break hstep, run_attempt, run_gparseSeparatorOp htok' hsep', hpos,
    Except.toOption]

private theorem run_completeCommand_ok {s t : Parser} {node : Gnode}
    (hnext : (gparsePipeline gparseCompoundList).run s = .ok node t) (cmds : List Gnode) :
    ((gparseCompleteCommand gparseCompoundList).run s).bind (fun next u =>
        (afterCommands gparseCompoundList (cmds ++ [next])).run u) =
      (afterPipeline gparseCompoundList node [] cmds).run t := by
  simp [gparseCompleteCommand, gparseList, gparseAndOr, hnext, afterPipeline, afterAndOr,
    Reply.bind_assoc]

/-- Behind its first pipeline a complete command does not fail any more. -/
private theorem gparseCompleteCommand_ne_fail {s t u : Parser} {node : Gnode} {e : ParseFailure}
    (hnext : (gparsePipeline gparseCompoundList).run s = .ok node t) :
    (gparseCompleteCommand gparseCompoundList).run s ≠ .fail e u := by
  intro h
  have htail := (@failsOnly_andOrLoop gparseCompoundList (fun _ => False) node).bind
    fun first => (@failsOnly_listLoop gparseCompoundList _ [first]).bind
      fun nodes => (FailsOnly.attempt gparseSeparatorOp).bind fun sep => FailsOnly.pure
        (Gnode.ofMulti .completeCommand (some (.ofList .list nodes)) sep.toOption none none)
  refine htail t e u ?_
  simpa [gparseCompleteCommand, gparseList, gparseAndOr, hnext, Reply.bind_assoc] using h

private theorem run_afterCommands_newline {s t : Parser} {node : Gnode}
    (hnl : s.currentTokenType = .newline)
    (hnext : (gparsePipeline gparseCompoundList).run s.skipNewlines = .ok node t)
    (cmds : List Gnode) :
    (afterCommands gparseCompoundList cmds).run s =
      (afterPipeline gparseCompoundList node [] cmds).run t := by
  rw [← run_completeCommand_ok hnext]
  conv_lhs => simp only [afterCommands, run_bind]
  rw [run_loop consumes_completeCommandsStep]
  simp only [completeCommandsStep, run_bind, run_tokenType, Reply.bind_ok, hnl, ne_eq,
    not_true_eq_false, ↓reduceIte, run_parserSkipNewlines, run_attempt]
  cases hcmd : (gparseCompleteCommand gparseCompoundList).run s.skipNewlines with
  | ok next u => simp [afterCommands]
  | fail e u => exact absurd hcmd (gparseCompleteCommand_ne_fail hnext)
  | fault c => simp

private theorem run_afterCommands_stop {s : Parser} (hnl : s.currentTokenType ≠ .newline)
    (cmds : List Gnode) : (afterCommands gparseCompoundList cmds).run s = .ok cmds s := by
  have hstep : (completeCommandsStep gparseCompoundList cmds).run s = .ok none s := by
    simp [completeCommandsStep, hnl]
  simp [afterCommands, run_loop_break hstep, skipNewlines_of_ne hnl]

/-! ## The condition for an empty rest -/

private theorem not_connected {s : Parser} (hend : ¬ s.atEnd)
    (hop : ∀ node t, s.currentTokenType = .andIf ∨ s.currentTokenType = .orIf →
      (gparsePipeline gparseCompoundList).run s.advance.skipNewlines ≠ .ok node t)
    (hsep : ¬ (s.currentTokenType = .amper ∨ s.currentTokenType = .semi))
    (hnl : s.currentTokenType ≠ .newline) : ¬ Connected gparseCompoundList s := by
  intro h
  cases h with
  | done h => exact hend h
  | operator ho hnext => exact hop _ _ ho hnext
  | separator h => exact hsep h
  | lastSeparator h => exact hsep h
  | separatorNewline h => exact hsep h
  | newline h => exact hnl h
  | lastNewline h => exact hnl h

private theorem afterCommands_newline_iff {s t : Parser} (hnl : s.currentTokenType = .newline)
    (ih : ∀ u left nodes cmds r t, remaining u < remaining s →
      (afterPipeline gparseCompoundList left nodes cmds).run u = .ok r t →
      (t.atEnd ↔ Connected gparseCompoundList u))
    {cmds r : List Gnode} (h : (afterCommands gparseCompoundList cmds).run s = .ok r t) :
    t.atEnd ↔ Connected gparseCompoundList s := by
  have hlt := remaining_skipNewlines hnl
  have hend : ¬ s.atEnd := fun hc => by simp [currentTokenType_of_atEnd hc] at hnl
  have hnewline : Connected gparseCompoundList s ↔ s.skipNewlines.atEnd ∨
      ∃ node u, (gparsePipeline gparseCompoundList).run s.skipNewlines = .ok node u ∧
        Connected gparseCompoundList u := by
    constructor
    · intro hc
      cases hc with
      | done h => exact absurd h hend
      | operator h => simp [hnl] at h
      | separator h => simp [hnl] at h
      | lastSeparator h => simp [hnl] at h
      | separatorNewline h => simp [hnl] at h
      | newline _ hnext hrest => exact .inr ⟨_, _, hnext, hrest⟩
      | lastNewline _ h => exact .inl h
    · rintro (h | ⟨node, u, hnext, hrest⟩)
      · exact .lastNewline hnl h
      · exact .newline hnl hnext hrest
  cases hnext : (gparsePipeline gparseCompoundList).run s.skipNewlines with
  | ok node u =>
    rw [run_afterCommands_newline hnl hnext] at h
    have hu := (remaining_anti (le_of_ok hnext)).trans_lt hlt
    have hnot : ¬ s.skipNewlines.atEnd := by
      intro hc
      simp [gparsePipeline, parserTokenTryPromoteToBang, rejectEof, currentTokenType_of_atEnd hc,
        tryPromote_of_ne_word] at hnext
    rw [ih u _ _ _ _ _ hu h, hnewline]
    simp [hnot, hnext]
  | fail e u =>
    have hcmd : (gparseCompleteCommand gparseCompoundList).run s.skipNewlines = .fail e u := by
      simp [gparseCompleteCommand, gparseList, gparseAndOr, hnext]
    have hstep : (completeCommandsStep gparseCompoundList cmds).run s =
        if e = .empty then .ok none u else .fail e u := by
      simp only [completeCommandsStep, run_bind, run_tokenType, Reply.bind_ok, hnl, ne_eq,
        not_true_eq_false, ↓reduceIte, run_parserSkipNewlines, run_attempt, hcmd]
      cases e <;> rfl
    by_cases he : e = .empty
    · obtain ⟨rfl, heof⟩ := gparsePipeline_empty (he ▸ hnext)
      rw [if_pos he] at hstep
      simp only [afterCommands, run_bind, run_loop_break hstep, Reply.bind_ok,
        run_parserSkipNewlines, run_pure, Reply.ok.injEq] at h
      rw [← h.2, skipNewlines_of_ne (by simp [heof]), hnewline]
      simp [hnext]
    · rw [if_neg he] at hstep
      simp only [afterCommands, run_bind] at h
      rw [run_loop consumes_completeCommandsStep, hstep] at h
      simp at h
  | fault c =>
    have hcmd : (gparseCompleteCommand gparseCompoundList).run s.skipNewlines = .fault c := by
      simp [gparseCompleteCommand, gparseList, gparseAndOr, hnext]
    simp only [afterCommands, run_bind] at h
    rw [run_loop consumes_completeCommandsStep] at h
    simp [completeCommandsStep, hnl, run_attempt, hcmd] at h

private theorem afterAndOr_separator_iff {s t : Parser}
    (hsep : s.currentTokenType = .amper ∨ s.currentTokenType = .semi)
    (ih : ∀ u left nodes cmds r t, remaining u < remaining s →
      (afterPipeline gparseCompoundList left nodes cmds).run u = .ok r t →
      (t.atEnd ↔ Connected gparseCompoundList u))
    {nodes cmds r : List Gnode}
    (h : (afterAndOr gparseCompoundList nodes cmds).run s = .ok r t) :
    t.atEnd ↔ Connected gparseCompoundList s := by
  have hlt := position_lt (s := s) (by rcases hsep with h | h <;> simp [h])
  have hadv := remaining_advance hlt
  have hend : ¬ s.atEnd := by rw [atEnd_iff]; omega
  have hsepIff : Connected gparseCompoundList s ↔ s.advance.atEnd ∨
      (s.advance.currentTokenType = .newline ∧
        Connected gparseCompoundList (s.advance.setError noOpenerText)) ∨
      ∃ node u, (gparsePipeline gparseCompoundList).run s.advance = .ok node u ∧
        Connected gparseCompoundList u := by
    constructor
    · intro hc
      cases hc with
      | done h => exact absurd h hend
      | operator h => rcases hsep with hs | hs <;> simp [hs] at h
      | separator _ hnext hrest => exact .inr (.inr ⟨_, _, hnext, hrest⟩)
      | lastSeparator _ h => exact .inl h
      | separatorNewline _ hnl hrest => exact .inr (.inl ⟨hnl, hrest⟩)
      | newline h => rcases hsep with hs | hs <;> simp [hs] at h
      | lastNewline h => rcases hsep with hs | hs <;> simp [hs] at h
    · rintro (h | ⟨hnl, hrest⟩ | ⟨node, u, hnext, hrest⟩)
      · exact .lastSeparator hsep h
      · exact .separatorNewline hsep hnl hrest
      · exact .separator hsep hnext hrest
  cases hnext : (gparsePipeline gparseCompoundList).run s.advance with
  | ok node u =>
    obtain ⟨nodes', hrun⟩ := run_afterAndOr_separator hsep hnext nodes cmds
    rw [hrun] at h
    have hu := (remaining_anti (le_of_ok hnext)).trans_lt hadv
    have hnot : ¬ s.advance.atEnd := by
      intro hc
      simp [gparsePipeline, parserTokenTryPromoteToBang, rejectEof, currentTokenType_of_atEnd hc,
        tryPromote_of_ne_word] at hnext
    have hnl : s.advance.currentTokenType ≠ .newline := by
      intro hc
      simp [run_gparsePipeline_nothing (.inl hc)] at hnext
    rw [ih u _ _ _ _ _ hu h, hsepIff]
    simp [hnot, hnl, hnext]
  | fail e u =>
    obtain ⟨cmds', hrun⟩ := run_afterAndOr_giveBack hsep hnext nodes cmds
    rw [hrun] at h
    have hle : s ≤ u := (le_advance s).trans (le_of_fail hnext)
    have hback : s.advance ≤ (u.rewindToPosition s.position).advance := by
      refine ⟨?_, ?_⟩
      · have hpos := rewindToPosition_position hle hlt
        have hlen := length_eq_of_le (le_rewindToPosition hle)
        rw [advance_position hlt, advance_position (by omega), hpos]
      · simpa using (le_rewindToPosition hle).promotes
    have hpos : (u.rewindToPosition s.position).advance.position = s.advance.position := by
      have hpos := rewindToPosition_position hle hlt
      have hlen := length_eq_of_le (le_rewindToPosition hle)
      rw [advance_position hlt, advance_position (by omega), hpos]
    by_cases hnl : s.advance.currentTokenType = .newline
    · -- The attempt at a pipeline only left its message behind.
      rw [run_gparsePipeline_nothing (.inl hnl), Reply.fail.injEq] at hnext
      rw [← hnext.2, rewindToPosition_advance (by rw [setError_position, advance_position hlt])]
        at h
      have hrem : remaining (s.advance.setError noOpenerText) < remaining s := by
        simpa [remaining_eq] using hadv
      rw [afterCommands_newline_iff (by simpa using hnl)
        (fun v left nodes cmds r t hv => ih v left nodes cmds r t (hv.trans hrem)) h, hsepIff]
      have hnot : ¬ s.advance.atEnd := fun hc => by simp [currentTokenType_of_atEnd hc] at hnl
      simp [hnot, hnl, run_gparsePipeline_nothing (.inl hnl)]
    · have hnl' : (u.rewindToPosition s.position).advance.currentTokenType ≠ .newline := by
        intro hc
        refine hnl ?_
        rw [currentTokenType_back hback hpos (by simp [hc, TokenType.IsReserved]), hc]
      rw [run_afterCommands_stop hnl', Reply.ok.injEq] at h
      rw [← h.2, atEnd_of_le hback hpos, hsepIff]
      simp [hnl, hnext]
  | fault c =>
    obtain ⟨tok, htok, -⟩ := exists_token (s := s) (by rcases hsep with h | h <;> simp [h])
    simp only [afterAndOr, run_bind] at h
    rw [run_loop consumes_listStep] at h
    simp [listStep, orRewind, run_orBack, run_gparseSeparatorOp htok hsep, gparseAndOr, hnext] at h

/-- The rest of the program behind an accepted pipeline is read to the end exactly when it is
connected. -/
private theorem afterPipeline_iff (n : ℕ) :
    ∀ s left nodes cmds r t, remaining s < n →
      (afterPipeline gparseCompoundList left nodes cmds).run s = .ok r t →
      (t.atEnd ↔ Connected gparseCompoundList s) := by
  induction n with
  | zero => intro s _ _ _ _ _ hs; omega
  | succ n ih =>
    intro s left nodes cmds r t hs h
    have ih' : ∀ u left nodes cmds r t, remaining u < remaining s →
        (afterPipeline gparseCompoundList left nodes cmds).run u = .ok r t →
        (t.atEnd ↔ Connected gparseCompoundList u) :=
      fun u left nodes cmds r t hu => ih u left nodes cmds r t (by omega)
    by_cases hop : s.currentTokenType = .andIf ∨ s.currentTokenType = .orIf
    · have hlt := position_lt (s := s) (by rcases hop with h | h <;> simp [h])
      have hend : ¬ s.atEnd := by rw [atEnd_iff]; omega
      have hsep : ¬ (s.currentTokenType = .amper ∨ s.currentTokenType = .semi) := by
        rcases hop with h | h <;> simp [h]
      have hnl : s.currentTokenType ≠ .newline := by rcases hop with h | h <;> simp [h]
      cases hnext : (gparsePipeline gparseCompoundList).run s.advance.skipNewlines with
      | ok node u =>
        obtain ⟨left', hrun⟩ := run_afterPipeline_operator hop hnext left nodes cmds
        rw [hrun] at h
        have hu : remaining u < remaining s :=
          (remaining_anti ((le_skipNewlinesFor _ _).trans (le_of_ok hnext))).trans_lt
            (remaining_advance hlt)
        rw [ih' u _ _ _ _ _ hu h]
        constructor
        · exact .operator hop hnext
        · intro hc
          cases hc with
          | done h => exact absurd h hend
          | operator _ hnext' hrest =>
            rw [hnext, Reply.ok.injEq] at hnext'
            exact hnext'.2 ▸ hrest
          | separator h => exact absurd h hsep
          | lastSeparator h => exact absurd h hsep
          | separatorNewline h => exact absurd h hsep
          | newline h => exact absurd h hnl
          | lastNewline h => exact absurd h hnl
      | fail e u =>
        -- The operator is given back and nothing above takes it.
        rw [run_afterPipeline_giveBack hop hnext] at h
        have hle : s ≤ u :=
          ((le_advance s).trans (le_skipNewlinesFor _ _)).trans (le_of_fail hnext)
        have hback := le_rewindToPosition hle
        have hpos := rewindToPosition_position hle hlt
        have htype := currentTokenType_of_le hback hpos
          (by rcases hop with h | h <;> simp [h])
        obtain ⟨cmds', hrun⟩ := @run_afterAndOr_stop gparseCompoundList _ (htype ▸ hsep)
          (nodes ++ [left]) cmds
        rw [hrun, run_afterCommands_stop (htype ▸ hnl), Reply.ok.injEq] at h
        rw [← h.2, atEnd_of_le hback hpos]
        exact iff_of_false hend (not_connected hend (fun node t _ hc => by simp [hnext] at hc)
          hsep hnl)
      | fault c =>
        obtain ⟨tok, htok, -⟩ := exists_token (s := s) (by rcases hop with h | h <;> simp [h])
        have hne : ¬ (s.currentTokenType ≠ .andIf ∧ s.currentTokenType ≠ .orIf) := by
          rcases hop with h | h <;> simp [h]
        simp only [afterPipeline, run_bind] at h
        rw [run_loop consumes_andOrStep] at h
        simp [andOrStep, hne, orRewind, run_orBack, gparseAndOrTail, run_cloneToken htok,
          hnext] at h
    · rw [run_afterPipeline_stop hop] at h
      by_cases hsep : s.currentTokenType = .amper ∨ s.currentTokenType = .semi
      · exact afterAndOr_separator_iff hsep ih' h
      · obtain ⟨cmds', hrun⟩ := @run_afterAndOr_stop gparseCompoundList _ hsep
          (nodes ++ [left]) cmds
        rw [hrun] at h
        by_cases hnl : s.currentTokenType = .newline
        · exact afterCommands_newline_iff hnl ih' h
        · rw [run_afterCommands_stop hnl, Reply.ok.injEq] at h
          rw [← h.2]
          constructor
          · exact .done
          · intro hc
            by_contra hend
            exact not_connected hend (fun _ _ h => absurd h hop) hsep hnl hc

/-! ## Programs -/

/-- The whole input is connected: nothing but newlines, or newlines, a pipeline that is accepted
and connected input behind it. -/
def AllConnected (tokens : List Token) : Prop :=
  (create tokens).skipNewlines.atEnd ∨
    ∃ node t, (gparsePipeline Parser.gparseCompoundList).run (create tokens).skipNewlines =
      .ok node t ∧ Connected Parser.gparseCompoundList t

private theorem failsOnly_completeCommandsStep (nodes : List Gnode) :
    FailsOnly (· ≠ .empty) (completeCommandsStep gparseCompoundList nodes) := by
  refine failsOnly_tokenType.bind fun _ => .ite (.pure _)
    ((FailsOnly.update _ _).bind fun _ => (FailsOnly.attempt _).bind fun r => ?_)
  rcases r with e | node
  · cases e with
    | error => exact .failure (by simp)
    | incomplete => exact .failure (by simp)
    | empty => exact .pure _
  · exact .pure _

/-- An accepted program stands behind an accepted first pipeline, unless it is empty. -/
private theorem programNode_ok {s u : Parser} {root : Gnode}
    (h : (programNode gparseCompoundList).run s = .ok root u) :
    (u = s ∧ ∀ node v, (gparsePipeline gparseCompoundList).run s ≠ .ok node v) ∨
      ∃ node v r, (gparsePipeline gparseCompoundList).run s = .ok node v ∧
        (afterPipeline gparseCompoundList node [] []).run v = .ok r u.skipNewlines := by
  by_cases hend : s.atEnd
  · refine .inl ⟨?_, fun node v hnext => ?_⟩
    · simp only [programNode, run_bind, run_attempt, gparseCompleteCommands, rejectAtEnd,
        run_inspect, Reply.bind_ok, hend, ↓reduceIte, run_failure, Reply.bind_fail, run_pure,
        Reply.ok.injEq] at h
      exact h.2.symm
    · simp [gparsePipeline, parserTokenTryPromoteToBang, rejectEof,
        currentTokenType_of_atEnd hend, tryPromote_of_ne_word] at hnext
  · have hcommands : (gparseCompleteCommands gparseCompoundList).run s =
        ((gparseCompleteCommand gparseCompoundList).run s).bind fun cmd v =>
          ((loop (completeCommandsStep gparseCompoundList) [cmd]).run v).bind fun nodes w =>
            .ok (.ofList .completeCommands nodes) w := by
      simp [gparseCompleteCommands, rejectAtEnd, hend]
    simp only [programNode, run_bind, run_attempt, hcommands] at h
    cases hnext : (gparsePipeline gparseCompoundList).run s with
    | ok node v =>
      refine .inr ⟨node, v, ?_⟩
      rw [← run_completeCommand_ok hnext]
      cases hcmd : (gparseCompleteCommand gparseCompoundList).run s with
      | fail e w => exact absurd hcmd (gparseCompleteCommand_ne_fail hnext)
      | fault c => simp [hcmd] at h
      | ok cmd w =>
        cases hloop : (loop (completeCommandsStep gparseCompoundList) [cmd]).run w with
        | ok nodes x =>
          simp only [hcmd, hloop, Reply.bind_ok, run_pure, Reply.ok.injEq] at h
          exact ⟨nodes, rfl, by simp [afterCommands, hloop, h.2]⟩
        | fail e x =>
          have hne := FailsOnly.loop failsOnly_completeCommandsStep _ _ _ _ hloop
          cases e with
          | empty => exact absurd rfl hne
          | error => simp [hcmd, hloop] at h
          | incomplete => simp [hcmd, hloop] at h
        | fault c => simp [hcmd, hloop] at h
    | fail e v =>
      refine .inl ⟨?_, by simp⟩
      have hcmd : (gparseCompleteCommand gparseCompoundList).run s = .fail e v := by
        simp [gparseCompleteCommand, gparseList, gparseAndOr, hnext]
      cases e with
      | empty =>
        obtain ⟨rfl, -⟩ := gparsePipeline_empty hnext
        simp only [hcmd, Reply.bind_fail, Reply.bind_ok, run_pure, Reply.ok.injEq] at h
        exact h.2.symm
      | error => simp [hcmd] at h
      | incomplete => simp [hcmd] at h
    | fault c =>
      have hcmd : (gparseCompleteCommand gparseCompoundList).run s = .fault c := by
        simp [gparseCompleteCommand, gparseList, gparseAndOr, hnext]
      simp [hcmd] at h

theorem skipNewlines_currentTokenType (s : Parser) :
    s.skipNewlines.currentTokenType ≠ .newline := by
  induction h : remaining s using Nat.strong_induction_on generalizing s with
  | _ n ih =>
    by_cases hnl : s.currentTokenType = .newline
    · rw [skipNewlines_of_newline hnl]
      have hlt := remaining_advance (s := s) (position_lt (by simp [hnl]))
      exact ih _ (h ▸ hlt) _ rfl
    · rwa [skipNewlines_of_ne hnl]

/-- A program that is accepted is read to the last token exactly when the whole input is
connected. -/
theorem parserParseProgram_reads_all_iff (tokens : List Token) (root : Gnode) (t : Parser)
    (h : parserParseProgram tokens = .ok root t) :
    t.position = tokens.length ↔ AllConnected tokens := by
  unfold parserParseProgram at h
  split at h
  · simp at h
  simp only [gparseProgram, run_bind, run_parserSkipNewlines, Reply.bind_ok] at h
  obtain ⟨node, u, hnode, hlast⟩ := Reply.bind_eq_ok.mp h
  simp only [run_pure, Reply.ok.injEq] at hlast
  obtain ⟨rfl, rfl⟩ := hlast
  have hlen : u.skipNewlines.tokens.length = tokens.length :=
    length_eq_of_le (s := create tokens)
      (((le_skipNewlinesFor _ _).trans (le_of_ok hnode)).trans (le_skipNewlinesFor _ _))
  rw [← hlen, ← atEnd_iff, AllConnected]
  rcases programNode_ok hnode with ⟨rfl, hnone⟩ | ⟨first, v, r, hnext, hrest⟩
  · rw [skipNewlines_of_ne (skipNewlines_currentTokenType _)]
    simp [hnone]
  · have hnot : ¬ (create tokens).skipNewlines.atEnd := by
      intro hc
      simp [gparsePipeline, parserTokenTryPromoteToBang, rejectEof, currentTokenType_of_atEnd hc,
        tryPromote_of_ne_word] at hnext
    rw [afterPipeline_iff _ v _ _ _ _ _ (Nat.lt_succ_self _) hrest]
    simp [hnot, hnext]

theorem parserParseProgram_reads_all_echo :
    ∃ root t, parserParseProgram [.ofText "echo"] = .ok root t ∧
      (t.position = 1 ↔ AllConnected [.ofText "echo"]) :=
  ⟨_, _, rfl, parserParseProgram_reads_all_iff [.ofText "echo"] _ _ rfl⟩

/-- `echo )` is accepted with the parenthesis unread. -/
theorem parserParseProgram_leaves_rparen :
    ¬ ∀ tokens root t, parserParseProgram tokens = .ok root t → t.position = tokens.length :=
  fun h => absurd (h [.ofText "echo", .ofType .rparen] _ _ rfl) (by decide)

end Migash.Parser
