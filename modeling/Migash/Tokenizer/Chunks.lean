import Migash.Tokenizer.Order
import Migash.Tokenizer.Termination

/-! # Input in pieces

A newline ends a command, so behind one the tokenizer is as it is at the start
of a call, but for the buffer and the open compound commands, which it keeps.
The calls for the pieces take the same steps as one call for the whole. What
they do not share is the time when the buffer is emptied.
-/

namespace Migash.Tokenizer

open Library

variable {env : Env} {n : ℕ} {tok tok' : Tokenizer}

/-! ## What a step looks at -/

/-- The buffer holds the open compound commands; no `for` and no `case` is in the output. -/
structure Settled (tok : Tokenizer) : Prop where
  buffered : tok.compoundStack ≠ [] → tok.bufferedTokens ≠ []
  output : ∀ t ∈ tok.outputTokens, t.type ∉ openingTokens

/-- Only inside a compound command can the last token be a `for` or a `case`. -/
theorem Settled.loopVar_eq (h : Settled tok) : tok.isLoopVarOrCaseWord =
    (decide (tok.compoundStack ≠ []) && (tok.handedOver.getLast?.map Token.type = some .for_ ||
      tok.handedOver.getLast?.map Token.type = some .case_)) := by
  unfold isLoopVarOrCaseWord previousType?
  by_cases hstack : tok.compoundStack = []
  · have hnone : ∀ type ∈ openingTokens,
        tok.outputTokens.getLast?.map Token.type ≠ some type := by
      intro type htype heq
      obtain ⟨last, hlast, rfl⟩ := Option.map_eq_some_iff.mp heq
      exact h.output last (List.mem_of_getLast? hlast) htype
    rw [if_pos hstack]
    simp [hstack, hnone .for_ (by decide), hnone .case_ (by decide)]
  · have hlast : tok.handedOver.getLast? = tok.bufferedTokens.getLast? := by
      unfold handedOver
      rw [List.getLast?_append_of_ne_nil _ (h.buffered hstack)]
    rw [if_neg hstack, hlast]
    simp [hstack]

/-- The part of the state that decides about the next step. -/
structure Alike (c w : Tokenizer) : Prop where
  position : w.atCommandPosition = c.atCommandPosition
  aliases : w.expandedAliases = c.expandedAliases
  stack : w.compoundStack = c.compoundStack
  depth : w.expansionDepth = c.expansionDepth
  maxDepth : w.maxExpansionDepth = c.maxExpansionDepth

theorem Alike.aliasFor_eq {c w : Tokenizer} (h : Alike c w) (token : Token) :
    w.aliasFor? env token = c.aliasFor? env token := by
  unfold aliasFor? isAliasEligible
  rw [h.position, h.aliases]

/-- Two tokenizers of which one has handed over more before. -/
structure Follows (before : List Token) (c w : Tokenizer) : Prop extends Alike c w where
  handedOver : w.handedOver = before ++ c.handedOver
  settled : Settled c
  settled' : Settled w

theorem Follows.loopVar_eq {before : List Token} {c w : Tokenizer}
    (h : Follows before c w) : w.isLoopVarOrCaseWord = c.isLoopVarOrCaseWord := by
  rw [h.settled.loopVar_eq, h.settled'.loopVar_eq, h.stack]
  by_cases hstack : c.compoundStack = []
  · simp [hstack]
  · have hne : c.handedOver ≠ [] := by
      unfold Tokenizer.handedOver
      simp [h.settled.buffered hstack]
    rw [h.handedOver, List.getLast?_append_of_ne_nil _ hne]

/-- A word that is not the last token of the shorter input sees the same token behind it. -/
theorem Follows.reservedType_eq {before : List Token} {c w : Tokenizer} (h : Follows before c w)
    {t : Token} {rest later : List InputToken}
    (hhead : (rest ++ later).head? = rest.head? ∨ t.type = .newline) :
    w.reservedType? t (rest ++ later) = c.reservedType? t rest := by
  rcases hhead with hhead | hnewline
  · unfold reservedType? isCasePattern
    rw [h.loopVar_eq, h.position, h.stack, hhead]
  · simp [reservedType?, hnewline]

/-! ## Handing over -/

theorem stackAfter_ne_nil {stack stack' : List TokenType} {type : TokenType}
    (h : stackAfter stack type = .ok stack') (htype : type ∈ openingTokens) : stack' ≠ [] := by
  rw [stackAfter, if_pos htype] at h
  cases h
  exact List.cons_ne_nil _ _

/-- All that handing a token over does, apart from the list it goes to. -/
structure Added (tok tok' : Tokenizer) (token : Token) (rest : List InputToken) : Prop where
  input : tok'.inputTokens = rest
  handedOver : tok'.handedOver = tok.handedOver ++ [token]
  stack : stackAfter tok.compoundStack token.type = .ok tok'.compoundStack
  position : tok'.atCommandPosition = decide (token.type ∈ commandStarters)
  aliases : tok'.expandedAliases =
    if token.type ∈ commandStarters then [] else tok.expandedAliases
  depth : tok'.expansionDepth = tok.expansionDepth
  maxDepth : tok'.maxExpansionDepth = tok.maxExpansionDepth

theorem takeBackName_compoundStack (tok : Tokenizer) (type : TokenType) (rest : List InputToken) :
    (tok.takeBackName type rest).compoundStack = tok.compoundStack := by
  unfold takeBackName
  split_ifs <;> rfl

theorem addToken_eq_ok {token : Token} {rest : List InputToken} {stack : List TokenType}
    (h : stackAfter tok.compoundStack token.type = .ok stack) :
    tok.addToken token rest = (.ok,
      { (tok.takeBackName token.type rest).handOver token stack with
        inputTokens := rest }.updateCommandPosition token) := by
  unfold addToken
  dsimp only
  rw [takeBackName_compoundStack, h]

theorem addToken_added {token : Token} {rest : List InputToken}
    (h : tok.addToken token rest = (.ok, tok')) : Added tok tok' token rest := by
  obtain ⟨hinput, hhanded⟩ := addToken_ok h
  cases hstack : stackAfter tok.compoundStack token.type with
  | error e =>
    unfold addToken at h
    dsimp only at h
    rw [takeBackName_compoundStack, hstack] at h
    cases h
  | ok stack =>
    rw [addToken_eq_ok hstack] at h
    obtain rfl := (Prod.mk.inj h).2
    refine ⟨hinput, hhanded, ?_, ?_, ?_, ?_, ?_⟩ <;>
      · unfold updateCommandPosition handOver takeBackName
        split_ifs <;> simp_all

theorem Settled.handOver {token : Token} {stack stack' : List TokenType}
    (houtput : ∀ t ∈ tok.outputTokens, t.type ∉ openingTokens)
    (hstack : stackAfter stack token.type = .ok stack') : Settled (tok.handOver token stack') := by
  unfold Tokenizer.handOver
  split_ifs with h
  · exact ⟨fun _ => by simp, houtput⟩
  · rw [not_or, not_not] at h
    refine ⟨fun hne => absurd h.2 hne, fun t ht => ?_⟩
    rcases List.mem_append.mp ht with ht | ht
    · exact houtput t ht
    · rw [List.mem_singleton.mp ht]
      exact fun htype => stackAfter_ne_nil hstack htype h.2

theorem Settled.addToken {token : Token} {rest : List InputToken} (hs : Settled tok)
    (h : tok.addToken token rest = (.ok, tok')) : Settled tok' := by
  have hbefore : ∀ t ∈ (tok.takeBackName token.type rest).outputTokens,
      t.type ∉ openingTokens := by
    unfold takeBackName
    split_ifs
    · exact fun t ht => hs.output t (List.dropLast_subset _ ht)
    · exact hs.output
  have hstack := (addToken_added h).stack
  have hsettled := Settled.handOver hbefore hstack
  rw [addToken_eq_ok hstack] at h
  rw [← (Prod.mk.inj h).2]
  unfold updateCommandPosition
  split_ifs <;> exact ⟨hsettled.buffered, hsettled.output⟩

/-! ## Aliases -/

/-- An alias is expanded in the same way whatever stands behind it. -/
theorem tokenizerExpandAlias_eq {origins : List String} {name value : String} {tokens : List Token}
    (hdepth : ¬ tok.maxExpansionDepth ≤ tok.expansionDepth)
    (hvalue : env.aliasValue? name = some value) (hlex : env.lex value = .ok tokens) :
    tokenizerExpandAlias env tok origins name = (.ok, { tok with
      inputTokens := tokens.map (⟨·, name :: origins⟩) ++ tok.inputTokens
      expandedAliases := name :: tok.expandedAliases
      atCommandPosition := aliasEndsWithBlank value || tok.atCommandPosition }) := by
  unfold tokenizerExpandAlias
  rw [if_neg hdepth, hvalue]
  dsimp only [tokenizerRelexText]
  rw [hlex]
  by_cases hblank : aliasEndsWithBlank value = true
  · simp [hblank]
  · simp [hblank]

theorem tokenizerExpandAlias_ok {origins : List String} {name : String}
    (h : tokenizerExpandAlias env tok origins name = (.ok, tok')) :
    ¬ tok.maxExpansionDepth ≤ tok.expansionDepth := by
  intro hdepth
  rw [tokenizerExpandAlias, if_pos hdepth] at h
  cases h

/-! ## Steps -/

section

variable {before : List Token} {later : List InputToken} {last : Prop} {c c' w : Tokenizer}

theorem Follows.expandAlias (h : Follows before c w) {origins : List String} {name : String}
    {value : String} (hvalue : env.aliasValue? name = some value) (rest later : List InputToken)
    (hstep : tokenizerExpandAlias env { c with inputTokens := rest } origins name = (.ok, c')) :
    ∃ w', tokenizerExpandAlias env { w with inputTokens := rest ++ later } origins name = (.ok, w') ∧
      Follows before c' w' ∧ w'.inputTokens = c'.inputTokens ++ later := by
  obtain ⟨tokens, hlex, -⟩ := tokenizerExpandAlias_input hvalue hstep
  have hdepth := tokenizerExpandAlias_ok hstep
  have hdepth' : ¬ w.maxExpansionDepth ≤ w.expansionDepth := by
    rw [h.maxDepth, h.depth]
    exact hdepth
  rw [tokenizerExpandAlias_eq hdepth hvalue hlex] at hstep
  cases hstep
  refine ⟨_, tokenizerExpandAlias_eq hdepth' hvalue hlex, ?_, by simp⟩
  have hsettled : Settled c := h.settled
  have hsettled' : Settled w := h.settled'
  exact
    { position := congrArg (aliasEndsWithBlank value || ·) h.position
      aliases := congrArg (name :: ·) h.aliases
      stack := h.stack
      depth := h.depth
      maxDepth := h.maxDepth
      handedOver := h.handedOver
      settled := ⟨hsettled.buffered, hsettled.output⟩
      settled' := ⟨hsettled'.buffered, hsettled'.output⟩ }

theorem Follows.addToken (h : Follows before c w) {token : Token} {rest : List InputToken}
    (later : List InputToken) (hstep : c.addToken token rest = (.ok, c')) :
    ∃ w', w.addToken token (rest ++ later) = (.ok, w') ∧ Follows before c' w' ∧
      w'.inputTokens = c'.inputTokens ++ later := by
  have hadded := addToken_added hstep
  have hstack := hadded.stack
  rw [← h.stack] at hstack
  have hstep' : w.addToken token (rest ++ later) = _ := addToken_eq_ok hstack
  have hadded' := addToken_added hstep'
  refine ⟨_, hstep', ?_, by rw [hadded'.input, hadded.input]⟩
  exact
    { position := by rw [hadded'.position, hadded.position]
      aliases := by rw [hadded'.aliases, hadded.aliases, h.aliases]
      stack := Except.ok.inj (hadded'.stack.symm.trans hstack)
      depth := by rw [hadded'.depth, hadded.depth, h.depth]
      maxDepth := by rw [hadded'.maxDepth, hadded.maxDepth, h.maxDepth]
      handedOver := by rw [hadded'.handedOver, hadded.handedOver, h.handedOver, List.append_assoc]
      settled := h.settled.addToken hstep
      settled' := h.settled'.addToken hstep' }

/-- Unless it is the last one, the input ends with a newline, or one was handed over last. -/
def AtNewline (last : Prop) (tok : Tokenizer) : Prop :=
  last ∨ (∃ t ∈ tok.inputTokens.getLast?, t.token.type = .newline) ∨
    tok.inputTokens = [] ∧ tok.atCommandPosition = true ∧ tok.expandedAliases = []

theorem AtNewline.cases {t : InputToken} {rest : List InputToken} (h : AtNewline last c)
    (hinput : c.inputTokens = t :: rest) :
    last ∨ rest = [] ∧ t.token.type = .newline ∨
      ∃ u ∈ rest.getLast?, u.token.type = .newline := by
  rcases h with h | ⟨u, hu, htype⟩ | ⟨hnil, -⟩
  · exact .inl h
  · rw [hinput] at hu
    cases rest with
    | nil =>
      cases hu
      exact .inr (.inl ⟨rfl, htype⟩)
    | cons next rest => exact .inr (.inr ⟨u, by simpa using hu, htype⟩)
  · rw [hinput] at hnil
    cases hnil

/-- A token that was added is a newline, or the input behind it ends with one. -/
theorem Added.atNewline {token : Token} {rest : List InputToken} (h : Added c c' token rest)
    (hrest : last ∨ rest = [] ∧ token.type = .newline ∨
      ∃ u ∈ rest.getLast?, u.token.type = .newline) : AtNewline last c' := by
  rcases hrest with hlast | ⟨rfl, htype⟩ | hlast
  · exact .inl hlast
  · refine .inr (.inr ⟨h.input, ?_, ?_⟩)
    · rw [h.position, htype]
      rfl
    · rw [h.aliases, htype]
      rfl
  · exact .inr (.inl (by rwa [h.input]))

theorem aliasFor?_word {token : Token} {name : String}
    (h : c.aliasFor? env token = some name) : token.type = .word := by
  unfold aliasFor? at h
  split_ifs at h with heligible
  simp only [isAliasEligible, Bool.and_eq_true, decide_eq_true_eq] at heligible
  exact heligible.1.1.2

theorem next_ne_newline {token next : Token} {text : String}
    (h : numberBefore? token (some next) = some text) : next.type ≠ .newline := by
  unfold numberBefore? at h
  split at h
  · rename_i heq
    cases heq
    split_ifs at h with hoperator
    intro htype
    rw [htype] at hoperator
    exact absurd hoperator.1 (by decide)
  · cases h

/-- The longer input is processed in the same way. -/
theorem Follows.step (h : Follows before c w) (hinput : w.inputTokens = c.inputTokens ++ later)
    (hlater : last → later = []) (hnewline : AtNewline last c) (hstep : Step env c c') :
    ∃ w', Step env w w' ∧ Follows before c' w' ∧ w'.inputTokens = c'.inputTokens ++ later ∧
      AtNewline last c' := by
  obtain ⟨hne, hanswer⟩ := hstep
  have hne' : w.inputTokens ≠ [] := by simp [hinput, hne]
  have hw {w' : Tokenizer} (hturn : Turn env w (.ok, w')) : Step env w w' :=
    ⟨hne', turn_iff.mpr hturn⟩
  -- all that a step sees of what is behind the token is the type of the next one
  have hhead {t : InputToken} {rest : List InputToken} (hin : c.inputTokens = t :: rest) :
      (rest ++ later).head? = rest.head? ∨ t.token.type = .newline := by
    rcases hnewline.cases hin with hlast | ⟨-, htype⟩ | ⟨u, hu, -⟩
    · exact .inl (by rw [hlater hlast, List.append_nil])
    · exact .inr htype
    · cases rest with
      | nil => cases hu
      | cons next rest => exact .inl rfl
  cases turn_iff.mp hanswer with
  | nothing hnil => exact absurd hnil hne
  | @expand t rest name hin halias hexpand =>
    rw [hin, List.cons_append] at hinput
    obtain ⟨value, hvalue⟩ := aliasFor?_eq_some halias
    obtain ⟨w', hstep', hfollows, hinput'⟩ := h.expandAlias hvalue rest later hexpand
    have halias' : w.aliasFor? env t.token = some name := by rw [h.aliasFor_eq, halias]
    refine ⟨w', hw (.expand hinput halias' hstep'), hfollows, hinput', ?_⟩
    obtain ⟨tokens, -, hinput''⟩ := tokenizerExpandAlias_input hvalue hexpand
    rcases hnewline.cases hin with hlast | ⟨-, htype⟩ | ⟨u, hu, htype⟩
    · exact .inl hlast
    · rw [aliasFor?_word halias] at htype
      cases htype
    · refine .inr (.inl ⟨u, ?_, htype⟩)
      have hrest : rest ≠ [] := by
        rintro rfl
        cases hu
      rw [hinput'', List.getLast?_append_of_ne_nil _ hrest]
      exact hu
  | @reserved t rest type hin halias hreserved hadd =>
    rw [hin, List.cons_append] at hinput
    have halias' : w.aliasFor? env t.token = none := by rw [h.aliasFor_eq, halias]
    have hreserved' : w.reservedType? t.token (rest ++ later) = some type := by
      rw [h.reservedType_eq (hhead hin), hreserved]
    obtain ⟨w', hstep', hfollows, hinput'⟩ := h.addToken later hadd
    refine ⟨w', hw (.reserved hinput halias' hreserved' hstep'), hfollows, hinput', ?_⟩
    refine (addToken_added hadd).atNewline ?_
    refine (hnewline.cases hin).imp_right (Or.imp_left fun hnil => ?_)
    rw [(reservedType?_eq_some hreserved).1] at hnil
    cases hnil.2
  | @number t next rest text hin halias hreserved hnumber hneg hattach =>
    rw [hin, List.cons_append, List.cons_append] at hinput
    have halias' : w.aliasFor? env t.token = none := by rw [h.aliasFor_eq, halias]
    have hreserved' : w.reservedType? t.token (next :: (rest ++ later)) = none := by
      rw [← List.cons_append, h.reservedType_eq (hhead hin), hreserved]
    cases hattach
    refine ⟨_, hw (.number hinput halias' hreserved' hnumber hneg rfl),
      ⟨⟨h.position, h.aliases, h.stack, h.depth, h.maxDepth⟩, h.handedOver,
        ⟨h.settled.buffered, h.settled.output⟩, ⟨h.settled'.buffered, h.settled'.output⟩⟩, rfl, ?_⟩
    rcases hnewline.cases hin with hlast | ⟨hnil, -⟩ | ⟨u, hu, htype⟩
    · exact .inl hlast
    · cases hnil
    · refine .inr (.inl ⟨u, ?_, htype⟩)
      cases rest with
      | nil =>
        cases hu
        exact absurd htype (next_ne_newline hnumber)
      | cons _ _ => simpa using hu
  | @plain t rest hin halias hreserved hnumber hadd =>
    rw [hin, List.cons_append] at hinput
    have halias' : w.aliasFor? env t.token = none := by rw [h.aliasFor_eq, halias]
    have hreserved' : w.reservedType? t.token (rest ++ later) = none := by
      rw [h.reservedType_eq (hhead hin), hreserved]
    have hnumber' : numberBefore? t.token ((rest ++ later).head?.map InputToken.token) = none := by
      rcases hhead hin with hhead | htype
      · rw [hhead, hnumber]
      · have hword : t.token.type ≠ .word := by
          rw [htype]
          decide
        exact numberBefore?_of_ne_word hword _
    obtain ⟨w', hstep', hfollows, hinput'⟩ := h.addToken later hadd
    exact ⟨w', hw (.plain hinput halias' hreserved' hnumber' hstep'), hfollows, hinput',
      (addToken_added hadd).atNewline (hnewline.cases hin)⟩

theorem tokenizerProcessOneToken_status {status : TokStatus} (hne : c.inputTokens ≠ [])
    (h : tokenizerProcessOneToken env c = .ok (status, c')) : status = .ok ∨ status = .error := by
  have hadd (token : Token) (rest : List InputToken) :
      (c.addToken token rest).1 = .ok ∨ (c.addToken token rest).1 = .error := by
    unfold Tokenizer.addToken
    dsimp only
    cases stackAfter (c.takeBackName token.type rest).compoundStack token.type with
    | error e => exact .inr rfl
    | ok stack => exact .inl rfl
  have hexpand (tok : Tokenizer) (origins : List String) (name : String) :
      (tokenizerExpandAlias env tok origins name).1 = .ok ∨
        (tokenizerExpandAlias env tok origins name).1 = .error := by
    unfold tokenizerExpandAlias tokenizerRelexText
    split_ifs with hdepth
    · exact .inr rfl
    · cases env.aliasValue? name with
      | none => exact .inl rfl
      | some value =>
        dsimp only
        cases env.lex value with
        | error e => exact .inr rfl
        | ok tokens =>
          dsimp only
          split_ifs <;> simp_all
  cases turn_iff.mp h with
  | nothing hnil => exact absurd hnil hne
  | expand _ _ hanswer =>
    obtain rfl : _ = status := congrArg Prod.fst hanswer
    exact hexpand _ _ _
  | reserved _ _ _ hanswer | plain _ _ _ _ hanswer =>
    obtain rfl : _ = status := congrArg Prod.fst hanswer
    exact hadd _ _
  | number _ _ _ _ _ hanswer =>
    cases hanswer
    exact .inl rfl

/-- A call that ends without an error takes the same steps as a part of the longer run. -/
theorem Follows.run {status : TokStatus} (h : Follows before c w)
    (hinput : w.inputTokens = c.inputTokens ++ later) (hlater : last → later = [])
    (hnewline : AtNewline last c) (hrun : processTokens env n c = .ok (status, c'))
    (hstatus : status = .ok ∨ status = .incomplete) :
    ∃ d k w', d.finish = (status, c') ∧ Follows before d w' ∧ w'.inputTokens = later ∧
      AtNewline last d ∧ d.inputTokens = [] ∧
      ∀ m, processTokens env (m + k) w = processTokens env m w' := by
  induction n generalizing c w with
  | zero => cases hrun
  | succ n ih =>
    by_cases hnil : c.inputTokens = []
    · rw [processTokens_nil hnil] at hrun
      refine ⟨c, 0, w, Except.ok.inj hrun, h, ?_, hnewline, hnil, fun m => rfl⟩
      rw [hinput, hnil, List.nil_append]
    · cases hone : tokenizerProcessOneToken env c with
      | error e =>
        rw [processTokens_fault hnil hone] at hrun
        cases hrun
      | ok r =>
        obtain ⟨status', c₁⟩ := r
        rcases tokenizerProcessOneToken_status hnil hone with rfl | rfl
        · have hstep : Step env c c₁ := ⟨hnil, hone⟩
          obtain ⟨w₁, hstep', hfollows, hinput', hnewline'⟩ :=
            h.step hinput hlater hnewline hstep
          rw [processTokens_step hstep] at hrun
          obtain ⟨d, k, w', hd, hdw, hw, hdnewline, hdnil, hsteps⟩ :=
            ih hfollows hinput' hnewline' hrun
          refine ⟨d, k + 1, w', hd, hdw, hw, hdnewline, hdnil, fun m => ?_⟩
          rw [← hsteps m, ← Nat.add_assoc]
          exact processTokens_step hstep'
        · rw [processTokens_stop hnil (by decide) hone] at hrun
          cases hrun
          rcases hstatus with hstatus | hstatus <;> cases hstatus

end

/-! ## Calls -/

/-- Calls for one chunk after the other, none of which ends with an error, their output, and the
tokenizer after the last one. -/
inductive Chunks (env : Env) : Tokenizer → List (List Token) → List Token → Tokenizer → Prop
  | nil {tok : Tokenizer} : Chunks env tok [] [] tok
  | cons {tok tok' last : Tokenizer} {chunk output : List Token} {chunks : List (List Token)}
      {n : ℕ} {status : TokStatus} (call : tokenizerProcess env n tok chunk [] = .ok (status, tok'))
      (returned : status = .ok ∨ status = .incomplete) (rest : Chunks env tok' chunks output last) :
      Chunks env tok (chunk :: chunks) (tok'.outputTokens ++ output) last

/-- Every chunk but the last one ends with a newline. -/
def CutAtNewlines (chunks : List (List Token)) : Prop :=
  ∀ chunk ∈ chunks.dropLast, chunk.getLast?.map Token.type = some .newline

/-- What the end of a call does. -/
structure Finished (tok : Tokenizer) (status : TokStatus) (tok' : Tokenizer) : Prop where
  handedOver : tok'.handedOver = tok.handedOver
  stack : tok'.compoundStack = tok.compoundStack
  depth : tok'.expansionDepth = tok.expansionDepth
  maxDepth : tok'.maxExpansionDepth = tok.maxExpansionDepth
  closed : tok.compoundStack = [] → status = .ok ∧ tok'.bufferedTokens = []
  opened : tok.compoundStack ≠ [] → status = .incomplete ∧ tok'.bufferedTokens = tok.bufferedTokens

theorem finished {status : TokStatus} (h : tok.finish = (status, tok')) :
    Finished tok status tok' := by
  unfold finish at h
  by_cases hstack : tok.compoundStack = []
  · rw [if_neg (not_not.mpr hstack)] at h
    cases h
    exact ⟨by simp [handedOver], rfl, rfl, rfl, fun _ => ⟨rfl, rfl⟩, fun hne => absurd hstack hne⟩
  · rw [if_pos hstack] at h
    cases h
    exact ⟨rfl, rfl, rfl, rfl, fun hnil => absurd hnil hstack, fun _ => ⟨rfl, rfl⟩⟩

theorem Follows.start {before chunk : List Token} {w : Tokenizer}
    (h : Follows before (tok.start [] []) w) : Follows before (tok.start chunk []) w :=
  ⟨⟨h.position, h.aliases, h.stack, h.depth, h.maxDepth⟩, h.handedOver,
    ⟨h.settled.buffered, h.settled.output⟩, h.settled'⟩

/-- At the end of the input the longer call answers as the last of the shorter ones. -/
theorem Follows.finish {before : List Token} {d w : Tokenizer} (hdw : Follows before d w)
    (hnil : w.inputTokens = []) {status : TokStatus} (hd : Finished d status tok') :
    ∃ status' whole, processTokens env 1 w = .ok (status', whole) ∧
      (status' = .ok ∨ status' = .incomplete) ∧
      whole.handedOver = before ++ tok'.handedOver ∧
      (status' = .ok → whole.bufferedTokens = [] ∧ tok'.bufferedTokens = []) := by
  obtain ⟨status', whole, hfinish⟩ : ∃ status' whole, w.finish = (status', whole) := ⟨_, _, rfl⟩
  have hw := finished hfinish
  refine ⟨status', whole, ?_, ?_, ?_, ?_⟩
  · rw [processTokens_nil hnil, hfinish]
  · by_cases hstack : w.compoundStack = []
    · exact .inl (hw.closed hstack).1
    · exact .inr (hw.opened hstack).1
  · rw [hw.handedOver, hd.handedOver, hdw.handedOver]
  · intro hok
    by_cases hstack : w.compoundStack = []
    · exact ⟨(hw.closed hstack).2, (hd.closed (hdw.stack.symm.trans hstack)).2⟩
    · rw [(hw.opened hstack).1] at hok
      cases hok

/-- Behind a newline the next of the shorter calls starts where the longer one is. -/
theorem Follows.nextCall {before : List Token} {d w : Tokenizer} (hdw : Follows before d w)
    {status : TokStatus} (hd : Finished d status tok') (hposition : d.atCommandPosition = true)
    (haliases : d.expandedAliases = []) :
    Follows (before ++ tok'.outputTokens) (tok'.start [] []) w where
  position := hdw.position.trans hposition
  aliases := hdw.aliases.trans haliases
  stack := hdw.stack.trans hd.stack.symm
  depth := hdw.depth.trans hd.depth.symm
  maxDepth := hdw.maxDepth.trans hd.maxDepth.symm
  handedOver := by
    rw [hdw.handedOver, ← hd.handedOver]
    simp [Tokenizer.handedOver, Tokenizer.start]
  settled := by
    refine ⟨fun hne => ?_, by rintro t ⟨⟩⟩
    have hopen : d.compoundStack ≠ [] := hd.stack ▸ hne
    exact (hd.opened hopen).2 ▸ hdw.settled.buffered hopen
  settled' := hdw.settled'

/-- The longer run hands over what the calls do. -/
theorem Follows.chunks {before output : List Token} {chunks : List (List Token)}
    {w last : Tokenizer} (hchunks : Chunks env tok chunks output last)
    (hcut : CutAtNewlines chunks) (h : Follows before (tok.start [] []) w)
    (hinput : w.inputTokens = chunks.flatten.map (⟨·, []⟩))
    (hflushed : tok.compoundStack = [] → tok.bufferedTokens = []) :
    ∃ n status whole, processTokens env n w = .ok (status, whole) ∧
      (status = .ok ∨ status = .incomplete) ∧
      whole.handedOver = before ++ output ++ last.bufferedTokens ∧
      (status = .ok → whole.bufferedTokens = [] ∧ last.bufferedTokens = []) := by
  induction hchunks generalizing before w with
  | @nil tok =>
    have hidle : Finished (tok.start [] []) (if tok.compoundStack = [] then .ok else .incomplete)
        { tok with outputTokens := [] } :=
      ⟨rfl, rfl, rfl, rfl, fun hclosed => ⟨if_pos hclosed, hflushed hclosed⟩,
        fun hopen => ⟨if_neg hopen, rfl⟩⟩
    obtain ⟨status', whole, hrun, hstatus, hhanded, hbuffered⟩ := h.finish hinput hidle
    exact ⟨1, status', whole, hrun, hstatus, by simpa [Tokenizer.handedOver] using hhanded, hbuffered⟩
  | @cons tok tok' last chunk output chunks n status call returned rest ih =>
    have hinput' : w.inputTokens = (tok.start chunk []).inputTokens ++
        chunks.flatten.map (⟨·, []⟩) := by
      rw [hinput, List.flatten_cons, List.map_append]
      rfl
    have hnewline : AtNewline (chunks = []) (tok.start chunk []) := by
      cases chunks with
      | nil => exact .inl rfl
      | cons next chunks =>
        have hlast := hcut chunk (by simp)
        obtain ⟨t, ht, htype⟩ := Option.map_eq_some_iff.mp hlast
        exact .inr (.inl ⟨⟨t, []⟩, by simp [Tokenizer.start, ht], htype⟩)
    obtain ⟨d, k, w', hd, hdw, hw', hdnewline, hdnil, hsteps⟩ :=
      h.start.run hinput' (by rintro rfl; rfl) hnewline call returned
    have hfinished := finished hd
    cases chunks with
    | nil =>
      cases rest
      obtain ⟨status', whole, hrun, hstatus, hhanded, hbuffered⟩ := hdw.finish hw' hfinished
      refine ⟨1 + k, status', whole, (hsteps 1).trans hrun, hstatus, ?_, hbuffered⟩
      simpa [Tokenizer.handedOver] using hhanded
    | cons next chunks =>
      obtain ⟨hposition, haliases⟩ : d.atCommandPosition = true ∧ d.expandedAliases = [] := by
        rcases hdnewline with ⟨⟨⟩⟩ | ⟨u, hu, -⟩ | ⟨-, hat⟩
        · rw [hdnil] at hu
          cases hu
        · exact hat
      have hfollows := hdw.nextCall hfinished hposition haliases
      obtain ⟨m, status', whole, hrun, hstatus, hhanded, hbuffered⟩ :=
        ih (fun c hc => hcut c (by simpa using .inr hc)) hfollows hw'
          fun hclosed => (hfinished.closed (hfinished.stack.symm.trans hclosed)).2
      refine ⟨m + k, status', whole, (hsteps m).trans hrun, hstatus, ?_, hbuffered⟩
      simpa using hhanded

/-- Input that is cut behind newlines leads to the same output, with what is left in the buffer behind
it, as the whole input in one call, and to the same output where that call leaves nothing there. -/
theorem chunks_output {output : List Token} {chunks : List (List Token)} {last : Tokenizer}
    (hchunks : Chunks env {} chunks output last) (hcut : CutAtNewlines chunks) :
    ∃ n status whole, tokenizerProcess env n {} chunks.flatten [] = .ok (status, whole) ∧
      (status = .ok ∨ status = .incomplete) ∧
      whole.outputTokens ++ whole.bufferedTokens = output ++ last.bufferedTokens ∧
      (status = .ok → whole.outputTokens = output) := by
  have hsettled : Settled (start {} [] []) := ⟨fun hne => absurd rfl hne, by rintro t ⟨⟩⟩
  have hsettled' : Settled (start {} chunks.flatten []) :=
    ⟨fun hne => absurd rfl hne, by rintro t ⟨⟩⟩
  have hfollows : Follows [] (start {} [] []) (start {} chunks.flatten []) :=
    ⟨⟨rfl, rfl, rfl, rfl, rfl⟩, rfl, hsettled, hsettled'⟩
  obtain ⟨n, status, whole, hrun, hstatus, hhanded, hbuffered⟩ :=
    hfollows.chunks hchunks hcut rfl fun _ => rfl
  refine ⟨n, status, whole, hrun, hstatus, hhanded, fun hok => ?_⟩
  obtain ⟨hnil, hnil'⟩ := hbuffered hok
  simpa [handedOver, hnil, hnil'] using hhanded

def noAliases : Env := ⟨none, fun _ => .ok []⟩

/-- `if`, a newline, `fi`: nothing is left out, and nothing comes twice. -/
theorem chunks_output_if : ∃ n status whole,
    tokenizerProcess noAliases n {} [.ofText "if", .ofType .newline, .ofText "fi"] [] =
        .ok (status, whole) ∧
      (status = .ok → whole.outputTokens.map Token.type = [.if_, .newline, .fi]) := by
  obtain ⟨output, last, hchunks, htypes⟩ : ∃ output last,
      Chunks noAliases {} [[.ofText "if", .ofType .newline], [.ofText "fi"]] output last ∧
        output.map Token.type = [.if_, .newline, .fi] :=
    ⟨_, _, .cons (n := 3) rfl (.inr rfl) (.cons (n := 2) rfl (.inl rfl) .nil), by decide⟩
  have hcut : CutAtNewlines [[.ofText "if", .ofType .newline], [.ofText "fi"]] := by
    intro chunk hchunk
    obtain rfl := List.mem_singleton.mp hchunk
    rfl
  obtain ⟨n, status, whole, hrun, -, -, houtput⟩ := chunks_output hchunks hcut
  exact ⟨n, status, whole, hrun, fun hok => by rw [houtput hok, htypes]⟩

/-- `foo()`, a newline, `{`, a newline: the first call ends with the output of its tokens. In one
call they wait in the buffer for the body of the function. -/
theorem chunks_output_function : ∃ output last n status whole,
    Chunks noAliases {} [[.ofText "foo", .ofType .lparen, .ofType .rparen, .ofType .newline],
      [.ofText "\x7b", .ofType .newline]] output last ∧
    tokenizerProcess noAliases n {} [.ofText "foo", .ofType .lparen, .ofType .rparen,
      .ofType .newline, .ofText "\x7b", .ofType .newline] [] = .ok (status, whole) ∧
    status = .incomplete ∧ whole.outputTokens ≠ output := by
  refine ⟨_, _, 7, _, _, .cons (n := 5) rfl (.inl rfl) (.cons (n := 3) rfl (.inr rfl) .nil), rfl,
    rfl, ?_⟩
  decide

end Migash.Tokenizer
