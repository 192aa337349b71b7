import Mathlib.Data.List.Range
import Migash.Tokenizer.Chunks

/-! # Who owns a token

Every token object of the input goes to the output, to the buffer or is
destroyed. The input list forgets its objects at the end of a call only, so
after an error the tokens that were handed over are in two lists.
-/

namespace Migash.Tokenizer

open Library Relation

variable {env : Env} {n : ℕ} {tok tok' : Tokenizer}

/-- The token objects in the lists of a call, by number. The input list is `passed ++ waiting`, and
`next` numbers the next new object. -/
structure Objects where
  passed : List ℕ := []
  waiting : List ℕ
  output : List ℕ
  buffered : List ℕ
  destroyed : List ℕ := []
  next : ℕ
  deriving DecidableEq, Repr

namespace Objects

/-- The objects at the start of a call; those of the input come first. -/
def ofTokenizer (tok : Tokenizer) : Objects where
  waiting := List.range' 0 tok.inputTokens.length
  output := List.range' tok.inputTokens.length tok.outputTokens.length
  buffered := List.range' (tok.inputTokens.length + tok.outputTokens.length)
    tok.bufferedTokens.length
  next := tok.inputTokens.length + tok.outputTokens.length + tok.bufferedTokens.length

/-- The first token that waits is destroyed, and new ones take its place. -/
def replace (o : Objects) (fresh : ℕ) : Objects :=
  { o with
    waiting := List.range' o.next fresh ++ o.waiting.tail
    destroyed := o.destroyed ++ o.waiting.head?.toList
    next := o.next + fresh }

/-- The name of a function goes back to the buffer. -/
def takeBackName (o : Objects) (tok : Tokenizer) (type : TokenType) (rest : List InputToken) :
    Objects :=
  if tok.startsFunction type rest then
    { o with
      output := o.output.dropLast
      buffered := o.buffered ++ o.output.getLast?.toList }
  else o

/-- The first token that waits is appended to another list and stays in the input. -/
def handOver (o : Objects) (tok : Tokenizer) (stack : List TokenType) : Objects :=
  let o' := { o with passed := o.passed ++ o.waiting.head?.toList, waiting := o.waiting.tail }
  if tok.isBuffering ∨ stack ≠ [] then
    { o' with buffered := o.buffered ++ o.waiting.head?.toList }
  else { o' with output := o.output ++ o.waiting.head?.toList }

/-- `add_token`. -/
def addToken (o : Objects) (tok : Tokenizer) (token : Token) (rest : List InputToken) : Objects :=
  let o := o.takeBackName tok token.type rest
  let tok := tok.takeBackName token.type rest
  match stackAfter tok.compoundStack token.type with
  | .error _ => o
  | .ok stack => o.handOver tok stack

/-- The number of tokens that an expansion puts before the rest of the input. -/
def freshTokens (env : Env) (tok : Tokenizer) (t : InputToken) (rest : List InputToken)
    (name : String) : ℕ :=
  (tokenizerExpandAlias env { tok with inputTokens := rest } t.origins name).2.inputTokens.length -
    rest.length

/-- `tokenizer_process_one_token`. -/
def processOneToken (env : Env) (tok : Tokenizer) (o : Objects) : Objects :=
  match tok.inputTokens with
  | [] => o
  | t :: rest =>
    match tok.aliasFor? env t.token with
    | some name => o.replace (freshTokens env tok t rest name)
    | none =>
      match tok.reservedType? t.token rest with
      | some type => o.addToken tok { t.token with type } rest
      | none =>
        match numberBefore? t.token (rest.head?.map InputToken.token), rest with
        | some _, _ :: _ => o.replace 0
        | _, _ => o.addToken tok t.token rest

/-- The end of `tokenizer_process`: the input list forgets its objects. -/
def finish (o : Objects) (tok : Tokenizer) : Objects :=
  let o' := { o with passed := [], waiting := [] }
  if tok.compoundStack ≠ [] then o'
  else { o' with output := o.output ++ o.buffered, buffered := [] }

/-- The loop of `tokenizer_process`, at most `n` turns. -/
def processTokens (env : Env) : ℕ → Tokenizer → Objects → Except Fault (TokStatus × Objects)
  | 0, _, _ => .error .fuel
  | n + 1, tok, o =>
    if tok.inputTokens = [] then .ok (tok.finish.1, o.finish tok)
    else do
      let (status, tok') ← tokenizerProcessOneToken env tok
      let o := o.processOneToken env tok
      if status ≠ .ok then return (status, o) else processTokens env n tok' o

/-- The objects of all lists, and those that were destroyed. -/
def everywhere (o : Objects) : List ℕ :=
  o.passed ++ (o.waiting ++ (o.output ++ (o.buffered ++ o.destroyed)))

end Objects

/-- The objects at the end of `tokenizer_process`, at most `n` turns of its loop. -/
def tokenizerProcessObjects (env : Env) (n : ℕ) (tok : Tokenizer) (input output : List Token) :
    Except Fault (TokStatus × Objects) :=
  Objects.processTokens env n (tok.start input output) (Objects.ofTokenizer (tok.start input output))

/-- No object is in two lists, or in a list after it was destroyed. -/
def NothingTwice (o : Objects) : Prop := o.everywhere.Nodup

/-- Every token of the input is in the output, in the buffer or destroyed, and nowhere else. -/
def OnePlaceEach (input : List Token) (o : Objects) : Prop :=
  NothingTwice o ∧ ∀ i < input.length, i ∈ o.output ++ (o.buffered ++ o.destroyed)

/-! ## The calls agree -/

/-- The objects follow the tokens: the answers have the same status. -/
theorem processTokens_status (tok : Tokenizer) (o : Objects) :
    (Objects.processTokens env n tok o).map Prod.fst =
      (Tokenizer.processTokens env n tok).map Prod.fst := by
  induction n generalizing tok o with
  | zero => rfl
  | succ n ih =>
    rw [Objects.processTokens, Tokenizer.processTokens]
    split_ifs with hinput
    · rfl
    · cases hone : tokenizerProcessOneToken env tok with
      | error e => rfl
      | ok answer =>
        obtain ⟨status, tok'⟩ := answer
        by_cases hstatus : status = .ok
        · simpa [bind, Except.bind, hstatus] using ih tok' (o.processOneToken env tok)
        · simp [bind, Except.bind, hstatus, pure, Except.pure, Except.map]

/-! ## One step moves the objects -/

/-- All objects but those that were passed. -/
def Objects.live (o : Objects) : List ℕ := o.waiting ++ (o.output ++ (o.buffered ++ o.destroyed))

/-- The objects of a call that started with `count` tokens of input and with `before` tokens in the
other lists. -/
structure Ledger (count before : ℕ) (tok : Tokenizer) (o : Objects) : Prop where
  waiting : List.Forall₂ (fun origins i => origins = [] ↔ i < count)
    (tok.inputTokens.map InputToken.origins) o.waiting
  output : o.output.length = tok.outputTokens.length
  buffered : o.buffered.length = tok.bufferedTokens.length
  nodup : o.live.Nodup
  bound : ∀ i ∈ o.live, i < o.next
  kept : ∀ i < count, i ∈ o.live
  passed : o.passed ⊆ o.output ++ o.buffered
  handedOver : o.passed.length + before = tok.handedOver.length

theorem dropLast_append_toList {α : Type} (l : List α) :
    l.dropLast ++ l.getLast?.toList = l := by
  rw [List.dropLast_eq_take, List.take_append_getLast?]

theorem head?_toList_append {α : Type} (l : List α) : l.head?.toList ++ l.tail = l := by
  cases l <;> rfl

theorem Objects.replace_live (o : Objects) (fresh : ℕ) :
    List.Perm (o.replace fresh).live (List.range' o.next fresh ++ o.live) := by
  refine List.perm_iff_count.mpr fun i => ?_
  have hwaiting := congrArg (List.count i) (head?_toList_append o.waiting)
  simp only [List.count_append] at hwaiting
  simp only [live, replace, List.count_append]
  omega

theorem Objects.takeBackName_live (o : Objects) (tok : Tokenizer) (type : TokenType)
    (rest : List InputToken) :
    List.Perm (o.takeBackName tok type rest).live o.live := by
  refine List.perm_iff_count.mpr fun i => ?_
  have houtput := congrArg (List.count i) (dropLast_append_toList o.output)
  simp only [List.count_append] at houtput
  unfold takeBackName
  split_ifs
  · simp only [live, List.count_append]
    omega
  · rfl

theorem Objects.handOver_live (o : Objects) (tok : Tokenizer) (stack : List TokenType) :
    List.Perm (o.handOver tok stack).live o.live := by
  refine List.perm_iff_count.mpr fun i => ?_
  have hwaiting := congrArg (List.count i) (head?_toList_append o.waiting)
  simp only [List.count_append] at hwaiting
  unfold handOver
  split_ifs
  · simp only [live, List.count_append]
    omega
  · simp only [live, List.count_append]
    omega

variable {count before : ℕ} {o o' : Objects}

theorem Ledger.waiting_eq (h : Ledger count before tok o) {t : InputToken}
    {rest : List InputToken} (hinput : tok.inputTokens = t :: rest) :
    ∃ i waiting, o.waiting = i :: waiting ∧ List.Forall₂ (fun origins i => origins = [] ↔ i < count)
      (rest.map InputToken.origins) waiting := by
  have hwaiting := h.waiting
  rw [hinput, List.map_cons] at hwaiting
  obtain ⟨i, waiting, -, hrest, heq⟩ := List.forall₂_cons_left_iff.mp hwaiting
  exact ⟨i, waiting, heq, hrest⟩

theorem Ledger.replace (h : Ledger count before tok o) {t : InputToken} {rest : List InputToken}
    {fresh : List (List String)} (hinput : tok.inputTokens = t :: rest)
    (hinput' : tok'.inputTokens.map InputToken.origins = fresh ++ rest.map InputToken.origins)
    (hfresh : ∀ origins ∈ fresh, origins ≠ []) (houtput : tok'.outputTokens = tok.outputTokens)
    (hbuffered : tok'.bufferedTokens = tok.bufferedTokens) :
    Ledger count before tok' (o.replace fresh.length) := by
  have hperm := o.replace_live fresh.length
  have hcount : count ≤ o.next := by
    by_contra hlt
    exact absurd (h.bound _ (h.kept o.next (not_le.mp hlt))) (lt_irrefl _)
  have hhanded : tok'.handedOver = tok.handedOver := by
    rw [Tokenizer.handedOver, houtput, hbuffered, Tokenizer.handedOver]
  refine
    { waiting := ?_
      output := by rw [houtput]; exact h.output
      buffered := by rw [hbuffered]; exact h.buffered
      nodup := ?_
      bound := ?_
      kept := fun i hi => hperm.mem_iff.mpr (List.mem_append.mpr (.inr (h.kept i hi)))
      passed := h.passed
      handedOver := by rw [hhanded]; exact h.handedOver }
  · rw [hinput']
    obtain ⟨i, waiting, hwaiting, hrest⟩ := h.waiting_eq hinput
    have htail : o.waiting.tail = waiting := by rw [hwaiting, List.tail_cons]
    refine List.rel_append ?_ (htail ▸ hrest)
    refine List.forall₂_iff_zip.mpr ⟨by simp, fun {origins i} hmem => ?_⟩
    obtain ⟨horigins, hi⟩ := List.of_mem_zip hmem
    have hlow := (List.mem_range'_1.mp hi).1
    exact iff_of_false (hfresh _ horigins) (not_lt.mpr (hcount.trans hlow))
  · refine hperm.nodup_iff.mpr (List.nodup_append.mpr ⟨List.nodup_range', h.nodup, ?_⟩)
    rintro i hi j hj rfl
    have hlow := (List.mem_range'_1.mp hi).1
    exact absurd (h.bound i hj) (not_lt.mpr hlow)
  · intro i hi
    rcases List.mem_append.mp (hperm.mem_iff.mp hi) with hi | hi
    · exact (List.mem_range'_1.mp hi).2
    · exact Nat.lt_add_right _ (h.bound i hi)

/-- A ledger after objects have moved from list to list. -/
theorem Ledger.of_perm (h : Ledger count before tok o) (hperm : List.Perm o'.live o.live)
    (hnext : o'.next = o.next)
    (hwaiting : List.Forall₂ (fun origins i => origins = [] ↔ i < count)
      (tok'.inputTokens.map InputToken.origins) o'.waiting)
    (houtput : o'.output.length = tok'.outputTokens.length)
    (hbuffered : o'.buffered.length = tok'.bufferedTokens.length)
    (hpassed : o'.passed ⊆ o'.output ++ o'.buffered)
    (hhanded : o'.passed.length + before = tok'.handedOver.length) :
    Ledger count before tok' o' where
  waiting := hwaiting
  output := houtput
  buffered := hbuffered
  nodup := hperm.nodup_iff.mpr h.nodup
  bound := fun i hi => hnext ▸ h.bound i (hperm.mem_iff.mp hi)
  kept := fun i hi => hperm.mem_iff.mpr (h.kept i hi)
  passed := hpassed
  handedOver := hhanded

/-- A ledger depends on the lists of tokens only. -/
theorem Ledger.congr (h : Ledger count before tok o) (hinput : tok'.inputTokens = tok.inputTokens)
    (houtput : tok'.outputTokens = tok.outputTokens)
    (hbuffered : tok'.bufferedTokens = tok.bufferedTokens) : Ledger count before tok' o := by
  have hhanded : tok'.handedOver = tok.handedOver := by
    rw [Tokenizer.handedOver, houtput, hbuffered, Tokenizer.handedOver]
  refine h.of_perm (List.Perm.refl _) rfl ?_ ?_ ?_ h.passed ?_
  · rw [hinput]
    exact h.waiting
  · rw [houtput]
    exact h.output
  · rw [hbuffered]
    exact h.buffered
  · rw [hhanded]
    exact h.handedOver

theorem length_getLast?_toList {α β : Type} {as : List α} {bs : List β}
    (h : as.length = bs.length) : as.getLast?.toList.length = bs.getLast?.toList.length := by
  have has := congrArg List.length (dropLast_append_toList as)
  have hbs := congrArg List.length (dropLast_append_toList bs)
  simp only [List.length_append, List.length_dropLast] at has hbs
  omega

theorem Ledger.takeBackName (h : Ledger count before tok o) (type : TokenType)
    (rest : List InputToken) :
    Ledger count before (tok.takeBackName type rest) (o.takeBackName tok type rest) := by
  have hhanded := takeBackName_handedOver tok type rest
  have hperm := o.takeBackName_live tok type rest
  unfold Tokenizer.takeBackName Objects.takeBackName at *
  split_ifs at * with hname
  · refine h.of_perm hperm rfl h.waiting ?_ ?_ ?_ ?_
    · simp [h.output]
    · simp [h.buffered, length_getLast?_toList h.output]
    · intro i hi
      have hall := List.mem_append.mp (h.passed hi)
      rw [← dropLast_append_toList o.output] at hall
      simp only [List.mem_append] at hall ⊢
      tauto
    · rw [hhanded]
      exact h.handedOver
  · exact h

theorem Ledger.handOver (h : Ledger count before tok o) {t : InputToken} {rest : List InputToken}
    (hinput : tok.inputTokens = t :: rest) (token : Token) (stack : List TokenType) :
    Ledger count before { tok.handOver token stack with inputTokens := rest }
      (o.handOver tok stack) := by
  obtain ⟨i, waiting, hwaiting, hrest⟩ := h.waiting_eq hinput
  have hhanded : ({ tok.handOver token stack with inputTokens := rest } : Tokenizer).handedOver =
      tok.handedOver ++ [token] := handOver_handedOver tok token stack
  have hlength : o.passed.length + 1 + before =
      ({ tok.handOver token stack with inputTokens := rest } : Tokenizer).handedOver.length := by
    rw [hhanded, List.length_append, List.length_singleton, ← h.handedOver]
    omega
  have hpassed : ∀ j ∈ o.passed ++ [i], j ∈ o.output ++ o.buffered ∨ j = i := fun j hj =>
    (List.mem_append.mp hj).imp (fun hj => h.passed hj) List.mem_singleton.mp
  have hperm := o.handOver_live tok stack
  unfold Tokenizer.handOver Objects.handOver at *
  rw [hwaiting, List.head?_cons, List.tail_cons, Option.toList_some] at *
  split_ifs at * with hbuffer
  · refine h.of_perm hperm rfl hrest h.output ?_ ?_ ?_
    · simp [h.buffered]
    · intro j hj
      have hmem := hpassed j hj
      simp only [List.mem_append, List.mem_singleton] at hmem ⊢
      tauto
    · simpa using hlength
  · refine h.of_perm hperm rfl hrest ?_ h.buffered ?_ ?_
    · simp [h.output]
    · intro j hj
      have hmem := hpassed j hj
      simp only [List.mem_append, List.mem_singleton] at hmem ⊢
      tauto
    · simpa using hlength

/-- Handing a token over keeps the ledger, also where its closing word does not fit. -/
theorem Ledger.addToken (h : Ledger count before tok o) {t : InputToken} {rest : List InputToken}
    (hinput : tok.inputTokens = t :: rest) (token : Token) :
    Ledger count before (tok.addToken token rest).2 (o.addToken tok token rest) := by
  have hname := h.takeBackName token.type rest
  have hinput' : (tok.takeBackName token.type rest).inputTokens = t :: rest := by
    unfold Tokenizer.takeBackName
    split_ifs <;> exact hinput
  unfold Tokenizer.addToken Objects.addToken
  dsimp only
  cases hstack : stackAfter (tok.takeBackName token.type rest).compoundStack token.type with
  | error e => exact hname.congr rfl rfl rfl
  | ok stack =>
    have hadded := hname.handOver hinput' token stack
    dsimp only
    unfold updateCommandPosition
    split_ifs
    · exact hadded.congr rfl rfl rfl
    · exact hadded.congr rfl rfl rfl

/-- Whether or not it succeeds, an expansion only puts tokens of its own before the input. -/
theorem tokenizerExpandAlias_lists (env : Env) (tok : Tokenizer) (origins : List String)
    (name : String) :
    ∃ tokens : List Token,
      (tokenizerExpandAlias env tok origins name).2.inputTokens =
        tokens.map (⟨·, name :: origins⟩) ++ tok.inputTokens ∧
      (tokenizerExpandAlias env tok origins name).2.outputTokens = tok.outputTokens ∧
      (tokenizerExpandAlias env tok origins name).2.bufferedTokens = tok.bufferedTokens := by
  unfold tokenizerExpandAlias
  split_ifs with hdepth
  · exact ⟨[], rfl, rfl, rfl⟩
  · cases hvalue : env.aliasValue? name with
    | none => exact ⟨[], rfl, rfl, rfl⟩
    | some value =>
      dsimp only [tokenizerRelexText]
      cases env.lex value with
      | error e => exact ⟨[], rfl, rfl, rfl⟩
      | ok tokens =>
        refine ⟨tokens, ?_⟩
        by_cases hblank : aliasEndsWithBlank value = true
        · simp [hblank]
        · simp [hblank]

/-- A step keeps the ledger, also one that meets an error. -/
theorem Ledger.step (h : Ledger count before tok o) {status : TokStatus}
    (hstep : tokenizerProcessOneToken env tok = .ok (status, tok')) :
    Ledger count before tok' (o.processOneToken env tok) := by
  unfold Objects.processOneToken
  cases turn_iff.mp hstep with
  | nothing hinput hanswer =>
    cases hanswer
    rw [hinput]
    exact h
  | @expand t rest name hinput halias hanswer =>
    obtain ⟨tokens, htokens, houtput, hbuffered⟩ :=
      tokenizerExpandAlias_lists env { tok with inputTokens := rest } t.origins name
    have hfresh : Objects.freshTokens env tok t rest name =
        (tokens.map fun _ => name :: t.origins).length := by
      rw [Objects.freshTokens, htokens]
      simp
    rw [hanswer] at htokens houtput hbuffered
    simp only [hinput, halias, hfresh]
    refine h.replace hinput ?_ ?_ houtput hbuffered
    · rw [htokens, List.map_append, List.map_map]
      rfl
    · intro origins horigins
      obtain ⟨_, -, rfl⟩ := List.mem_map.mp horigins
      exact List.cons_ne_nil _ _
  | @reserved t rest type hinput halias hreserved hanswer =>
    have hadded := h.addToken hinput { t.token with type }
    rw [hanswer] at hadded
    simp only [hinput, halias, hreserved]
    exact hadded
  | @number t next rest text hinput halias hreserved hnumber _ hanswer =>
    cases hanswer
    simp only [hinput, halias, hreserved, List.head?_cons, Option.map_some, hnumber]
    have hnone : ∀ origins ∈ ([] : List (List String)), origins ≠ [] := by simp
    exact h.replace hinput rfl hnone rfl rfl
  | @plain t rest hinput halias hreserved hnumber hanswer =>
    have hadded := h.addToken hinput t.token
    rw [hanswer] at hadded
    simp only [hinput, halias, hreserved, hnumber]
    exact hadded

/-! ## Errors -/

/-- The input behind a step that fails: the token of an alias is gone, any other stays. -/
def leftBehind (env : Env) (tok : Tokenizer) : List InputToken :=
  match tok.inputTokens with
  | [] => []
  | t :: rest => if (tok.aliasFor? env t.token).isSome then rest else t :: rest

theorem addToken_error {token : Token} {rest : List InputToken}
    (h : tok.addToken token rest = (.error, tok')) :
    tok'.inputTokens = tok.inputTokens ∧ tok'.handedOver = tok.handedOver := by
  have hhanded := takeBackName_handedOver tok token.type rest
  unfold addToken at h
  cases hstack : stackAfter (tok.takeBackName token.type rest).compoundStack token.type with
  | ok stack => simp [hstack] at h
  | error e =>
    simp only [hstack, Prod.mk.injEq, true_and] at h
    subst h
    refine ⟨?_, hhanded⟩
    unfold setError takeBackName
    split_ifs <;> rfl

theorem tokenizerExpandAlias_error {origins : List String} {name : String}
    (h : tokenizerExpandAlias env tok origins name = (.error, tok')) :
    tok'.inputTokens = tok.inputTokens := by
  unfold tokenizerExpandAlias tokenizerRelexText at h
  split_ifs at h with hdepth
  · cases h
    rfl
  · cases hvalue : env.aliasValue? name with
    | none => simp [hvalue] at h
    | some value =>
      simp only [hvalue] at h
      cases hlex : env.lex value with
      | error e =>
        simp only [hlex, ne_eq, reduceCtorEq, not_false_eq_true, if_true, Prod.mk.injEq,
          true_and] at h
        rw [← h]
        rfl
      | ok tokens =>
        simp only [hlex, ne_eq, not_true_eq_false, if_false] at h
        split_ifs at h <;> cases h

/-- A step that fails hands nothing over. -/
theorem tokenizerProcessOneToken_error
    (h : tokenizerProcessOneToken env tok = .ok (.error, tok')) :
    tok'.inputTokens = leftBehind env tok ∧ tok'.handedOver = tok.handedOver := by
  have hadd {token : Token} {rest : List InputToken} {t : InputToken}
      (hinput : tok.inputTokens = t :: rest) (halias : tok.aliasFor? env t.token = none)
      (hanswer : tok.addToken token rest = (.error, tok')) :
      tok'.inputTokens = leftBehind env tok ∧ tok'.handedOver = tok.handedOver := by
    have hleft : leftBehind env tok = tok.inputTokens := by simp [leftBehind, hinput, halias]
    rw [hleft]
    exact addToken_error hanswer
  cases turn_iff.mp h with
  | nothing _ hanswer => cases hanswer
  | @expand t rest name hinput halias hanswer =>
    obtain ⟨-, -, houtput, hbuffered⟩ :=
      tokenizerExpandAlias_lists env { tok with inputTokens := rest } t.origins name
    rw [hanswer] at houtput hbuffered
    have hleft : leftBehind env tok = rest := by simp [leftBehind, hinput, halias]
    refine ⟨hleft ▸ tokenizerExpandAlias_error hanswer, ?_⟩
    unfold handedOver
    rw [houtput, hbuffered]
  | reserved hinput halias _ hanswer | plain hinput halias _ _ hanswer =>
    exact hadd hinput halias hanswer
  | number _ _ _ _ _ hanswer => cases hanswer

/-! ## Runs -/

theorem Ledger.finish (h : Ledger count before tok o) (hinput : tok.inputTokens = []) :
    NothingTwice (o.finish tok) ∧ ∀ i < count,
      i ∈ (o.finish tok).output ++ ((o.finish tok).buffered ++ (o.finish tok).destroyed) := by
  have hwaiting : o.waiting = [] := by
    have hwaiting := h.waiting
    rw [hinput] at hwaiting
    exact List.forall₂_nil_left_iff.mp hwaiting
  have hnodup := h.nodup
  have hkept := h.kept
  unfold Objects.live at hnodup hkept
  rw [hwaiting, List.nil_append] at hnodup hkept
  unfold NothingTwice Objects.everywhere Objects.finish
  split_ifs
  · exact ⟨hnodup, hkept⟩
  · simpa [List.append_assoc] using And.intro hnodup hkept

/-- Where nothing was passed, no object is in two lists. -/
theorem Ledger.nothingTwice_iff (h : Ledger count before tok o) :
    NothingTwice o ↔ tok.handedOver.length = before := by
  have hpassed : NothingTwice o ↔ o.passed = [] := by
    constructor
    · intro hnodup
      refine List.eq_nil_iff_forall_not_mem.mpr fun i hi => ?_
      refine (List.nodup_append.mp hnodup).2.2 i hi i ?_ rfl
      have hmem := h.passed hi
      simp only [List.mem_append] at hmem ⊢
      tauto
    · intro hnil
      unfold NothingTwice Objects.everywhere
      rw [hnil]
      exact h.nodup
  rw [hpassed, ← h.handedOver, ← List.length_eq_zero_iff]
  omega

theorem exists_mem_of_forall₂ {α β : Type} {R : α → β → Prop} {as : List α} {bs : List β}
    (h : List.Forall₂ R as bs) {a : α} (ha : a ∈ as) : ∃ b ∈ bs, R a b := by
  induction h with
  | nil => cases ha
  | cons hab _ ih =>
    rcases List.mem_cons.mp ha with rfl | ha
    · exact ⟨_, List.mem_cons_self, hab⟩
    · obtain ⟨b, hb, hrelated⟩ := ih ha
      exact ⟨b, List.mem_cons_of_mem _ hb, hrelated⟩

/-- The tokens of the input are all placed when only tokens of expansions wait. -/
theorem Ledger.placed_iff (h : Ledger count before tok o) :
    (∀ i < count, i ∈ o.output ++ (o.buffered ++ o.destroyed)) ↔
      ∀ u ∈ tok.inputTokens, u.origins ≠ [] := by
  constructor
  · intro hplaced u hu horigins
    obtain ⟨i, hi, hnew⟩ := exists_mem_of_forall₂ h.waiting (List.mem_map_of_mem hu)
    exact (List.nodup_append.mp h.nodup).2.2 i hi i (hplaced i (hnew.mp horigins)) rfl
  · intro horigins i hi
    refine (List.mem_append.mp (h.kept i hi)).resolve_left fun hwaiting => ?_
    obtain ⟨_, hmem, hnew⟩ := exists_mem_of_forall₂ h.waiting.flip hwaiting
    obtain ⟨u, hu, rfl⟩ := List.mem_map.mp hmem
    exact horigins u hu (hnew.mpr hi)

theorem Objects.ofTokenizer_live (tok : Tokenizer) :
    (ofTokenizer tok).live = List.range' 0 (ofTokenizer tok).next := by
  simp [live, ofTokenizer, ← List.range'_append_1, List.append_assoc]

theorem Ledger.start (tok : Tokenizer) (input output : List Token) :
    Ledger input.length (tok.start input output).handedOver.length (tok.start input output)
      (Objects.ofTokenizer (tok.start input output)) := by
  have hlive := Objects.ofTokenizer_live (tok.start input output)
  have hcount : input.length ≤ (Objects.ofTokenizer (tok.start input output)).next := by
    simp [Objects.ofTokenizer, Tokenizer.start, Nat.add_assoc]
  refine
    { waiting := ?_
      output := List.length_range'
      buffered := List.length_range'
      nodup := hlive ▸ List.nodup_range'
      bound := fun i hi => ?_
      kept := fun i hi => ?_
      passed := List.nil_subset _
      handedOver := Nat.zero_add _ }
  · refine List.forall₂_iff_zip.mpr ⟨by simp [Objects.ofTokenizer], fun {origins i} hmem => ?_⟩
    obtain ⟨horigins, hi⟩ := List.of_mem_zip hmem
    have hlt := (List.mem_range'_1.mp hi).2
    simp only [Tokenizer.start, List.map_map, List.length_map, Nat.zero_add] at horigins hlt
    obtain ⟨token, -, rfl⟩ := List.mem_map.mp horigins
    exact iff_of_true rfl hlt
  · rw [hlive] at hi
    simpa using hi
  · rw [hlive]
    simpa using hi.trans_le hcount

/-- The answer of a run: it ends with the input, or with a step that fails. -/
theorem Ledger.answer (h : Ledger count before tok o) {status : TokStatus}
    (hrun : Objects.processTokens env n tok o = .ok (status, o')) :
    ∃ t p, ReflTransGen (Step env) tok t ∧ Ledger count before t p ∧
      (t.inputTokens = [] ∧ o' = p.finish t ∨
        ∃ t', tokenizerProcessOneToken env t = .ok (.error, t') ∧
          o' = p.processOneToken env t) := by
  induction n generalizing tok o with
  | zero => cases hrun
  | succ n ih =>
    rw [Objects.processTokens] at hrun
    split_ifs at hrun with hinput
    · cases hrun
      exact ⟨tok, o, .refl, h, .inl ⟨hinput, rfl⟩⟩
    · cases hone : tokenizerProcessOneToken env tok with
      | error e =>
        rw [hone] at hrun
        cases hrun
      | ok answer =>
        obtain ⟨first, tok'⟩ := answer
        rw [hone] at hrun
        rcases tokenizerProcessOneToken_status hinput hone with rfl | rfl
        · obtain ⟨t, p, hreach, hend⟩ := ih (h.step hone) hrun
          exact ⟨t, p, .head ⟨hinput, hone⟩ hreach, hend⟩
        · cases hrun
          exact ⟨tok, o, .refl, h, .inr ⟨tok', hone, rfl⟩⟩

/-- A run that leads to a failing step answers with the objects behind it. -/
theorem Ledger.reach {t t' : Tokenizer} (hreach : ReflTransGen (Step env) tok t)
    (h : Ledger count before tok o) (hinput : t.inputTokens ≠ [])
    (hone : tokenizerProcessOneToken env t = .ok (.error, t')) :
    ∃ n o', Objects.processTokens env n tok o = .ok (.error, o') ∧ Ledger count before t' o' := by
  induction hreach using ReflTransGen.head_induction_on generalizing o with
  | refl =>
    refine ⟨1, o.processOneToken env t, ?_, h.step hone⟩
    rw [Objects.processTokens, if_neg hinput, hone]
    rfl
  | head hstep _ ih =>
    obtain ⟨n, o', hrun, hledger⟩ := ih (h.step hstep.answer)
    refine ⟨n + 1, o', ?_, hledger⟩
    rw [Objects.processTokens, if_neg hstep.input, hstep.answer]
    exact hrun

/-- A property of the objects after every call, in terms of the errors that its steps can meet. -/
theorem Ledger.forall_answers_iff {P : Objects → Prop} {Q : Tokenizer → Prop}
    (h : Ledger count before tok o)
    (hfinish : ∀ t p, Ledger count before t p → t.inputTokens = [] → P (p.finish t))
    (hfails : ∀ t t' p, tokenizerProcessOneToken env t = .ok (.error, t') →
      Ledger count before t' p → (P p ↔ Q t)) :
    (∀ n status o', Objects.processTokens env n tok o = .ok (status, o') → P o') ↔
      ∀ t t', ReflTransGen (Step env) tok t → tokenizerProcessOneToken env t = .ok (.error, t') →
        Q t := by
  constructor
  · intro hall t t' hreach hone
    have hinput : t.inputTokens ≠ [] := by
      intro hnil
      simp [tokenizerProcessOneToken, hnil] at hone
    obtain ⟨n, o', hrun, hledger⟩ := h.reach hreach hinput hone
    exact (hfails t t' o' hone hledger).mp (hall n .error o' hrun)
  · intro hall n status o' hrun
    obtain ⟨t, p, hreach, hledger, ⟨hinput, rfl⟩ | ⟨t', hone, rfl⟩⟩ := h.answer hrun
    · exact hfinish t p hledger hinput
    · exact (hfails t t' _ hone (hledger.step hone)).mpr (hall t t' hreach hone)

/-! ## The input tokens after a call -/

/-- A step that meets an error comes before every step that hands a token over. -/
def FailsEarly (env : Env) (start : Tokenizer) : Prop :=
  ∀ t t', ReflTransGen (Step env) start t → tokenizerProcessOneToken env t = .ok (.error, t') →
    t.handedOver.length = start.handedOver.length

/-- A step that meets an error leaves no token behind but those of expansions. -/
def FailsEmpty (env : Env) (start : Tokenizer) : Prop :=
  ∀ t t', ReflTransGen (Step env) start t → tokenizerProcessOneToken env t = .ok (.error, t') →
    ∀ u ∈ leftBehind env t, u.origins ≠ []

/-- After every call each token of the input has its one place exactly if an error comes before any
token is handed over and leaves none of them behind. That nothing is in two lists needs the first
of these conditions only. -/
theorem onePlaceEach_iff (tok : Tokenizer) (input output : List Token) :
    ((∀ n status o, tokenizerProcessObjects env n tok input output = .ok (status, o) →
        OnePlaceEach input o) ↔
      FailsEarly env (tok.start input output) ∧ FailsEmpty env (tok.start input output)) ∧
    ((∀ n status o, tokenizerProcessObjects env n tok input output = .ok (status, o) →
        NothingTwice o) ↔
      FailsEarly env (tok.start input output)) := by
  have hstart := Ledger.start tok input output
  have htwice {t t' : Tokenizer} {p : Objects}
      (hone : tokenizerProcessOneToken env t = .ok (.error, t'))
      (hledger : Ledger input.length (tok.start input output).handedOver.length t' p) :
      NothingTwice p ↔ t.handedOver.length = (tok.start input output).handedOver.length := by
    rw [hledger.nothingTwice_iff, (tokenizerProcessOneToken_error hone).2]
  constructor
  · unfold FailsEarly FailsEmpty
    simp only [← forall_and]
    refine hstart.forall_answers_iff (fun t p hledger hinput => hledger.finish hinput) ?_
    intro t t' p hone hledger
    rw [← (tokenizerProcessOneToken_error hone).1, ← hledger.placed_iff, ← htwice hone hledger]
    rfl
  · exact hstart.forall_answers_iff (fun t p hledger hinput => (hledger.finish hinput).1)
      fun t t' p hone hledger => htwice hone hledger

/-- `a; fi`: the tokens before the word that does not fit are in the output and in the input. -/
theorem twice_behind_error : ∃ o,
    tokenizerProcessObjects noAliases 3 {} [.ofText "a", .ofType .semi, .ofText "fi"] [] =
      .ok (.error, o) ∧
    o.output = [0, 1] ∧ o.passed ++ o.waiting = [0, 1, 2] ∧ ¬ NothingTwice o ∧
    ¬ OnePlaceEach [.ofText "a", .ofType .semi, .ofText "fi"] o := by
  have htwice : ¬ NothingTwice ⟨[0, 1], [2], [0, 1], [], [], 3⟩ := by
    unfold NothingTwice
    decide
  exact ⟨_, by decide, rfl, rfl, htwice, fun hplaced => htwice hplaced.1⟩

end Migash.Tokenizer
