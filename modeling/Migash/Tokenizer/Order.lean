import Migash.Tokenizer.Process

/-! # The order of the tokens

Without aliases every token of the input is handed over once and in its place,
but a word of digits before a redirection operator takes the operator's place.
-/

namespace Migash.Tokenizer

open Library

/-- A word that became a reserved word in its place. -/
def Promoted (a b : Token) : Prop :=
  a.type = .word ∧ ∃ type : TokenType, type.IsReserved ∧ b = { a with type }

/-- The tokens of an input and those that are handed over for them. -/
inductive Moved : List Token → List Token → Prop where
  | nil : Moved [] []
  | keep {a b : Token} {as bs : List Token} (same : b = a ∨ Promoted a b)
      (number : numberBefore? a as.head? = none) (rest : Moved as bs) : Moved (a :: as) (b :: bs)
  | number {a operator : Token} {as bs : List Token} (value : Int)
      (number : (numberBefore? a (some operator)).isSome) (rest : Moved as bs) :
      Moved (a :: operator :: as) (setIoNumber operator value :: bs)

/-- Every token of the input is there, in its place: the same token, a reserved word, or the number
of the redirection operator behind it. -/
structure Preserved (input moved : List Token) : Prop where
  length : moved.length = input.length
  tokens : ∀ (i : ℕ) (a b : Token), input[i]? = some a → moved[i]? = some b →
    b = a ∨ Promoted a b ∨
      b.type = .ioNumber ∧ (numberBefore? a input[i + 1]?).isSome

/-- The output of a run: what was there, what was buffered, and the tokens of the input. -/
def OrderKept (tok tok' : Tokenizer) (input output : List Token) : Prop :=
  ∃ moved, tok'.outputTokens = output ++ tok.bufferedTokens ++ moved ∧ Preserved input moved

/-! ## The steps -/

theorem extractWordText?_of_ne_word {a : Token} (h : a.type ≠ .word) :
    a.extractWordText? = none := by
  unfold Token.extractWordText?
  split
  · rename_i hword _
    exact absurd hword h
  · rfl

theorem numberBefore?_of_ne_word {a : Token} (h : a.type ≠ .word) (next : Option Token) :
    numberBefore? a next = none := by
  simp [numberBefore?, extractWordText?_of_ne_word h]

/-- A reserved word has a letter or a mark in it. -/
theorem not_all_isDigit_of_ofReservedWord? {text : String} {type : TokenType}
    (h : TokenType.ofReservedWord? text = some type) : text.toList.all Char.isDigit = false := by
  unfold TokenType.ofReservedWord? at h
  split at h <;> first | decide | cases h

theorem numberBefore?_of_reserved {a : Token} {type : TokenType}
    (h : a.extractWordText?.bind TokenType.ofReservedWord? = some type) (next : Option Token) :
    numberBefore? a next = none := by
  obtain ⟨text, htext, hreserved⟩ := Option.bind_eq_some_iff.mp h
  cases next with
  | none => simp [numberBefore?]
  | some next => simp [numberBefore?, htext, not_all_isDigit_of_ofReservedWord? hreserved]

variable {env : Env} {n : ℕ} {tok tok' : Tokenizer}

theorem aliasFor?_eq_none (h : env.aliases.getD [] = []) (token : Token) :
    tok.aliasFor? env token = none := by
  have hvalue : ∀ name, env.aliasValue? name = none := by
    intro name
    unfold Env.aliasValue?
    cases hstore : env.aliases with
    | none => rfl
    | some store =>
      obtain rfl : store = [] := by simpa [hstore] using h
      rfl
  unfold aliasFor?
  split_ifs
  · cases token.extractWordText? <;> simp [hvalue]
  · rfl

theorem reservedType?_eq_some {token : Token} {rest : List InputToken} {type : TokenType}
    (h : tok.reservedType? token rest = some type) :
    token.type = .word ∧ token.extractWordText?.bind TokenType.ofReservedWord? = some type := by
  unfold reservedType? at h
  split_ifs at h with hword
  refine ⟨hword.1, ?_⟩
  split at h
  · cases h
  · exact h

/-- Without aliases a step hands a token over or attaches a number. -/
theorem Step.cases_of_no_alias (hstore : env.aliases.getD [] = []) (h : Step env tok tok') :
    ∃ t rest, tok.inputTokens = t :: rest ∧
      ((∃ b, (b = t.token ∨ Promoted t.token b) ∧
          numberBefore? t.token (rest.head?.map InputToken.token) = none ∧
          tok'.inputTokens = rest ∧ tok'.handedOver = tok.handedOver ++ [b]) ∨
        ∃ next rest' value, rest = next :: rest' ∧
          (numberBefore? t.token (some next.token)).isSome ∧
          tok'.inputTokens = { next with token := setIoNumber next.token value } :: rest' ∧
          tok'.handedOver = tok.handedOver) := by
  obtain ⟨hinput, hanswer⟩ := h
  cases turn_iff.mp hanswer with
  | nothing hnil => exact absurd hnil hinput
  | @expand t rest name hin halias _ =>
    rw [aliasFor?_eq_none hstore] at halias
    cases halias
  | @reserved t rest type hin _ hreserved hadd =>
    obtain ⟨hword, htext⟩ := reservedType?_eq_some hreserved
    obtain ⟨hrest, hhanded⟩ := addToken_ok hadd
    obtain ⟨word, -, htype⟩ := Option.bind_eq_some_iff.mp htext
    exact ⟨t, rest, hin, .inl ⟨_, .inr ⟨hword, type, TokenType.isReserved_of_ofReservedWord? htype,
      rfl⟩, numberBefore?_of_reserved htext _, hrest, hhanded⟩⟩
  | @number t next rest text hin _ _ hnumber _ hanswer =>
    cases hanswer
    exact ⟨t, next :: rest, hin, .inr ⟨next, rest, _, rfl,
      Option.isSome_iff_exists.mpr ⟨text, hnumber⟩, rfl, rfl⟩⟩
  | @plain t rest hin _ _ hnumber hadd =>
    obtain ⟨hrest, hhanded⟩ := addToken_ok hadd
    exact ⟨t, rest, hin, .inl ⟨t.token, .inl rfl, hnumber, hrest, hhanded⟩⟩

/-! ## The run -/

/-- An operator that received its number is handed over next. -/
theorem Moved.of_setIoNumber {operator : Token} {value : Int} {as moved : List Token}
    (h : Moved (setIoNumber operator value :: as) moved) :
    ∃ bs, moved = setIoNumber operator value :: bs ∧ Moved as bs := by
  have htype : (setIoNumber operator value).type ≠ .word := by simp [setIoNumber]
  cases h with
  | keep same _ rest =>
    rcases same with rfl | ⟨hword, -⟩
    · exact ⟨_, rfl, rest⟩
    · exact absurd hword htype
  | number _ hnumber _ =>
    rw [numberBefore?_of_ne_word htype] at hnumber
    cases hnumber

/-- What a run without aliases hands over. -/
theorem processTokens_moved (hstore : env.aliases.getD [] = [])
    (h : processTokens env n tok = .ok (.ok, tok')) :
    ∃ moved, tok'.outputTokens = tok.handedOver ++ moved ∧
      Moved (tok.inputTokens.map InputToken.token) moved := by
  induction n generalizing tok with
  | zero => cases h
  | succ n ih =>
    by_cases hin : tok.inputTokens = []
    · rw [processTokens_nil hin] at h
      unfold finish at h
      split_ifs at h
      · cases h
      · cases h
        rw [hin]
        exact ⟨[], by simp [handedOver], .nil⟩
    · cases hone : tokenizerProcessOneToken env tok with
      | error e =>
        rw [processTokens_fault hin hone] at h
        cases h
      | ok p =>
        obtain ⟨status, tok₁⟩ := p
        by_cases hstatus : status = .ok
        · subst hstatus
          have hstep : Step env tok tok₁ := ⟨hin, hone⟩
          rw [processTokens_step hstep] at h
          obtain ⟨moved, hout, hmoved⟩ := ih h
          obtain ⟨t, rest, hin', hcases⟩ := hstep.cases_of_no_alias hstore
          rw [hin', List.map_cons]
          rcases hcases with ⟨b, hsame, hnumber, hrest, hhanded⟩ |
            ⟨next, rest', value, rfl, hnumber, hrest, hhanded⟩
          · rw [hrest] at hmoved
            rw [← List.head?_map] at hnumber
            refine ⟨b :: moved, ?_, .keep hsame hnumber hmoved⟩
            rw [hout, hhanded, List.append_assoc, List.singleton_append]
          · rw [hrest, List.map_cons] at hmoved
            obtain ⟨bs, rfl, hbs⟩ := hmoved.of_setIoNumber
            exact ⟨_, hhanded ▸ hout, .number value hnumber hbs⟩
        · rw [processTokens_stop hin hstatus hone] at h
          cases h
          exact absurd rfl hstatus

/-- A number takes the place of two tokens, so that only an input without one keeps its length. -/
theorem Moved.length_le {as bs : List Token} (h : Moved as bs) :
    bs.length ≤ as.length ∧ (bs.length = as.length →
      ∀ (i : ℕ) (a : Token), as[i]? = some a → numberBefore? a as[i + 1]? = none) := by
  induction h with
  | nil => simp
  | @keep a b as bs same hnumber rest ih =>
    refine ⟨Nat.succ_le_succ ih.1, fun hlength i c hc => ?_⟩
    cases i with
    | zero =>
      obtain rfl : a = c := by simpa using hc
      simpa [List.head?_eq_getElem?] using hnumber
    | succ i => exact ih.2 (Nat.succ.inj hlength) i c (by simpa using hc)
  | number value hnumber rest ih =>
    simp only [List.length_cons]
    exact ⟨by omega, fun hlength => by omega⟩

theorem Moved.preserved {as bs : List Token} (h : Moved as bs)
    (hnone : ∀ (i : ℕ) (a : Token), as[i]? = some a → numberBefore? a as[i + 1]? = none) :
    Preserved as bs := by
  induction h with
  | nil => exact ⟨rfl, fun i a b ha => by simp at ha⟩
  | @keep a b as bs same hnumber rest ih =>
    have hrest := ih fun i c hc => hnone (i + 1) c (by simpa using hc)
    refine ⟨congrArg (· + 1) hrest.length, fun i c d hc hd => ?_⟩
    cases i with
    | zero =>
      obtain rfl : a = c := by simpa using hc
      obtain rfl : b = d := by simpa using hd
      rcases same with h | h
      · exact .inl h
      · exact .inr (.inl h)
    | succ i => exact hrest.tokens i c d (by simpa using hc) (by simpa using hd)
  | @number a operator as bs value hnumber rest ih =>
    have hzero := hnone 0 a rfl
    rw [show (a :: operator :: as)[0 + 1]? = some operator from rfl] at hzero
    rw [hzero] at hnumber
    cases hnumber

/-- Without aliases a run that answers `TOK_OK` keeps the tokens of its input exactly if there is
no word of digits directly before a redirection operator. -/
theorem tokenizerProcess_orderKept_iff (hstore : env.aliases.getD [] = [])
    (input output : List Token)
    (h : tokenizerProcess env n tok input output = .ok (.ok, tok')) :
    OrderKept tok tok' input output ↔
      ∀ (i : ℕ) (a : Token), input[i]? = some a → numberBefore? a input[i + 1]? = none := by
  obtain ⟨moved, hout, hmoved⟩ := processTokens_moved hstore h
  have hinput : (tok.start input output).inputTokens.map InputToken.token = input := by
    simp [start, Function.comp_def]
  rw [hinput] at hmoved
  constructor
  · rintro ⟨moved', hout', hpreserved⟩
    have hsame : moved' = moved := List.append_cancel_left (hout'.symm.trans hout)
    exact hmoved.length_le.2 (hsame ▸ hpreserved.length)
  · intro hnone
    exact ⟨moved, hout, hmoved.preserved hnone⟩

/-- `echo x > f` keeps its tokens. -/
theorem tokenizerProcess_orderKept_echo :
    ∃ tok', OrderKept {} tok' [.ofText "echo", .ofText "x", .ofType .greater, .ofText "f"] [] := by
  obtain ⟨tok', h⟩ : ∃ tok', tokenizerProcess ⟨none, fun _ => .ok []⟩ 5 {}
      [.ofText "echo", .ofText "x", .ofType .greater, .ofText "f"] [] = .ok (.ok, tok') := ⟨_, rfl⟩
  refine ⟨tok', (tokenizerProcess_orderKept_iff rfl _ [] h).mpr ?_⟩
  intro i a ha
  match i with
  | 0 | 1 | 2 | 3 =>
    cases ha
    rfl
  | i + 4 => simp at ha

/-- The operator of `2 > f` becomes the number `2`. -/
theorem tokenizerProcess_loses_operator :
    ∃ tok', tokenizerProcess ⟨none, fun _ => .ok []⟩ 4 {}
        [.ofText "2", .ofType .greater, .ofText "f"] [] = .ok (.ok, tok') ∧
      ¬ OrderKept {} tok' [.ofText "2", .ofType .greater, .ofText "f"] [] := by
  refine ⟨{ outputTokens := [setIoNumber (.ofType .greater) 2, .ofText "f"],
            atCommandPosition := false }, rfl, ?_⟩
  rintro ⟨moved, hout, hpreserved⟩
  obtain rfl : _ = moved := hout
  exact absurd hpreserved.length (by decide)

end Migash.Tokenizer
