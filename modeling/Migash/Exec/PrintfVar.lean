import Migash.Exec.Printf

/-! # The miga_printfvar builtin

`miga_printfvar` assigns to a variable what `printf` would print. Its conversions go
through a buffer of 256 bytes where those of `printf` go straight to the output, and
that is where the two part.
-/

namespace Migash.Exec.Printf

/-! ## The builtin -/

/-- What `snprintf` leaves in `buf`, before the NUL. -/
def buffered (text : List UInt8) : List UInt8 := text.take 255

/-- What `printfvar_process_format` appends. -/
def printfvarText (c : Conversion) (arg : List UInt8) : List UInt8 :=
  match c.kind with
  | .escaped => escapedText c arg
  | .character =>
    if 0 < c.width then cstr (buffered (characterText c arg)) else pushBack (arg.headD 0)
  | .signed => cstr (buffered (integerText c (signedNumeral arg)))
  | .unsigned base upper => cstr (buffered (integerText c (unsignedNumeral base upper arg)))
  | .string => (stringText c arg).flatMap pushBack
  | .percent => [37]
  | .unknown => unknownText c

/-- What is appended to `output`. -/
def printfvarBytes : Event → List UInt8
  | .put b => pushBack b
  | .convert c arg => printfvarText c (arg.getD [])

/-- The answer of `miga_printfvar`: its status, its complaint and what it assigns. -/
structure VarAnswer where
  status : ℤ := 0
  complaint : Option String := none
  assigned : Option (List UInt8 × List UInt8) := none
  deriving DecidableEq, Repr

/-- `builtin_miga_printfvar` up to the assignment. -/
def migaPrintfvar (args : List (List UInt8)) : Except Halt VarAnswer :=
  match args.map cstr with
  | _ :: varname :: format :: args =>
    if varname = [] then
      .ok { status := 2, complaint := some "miga_printfvar: variable name cannot be empty\n" }
    else match processFormat format args with
    | .ok s => .ok { assigned := some (varname, s.events.flatMap printfvarBytes) }
    | .error (.invalid _) =>
      .ok { status := 1, complaint := some "miga_printfvar: invalid format" }
    | .error halt => .error halt
  | _ => .ok
    { status := 2
      complaint := some "miga_printfvar: usage: miga_printfvar varname format [arguments...]\n" }

/-- `builtin_miga_printfvar`; `text` are the characters of the store's strings. Whether the
assignment succeeds makes no difference to the exit status. -/
def builtinMigaPrintfvar (text : List UInt8 → String) (frame : FrameStores)
    (args : List (List UInt8)) : Except Halt (VarAnswer × FrameStores) := do
  let answer ← migaPrintfvar args
  match answer.assigned with
  | some (name, value) =>
    return (answer, (frame.frameSetPersistentVariable (text name) (text value)).2)
  | none => return (answer, frame)

/-! ## The two builtins -/

/-- The two builtins fail alike, and what one prints the other assigns. -/
inductive Agree (text : List UInt8 → String) (frame : FrameStores) (name : List UInt8) :
    Except Halt Answer → Except Halt (VarAnswer × FrameStores) → Prop
  | undefined (halt : Halt) : Agree text frame name (.error halt) (.error halt)
  | fails {a : Answer} {b : VarAnswer} (ha : a.status = 1) (hb : b.status = 1)
      (hnone : b.assigned = none) : Agree text frame name (.ok a) (.ok (b, frame))
  | assigns {a : Answer} {b : VarAnswer} (ha : a.status = 0) (hb : b.status = 0)
      (hvalue : b.assigned = some (name, a.out)) :
      Agree text frame name (.ok a)
        (.ok (b, (frame.frameSetPersistentVariable (text name) (text a.out)).2))

/-- A number whose field has at most 255 bytes. -/
def NumberFits (c : Conversion) (n : Numeral) : Prop :=
  c.width ≤ 255 ∧ ∀ precision ∈ c.precision, n.sign.length + precision ≤ 255

/-- A conversion whose text has room in the buffer, if it goes there. -/
def Fits (c : Conversion) (arg : List UInt8) : Prop :=
  match c.kind with
  | .character => c.width ≤ 255
  | .signed => NumberFits c (signedNumeral arg)
  | .unsigned base upper => NumberFits c (unsignedNumeral base upper arg)
  | _ => True

/-- The format has a mistake that is met, or every conversion that is met has room in the
buffer. -/
def FitsBuffer (items : List Item) (args : List (List UInt8)) : Prop :=
  (applied takesAlways items args).ending = some .invalid ∨
    (applied takesAlways items args).ending = some .overflow ∨
    ∀ c arg, .convert c arg ∈ (applied takesAlways items args).events → Fits c (arg.getD [])

/-! ## Lengths -/

theorem length_justify (leftJustify : Bool) (width : ℕ) (text : List UInt8) :
    (justify leftJustify width text).length = max width text.length := by
  rw [justify]
  split_ifs <;> rw [List.length_append, List.length_replicate] <;> omega

/-- A number has few digits of its own. -/
def Numeral.Short (n : Numeral) : Prop := 2 ≤ n.base ∧ n.magnitude < 2 ^ 64

theorem Numeral.Short.length_digits {n : Numeral} (h : n.Short) : n.digits.length ≤ 64 := by
  rw [Numeral.digits, List.length_map, Nat.length_toDigits_le_iff h.1 (by decide)]
  exact Nat.lt_of_lt_of_le h.2 (Nat.pow_le_pow_left h.1 64)

theorem Numeral.length_sign (n : Numeral) : n.sign.length ≤ 1 := by
  rw [Numeral.sign]
  split_ifs
  · exact Nat.le_refl 1
  · exact Nat.zero_le 1

theorem length_withPrecision (n : Numeral) (precision : ℕ) :
    (n.withPrecision precision).length ≤ max n.digits.length precision + n.sign.length ∧
      n.sign.length + precision ≤ (n.withPrecision precision).length := by
  rw [Numeral.withPrecision, List.length_append]
  split_ifs with h
  · obtain ⟨rfl, -⟩ := h
    rw [List.length_nil]
    omega
  · rw [List.length_append, List.length_replicate]
    omega

theorem length_zeroPadded (n : Numeral) (width : ℕ) :
    (n.zeroPadded width).length = max width (n.sign ++ n.digits).length := by
  rw [Numeral.zeroPadded, List.length_append, List.length_append, List.length_append,
    List.length_replicate]
  omega

/-- Whether a number fits is decided by its width and its precision. -/
theorem length_integerText (c : Conversion) {n : Numeral} (h : n.Short) :
    (integerText c n).length ≤ 255 ↔ NumberFits c n := by
  have hdigits := h.length_digits
  have hsign := n.length_sign
  unfold integerText NumberFits
  cases c.precision with
  | none =>
    have hown : (n.sign ++ n.digits).length ≤ 65 := by
      rw [List.length_append]
      omega
    have hnone : ∀ precision ∈ (none : Option ℕ), n.sign.length + precision ≤ 255 := nofun
    dsimp only
    split_ifs
    · rw [length_zeroPadded, and_iff_left hnone]
      omega
    · rw [length_justify, and_iff_left hnone]
      omega
  | some precision =>
    obtain ⟨hle, hge⟩ := length_withPrecision n precision
    dsimp only
    rw [length_justify]
    constructor
    · intro hlen
      exact ⟨by omega, fun p hp => Option.mem_some_iff.mp hp ▸ by omega⟩
    · rintro ⟨hwidth, hall⟩
      have hp := hall precision rfl
      omega

theorem signedNumeral_short (arg : List UInt8) : (signedNumeral arg).Short := by
  refine ⟨Nat.le_add_left 2 8, ?_⟩
  rw [signedNumeral]
  dsimp only
  split_ifs
  · decide
  · have hmin : longMin = -2 ^ 63 := rfl
    have hmax : longMax = 2 ^ 63 - 1 := rfl
    unfold strtol
    dsimp only
    split_ifs <;> omega

theorem unsignedNumeral_short {base : ℕ} (hbase : 2 ≤ base) (upper : Bool) (arg : List UInt8) :
    (unsignedNumeral base upper arg).Short := by
  refine ⟨hbase, ?_⟩
  rw [unsignedNumeral]
  dsimp only
  split_ifs
  · decide
  · unfold strtoul
    dsimp only
    have hmax : ulongMax + 1 = 2 ^ 64 := by decide
    split_ifs with hlarge
    · omega
    · rw [hmax]
      exact Nat.mod_lt _ (by decide)
    · omega

theorem two_le_base {spec : UInt8} {base : ℕ} {upper : Bool}
    (h : kindOf spec = .unsigned base upper) : 2 ≤ base := by
  unfold kindOf at h
  split at h <;> first | (cases h; decide) | cases h

/-! ## One conversion -/

theorem flatMap_pushBack {text : List UInt8} (h : 0 ∉ text) : text.flatMap pushBack = text := by
  induction text with
  | nil => rfl
  | cons c text ih =>
    rw [List.mem_cons, not_or] at h
    obtain ⟨hc, hrest⟩ := h
    rw [List.flatMap_cons, ih hrest, pushBack, if_neg fun h => hc h.symm]
    rfl

theorem cstr_eq {text : List UInt8} (h : 0 ∉ text) : cstr text = text :=
  List.takeWhile_eq_self_iff.mpr fun _ hc => decide_eq_true fun hzero => h (hzero ▸ hc)

theorem cstr_buffered {text : List UInt8} (h : 0 ∉ text) :
    cstr (buffered text) = text.take 255 :=
  cstr_eq fun hmem => h (List.mem_of_mem_take hmem)

/-- The text of `printf`, or less where it has no room. -/
structure Shortened (fits : Prop) (text whole : List UInt8) : Prop where
  same : fits → text = whole
  shorter : ¬fits → text.length < whole.length

theorem Shortened.length_le {fits : Prop} {text whole : List UInt8}
    (h : Shortened fits text whole) : text.length ≤ whole.length := by
  by_cases hfits : fits
  · exact Nat.le_of_eq (congrArg _ (h.same hfits))
  · exact Nat.le_of_lt (h.shorter hfits)

theorem shortened_refl {text : List UInt8} : Shortened True text text :=
  ⟨fun _ => rfl, fun h => absurd trivial h⟩

/-- What goes through the buffer. -/
theorem shortened_buffered {fits : Prop} {whole : List UInt8} (hnul : 0 ∉ whole)
    (hfits : whole.length ≤ 255 ↔ fits) : Shortened fits (cstr (buffered whole)) whole := by
  rw [cstr_buffered hnul]
  refine ⟨fun h => List.take_of_length_le (hfits.mpr h), fun h => ?_⟩
  have hlong := mt hfits.mp h
  rw [List.length_take]
  omega

theorem length_characterText (c : Conversion) (arg : List UInt8) :
    (characterText c arg).length ≤ 255 ↔ c.width ≤ 255 := by
  rw [characterText, length_justify, List.length_singleton]
  omega

theorem shortened_text (c : Conversion) {arg : List UInt8} (hnul : 0 ∉ printfText c arg) :
    Shortened (Fits c arg) (printfvarText c arg) (printfText c arg) := by
  unfold printfText at hnul ⊢
  unfold printfvarText Fits
  cases hkind : c.kind with
  | escaped => exact shortened_refl
  | character =>
    rw [hkind] at hnul
    dsimp only at hnul ⊢
    split_ifs with hwidth
    · exact shortened_buffered hnul (length_characterText c arg)
    · have hzero : c.width = 0 := Nat.eq_zero_of_not_pos hwidth
      have hplain : characterText c arg = [arg.headD 0] := by
        rw [characterText, hzero, justify]
        split_ifs <;> rfl
      rw [hplain] at hnul ⊢
      have hpush := flatMap_pushBack hnul
      rw [List.flatMap_singleton] at hpush
      rw [hpush, hzero]
      exact ⟨fun _ => rfl, fun h => absurd (Nat.zero_le _) h⟩
  | signed =>
    rw [hkind] at hnul
    exact shortened_buffered hnul (length_integerText c (signedNumeral_short arg))
  | unsigned base upper =>
    rw [hkind] at hnul
    exact shortened_buffered hnul
      (length_integerText c (unsignedNumeral_short (two_le_base hkind) upper arg))
  | string =>
    rw [hkind] at hnul
    dsimp only at hnul ⊢
    rw [flatMap_pushBack hnul]
    exact shortened_refl
  | percent => exact shortened_refl
  | unknown => exact shortened_refl

/-- An event whose text has room in the buffer. -/
def EventFits : Event → Prop
  | .put _ => True
  | .convert c arg => Fits c (arg.getD [])

theorem shortened_bytes {e : Event} (hnul : 0 ∉ printfBytes e) :
    Shortened (EventFits e) (printfvarBytes e) (printfBytes e) := by
  cases e with
  | put b =>
    have hpush := flatMap_pushBack hnul
    rw [printfBytes, List.flatMap_singleton] at hpush
    rw [printfvarBytes, hpush]
    exact shortened_refl
  | convert c arg => exact shortened_text c hnul

theorem length_flatMap_le {events : List Event} (hnul : 0 ∉ events.flatMap printfBytes) :
    (events.flatMap printfvarBytes).length ≤ (events.flatMap printfBytes).length := by
  induction events with
  | nil => exact Nat.le_refl _
  | cons e events ih =>
    rw [List.flatMap_cons, List.mem_append, not_or] at hnul
    have hfirst := (shortened_bytes hnul.1).length_le
    have hrest := ih hnul.2
    rw [List.flatMap_cons, List.flatMap_cons, List.length_append, List.length_append]
    omega

/-- The texts are the same if every one of them has room. -/
theorem flatMap_eq_iff {events : List Event} (hnul : 0 ∉ events.flatMap printfBytes) :
    events.flatMap printfvarBytes = events.flatMap printfBytes ↔ ∀ e ∈ events, EventFits e := by
  induction events with
  | nil => exact iff_of_true rfl nofun
  | cons e events ih =>
    rw [List.flatMap_cons, List.mem_append, not_or] at hnul
    have hfirst := shortened_bytes hnul.1
    rw [List.forall_mem_cons, List.flatMap_cons, List.flatMap_cons, ← ih hnul.2]
    constructor
    · intro heq
      have hfits : EventFits e := by
        by_contra hnot
        have hlen := congrArg List.length heq
        have hshort := hfirst.shorter hnot
        have hrest := length_flatMap_le hnul.2
        rw [List.length_append, List.length_append] at hlen
        omega
      rw [hfirst.same hfits] at heq
      exact ⟨hfits, List.append_cancel_left heq⟩
    · rintro ⟨hfits, heq⟩
      rw [hfirst.same hfits, heq]

/-! ## One run -/

section

variable {text : List UInt8 → String} {frame : FrameStores} {name : List UInt8} {t : Trace}

/-- What `miga_printfvar` answers where its loops end as a trace says. -/
def varAnswer (text : List UInt8 → String) (frame : FrameStores) (name : List UInt8) (t : Trace) :
    Except Halt (VarAnswer × FrameStores) :=
  match t.ending with
  | some .invalid =>
    .ok ({ status := 1, complaint := some "miga_printfvar: invalid format" }, frame)
  | some .overflow => .error .overflow
  | _ =>
    let value := t.events.flatMap printfvarBytes
    .ok ({ assigned := some (name, value) },
      (frame.frameSetPersistentVariable (text name) (text value)).2)

theorem builtinMigaPrintfvar_eq {cmd format : List UInt8} {items : List Item}
    (h : Reads (cstr format) items) (hname : cstr name ≠ []) (args : List (List UInt8)) :
    builtinMigaPrintfvar text frame (cmd :: name :: format :: args) =
      varAnswer text frame (cstr name) (applied takesAlways items (args.map cstr)) := by
  have hends := h.processFormat_ends (args.map cstr)
  rw [builtinMigaPrintfvar, migaPrintfvar, List.map_cons, List.map_cons, List.map_cons]
  dsimp only
  rw [if_neg hname]
  unfold Ends at hends
  unfold varAnswer
  cases hending : (applied takesAlways items (args.map cstr)).ending with
  | none =>
    rw [hending] at hends
    obtain ⟨s, hrun, hevents⟩ := hends
    rw [hrun, ← List.nil_append (Trace.events _), ← hevents]
    rfl
  | some ending =>
    rw [hending] at hends
    cases ending with
    | stop =>
      obtain ⟨s, hrun, hevents⟩ := hends
      rw [hrun, ← List.nil_append (Trace.events _), ← hevents]
      rfl
    | invalid =>
      rw [show processFormat (cstr format) (args.map cstr) = _ from hends]
      rfl
    | overflow =>
      rw [show processFormat (cstr format) (args.map cstr) = _ from hends]
      rfl

theorem exists_answer (h : t.ending ≠ some .overflow) :
    ∃ a, answer t = .ok a ∧ a.out = t.events.flatMap printfBytes := by
  unfold answer
  cases hending : t.ending with
  | none => exact ⟨_, rfl, rfl⟩
  | some ending =>
    cases ending with
    | stop => exact ⟨_, rfl, rfl⟩
    | invalid => exact ⟨_, rfl, rfl⟩
    | overflow => exact absurd hending h

/-- The two agree on what has been written if they write the same. -/
theorem agree_iff :
    Agree text frame name (answer t) (varAnswer text frame name t) ↔
      t.ending = some .invalid ∨ t.ending = some .overflow ∨
        t.events.flatMap printfvarBytes = t.events.flatMap printfBytes := by
  have hdone (hanswer : answer t = .ok (written t))
      (hvar : varAnswer text frame name t =
        .ok ({ assigned := some (name, t.events.flatMap printfvarBytes) },
          (frame.frameSetPersistentVariable (text name)
            (text (t.events.flatMap printfvarBytes))).2)) :
      Agree text frame name (answer t) (varAnswer text frame name t) ↔
        t.events.flatMap printfvarBytes = t.events.flatMap printfBytes := by
    rw [hanswer, hvar]
    constructor
    · intro h
      generalize hframe : (frame.frameSetPersistentVariable (text name)
        (text (t.events.flatMap printfvarBytes))).2 = frame' at h
      cases h with
      | fails ha => cases ha
      | assigns _ _ hvalue => exact (Prod.mk.inj (Option.some.inj hvalue)).2
    · intro h
      rw [h]
      exact .assigns (a := written t) rfl rfl rfl
  cases hending : t.ending with
  | none =>
    rw [hdone (by rw [answer, hending]) (by rw [varAnswer, hending])]
    refine ⟨fun h => .inr (.inr h), ?_⟩
    rintro (heq | heq | h)
    · cases heq
    · cases heq
    · exact h
  | some ending =>
    cases ending with
    | stop =>
      rw [hdone (by rw [answer, hending]) (by rw [varAnswer, hending])]
      refine ⟨fun h => .inr (.inr h), ?_⟩
      rintro (heq | heq | h)
      · cases heq
      · cases heq
      · exact h
    | invalid =>
      refine iff_of_true ?_ (.inl rfl)
      rw [answer, varAnswer, hending]
      exact .fails rfl rfl rfl
    | overflow =>
      refine iff_of_true ?_ (.inr (.inl rfl))
      rw [answer, varAnswer, hending]
      exact .undefined _

end

/-- `miga_printfvar` assigns what `printf` prints, if no field is too long for its buffer. -/
theorem builtinMigaPrintfvar_agrees_iff (text : List UInt8 → String) (frame : FrameStores)
    {cmd cmd' name format : List UInt8} {items : List Item} (h : Reads (cstr format) items)
    (hname : cstr name ≠ []) (args : List (List UInt8))
    (hnul : ∀ a, builtinPrintf (cmd :: format :: args) = .ok a → 0 ∉ a.out) :
    Agree text frame (cstr name) (builtinPrintf (cmd :: format :: args))
        (builtinMigaPrintfvar text frame (cmd' :: name :: format :: args)) ↔
      FitsBuffer items (args.map cstr) := by
  rw [builtinPrintf_eq h] at hnul ⊢
  rw [builtinMigaPrintfvar_eq h hname, agree_iff, FitsBuffer]
  by_cases hoverflow : (applied takesAlways items (args.map cstr)).ending = some .overflow
  · exact iff_of_true (.inr (.inl hoverflow)) (.inr (.inl hoverflow))
  · have hout : 0 ∉ (applied takesAlways items (args.map cstr)).events.flatMap printfBytes := by
      obtain ⟨a, ha, haout⟩ := exists_answer hoverflow
      exact haout ▸ hnul a ha
    rw [flatMap_eq_iff hout]
    refine or_congr_right (or_congr_right ⟨fun hall c arg => hall (.convert c arg), ?_⟩)
    intro hall e he
    cases e with
    | put b => trivial
    | convert c arg => exact hall c arg he

/-- `miga_printfvar X '%5d' 7`. -/
theorem builtinMigaPrintfvar_agrees_iff_seven :
    Agree (fun _ => "") ⟨.empty, none, none⟩ [88] (builtinPrintf [[], [37, 53, 100], [55]])
      (builtinMigaPrintfvar (fun _ => "") ⟨.empty, none, none⟩ [[], [88], [37, 53, 100], [55]]) := by
  have hparse : parseConversion [53, 100] = some ({ width := 5, spec := 100 }, []) := by decide
  have hreads : Reads (cstr [37, 53, 100]) [.convert { width := 5, spec := 100 }] :=
    .convert (by decide) hparse (by decide) .nil
  have hprints : builtinPrintf [[], [37, 53, 100], [55]] = .ok
      { out := [32, 32, 32, 32, 55]
        events := [.convert { width := 5, spec := 100 } (some [55])] } := by decide
  have hname : cstr [88] ≠ [] := by decide
  refine (builtinMigaPrintfvar_agrees_iff _ _ hreads hname [[55]] fun a ha => ?_).mpr ?_
  · cases hprints.symm.trans ha
    decide
  · refine .inr (.inr fun c arg hmem => ?_)
    have hevents : (applied takesAlways [.convert { width := 5, spec := 100 }]
        [[55]]).events = [.convert { width := 5, spec := 100 } (some [55])] := by decide
    rw [List.map_singleton, show cstr [55] = [55] from rfl, hevents, List.mem_singleton] at hmem
    cases hmem
    exact ⟨by decide, nofun⟩

/-- `miga_printfvar X '%300d' 7` assigns 255 of the 300 bytes. -/
theorem wide_not_agree : ∃ a, builtinPrintf [[], [37, 51, 48, 48, 100], [55]] = .ok a ∧
    0 ∉ a.out ∧ ¬Agree (fun _ => "") ⟨.empty, none, none⟩ [88] (.ok a)
      (builtinMigaPrintfvar (fun _ => "") ⟨.empty, none, none⟩
        [[], [88], [37, 51, 48, 48, 100], [55]]) := by
  have hparse : parseConversion [51, 48, 48, 100] =
      some ({ width := 300, spec := 100 }, []) := by decide
  have hreads : Reads (cstr [37, 51, 48, 48, 100]) [.convert { width := 300, spec := 100 }] :=
    .convert (by decide) hparse (by decide) .nil
  have hevents : applied takesAlways [.convert { width := 300, spec := 100 }] [[55]] =
      ⟨[.convert { width := 300, spec := 100 } (some [55])], [], none⟩ := by decide
  have hanswer : builtinPrintf [[], [37, 51, 48, 48, 100], [55]] =
      answer ⟨[.convert { width := 300, spec := 100 } (some [55])], [], none⟩ :=
    hevents ▸ builtinPrintf_eq hreads [[55]]
  have hassign : builtinMigaPrintfvar (fun _ => "") ⟨.empty, none, none⟩
      [[], [88], [37, 51, 48, 48, 100], [55]] = varAnswer (fun _ => "") ⟨.empty, none, none⟩ [88]
        ⟨[.convert { width := 300, spec := 100 } (some [55])], [], none⟩ :=
    hevents ▸ builtinMigaPrintfvar_eq hreads (by decide) [[55]]
  refine ⟨_, hanswer, by decide +kernel, fun h => ?_⟩
  rw [hassign] at h
  have hagree : Agree (fun _ => "") ⟨.empty, none, none⟩ [88]
      (answer ⟨[.convert { width := 300, spec := 100 } (some [55])], [], none⟩) _ := h
  obtain h | h | h := agree_iff.mp hagree
  · cases h
  · cases h
  · exact absurd (congrArg List.length h) (by decide +kernel)

end Migash.Exec.Printf
