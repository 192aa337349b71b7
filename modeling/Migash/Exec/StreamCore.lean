import Migash.Exec.Drivers
import Migash.Library.Blocks

/-! # The line of one call

`exec_frame_stream_core` passes on a line that fits into one chunk as it is. A longer
one is collected in a buffer that grows. Either way it is the next line of the stream,
and call after call passes on all of them.
-/

namespace Migash.Exec

open Library Library.Block Lexer

/-- What the allocator has left in the cells it hands out. -/
abbrev Garbage := ℕ → Char

/-- `xmalloc`. -/
def xmalloc (garbage : Garbage) (size : ℕ) : List Char := (List.range size).map garbage

/-- `xrealloc`. -/
def xrealloc (garbage : Garbage) (block : Option (List Char)) (size : ℕ) : List Char :=
  (block.getD []).take size ++ (xmalloc garbage size).drop (block.getD []).length

/-- The locals of `exec_frame_stream_core` for a line that is longer than a chunk. -/
structure LineBuf where
  lineBuf : Option (List Char) := none
  lineBufSize : ℕ := 0
  lineLen : ℕ := 0

namespace LineBuf

/-- The text of a string that ends at its first zero byte. -/
def cString (block : List Char) : List Char := block.takeWhile (· ≠ nul)

/-- A write into `line_buf`. -/
def write (b : LineBuf) (start : ℕ) (cells : List Char) : Except Fault LineBuf :=
  match b.lineBuf with
  | none => .error (.contract "line_buf")
  | some block =>
    match overwrite block start cells with
    | none => .error (.contract "line_buf_size")
    | some block => .ok { b with lineBuf := some block }

/-- The `memcpy` of a chunk, and the zero byte behind it. -/
def copy (b : LineBuf) (chunk : List Char) : Except Fault LineBuf := do
  let b ← b.write b.lineLen chunk
  let b := { b with lineLen := b.lineLen + chunk.length }
  b.write b.lineLen [nul]

/-- The first chunk of a line that goes on. -/
def start (garbage : Garbage) (chunk : List Char) : Except Fault LineBuf :=
  let size := (chunk.length + 1) * 2
  copy { lineBuf := some (xmalloc garbage size), lineBufSize := size } chunk

/-- Any other chunk. -/
def append (garbage : Garbage) (b : LineBuf) (chunk : List Char) : Except Fault LineBuf :=
  let b :=
    if b.lineBufSize < b.lineLen + chunk.length + 1 then
      let size := (b.lineLen + chunk.length + 1) * 2
      { b with lineBuf := some (xrealloc garbage b.lineBuf size), lineBufSize := size }
    else b
  b.copy chunk

/-- The string that is passed on behind the loop, if there is one. -/
def passed (b : LineBuf) : Except Fault (Option (List Char)) :=
  if b.lineLen = 0 then .ok none
  else
    match b.lineBuf with
    | none => .error (.contract "line_buf")
    | some block => .ok (some (cString block))

/-- A turn of the loop, with the string that is passed on when it ends. -/
def turn (garbage : Garbage) :
    LineBuf × Stream → Except Fault (Next (LineBuf × Stream) (Option (List Char) × Stream))
  | (b, fp) =>
    match fp.fgets Stream.lineChunkSize with
    | (none, fp) => return .done (← b.passed, fp)
    | (some chunk, fp) =>
      let chunk := cString chunk
      if chunk.getLast? = some newline then
        if b.lineLen = 0 then return .done (some chunk, fp)
        else return .done (← (← b.append garbage chunk).passed, fp)
      else
        match b.lineBuf with
        | none => return .again (← start garbage chunk, fp)
        | some _ => return .again (← b.append garbage chunk, fp)

end LineBuf

/-- The string that a call of `exec_frame_stream_core` passes on. Every turn but the last one takes
a character. -/
def gatherLine (garbage : Garbage) (fp : Stream) : Except Fault (Option (List Char) × Stream) :=
  iterate (LineBuf.turn garbage) (fp.content.length + 1) ({}, fp)

section Calls

variable {δ W σ : Type} (garbage : Garbage)
  (core : σ → List Char → ExecM δ W (ExecStatus × σ)) (noteLine : σ → ExecM δ W Unit)

/-- What is done with a string: `exec_frame_string_core` is `core`, and `noteLine` writes the line
number of the session into the frame. -/
def passLine (session : σ) (line : List Char) : ExecM δ W (ExecStatus × σ) := do
  let (status, session) ← core session line
  noteLine session
  return (streamStatus status, session)

/-- `exec_frame_stream_core`. -/
def streamCore (session : σ) (fp : Stream) : ExecM δ W (ExecStatus × σ × Stream) :=
  match gatherLine garbage fp with
  | .error cause => throw (.fault cause)
  | .ok (none, fp) => return (.ok, session, fp)
  | .ok (some line, fp) => do
    let (status, session) ← passLine core noteLine session line
    return (status, session, fp)

/-- Calls of `exec_frame_stream_core` on one stream, with what each returns. -/
def successiveCalls : ℕ → σ → Stream → ExecM δ W (List ExecStatus × σ)
  | 0, session, _ => return ([], session)
  | n + 1, session, fp => do
    let (status, session, fp) ← streamCore garbage core noteLine session fp
    let (statuses, session) ← successiveCalls n session fp
    return (status :: statuses, session)

/-- Strings are passed on one by one. -/
def passLines : σ → List (List Char) → ExecM δ W (List ExecStatus × σ)
  | session, [] => return ([], session)
  | session, line :: lines => do
    let (status, session) ← passLine core noteLine session line
    let (statuses, session) ← passLines session lines
    return (status :: statuses, session)

end Calls

/-! ## The buffer -/

namespace LineBuf

variable {garbage : Garbage} {b : LineBuf} {line chunk block : List Char}

theorem length_xmalloc (garbage : Garbage) (size : ℕ) : (xmalloc garbage size).length = size := by
  simp [xmalloc]

/-- A block that grows keeps what it holds. -/
theorem prefix_xrealloc {size : ℕ} (hsize : block.length ≤ size) :
    block <+: xrealloc garbage (some block) size := by
  rw [xrealloc, Option.getD_some, List.take_of_length_le hsize]
  exact List.prefix_append _ _

theorem length_xrealloc {size : ℕ} (hsize : block.length ≤ size) :
    (xrealloc garbage (some block) size).length = size := by
  rw [xrealloc, Option.getD_some, List.take_of_length_le hsize, List.length_append,
    List.length_drop, length_xmalloc]
  omega

/-- What `line_buf` holds while a line is collected: nothing yet, or the line and a zero byte. -/
structure Holds (b : LineBuf) (line : List Char) : Prop where
  lineLen_eq : b.lineLen = line.length
  no_nul : nul ∉ line
  block_eq : ∀ block, b.lineBuf = some block → block.length = b.lineBufSize ∧ line <+: block ∧
    line.length < b.lineBufSize ∧ cString block = line
  null : b.lineBuf = none → line = []

theorem holds_nil : Holds {} [] where
  lineLen_eq := rfl
  no_nul := List.not_mem_nil
  block_eq := by nofun
  null _ := rfl

theorem nul_not_mem_cString (block : List Char) : nul ∉ cString block := by
  intro h
  simpa using List.mem_takeWhile_imp h

/-- The text in front of a zero byte. -/
theorem cString_eq (hline : nul ∉ line) (h : line ++ [nul] <+: block) : cString block = line := by
  obtain ⟨rest, rfl⟩ := h
  rw [cString, List.append_assoc, List.takeWhile_append_of_pos]
  · simp
  · intro c hc
    exact decide_eq_true fun h => hline (h ▸ hc)

/-- A chunk is copied behind the line, if there is room for it and the zero byte. -/
theorem copy_spec (hlen : b.lineLen = line.length) (hbuf : b.lineBuf = some block)
    (hsize : block.length = b.lineBufSize) (hline : line <+: block)
    (hroom : line.length + chunk.length < b.lineBufSize) (hnul : nul ∉ line ++ chunk) :
    ∃ b', b.copy chunk = .ok b' ∧ Holds b' (line ++ chunk) := by
  have hcopy : overwrite block line.length chunk = some (patch block line.length chunk) :=
    overwrite_eq (by omega)
  have hlength : (patch block line.length chunk).length = b.lineBufSize := by
    rw [length_patch (by omega), hsize]
  have htext : line ++ chunk <+: patch block line.length chunk := patch_behind hline chunk
  have hend : overwrite (patch block line.length chunk) (line ++ chunk).length [nul] =
      some (patch (patch block line.length chunk) (line ++ chunk).length [nul]) :=
    overwrite_eq (by simp only [List.length_append, List.length_singleton]; omega)
  have hwhole : line ++ chunk ++ [nul] <+:
      patch (patch block line.length chunk) (line ++ chunk).length [nul] :=
    patch_behind htext [nul]
  refine ⟨{ b with
    lineBuf := some (patch (patch block line.length chunk) (line ++ chunk).length [nul])
    lineLen := (line ++ chunk).length }, ?_, ⟨rfl, hnul, ?_, ?_⟩⟩
  · simp only [copy, write, hbuf, hlen, hcopy, bind, Except.bind]
    rw [← List.length_append, hend]
  · rintro last ⟨⟩
    refine ⟨?_, (List.prefix_append _ _).trans hwhole, ?_, cString_eq hnul hwhole⟩
    · rw [length_patch (by simp only [List.length_append, List.length_singleton]; omega), hlength]
    · simpa using hroom
  · exact fun hnone => absurd hnone (Option.some_ne_none _)

theorem start_spec (hnul : nul ∉ chunk) :
    ∃ b', start garbage chunk = .ok b' ∧ Holds b' chunk := by
  have h := @copy_spec
    { lineBuf := some (xmalloc garbage ((chunk.length + 1) * 2))
      lineBufSize := (chunk.length + 1) * 2 } [] chunk _ rfl rfl (length_xmalloc _ _)
    List.nil_prefix (by simp only [List.length_nil]; omega) hnul
  exact h

theorem append_spec (h : Holds b line) (hbuf : b.lineBuf = some block) (hnul : nul ∉ chunk) :
    ∃ b', b.append garbage chunk = .ok b' ∧ Holds b' (line ++ chunk) := by
  obtain ⟨hsize, hline, hroom, -⟩ := h.block_eq block hbuf
  have hclean : nul ∉ line ++ chunk := by
    rw [List.mem_append]
    rintro (hmem | hmem)
    · exact h.no_nul hmem
    · exact hnul hmem
  have hlen := h.lineLen_eq
  unfold append
  extract_lets size grown
  by_cases hfull : b.lineBufSize < b.lineLen + chunk.length + 1
  · have hgrow : block.length ≤ size := by omega
    rw [show grown = { b with lineBuf := some (xrealloc garbage b.lineBuf size)
                              lineBufSize := size } from if_pos hfull]
    rw [hbuf]
    refine copy_spec hlen rfl (length_xrealloc hgrow) (hline.trans (prefix_xrealloc hgrow)) ?_
      hclean
    dsimp only
    omega
  · rw [show grown = b from if_neg hfull]
    exact copy_spec hlen hbuf hsize hline (by omega) hclean

theorem passed_spec (h : Holds b line) : b.passed = .ok (if line = [] then none else some line) := by
  unfold passed
  cases hbuf : b.lineBuf with
  | none => simp [h.lineLen_eq, h.null hbuf]
  | some block =>
    dsimp only
    rw [h.lineLen_eq, (h.block_eq block hbuf).2.2.2]
    by_cases hline : line = [] <;> simp [hline]

/-- The chunk that ends a line: the fast path and the buffer pass on the same string. -/
theorem turn_newline (h : Holds b line) {fp : Stream} (hfp : fp.content ≠ [])
    (hlast : (cString (Stream.chunkOf Stream.lineChunkSize fp.content)).getLast? = some newline) :
    turn garbage (b, fp) =
      .ok (.done (some (line ++ cString (Stream.chunkOf Stream.lineChunkSize fp.content)),
        (fp.fgets Stream.lineChunkSize).2)) := by
  have hnul := nul_not_mem_cString (Stream.chunkOf Stream.lineChunkSize fp.content)
  unfold turn
  simp only [Stream.fgets, if_neg hfp, hlast, if_true]
  by_cases hlen : b.lineLen = 0
  · rw [if_pos hlen, List.length_eq_zero_iff.mp (h.lineLen_eq.symm.trans hlen)]
    rfl
  · rw [if_neg hlen]
    cases hbuf : b.lineBuf with
    | none => exact absurd (by rw [h.lineLen_eq, h.null hbuf]; rfl) hlen
    | some block =>
      obtain ⟨b', happend, hb'⟩ := @append_spec garbage _ _ _ _ h hbuf hnul
      have hne : line ++ cString (Stream.chunkOf Stream.lineChunkSize fp.content) ≠ [] := by
        intro hnil
        rw [(List.append_eq_nil_iff.mp hnil).2] at hlast
        cases hlast
      simp only [happend, passed_spec hb', if_neg hne, bind, Except.bind, pure, Except.pure]

/-- Any other chunk goes into the buffer. -/
theorem turn_goesOn (h : Holds b line) {fp : Stream} (hfp : fp.content ≠ [])
    (hlast : (cString (Stream.chunkOf Stream.lineChunkSize fp.content)).getLast? ≠ some newline) :
    ∃ b', Holds b' (line ++ cString (Stream.chunkOf Stream.lineChunkSize fp.content)) ∧
      turn garbage (b, fp) = .ok (.again (b', (fp.fgets Stream.lineChunkSize).2)) := by
  have hnul := nul_not_mem_cString (Stream.chunkOf Stream.lineChunkSize fp.content)
  unfold turn
  simp only [Stream.fgets, if_neg hfp, if_neg hlast]
  cases hbuf : b.lineBuf with
  | none =>
    obtain ⟨b', hstart, hb'⟩ := @start_spec garbage _ hnul
    refine ⟨b', by rw [h.null hbuf]; exact hb', ?_⟩
    simp only [hstart, bind, Except.bind, pure, Except.pure]
  | some block =>
    obtain ⟨b', happend, hb'⟩ := @append_spec garbage _ _ _ _ h hbuf hnul
    refine ⟨b', hb', ?_⟩
    simp only [happend, bind, Except.bind, pure, Except.pure]

/-- The loop comes to what `Stream.collect` says. -/
theorem iterate_turn {k : ℕ} (h : Holds b line) {fp : Stream} (hk : fp.content.length < k) :
    iterate (turn garbage) k (b, fp) =
      .ok (if (Stream.collect Stream.lineChunkSize k line fp).1 = [] then none
          else some (Stream.collect Stream.lineChunkSize k line fp).1,
        (Stream.collect Stream.lineChunkSize k line fp).2) := by
  induction k generalizing b line fp with
  | zero => exact (Nat.not_lt_zero _ hk).elim
  | succ k ih =>
    by_cases hnil : fp.content = []
    · have hturn : turn garbage (b, fp) =
          .ok (.done (if line = [] then none else some line, { fp with eof := true })) := by
        simp only [turn, Stream.fgets, if_pos hnil, passed_spec h, bind, Except.bind, pure,
          Except.pure]
      rw [iterate_done hturn]
      simp only [Stream.collect, Stream.fgets, if_pos hnil]
    · by_cases hlast :
        (cString (Stream.chunkOf Stream.lineChunkSize fp.content)).getLast? = some newline
      · have hne : line ++ cString (Stream.chunkOf Stream.lineChunkSize fp.content) ≠ [] := by
          intro hempty
          rw [(List.append_eq_nil_iff.mp hempty).2] at hlast
          cases hlast
        rw [iterate_done (turn_newline h hnil hlast)]
        rw [cString] at hlast hne
        simp only [Stream.collect, Stream.fgets, if_neg hnil, if_pos hlast, if_neg hne]
        rfl
      · obtain ⟨b', hb', hturn⟩ := @turn_goesOn garbage _ _ h _ hnil hlast
        have hpos : 0 < (Stream.chunkOf Stream.lineChunkSize fp.content).length :=
          List.length_pos_iff.mpr (Stream.chunkOf_ne_nil (by decide) hnil)
        have hlength := Stream.length_chunkOf_le Stream.lineChunkSize fp.content
        rw [iterate_again hturn, ih hb' (by
          simp only [Stream.fgets, if_neg hnil, List.length_drop]
          omega)]
        rw [cString] at hlast
        simp only [Stream.collect, Stream.fgets, if_neg hnil, if_neg hlast]
        rfl

end LineBuf

/-! ## One call -/

/-- No write of `exec_frame_stream_core` leaves its buffer, and the string that it passes on is the
line that is read. -/
theorem gatherLine_eq (garbage : Garbage) (fp : Stream) :
    gatherLine garbage fp =
      .ok (if fp.readLine.1 = [] then none else some fp.readLine.1, fp.readLine.2) :=
  LineBuf.iterate_turn LineBuf.holds_nil (Nat.lt_succ_self _)

section Refines

variable {δ W : Type} (fe : FrontEnd δ W) (callees : Callees δ W)

/-- `exec_frame_stream_core` of a session is the function that the loops over lines call. -/
theorem streamCore_execFrameStringCore (garbage : Garbage) (session : Session) (fp : Stream) :
    streamCore garbage
        (fun session line => do
          let (outcome, session) ← execFrameStringCore fe callees session line
          return (outcome.status, session))
        (fun _ => pure ()) session fp =
      (do
        let a ← execFrameStreamCore fe callees session fp
        return (a.status, a.session, a.fp)) := by
  rw [streamCore, gatherLine_eq, execFrameStreamCore]
  by_cases hline : fp.readLine.1 = []
  · simp only [if_pos hline, pure_bind]
  · simp only [if_neg hline, passLine, bind_assoc, pure_bind]

end Refines

/-! ## The lines of a stream -/

/-- `lines` are the lines of a text: a newline ends each of them but the last one, and stands nowhere
else. -/
structure LinesOf (content : List Char) (lines : List (List Char)) : Prop where
  flatten_eq : lines.flatten = content
  ne_nil : ∀ line ∈ lines, line ≠ []
  newline_last : ∀ line ∈ lines, newline ∉ line.dropLast
  ended : ∀ line ∈ lines.dropLast, line.getLast? = some newline

theorem newline_not_mem_chunkOf (n : ℕ) (text : List Char) :
    newline ∉ (Stream.chunkOf n text).dropLast := by
  induction n generalizing text with
  | zero => simp [Stream.chunkOf]
  | succ n ih =>
    cases text with
    | nil => simp [Stream.chunkOf]
    | cons c cs =>
      rw [Stream.chunkOf]
      split_ifs with hc
      · exact List.not_mem_nil
      · by_cases hnil : Stream.chunkOf n cs = []
        · rw [hnil]
          exact List.not_mem_nil
        · rw [List.dropLast_cons_of_ne_nil hnil, List.mem_cons, not_or]
          exact ⟨Ne.symm hc, ih cs⟩

namespace LinesOf

theorem nil : LinesOf [] [] where
  flatten_eq := rfl
  ne_nil _ h := absurd h List.not_mem_nil
  newline_last _ h := absurd h List.not_mem_nil
  ended _ h := absurd h List.not_mem_nil

/-- The first line stands in front of the lines of the rest. -/
theorem cons {content : List Char} {lines : List (List Char)} (hcontent : content ≠ [])
    (h : LinesOf (content.drop (Stream.lineOf content).length) lines) :
    LinesOf content (Stream.lineOf content :: lines) where
  flatten_eq := by
    rw [List.flatten_cons, h.flatten_eq]
    exact Stream.chunkOf_append_drop _ _
  ne_nil := by
    rw [List.forall_mem_cons]
    refine ⟨Stream.chunkOf_ne_nil ?_ hcontent, h.ne_nil⟩
    exact Nat.ne_of_gt (List.length_pos_iff.mpr hcontent)
  newline_last := by
    rw [List.forall_mem_cons]
    exact ⟨newline_not_mem_chunkOf _ _, h.newline_last⟩
  ended := by
    cases lines with
    | nil => exact fun _ hmem => absurd hmem List.not_mem_nil
    | cons next others =>
      rw [List.dropLast_cons_of_ne_nil (List.cons_ne_nil _ _), List.forall_mem_cons]
      refine ⟨?_, h.ended⟩
      -- A line without a newline takes all that is left, but a line follows.
      by_contra hlast
      have hall := Stream.lineOf_eq_chunkOf_append hlast
      have hrest : Stream.lineOf (content.drop (Stream.lineOf content).length) = [] := by
        simpa [Stream.lineOf] using hall
      have hnil : content.drop (Stream.lineOf content).length = [] := by
        by_contra hne
        exact Stream.chunkOf_ne_nil (Nat.ne_of_gt (List.length_pos_iff.mpr hne)) hne hrest
      have hflatten := h.flatten_eq
      rw [hnil, List.flatten_cons, List.append_eq_nil_iff] at hflatten
      exact h.ne_nil next List.mem_cons_self hflatten.1

end LinesOf

/-! ## Call after call -/

section Calls

variable {δ W σ : Type} (garbage : Garbage)
  (core : σ → List Char → ExecM δ W (ExecStatus × σ)) (noteLine : σ → ExecM δ W Unit)

theorem streamCore_nil (session : σ) {fp : Stream} (hnil : fp.content = []) :
    streamCore garbage core noteLine session fp =
      (pure (.ok, session, { fp with eof := true }) : ExecM δ W _) := by
  have hread : fp.readLine = ([], { fp with eof := true }) := by
    simp [Stream.readLine, Stream.collect, Stream.fgets, hnil]
  rw [streamCore, gatherLine_eq, hread]
  rfl

/-- A call on a stream that is not at its end passes on the next line. -/
theorem streamCore_line (session : σ) {fp : Stream} (hcontent : fp.content ≠ [])
    (hnul : nul ∉ fp.content) :
    ∃ eof, streamCore garbage core noteLine session fp =
      (do
        let (status, session) ← passLine core noteLine session (Stream.lineOf fp.content)
        return (status, session,
          { content := fp.content.drop (Stream.lineOf fp.content).length, eof })) := by
  have hne : Stream.lineOf fp.content ≠ [] :=
    Stream.chunkOf_ne_nil (Nat.ne_of_gt (List.length_pos_iff.mpr hcontent)) hcontent
  refine ⟨fp.eof || decide ((Stream.lineOf fp.content).getLast? ≠ some newline), ?_⟩
  rw [streamCore, gatherLine_eq, Stream.readLine_eq hnul, if_neg hne]

/-- Behind the end of the stream nothing is passed on. -/
theorem successiveCalls_nil (n : ℕ) (session : σ) {fp : Stream} (hnil : fp.content = []) :
    successiveCalls garbage core noteLine n session fp =
      (pure (List.replicate n .ok, session) : ExecM δ W _) := by
  induction n generalizing fp with
  | zero => rfl
  | succ n ih =>
    rw [successiveCalls, streamCore_nil garbage core noteLine session hnil, pure_bind]
    dsimp only
    rw [@ih { fp with eof := true } hnil, pure_bind]
    rfl

/-- The calls on a stream pass on its lines in order, each of them whole, whatever is done with
them. -/
theorem successiveCalls_lines (content : List Char) (hnul : nul ∉ content) :
    ∃ lines, LinesOf content lines ∧ ∀ n session eof,
      successiveCalls garbage core noteLine n session { content, eof } = (do
        let (statuses, session) ← passLines core noteLine session (lines.take n)
        return (statuses ++ List.replicate (n - lines.length) .ok, session)) := by
  induction hlen : content.length using Nat.strong_induction_on generalizing content with
  | _ m ih =>
    subst hlen
    by_cases hnil : content = []
    · subst hnil
      refine ⟨[], .nil, fun n session eof => ?_⟩
      rw [successiveCalls_nil garbage core noteLine n session rfl, List.take_nil, passLines,
        pure_bind]
      rfl
    · have hpos := List.length_pos_iff.mpr hnil
      have hline : 0 < (Stream.lineOf content).length :=
        List.length_pos_iff.mpr (Stream.chunkOf_ne_nil (Nat.ne_of_gt hpos) hnil)
      obtain ⟨lines, hlines, hcalls⟩ := ih _ (by rw [List.length_drop]; omega)
        (content.drop (Stream.lineOf content).length) (fun h => hnul (List.mem_of_mem_drop h)) rfl
      refine ⟨_, hlines.cons hnil, fun n session eof => ?_⟩
      cases n with
      | zero =>
        rw [successiveCalls, List.take_zero, passLines, pure_bind, Nat.zero_sub]
        rfl
      | succ n =>
        obtain ⟨eof', hcall⟩ :=
          @streamCore_line _ _ _ garbage core noteLine session { content, eof } hnil hnul
        rw [successiveCalls, hcall, List.take_succ_cons, passLines, List.length_cons,
          Nat.add_sub_add_right]
        simp only [bind_assoc, pure_bind, hcalls, List.cons_append]

/-- A short line, a line that is longer than a chunk, and a text without a newline. -/
theorem successiveCalls_lines_long :
    let content := ['a', newline] ++ List.replicate 5000 'b' ++ [newline, 'c']
    nul ∉ content ∧ ∃ lines, LinesOf content lines ∧ ∀ n session eof,
      successiveCalls (fun _ => '?') (fun (read : List (List Char)) line =>
          (pure (.ok, read ++ [line]) : ExecM Unit Unit _)) (fun _ => pure ()) n session
        { content, eof } = (do
          let (statuses, session) ← passLines (fun (read : List (List Char)) line =>
            (pure (.ok, read ++ [line]) : ExecM Unit Unit _)) (fun _ => pure ()) session
              (lines.take n)
          return (statuses ++ List.replicate (n - lines.length) .ok, session)) := by
  have hnul : nul ∉ ['a', newline] ++ List.replicate 5000 'b' ++ [newline, 'c'] := by
    simp only [List.mem_append, List.mem_replicate, List.mem_cons, List.not_mem_nil, or_false]
    decide
  exact ⟨hnul, successiveCalls_lines _ _ _ _ hnul⟩

end Calls

end Migash.Exec
