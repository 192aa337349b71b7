import Mathlib.Data.List.TakeWhile
import Migash.Lexer.State

/-! # Streams

A line is read in chunks of the size of a buffer. The text it is read as is the
text up to its newline, however long it is, unless there is a zero byte in it.
-/

namespace Migash.Exec

open Lexer

/-- A `FILE` that is read: what is left of it, and whether its end has been met. -/
structure Stream where
  content : List Char
  eof : Bool := false
  deriving DecidableEq, Repr

namespace Stream

/-- The text up to the first newline, at most `n` characters. -/
def chunkOf : ℕ → List Char → List Char
  | 0, _ => []
  | _, [] => []
  | n + 1, c :: cs => if c = newline then [c] else c :: chunkOf n cs

/-- `fgets` into a buffer for `n` characters. -/
def fgets (n : ℕ) (fp : Stream) : Option (List Char) × Stream :=
  if fp.content = [] then (none, { fp with eof := true })
  else
    let chunk := chunkOf n fp.content
    let ended := decide (chunk.length < n) && decide (chunk.getLast? ≠ some newline)
    (some chunk, { content := fp.content.drop chunk.length, eof := fp.eof || ended })

/-- `LINE_CHUNK_SIZE`, without the byte behind the text. -/
def lineChunkSize : ℕ := 4095

/-- The loop of `exec_frame_stream_core` that collects a line, at most `k` turns. A zero byte cuts off
the rest of its chunk. -/
def collect (n : ℕ) : ℕ → List Char → Stream → List Char × Stream
  | 0, line, fp => (line, fp)
  | k + 1, line, fp =>
    match fp.fgets n with
    | (none, fp) => (line, fp)
    | (some chunk, fp) =>
      let text := chunk.takeWhile (· ≠ nul)
      if text.getLast? = some newline then (line ++ text, fp) else collect n k (line ++ text) fp

/-- The line that `exec_frame_stream_core` reads. Every turn but the last one takes a character. -/
def readLine (fp : Stream) : List Char × Stream :=
  collect lineChunkSize (fp.content.length + 1) [] fp

/-- The lines of a stream, and the text behind the last newline. -/
def lines : ℕ → Stream → List (List Char) × List Char
  | 0, _ => ([], [])
  | n + 1, fp =>
    let (line, fp) := fp.readLine
    if fp.eof then ([], line)
    else
      let (others, last) := lines n fp
      (line :: others, last)

/-! ## Chunks -/

theorem chunkOf_zero (text : List Char) : chunkOf 0 text = [] := by cases text <;> rfl

theorem chunkOf_nil (n : ℕ) : chunkOf n [] = [] := by cases n <;> rfl

theorem chunkOf_cons (n : ℕ) (c : Char) (cs : List Char) :
    chunkOf (n + 1) (c :: cs) = if c = newline then [c] else c :: chunkOf n cs := rfl

theorem chunkOf_ne_nil {n : ℕ} {text : List Char} (hn : n ≠ 0) (h : text ≠ []) :
    chunkOf n text ≠ [] := by
  obtain ⟨n, rfl⟩ := Nat.exists_eq_succ_of_ne_zero hn
  cases text with
  | nil => exact (h rfl).elim
  | cons c cs =>
    rw [chunkOf_cons]
    split_ifs <;> simp

theorem length_chunkOf_le (n : ℕ) (text : List Char) : (chunkOf n text).length ≤ text.length := by
  induction n generalizing text with
  | zero => simp [chunkOf_zero]
  | succ n ih =>
    cases text with
    | nil => simp [chunkOf_nil]
    | cons c cs =>
      rw [chunkOf_cons]
      split_ifs
      · simp
      · simpa using ih cs

theorem chunkOf_append_drop (n : ℕ) (text : List Char) :
    chunkOf n text ++ text.drop (chunkOf n text).length = text := by
  induction n generalizing text with
  | zero => simp [chunkOf_zero]
  | succ n ih =>
    cases text with
    | nil => simp [chunkOf_nil]
    | cons c cs =>
      rw [chunkOf_cons]
      split_ifs
      · simp
      · simpa using ih cs

/-- A chunk that neither ends with a newline nor fills the buffer is all that is left. -/
theorem chunkOf_of_length_lt {n : ℕ} {text : List Char} (hlt : (chunkOf n text).length < n)
    (h : (chunkOf n text).getLast? ≠ some newline) : chunkOf n text = text := by
  induction n generalizing text with
  | zero => exact (Nat.not_lt_zero _ hlt).elim
  | succ n ih =>
    cases text with
    | nil => simp [chunkOf_nil]
    | cons c cs =>
      rw [chunkOf_cons] at h hlt ⊢
      split_ifs at h hlt ⊢ with hc
      · exact (h (by rw [hc]; rfl)).elim
      · refine congrArg (List.cons c) (ih (by simpa using hlt) fun hlast => h ?_)
        rw [List.getLast?_cons, hlast]
        rfl

/-! ## Lines -/

/-- The text up to the first newline. -/
def lineOf (text : List Char) : List Char := chunkOf text.length text

/-- A chunk that ends with a newline is a line. -/
theorem chunkOf_of_newline {n : ℕ} {text : List Char}
    (h : (chunkOf n text).getLast? = some newline) : chunkOf n text = lineOf text := by
  unfold lineOf
  induction n generalizing text with
  | zero => simp [chunkOf_zero] at h
  | succ n ih =>
    cases text with
    | nil => simp [chunkOf_nil]
    | cons c cs =>
      rw [List.length_cons, chunkOf_cons, chunkOf_cons]
      rw [chunkOf_cons] at h
      split_ifs at h ⊢ with hc
      · rfl
      · have hne : chunkOf n cs ≠ [] := by
          intro hnil
          rw [hnil] at h
          exact hc (by simpa using h)
        rw [List.getLast?_cons_of_ne_nil hne] at h
        rw [ih h]

/-- Any other chunk is a part of a line, and the line goes on behind it. -/
theorem lineOf_eq_chunkOf_append {n : ℕ} {text : List Char}
    (h : (chunkOf n text).getLast? ≠ some newline) :
    lineOf text = chunkOf n text ++ lineOf (text.drop (chunkOf n text).length) := by
  induction n generalizing text with
  | zero => simp [chunkOf_zero]
  | succ n ih =>
    cases text with
    | nil => simp [chunkOf_nil, lineOf]
    | cons c cs =>
      rw [chunkOf_cons] at h ⊢
      rw [lineOf, List.length_cons, chunkOf_cons]
      split_ifs at h ⊢ with hc
      · exact (h (by rw [hc]; rfl)).elim
      · have hlast : (chunkOf n cs).getLast? ≠ some newline := by
          intro hlast
          refine h ?_
          rw [List.getLast?_cons_of_ne_nil ?_]
          · exact hlast
          · intro hnil
            simp [hnil] at hlast
        rw [List.cons_append, List.length_cons, List.drop_succ_cons, ← ih hlast, lineOf]

/-- A line is read to its end, and something is left of the stream only behind a newline. -/
theorem collect_spec {n k : ℕ} (hn : n ≠ 0) {line : List Char} {fp : Stream}
    (hk : fp.content.length < k) :
    (collect n k line fp).2.eof = true ∨
      (collect n k line fp).1.getLast? = some newline ∧
        (collect n k line fp).2.content.length < fp.content.length := by
  induction k generalizing line fp with
  | zero => exact (Nat.not_lt_zero _ hk).elim
  | succ k ih =>
    by_cases hnil : fp.content = []
    · simp [collect, fgets, hnil]
    · have hchunk := List.length_pos_iff.mpr (chunkOf_ne_nil hn hnil)
      have hlength := length_chunkOf_le n fp.content
      simp only [collect, fgets, if_neg hnil]
      split_ifs with hlast
      · refine .inr ⟨?_, ?_⟩
        · rw [List.getLast?_append, hlast]
          rfl
        · rw [List.length_drop]
          omega
      · obtain heof | ⟨hnewline, hlt⟩ :=
          @ih _ ⟨fp.content.drop (chunkOf n fp.content).length, _⟩ (by rw [List.length_drop]; omega)
        · exact .inl heof
        · rw [List.length_drop] at hlt
          exact .inr ⟨hnewline, by omega⟩

theorem readLine_spec (fp : Stream) :
    fp.readLine.2.eof = true ∨
      fp.readLine.1.getLast? = some newline ∧
        fp.readLine.2.content.length < fp.content.length :=
  collect_spec (by decide) (Nat.lt_succ_self _)

/-- A buffer of any size gives the same line. -/
theorem collect_eq {n k : ℕ} (hn : n ≠ 0) {line : List Char} {fp : Stream}
    (hk : fp.content.length < k) (hnul : nul ∉ fp.content) :
    collect n k line fp =
      (line ++ lineOf fp.content,
        { content := fp.content.drop (lineOf fp.content).length
          eof := fp.eof || decide ((lineOf fp.content).getLast? ≠ some newline) }) := by
  induction k generalizing line fp with
  | zero => exact (Nat.not_lt_zero _ hk).elim
  | succ k ih =>
    by_cases hnil : fp.content = []
    · simp [collect, fgets, hnil, lineOf, chunkOf_nil]
    · have hchunk := List.length_pos_iff.mpr (chunkOf_ne_nil hn hnil)
      have hlength := length_chunkOf_le n fp.content
      have hall : (chunkOf n fp.content).takeWhile (· ≠ nul) = chunkOf n fp.content := by
        rw [List.takeWhile_eq_self_iff]
        intro c hc
        have hmem : c ∈ fp.content := by
          rw [← chunkOf_append_drop n fp.content]
          exact List.mem_append_left _ hc
        exact decide_eq_true fun h => hnul (h ▸ hmem)
      simp only [collect, fgets, if_neg hnil, hall]
      split_ifs with hlast
      · rw [← chunkOf_of_newline hlast]
        simp [hlast]
      · rw [ih (by rw [List.length_drop]; omega) fun h => hnul (List.mem_of_mem_drop h),
          lineOf_eq_chunkOf_append hlast, List.append_assoc, List.length_append, List.drop_drop]
        congr 2
        by_cases hrest : fp.content.drop (chunkOf n fp.content).length = []
        · simp [hrest, lineOf, chunkOf_nil, hlast]
        · have hfull : ¬ (chunkOf n fp.content).length < n := fun hlt =>
            hrest (by rw [chunkOf_of_length_lt hlt hlast, List.drop_length])
          have hne : lineOf (fp.content.drop (chunkOf n fp.content).length) ≠ [] :=
            chunkOf_ne_nil (fun hzero => hrest (List.length_eq_zero_iff.mp hzero)) hrest
          rw [List.getLast?_append_of_ne_nil _ hne]
          simp [hfull]

/-- A line is read whole, however long it is. -/
theorem readLine_eq {fp : Stream} (hnul : nul ∉ fp.content) :
    fp.readLine =
      (lineOf fp.content,
        { content := fp.content.drop (lineOf fp.content).length
          eof := fp.eof || decide ((lineOf fp.content).getLast? ≠ some newline) }) :=
  collect_eq (by decide) (Nat.lt_succ_self _) hnul

theorem chunkOf_append_newline {n : ℕ} {text rest : List Char} (hplain : newline ∉ text)
    (hn : text.length < n) : chunkOf n (text ++ newline :: rest) = text ++ [newline] := by
  induction text generalizing n with
  | nil =>
    obtain ⟨n, rfl⟩ := Nat.exists_eq_succ_of_ne_zero (Nat.ne_of_gt hn)
    rw [List.nil_append, chunkOf_cons, if_pos rfl]
    rfl
  | cons c cs ih =>
    obtain ⟨n, rfl⟩ := Nat.exists_eq_succ_of_ne_zero (Nat.ne_of_gt (Nat.zero_lt_of_lt hn))
    rw [List.mem_cons, not_or] at hplain
    rw [List.cons_append, chunkOf_cons, if_neg (Ne.symm hplain.1),
      ih hplain.2 (by simpa using hn)]
    rfl

/-- A stream that begins with a line. -/
theorem readLine_newline {text rest : List Char} (hplain : newline ∉ text) (hnul : nul ∉ text)
    (hrest : nul ∉ rest) :
    readLine { content := text ++ newline :: rest } = (text ++ [newline], { content := rest }) := by
  have hline : lineOf (text ++ newline :: rest) = text ++ [newline] := by
    refine chunkOf_append_newline hplain ?_
    rw [List.length_append, List.length_cons]
    omega
  have hclean : nul ∉ text ++ newline :: rest := by
    rw [List.mem_append, List.mem_cons]
    rintro (h | h | h)
    · exact hnul h
    · exact absurd h (by decide)
    · exact hrest h
  rw [readLine_eq hclean]
  dsimp only
  rw [hline, List.getLast?_concat, List.append_cons text newline rest, List.drop_left]
  simp

end Stream

end Migash.Exec
