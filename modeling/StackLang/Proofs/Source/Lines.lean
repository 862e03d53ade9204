/-
**Lines of the combined text.**

Every file starts on a line of its own, whether the text before it ends with a line feed or not.  So
a line of the combined text is a line of one file, and the files' lines stand one behind the other;
a last line that nothing was written on is taken by the file behind it.  The line of a number and
the byte of an offset are traced back to the file that they come from, and to their place in it.

Main definitions:

* `lineOffset` — the byte that a line starts with;
* `Sources.closedLines` — the lines in front of one more file;
* `Sources.IsTraceable` — lines and bytes are traced back to their files.

Main results:

* `Text.pieces_eq_splitOn` — the parts of a text between its line feeds;
* `Sources.lines_add` — **the lines with one more file**;
* `Sources.isTraceable_ofFiles` — the places of files one behind the other are traced back to them.
-/

import StackLang.Proofs.Source.Files

set_option relaxedAutoImplicit false
set_option autoImplicit false

namespace StackLang

/-! ### Lines of one text -/

namespace Text

theorem pieces_eq_splitOn (cs : List Char) : pieces cs = cs.splitOn '\n' := by
  induction cs with
  | nil => rfl
  | cons c cs ih =>
      rw [List.splitOn, List.splitOnP_cons_eq_if_modifyHead, ← List.splitOn, ← ih]
      by_cases hc : c = '\n'
      · simp [hc, pieces]
      · rw [pieces.eq_3 c cs hc]
        cases hpieces : pieces cs with
        | nil => exact absurd hpieces (pieces_ne_nil cs)
        | cons p ps => simp [hc]

/-- A line feed divides the lines before it from those behind it. -/
theorem splitOn_append_newline (cs ds : List Char) :
    (cs ++ '\n' :: ds).splitOn '\n' = cs.splitOn '\n' ++ ds.splitOn '\n' :=
  List.splitOnP_append_cons cs ds rfl

theorem length_splitOn (cs : List Char) : (cs.splitOn '\n').length = cs.count '\n' + 1 := by
  induction cs with
  | nil => rfl
  | cons c cs ih =>
      rw [List.splitOn, List.splitOnP_cons_eq_if_modifyHead, ← List.splitOn, List.count_cons]
      split <;> simp_all

end Text

/-- The byte that the line `n` starts with, when each line before it is ended by one byte. -/
def lineOffset (lines : List (List Char)) (n : Nat) : Nat :=
  ((lines.take n).map fun line => byteLength line + 1).sum

section Lines

variable {lines lines' : List (List Char)} {n start : Nat}

@[simp] theorem lineOffset_zero : lineOffset lines 0 = 0 := rfl

@[simp] theorem lineOffset_cons_succ (line : List Char) :
    lineOffset (line :: lines) (n + 1) = byteLength line + 1 + lineOffset lines n := rfl

/-- The offset of a line does not depend on the lines behind it. -/
theorem lineOffset_append_left (h : n ≤ lines.length) :
    lineOffset (lines ++ lines') n = lineOffset lines n := by
  rw [lineOffset, List.take_append_of_le_length h, lineOffset]

theorem lineOffset_take {m : Nat} (h : n ≤ m) :
    lineOffset (lines.take m) n = lineOffset lines n := by
  rw [lineOffset, List.take_take, Nat.min_eq_left h, lineOffset]

theorem lineOffset_append_right (lines lines' : List (List Char)) (n : Nat) :
    lineOffset (lines ++ lines') (lines.length + n)
      = lineOffset lines lines.length + lineOffset lines' n := by
  rw [lineOffset, List.take_length_add_append, List.map_append, List.sum_append, lineOffset,
    List.take_length, lineOffset]

/-- A line is found with the stretch from its offset on. -/
theorem lineStretch?_eq (start : Nat) (lines : List (List Char)) (n : Nat) :
    lineStretch? start lines n = lines[n]?.map fun line =>
      (start + lineOffset lines n, start + lineOffset lines n + byteLength line) := by
  induction lines generalizing start n with
  | nil => simp [lineStretch?]
  | cons line lines ih =>
      cases n with
      | zero => simp [lineStretch?]
      | succ n => simp [lineStretch?, ih, Nat.add_assoc]

end Lines

namespace Text

theorem utf8Size_newline : ('\n').utf8Size = 1 := by decide

/-- **Whole lines** are as long as the text that they make with their line feeds. -/
theorem lineOffset_length (cs : List Char) :
    lineOffset (cs.splitOn '\n') (cs.splitOn '\n').length = byteLength (cs ++ ['\n']) := by
  have hjoin : ∀ lines : List (List Char), lines ≠ [] →
      lineOffset lines lines.length = byteLength (['\n'].intercalate lines ++ ['\n']) := by
    intro lines
    induction lines with
    | nil => exact fun h => absurd rfl h
    | cons first lines ih =>
        intro _
        cases lines with
        | nil => simp [utf8Size_newline]
        | cons second lines =>
            rw [List.length_cons, lineOffset_cons_succ, ih (List.cons_ne_nil _ _),
              List.intercalate_cons_cons]
            simp [utf8Size_newline, Nat.add_assoc]
  have := hjoin _ (List.splitOnP_ne_nil (· == '\n') cs)
  rwa [← List.splitOn, List.intercalate_splitOn] at this

/-- **A line stands in its text** where its offset says. -/
theorem exists_append_of_getElem? {cs : List Char} {n : Nat} {line : List Char}
    (h : (cs.splitOn '\n')[n]? = some line) :
    ∃ before after, cs = before ++ (line ++ after) ∧
      byteLength before = lineOffset (cs.splitOn '\n') n := by
  -- the lines are taken off the text one by one
  have hjoin : ∀ (lines : List (List Char)) (n : Nat), lines[n]? = some line →
      ∃ before after, ['\n'].intercalate lines = before ++ (line ++ after) ∧
        byteLength before = lineOffset lines n := by
    intro lines
    induction lines with
    | nil => simp
    | cons first lines ih =>
        intro n hn
        cases n with
        | zero =>
            obtain rfl : first = line := by simpa using hn
            cases lines with
            | nil => exact ⟨[], [], by simp, rfl⟩
            | cons second lines =>
                exact ⟨[], '\n' :: ['\n'].intercalate (second :: lines),
                  by simp [List.intercalate_cons_cons], rfl⟩
        | succ n =>
            rw [List.getElem?_cons_succ] at hn
            obtain ⟨before, after, heq, hlength⟩ := ih n hn
            cases lines with
            | nil => cases hn
            | cons second lines =>
                refine ⟨first ++ '\n' :: before, after, ?_, ?_⟩
                · simp [List.intercalate_cons_cons, heq]
                · simp [hlength, utf8Size_newline, Nat.add_assoc]
  obtain ⟨before, after, heq, hlength⟩ := hjoin _ n h
  exact ⟨before, after, by rwa [List.intercalate_splitOn] at heq, hlength⟩

end Text

/-! ### One more file -/

namespace Sources

/-- The lines of the combined text. -/
def lines (s : Sources) : List (List Char) := s.text.toList.splitOn '\n'

/-- The lines that are ended before one more file: all of them, but for an empty last one. -/
def closedLines (s : Sources) : List (List Char) :=
  s.lines.take (s.closedText.toList.count '\n')

variable (s : Sources) (name text : String)

/-- How the text in front of one more file comes about. -/
theorem closedText_cases :
    (s.text = "" ∧ s.closedText.toList = []) ∨
    (∃ body, s.text.toList = body ++ ['\n'] ∧ s.closedText.toList = body ++ ['\n']) ∨
    s.closedText.toList = s.text.toList ++ ['\n'] := by
  unfold closedText
  split
  · case isTrue h =>
    rcases h with h | h
    · exact .inl ⟨h, by simp [h]⟩
    · obtain ⟨body, hbody⟩ := List.getLast?_eq_some_iff.1 h
      exact .inr (.inl ⟨body, hbody, hbody⟩)
  · exact .inr (.inr (by simp))

/-- **The lines in front of one more file** end where it starts. -/
theorem closedLines_eq (cs : List Char) :
    (s.closedText.toList ++ cs).splitOn '\n' = s.closedLines ++ cs.splitOn '\n' ∧
      s.closedLines.length = s.closedText.toList.count '\n' ∧
      lineOffset s.closedLines s.closedLines.length = s.closedText.utf8ByteSize := by
  have hcount (body : List Char) : (body.splitOn '\n').length = (body ++ ['\n']).count '\n' := by
    simp [Text.length_splitOn]
  rw [← byteLength_toList, closedLines, lines]
  rcases s.closedText_cases with ⟨-, hclosed⟩ | ⟨body, htext, hclosed⟩ | hclosed
  · simp [hclosed]
  · have hbody : (body ++ ['\n']).splitOn '\n' = body.splitOn '\n' ++ [[]] :=
      Text.splitOn_append_newline body []
    rw [hclosed, htext, hbody, ← hcount, List.take_left]
    exact ⟨by simpa using Text.splitOn_append_newline body cs, rfl, Text.lineOffset_length body⟩
  · rw [hclosed, ← hcount, List.take_length]
    exact ⟨by simpa using Text.splitOn_append_newline s.text.toList cs, rfl,
      Text.lineOffset_length _⟩

/-- **The lines with one more file** are those that are ended before it, and its own. -/
theorem lines_add : (s.add name text).lines = s.closedLines ++ text.toList.splitOn '\n' := by
  rw [lines, text_add, String.toList_append, (s.closedLines_eq text.toList).1]

theorem findLast?_add (p : SourceFile → Bool) :
    (s.add name text).findLast? p =
      if p ⟨name, text, s.closedText.utf8ByteSize, s.closedText.toList.count '\n'⟩ then
        some (⟨name, text, s.closedText.utf8ByteSize, s.closedText.toList.count '\n'⟩,
          s.files.length)
      else s.findLast? p := by
  simp only [findLast?, add, List.zipIdx_append, List.reverse_append, List.zipIdx_cons,
    List.zipIdx_nil, List.reverse_singleton, List.singleton_append, List.find?_cons, Nat.zero_add]
  split <;> simp_all

/-- A line is looked up in the file that was added last, unless it stands before it. -/
theorem locateLine_add (n : Nat) :
    (s.add name text).locateLine n =
      if s.closedText.toList.count '\n' ≤ n then
        ((text.toList.splitOn '\n')[n - s.closedText.toList.count '\n']?).map fun line =>
          let start := lineOffset (text.toList.splitOn '\n') (n - s.closedText.toList.count '\n')
          (s.files.length, start, start + byteLength line)
      else s.locateLine n := by
  by_cases hn : s.closedText.toList.count '\n' ≤ n
  · have hlast := s.findLast?_add name text fun file => file.firstLine ≤ n
    rw [if_pos (decide_eq_true hn)] at hlast
    rw [if_pos hn, locateLine, hlast]
    simp [lineStretch?_eq, Text.pieces_eq_splitOn, Function.comp_def]
  · have hlast := s.findLast?_add name text fun file => file.firstLine ≤ n
    rw [if_neg (by simpa using hn)] at hlast
    rw [if_neg hn, locateLine, hlast, locateLine]

/-! ### Lines and bytes traced back -/

variable {s}

/-- The line `n` is found as a stretch of one file with its text, at its place in the combined
text. -/
def IsLocated (s : Sources) (n : Nat) (line : List Char) : Prop :=
  ∃ k, ∃ f : SourceFile, ∃ start, s.files[k]? = some f ∧
    s.locateLine n = some (k, start, start + byteLength line) ∧
    f.start + start = lineOffset s.lines n ∧
    ∃ before after, f.text.toList = before ++ (line ++ after) ∧ byteLength before = start

/-- A line that is ended before one more file is found as before. -/
theorem IsLocated.add {n : Nat} {line : List Char} (h : s.IsLocated n line)
    (hn : n < s.closedText.toList.count '\n') (name text : String) :
    (s.add name text).IsLocated n line := by
  obtain ⟨k, f, start, hf, hlocate, hoffset, hline⟩ := h
  obtain ⟨-, hlength, -⟩ := s.closedLines_eq text.toList
  refine ⟨k, f, start, ?_, ?_, ?_, hline⟩
  · exact List.getElem?_append_left (List.getElem?_eq_some_iff.1 hf).1 ▸ hf
  · rw [locateLine_add, if_neg (by omega), hlocate]
  · rw [hoffset, lines_add, lineOffset_append_left (by omega), closedLines,
      lineOffset_take (by omega)]

/-- The lines of the file that was added last are found in it. -/
theorem isLocated_last (s : Sources) (name text : String) {n : Nat} {line : List Char}
    (h : (text.toList.splitOn '\n')[n]? = some line) :
    (s.add name text).IsLocated (s.closedText.toList.count '\n' + n) line := by
  obtain ⟨-, hlength, hoffset⟩ := s.closedLines_eq text.toList
  obtain ⟨before, after, hline, hbefore⟩ := Text.exists_append_of_getElem? h
  refine ⟨s.files.length, _, _, List.getElem?_concat_length, ?_, ?_, before, after, hline, hbefore⟩
  · rw [locateLine_add, if_pos (by omega), Nat.add_sub_cancel_left, h]
    rfl
  · rw [lines_add, ← hlength, lineOffset_append_right, hoffset]

/-- **Every line is found**, once there is a file. -/
theorem isLocated_add (h : ∀ n line, s.closedLines[n]? = some line → s.IsLocated n line)
    (name text : String) {n : Nat} {line : List Char}
    (hline : (s.add name text).lines[n]? = some line) : (s.add name text).IsLocated n line := by
  obtain ⟨-, hlength, -⟩ := s.closedLines_eq text.toList
  rw [lines_add, List.getElem?_append] at hline
  split at hline
  · case isTrue hn => exact (h n line hline).add (by omega) name text
  · case isFalse hn =>
    have := s.isLocated_last name text hline
    rwa [show s.closedText.toList.count '\n' + (n - s.closedLines.length) = n by omega] at this

theorem isLocated_of_closedLines (fs : List (String × String)) :
    ∀ n line, (ofFiles fs).closedLines[n]? = some line → (ofFiles fs).IsLocated n line := by
  induction fs using List.reverseRecOn with
  | nil =>
      intro n line h
      simp [ofFiles, empty, closedLines, closedText] at h
  | append_singleton fs f ih =>
      intro n line h
      rw [ofFiles_append_singleton] at h ⊢
      refine isLocated_add ih f.1 f.2 ?_
      rw [closedLines, List.getElem?_take] at h
      split at h
      · exact h
      · cases h

/-- No line is found behind the last one. -/
theorem locateLine_eq_none (fs : List (String × String)) {n : Nat}
    (h : (ofFiles fs).lines.length ≤ n) : (ofFiles fs).locateLine n = none := by
  rcases List.eq_nil_or_concat' fs with rfl | ⟨fs, f, rfl⟩
  · rfl
  · obtain ⟨-, hlength, -⟩ := (ofFiles fs).closedLines_eq f.2.toList
    rw [ofFiles_append_singleton] at h ⊢
    rw [lines_add, List.length_append] at h
    rw [locateLine_add, if_pos (by omega), List.getElem?_eq_none (by omega)]
    rfl

/-- A file stands in the combined text where it starts, and it starts a line. -/
def IsPlaced (s : Sources) (f : SourceFile) : Prop :=
  ∃ before after, s.text.toList = before ++ (f.text.toList ++ after) ∧
    byteLength before = f.start ∧ (before = [] ∨ ∃ body, before = body ++ ['\n'])

theorem isPlaced_ofFiles (fs : List (String × String)) :
    ∀ f ∈ (ofFiles fs).files, (ofFiles fs).IsPlaced f := by
  induction fs using List.reverseRecOn with
  | nil => simp [ofFiles, empty]
  | append_singleton fs g ih =>
      rw [ofFiles_append_singleton]
      intro f hf
      rcases List.mem_append.1 hf with hf | hf
      · obtain ⟨before, after, htext, hbefore⟩ := ih f hf
        -- the text so far goes on with a line feed or not, and with the new file
        obtain ⟨rest, hrest⟩ : ∃ rest, (ofFiles fs).closedText.toList
            = (ofFiles fs).text.toList ++ rest := by
          rcases (ofFiles fs).closedText_cases with ⟨hempty, hclosed⟩ | ⟨body, hbody, hclosed⟩ | h
          · exact ⟨[], by simp [hempty, hclosed]⟩
          · exact ⟨[], by simp [hbody, hclosed]⟩
          · exact ⟨_, h⟩
        refine ⟨before, after ++ rest ++ g.2.toList, ?_, hbefore⟩
        simp [hrest, htext]
      · obtain rfl := List.mem_singleton.1 hf
        exact ⟨(ofFiles fs).closedText.toList, [], by simp, byteLength_toList _,
          (ofFiles fs).closedText_closed⟩

/-- **Lines and bytes of the combined text are traced back to their files.** -/
structure IsTraceable (s : Sources) : Prop where
  /-- A file stands in the combined text where it starts, at the start of a line. -/
  placed : ∀ f ∈ s.files, s.IsPlaced f
  /-- No line mixes two files: between bytes of the two there is a line feed. -/
  apart : ∀ (k l : Nat) (f g : SourceFile), s.files[k]? = some f → s.files[l]? = some g → k < l →
    ∀ i < f.text.utf8ByteSize, ∀ j < g.text.utf8ByteSize, ∃ before after,
      s.text.toList = before ++ '\n' :: after ∧
        f.start + i ≤ byteLength before ∧ byteLength before < g.start + j
  /-- Every line is found in a file. -/
  line : ∀ n line, s.lines[n]? = some line → s.IsLocated n line
  /-- Nothing is found behind the last line. -/
  beyond : ∀ n, s.lines.length ≤ n → s.locateLine n = none
  /-- A byte of a file is traced back to its own place in it. -/
  offset : ∀ (k : Nat) (f : SourceFile), s.files[k]? = some f → ∀ i < f.text.utf8ByteSize,
    s.locateOffset (f.start + i) = some (k, i)

/-- **The places of files one behind the other are traced back to them**, whatever the files are
and whether they end with a line feed or not. -/
theorem isTraceable_ofFiles {fs : List (String × String)} (h : fs ≠ []) :
    (ofFiles fs).files.map (fun f => (f.name, f.text)) = fs ∧ (ofFiles fs).IsTraceable := by
  have hlaid := isLaid_ofFiles fs
  refine ⟨files_ofFiles fs, isPlaced_ofFiles fs, ?_, ?_, fun n => locateLine_eq_none fs,
    fun k f hf i => hlaid.locateOffset_inside hf⟩
  · intro k l f g hf hg hkl i hi j _
    have hle : f.start + f.text.utf8ByteSize ≤ g.start := by
      obtain ⟨hk, rfl⟩ := List.getElem?_eq_some_iff.1 hf
      obtain ⟨hl, rfl⟩ := List.getElem?_eq_some_iff.1 hg
      exact List.pairwise_iff_getElem.1 hlaid.pairwise k l hk hl hkl
    obtain ⟨before, after, htext, hbefore, hclosed⟩ :=
      isPlaced_ofFiles fs g (List.mem_of_getElem? hg)
    -- the later file does not start the text, so a line feed stands right before it
    rcases hclosed with rfl | ⟨body, rfl⟩
    · rw [byteLength_nil] at hbefore
      omega
    · rw [byteLength_append, byteLength_cons, Text.utf8Size_newline, byteLength_nil] at hbefore
      exact ⟨body, g.text.toList ++ after, by simp [htext], by omega, by omega⟩
  · intro n line hline
    obtain ⟨fs, f, rfl⟩ := (List.eq_nil_or_concat' fs).resolve_left h
    rw [ofFiles_append_singleton] at hline ⊢
    exact isLocated_add (isLocated_of_closedLines fs) f.1 f.2 hline

/-- A file without a line feed at its end, an empty one, and one that is behind both. -/
theorem isTraceable_ofFiles_three :
    [("a", "x"), ("b", ""), ("c", "y\nz")] ≠ [] ∧
      (ofFiles [("a", "x"), ("b", ""), ("c", "y\nz")]).IsTraceable ∧
      (ofFiles [("a", "x"), ("b", ""), ("c", "y\nz")]).locateLine 1 = some (2, 0, 1) ∧
      (ofFiles [("a", "x"), ("b", ""), ("c", "y\nz")]).locateLine 3 = none ∧
      (ofFiles [("a", "x"), ("b", ""), ("c", "y\nz")]).locateOffset 4 = some (2, 2) := by
  have hne : [("a", "x"), ("b", ""), ("c", "y\nz")] ≠ [] := by simp
  have h := (isTraceable_ofFiles hne).2
  refine ⟨hne, h, by decide +kernel, h.beyond 3 (by decide +kernel), ?_⟩
  exact h.offset 2 ⟨"c", "y\nz", 2, 1⟩ (by decide +kernel) 2 (by decide +kernel)

end Sources

end StackLang
