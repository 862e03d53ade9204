/-
**Files read alone and together.**

Files that are put behind each other are read as if each stood alone.  No word, no comment and no
error goes on behind a line feed, and a file starts the combined text or stands behind one; so the
words of the combined text are those of the files, each at its place in its file with the bytes and
the lines in front of the file added.  Where the files stand is found again from a place in the
combined text, since no word is empty.

Main definitions:

* `Lexeme.moved`, `LexError.moved` — a word and an error with whole lines before the text;
* `Sources.ofFiles` — some files, one behind the other;
* `Sources.IsIndependent` — the combined text is read as the files are alone.

Main results:

* `Lexeme.items_append` — what stands behind a line feed is read as a text of its own;
* `Sources.locateOffset_eq` — a place is traced back to its file;
* `Sources.isIndependent_ofFiles` — files are read alone and together alike.
-/

import StackLang.Proofs.Token.Partition
import StackLang.Source.Files

set_option relaxedAutoImplicit false
set_option autoImplicit false

namespace StackLang

/-! ### Lines before a text -/

/-- The word when `bytes` bytes in `lines` whole lines stand before the text. -/
def Lexeme.moved (bytes lines : Nat) (l : Lexeme) : Lexeme := ⟨l.token, l.span.moved bytes lines⟩

/-- The error when `bytes` bytes in `lines` whole lines stand before the text. -/
def LexError.moved (bytes lines : Nat) (e : LexError) : LexError :=
  ⟨e.cause, e.span.moved bytes lines⟩

/-- The word or the error when `bytes` bytes in `lines` whole lines stand before the text. -/
def itemMoved (bytes lines : Nat) : Except LexError Lexeme → Except LexError Lexeme
  | .ok l => .ok (l.moved bytes lines)
  | .error e => .error (e.moved bytes lines)

theorem itemMoved_zero (x : Except LexError Lexeme) : itemMoved 0 0 x = x := by
  cases x <;> simp [itemMoved, Lexeme.moved, LexError.moved, Span.moved]

namespace Lexeme

variable {bytes lines : Nat}

theorem words_map_itemMoved (items : List (Except LexError Lexeme)) :
    words (items.map (itemMoved bytes lines)) = (words items).map (moved bytes lines) := by
  rw [words, words, List.filterMap_map, List.map_filterMap]
  refine List.filterMap_congr fun x _ => ?_
  cases x <;> rfl

theorem errors_map_itemMoved (items : List (Except LexError Lexeme)) :
    errors (items.map (itemMoved bytes lines)) = (errors items).map (.moved bytes lines) := by
  rw [errors, errors, List.filterMap_map, List.map_filterMap]
  refine List.filterMap_congr fun x _ => ?_
  cases x <;> rfl

theorem exists_ofText_eq_ok (text : String) :
    (∃ ls, ofText text = .ok ls) ↔ errors (items text.toList) = [] := by
  by_cases h : errors (items text.toList) = [] <;> simp [ofText, h]

/-- **Lines before a text** move all that is met in it. -/
theorem itemsFrom_moved (p : Position) (cs : List Char) :
    itemsFrom (p.moved bytes lines) cs = (itemsFrom p cs).map (itemMoved bytes lines) := by
  induction hn : cs.length using Nat.strong_induction_on generalizing p cs with
  | _ n ih =>
      cases cs with
      | nil => simp
      | cons c cs =>
          subst hn
          rw [itemsFrom_cons, itemsFrom_cons, Position.moved_advance, ih _ (by simp) _ _ rfl,
            List.map_append]
          congr 1
          cases (Piece.scan c cs).1 <;> rfl

/-- **Behind a line feed a text starts anew**: no word, no comment and no error goes on there. -/
theorem itemsFrom_append_newline (p : Position) (cs ds : List Char) :
    itemsFrom p (cs ++ '\n' :: ds)
      = itemsFrom p cs ++ itemsFrom (p.advance (cs ++ ['\n'])) ds := by
  induction hn : cs.length using Nat.strong_induction_on generalizing p cs with
  | _ n ih =>
      cases cs with
      | nil => simp [itemsFrom_blank Piece.isSkipped_newline]
      | cons c cs =>
          subst hn
          cases hc : Piece.isSkipped c with
          | true =>
              -- the run of blanks may go on behind the line feed, so they are taken one by one
              rw [List.cons_append, itemsFrom_blank hc, itemsFrom_blank hc, ih _ (by simp) _ _ rfl]
              rfl
          | false =>
              have hle := Piece.scan_le c cs
              rw [List.cons_append, itemsFrom_cons, itemsFrom_cons, Piece.scan_append hc,
                List.take_append_of_le_length hle, List.drop_append_of_le_length hle,
                ih _ (by simp) _ _ rfl, List.append_assoc, ← Position.advance_append,
                List.cons_append, ← List.append_assoc (List.take _ _), List.take_append_drop,
                List.cons_append]

/-- A line feed at the end is read over. -/
theorem items_append_newline (cs : List Char) : items (cs ++ ['\n']) = items cs := by
  rw [items, itemsFrom_append_newline, itemsFrom_nil, List.append_nil, items]

/-- **What stands behind whole lines** is read as a text of its own. -/
theorem items_append {cs : List Char} (h : cs = [] ∨ ∃ body, cs = body ++ ['\n'])
    (ds : List Char) :
    items (cs ++ ds) = items cs ++ (items ds).map (itemMoved (byteLength cs) (cs.count '\n')) := by
  rcases h with rfl | ⟨body, rfl⟩
  · have hid : itemMoved (byteLength []) (List.count '\n' []) = id := funext itemMoved_zero
    rw [hid, List.map_id]
    simp [items]
  · rw [items_append_newline, List.append_assoc, items, List.singleton_append,
      itemsFrom_append_newline, Position.advance_closed, itemsFrom_moved]
    rfl

end Lexeme

/-! ### Files one behind the other -/

namespace SourceFile

/-- What is met in the file alone, at its place in the combined text. -/
def placed (f : SourceFile) : List (Except LexError Lexeme) :=
  (Lexeme.items f.text.toList).map (itemMoved f.start f.firstLine)

/-- The words of the file alone, without the end mark. -/
def words (f : SourceFile) : List Lexeme :=
  match Lexeme.ofText f.text with
  | .ok ls => ls.dropLast
  | .error _ => []

/-- The errors of the file alone. -/
def errors (f : SourceFile) : List LexError :=
  match Lexeme.ofText f.text with
  | .ok _ => []
  | .error es => es

theorem errors_eq (f : SourceFile) : f.errors = Lexeme.errors (Lexeme.items f.text.toList) := by
  by_cases h : Lexeme.errors (Lexeme.items f.text.toList) = [] <;>
    simp [errors, Lexeme.ofText, h]

theorem words_eq {f : SourceFile} (h : f.errors = []) :
    f.words = Lexeme.words (Lexeme.items f.text.toList) := by
  rw [errors_eq] at h
  simp [words, Lexeme.ofText, h]

theorem mem_items_of_mem_words {f : SourceFile} {l : Lexeme} (h : l ∈ f.words) :
    .ok l ∈ Lexeme.items f.text.toList := by
  have hne : f.errors = [] := by
    unfold errors
    unfold words at h
    split <;> simp_all
  rw [words_eq hne, Lexeme.words, List.mem_filterMap] at h
  obtain ⟨x, hx, hl⟩ := h
  cases x <;> simp_all [Except.toOption]

theorem mem_items_of_mem_errors {f : SourceFile} {e : LexError} (h : e ∈ f.errors) :
    .error e ∈ Lexeme.items f.text.toList := by
  rw [errors_eq, Lexeme.errors, List.mem_filterMap] at h
  obtain ⟨x, hx, he⟩ := h
  cases x <;> simp_all

end SourceFile

namespace Sources

/-- Some files, each with its name and its text, one behind the other. -/
def ofFiles (fs : List (String × String)) : Sources :=
  fs.foldl (fun s f => s.add f.1 f.2) .empty

theorem ofFiles_append_singleton (fs : List (String × String)) (f : String × String) :
    ofFiles (fs ++ [f]) = (ofFiles fs).add f.1 f.2 := by
  simp [ofFiles]

/-- The text in front of a file is empty or ends a line. -/
theorem closedText_closed (s : Sources) :
    s.closedText.toList = [] ∨ ∃ body, s.closedText.toList = body ++ ['\n'] := by
  unfold closedText
  split
  · case isTrue h =>
    rcases h with h | h
    · exact .inl (by simp [h])
    · obtain ⟨body, hbody⟩ := List.getLast?_eq_some_iff.1 h
      exact .inr ⟨body, hbody⟩
  · exact .inr ⟨s.text.toList, by simp⟩

theorem items_closedText (s : Sources) :
    Lexeme.items s.closedText.toList = Lexeme.items s.text.toList := by
  unfold closedText
  split
  · rfl
  · rw [String.toList_push, Lexeme.items_append_newline]

theorem size_le_closedText (s : Sources) : s.text.utf8ByteSize ≤ s.closedText.utf8ByteSize := by
  unfold closedText
  split
  · exact le_rfl
  · simp

/-- **Files in their places**: what is met in the combined text is what is met in the files, and the
files stand in their order without overlap. -/
structure IsLaid (s : Sources) : Prop where
  items_eq : Lexeme.items s.text.toList = s.files.flatMap SourceFile.placed
  pairwise : s.files.Pairwise fun f g => f.start + f.text.utf8ByteSize ≤ g.start
  stop_le : ∀ f ∈ s.files, f.start + f.text.utf8ByteSize ≤ s.text.utf8ByteSize
  getLast : ∀ f ∈ s.files.getLast?, f.start + f.text.utf8ByteSize = s.text.utf8ByteSize

/-- **One more file** leaves the others in their places. -/
theorem IsLaid.add {s : Sources} (h : s.IsLaid) (name text : String) :
    (s.add name text).IsLaid := by
  have hsize := s.size_le_closedText
  refine ⟨?_, ?_, fun f hf => ?_, fun f hf => ?_⟩
  · rw [text_add, String.toList_append, Lexeme.items_append s.closedText_closed, items_closedText,
      h.items_eq, byteLength_toList]
    simp [Sources.add, SourceFile.placed]
  · refine List.pairwise_append.2 ⟨h.pairwise, List.pairwise_singleton _ _, fun f hf g hg => ?_⟩
    rw [List.mem_singleton.1 hg]
    exact (h.stop_le f hf).trans hsize
  · rw [text_add, String.utf8ByteSize_append]
    rcases List.mem_append.1 hf with hf | hf
    · have := h.stop_le f hf
      omega
    · rw [List.mem_singleton.1 hf]
  · have hlast : (s.add name text).files.getLast?
        = some ⟨name, text, s.closedText.utf8ByteSize, s.closedText.toList.count '\n'⟩ :=
      List.getLast?_concat
    rw [hlast] at hf
    cases hf
    rw [text_add, String.utf8ByteSize_append]

theorem isLaid_ofFiles (fs : List (String × String)) : (ofFiles fs).IsLaid := by
  induction fs using List.reverseRecOn with
  | nil =>
      exact ⟨by simp [ofFiles, empty, Lexeme.items], .nil, by simp [ofFiles, empty],
        by simp [ofFiles, empty]⟩
  | append_singleton fs f ih =>
      rw [ofFiles_append_singleton]
      exact ih.add f.1 f.2

theorem files_ofFiles (fs : List (String × String)) :
    (ofFiles fs).files.map (fun f => (f.name, f.text)) = fs := by
  induction fs using List.reverseRecOn with
  | nil => rfl
  | append_singleton fs f ih => simp [ofFiles_append_singleton, add, ih]

/-! ### Places traced back -/

/-- **The file of a place** is the last one that starts at or before it. -/
theorem locateOffset_eq {s : Sources} {before after : List SourceFile} {f : SourceFile}
    {offset : Nat} (hfiles : s.files = before ++ f :: after) (hstart : f.start ≤ offset)
    (hstop : offset ≤ f.start + f.text.utf8ByteSize) (hafter : ∀ g ∈ after, offset < g.start) :
    s.locateOffset offset = some (before.length, offset - f.start) := by
  have hnone : (after.zipIdx (before.length + 1)).reverse.find?
      (fun x => decide (x.1.start ≤ offset)) = none := by
    rw [List.find?_eq_none]
    rintro ⟨g, k⟩ hg
    have := hafter g (List.fst_mem_of_mem_zipIdx (List.mem_reverse.1 hg))
    simpa using this
  have hfind : s.findLast? (fun g => g.start ≤ offset) = some (f, before.length) := by
    unfold findLast?
    rw [hfiles, List.zipIdx_append, List.zipIdx_cons, List.reverse_append, List.reverse_cons,
      List.append_assoc, List.find?_append]
    simp only [Nat.zero_add]
    rw [hnone]
    simp [hstart]
  unfold locateOffset
  rw [hfind]
  simp only [Option.some.injEq, Prod.mk.injEq, true_and]
  omega

variable {s : Sources}

/-- A place inside a file is traced back to it. -/
theorem IsLaid.locateOffset_inside (h : s.IsLaid) {k : Nat} {f : SourceFile}
    (hf : s.files[k]? = some f) {offset : Nat} (hoffset : offset < f.text.utf8ByteSize) :
    s.locateOffset (f.start + offset) = some (k, offset) := by
  obtain ⟨hk, rfl⟩ := List.getElem?_eq_some_iff.1 hf
  have hfiles : s.files = s.files.take k ++ s.files[k] :: s.files.drop (k + 1) := by simp
  have hpairwise := h.pairwise
  rw [hfiles, List.pairwise_append, List.pairwise_cons] at hpairwise
  have hafter : ∀ g ∈ s.files.drop (k + 1), s.files[k].start + offset < g.start := fun g hg => by
    have := hpairwise.2.1.1 g hg
    omega
  rw [locateOffset_eq hfiles (by omega) (by omega) hafter, List.length_take_of_le hk.le,
    Nat.add_sub_cancel_left]

/-- The end of the combined text is traced back to the end of the last file. -/
theorem IsLaid.locateOffset_end (h : s.IsLaid) {f : SourceFile} (hf : s.files.getLast? = some f) :
    s.locateOffset s.text.utf8ByteSize = some (s.files.length - 1, f.text.utf8ByteSize) := by
  obtain ⟨before, hfiles⟩ := List.getLast?_eq_some_iff.1 hf
  have hsize := h.getLast f hf
  rw [locateOffset_eq hfiles (by omega) hsize.ge (by simp), ← hsize, hfiles]
  simp

/-- What is met in a file is traced back to it. -/
theorem IsLaid.locateOffset_item (h : s.IsLaid) {k : Nat} {f : SourceFile}
    (hf : s.files[k]? = some f) {x : Except LexError Lexeme}
    (hx : x ∈ Lexeme.items f.text.toList) :
    s.locateOffset (f.start + (itemSpan x).start) = some (k, (itemSpan x).start) := by
  have hcut := Lexeme.cut_itemsFrom [] f.text.toList
  have hlt := hcut.start_lt_stop hx
  have hle := hcut.stop_le hx
  rw [List.nil_append, byteLength_toList] at hle
  exact h.locateOffset_inside hf (hlt.trans_le hle)

/-! ### Files read together -/

/-- **The combined text is read as the files are alone.** -/
structure IsIndependent (s : Sources) : Prop where
  /-- It has words exactly if every file has. -/
  exists_ok_iff : (∃ ls, Lexeme.ofText s.text = .ok ls) ↔
    ∀ f ∈ s.files, ∃ ls, Lexeme.ofText f.text = .ok ls
  /-- The words are those of the files in their order, and the end mark. -/
  ok_eq : ∀ ls, Lexeme.ofText s.text = .ok ls →
    ls = s.files.flatMap (fun f => f.words.map (Lexeme.moved f.start f.firstLine))
      ++ [Lexeme.endOf s.text.toList]
  /-- The errors are those of the files in their order. -/
  error_eq : ∀ es, Lexeme.ofText s.text = .error es →
    es = s.files.flatMap fun f => f.errors.map (LexError.moved f.start f.firstLine)
  /-- A word is traced back to its file, and to where it starts in the file alone. -/
  locate_word : ∀ k f, s.files[k]? = some f → ∀ l ∈ f.words,
    s.locateOffset (l.moved f.start f.firstLine).span.start = some (k, l.span.start)
  /-- So is an error. -/
  locate_error : ∀ k f, s.files[k]? = some f → ∀ e ∈ f.errors,
    s.locateOffset (e.moved f.start f.firstLine).span.start = some (k, e.span.start)
  /-- The end mark is traced back to the end of the last file. -/
  locate_end : ∀ f, s.files.getLast? = some f →
    s.locateOffset (Lexeme.endOf s.text.toList).span.start
      = some (s.files.length - 1, (Lexeme.endOf f.text.toList).span.start)

/-- What is met in the files, without their places, is what is met in the combined text. -/
theorem IsLaid.errors_eq (h : s.IsLaid) : Lexeme.errors (Lexeme.items s.text.toList)
    = s.files.flatMap fun f => f.errors.map (.moved f.start f.firstLine) := by
  rw [h.items_eq, Lexeme.errors, List.filterMap_flatMap]
  refine List.flatMap_congr fun f _ => ?_
  rw [SourceFile.errors_eq, ← Lexeme.errors_map_itemMoved]
  rfl

theorem IsLaid.words_eq (h : s.IsLaid) (hfiles : ∀ f ∈ s.files, f.errors = []) :
    Lexeme.words (Lexeme.items s.text.toList)
      = s.files.flatMap fun f => f.words.map (.moved f.start f.firstLine) := by
  rw [h.items_eq, Lexeme.words, List.filterMap_flatMap]
  refine List.flatMap_congr fun f hf => ?_
  rw [SourceFile.words_eq (hfiles f hf), ← Lexeme.words_map_itemMoved]
  rfl

theorem IsLaid.errors_eq_nil (h : s.IsLaid) :
    Lexeme.errors (Lexeme.items s.text.toList) = [] ↔ ∀ f ∈ s.files, f.errors = [] := by
  rw [h.errors_eq, List.flatMap_eq_nil_iff]
  simp only [List.map_eq_nil_iff]

theorem IsLaid.isIndependent (h : s.IsLaid) : s.IsIndependent where
  exists_ok_iff := by
    simp only [Lexeme.exists_ofText_eq_ok, h.errors_eq_nil, SourceFile.errors_eq]
  ok_eq ls hls := by
    have hnil := (Lexeme.exists_ofText_eq_ok s.text).1 ⟨ls, hls⟩
    rw [Lexeme.ofText, if_pos hnil, h.words_eq (h.errors_eq_nil.1 hnil)] at hls
    exact (Except.ok.inj hls).symm
  error_eq es hes := by
    have hne : Lexeme.errors (Lexeme.items s.text.toList) ≠ [] := fun hnil => by
      obtain ⟨ls, hls⟩ := (Lexeme.exists_ofText_eq_ok s.text).2 hnil
      rw [hes] at hls
      cases hls
    rw [Lexeme.ofText, if_neg hne, h.errors_eq] at hes
    exact (Except.error.inj hes).symm
  locate_word k f hf l hl := h.locateOffset_item hf (SourceFile.mem_items_of_mem_words hl)
  locate_error k f hf e he := h.locateOffset_item hf (SourceFile.mem_items_of_mem_errors he)
  locate_end f hf := by
    rw [Lexeme.span_endOf, Lexeme.span_endOf]
    simpa only [Span.behind, byteLength_toList] using h.locateOffset_end hf

/-- **Files are read alone and together alike**, whatever files they are. -/
theorem isIndependent_ofFiles (fs : List (String × String)) :
    (ofFiles fs).files.map (fun f => (f.name, f.text)) = fs ∧ (ofFiles fs).IsIndependent :=
  ⟨files_ofFiles fs, (isLaid_ofFiles fs).isIndependent⟩

end Sources

end StackLang
