/-
**A text in pieces.**

The words and the errors of a text lie one behind the other, each where its span says, and nothing
lies between them but blanks and comments.  The place is carried along over all of this, over words
of one byte and errors of many characters alike; that it counts lines and columns is true of every
place, so only the order of the pieces needs an induction.

Main definitions:

* `IsGap` — text without words: blanks, and comments up to the ends of their lines;
* `Cut` — a text in pieces, with the words and the errors among them;
* `IsPartition` — the words and the errors of a text cover it, but for gaps.

Main results:

* `Lexeme.cut_itemsFrom` — every text is cut into pieces;
* `Lexeme.isPartition_ofText` — what is made of a text covers it, but for gaps.
-/

import StackLang.Proofs.Source.Places
import StackLang.Proofs.Token.Scan

set_option relaxedAutoImplicit false
set_option autoImplicit false

namespace StackLang

/-! ### Text without words -/

/-- **Text without words**, in front of `rest`: blanks, and comments up to the ends of their
lines. -/
inductive IsGap (rest : List Char) : List Char → Prop
  | nil : IsGap rest []
  | blank {c : Char} {gap : List Char} (hc : Piece.isSkipped c) (hgap : IsGap rest gap) :
      IsGap rest (c :: gap)
  | comment {cs gap : List Char} (hcs : '\n' ∉ cs) (hend : ∀ c ∈ (gap ++ rest).head?, c = '\n')
      (hgap : IsGap rest gap) : IsGap rest ('/' :: '/' :: (cs ++ gap))

theorem IsGap.append {skip gap rest : List Char} (h : IsGap (gap ++ rest) skip)
    (hgap : IsGap rest gap) : IsGap rest (skip ++ gap) := by
  induction h with
  | nil => exact hgap
  | blank hc _ ih => exact .blank hc ih
  | @comment cs ds hcs hend _ ih =>
      rw [List.cons_append, List.cons_append, List.append_assoc]
      exact .comment hcs (by rwa [List.append_assoc]) ih

theorem isGap_of_blanks {cs rest : List Char} (h : ∀ c ∈ cs, Piece.isSkipped c) :
    IsGap rest cs := by
  induction cs with
  | nil => exact .nil
  | cons c cs ih =>
      rw [List.forall_mem_cons] at h
      exact .blank h.1 (ih h.2)

/-- **A piece that is skipped** is text without words. -/
theorem Piece.isGap_of_skipped {c : Char} {cs : List Char} (h : (scan c cs).1 = skipped) :
    IsGap (cs.drop (scan c cs).2) (c :: cs.take (scan c cs).2) := by
  rcases skipped_cases h with ⟨hc, hn⟩ | ⟨rfl, hhead, hn⟩
  · rw [hn, take_length_takeWhile]
    refine isGap_of_blanks fun d hd => ?_
    rcases List.mem_cons.1 hd with rfl | hd
    · exact hc
    · exact List.mem_takeWhile_imp hd
  · obtain ⟨ds, rfl⟩ := List.head?_eq_some_iff.1 hhead
    rw [hn, take_length_takeWhile, drop_length_takeWhile, List.takeWhile_cons_of_pos (by decide),
      List.dropWhile_cons_of_pos (by decide)]
    have hcs : '\n' ∉ ds.takeWhile (· ≠ '\n') := fun hmem => by
      simpa using List.mem_takeWhile_imp hmem
    have hend : ∀ d ∈ (ds.dropWhile (· ≠ '\n')).head?, d = '\n' := by
      intro d hd
      have := List.head?_dropWhile_not (· ≠ '\n') ds
      rw [Option.mem_def.1 hd] at this
      simpa using this
    have hgap : IsGap (ds.dropWhile (· ≠ '\n')) ('/' :: '/' :: (ds.takeWhile (· ≠ '\n') ++ [])) :=
      .comment hcs (by simpa using hend) .nil
    simpa using hgap

/-! ### Pieces one behind the other -/

/-- The span of a word or of an error. -/
def itemSpan : Except LexError Lexeme → Span
  | .ok l => l.span
  | .error e => e.span

/-- The characters `word` are the word `t`, and no others are needed to tell so. -/
def IsWordOf (t : Token) (word : List Char) : Prop :=
  (Lexeme.ofText (String.ofList word)).map (List.map Lexeme.token) = .ok [t, .eof]

/-- **A text in pieces**: the text behind `before`, with its words and its errors. -/
inductive Cut : List Char → List Char → List (Except LexError Lexeme) → Prop
  | stop {before gap : List Char} (hgap : IsGap [] gap) : Cut before gap []
  | item {before gap word rest : List Char} {x : Except LexError Lexeme}
      {items : List (Except LexError Lexeme)} (hgap : IsGap (word ++ rest) gap) (hword : word ≠ [])
      (hspan : itemSpan x = .behind (before ++ gap) word)
      (halone : ∀ l, x = .ok l → IsWordOf l.token word)
      (hrest : Cut (before ++ gap ++ word) rest items) :
      Cut before (gap ++ (word ++ rest)) (x :: items)

theorem Cut.skip {before gap rest : List Char} {items : List (Except LexError Lexeme)}
    (hgap : IsGap rest gap) (h : Cut (before ++ gap) rest items) :
    Cut before (gap ++ rest) items := by
  cases h with
  | stop hrest => exact .stop (IsGap.append (by simpa using hgap) hrest)
  | @item _ gap' word rest' x items hgap' hword hspan halone hrest =>
      rw [← List.append_assoc]
      refine .item (hgap.append hgap') hword ?_ halone ?_
      · rwa [← List.append_assoc]
      · rwa [← List.append_assoc before]

theorem Cut.word {before word rest : List Char} {x : Except LexError Lexeme}
    {items : List (Except LexError Lexeme)} (hword : word ≠ [])
    (hspan : itemSpan x = .behind before word) (halone : ∀ l, x = .ok l → IsWordOf l.token word)
    (hrest : Cut (before ++ word) rest items) : Cut before (word ++ rest) (x :: items) := by
  have h := Cut.item .nil hword (by simpa using hspan) halone
    (by simpa using hrest)
  simpa using h

namespace Lexeme

/-- A piece that is a word is the only word of its text. -/
theorem isWordOf_scan {c : Char} {cs : List Char} {t : Token} {n : Nat}
    (h : Piece.scan c cs = (.word t, n)) : IsWordOf t (c :: cs.take n) := by
  have hitems : items (c :: cs.take n)
      = [.ok ⟨t, .between .start (Position.start.advance (c :: cs.take n))⟩] := by
    rw [items, itemsFrom_cons, Piece.scan_take h]
    simp [Piece.item?, List.take_of_length_le, List.drop_of_length_le]
  unfold IsWordOf ofText
  rw [String.toList_ofList, hitems]
  rfl

/-- **Every text is cut into pieces**: each starts where the one before it stopped. -/
theorem cut_itemsFrom (before cs : List Char) :
    Cut before cs (itemsFrom (Position.start.advance before) cs) := by
  induction hn : cs.length using Nat.strong_induction_on generalizing before cs with
  | _ n ih =>
      cases cs with
      | nil =>
          rw [itemsFrom_nil]
          exact .stop .nil
      | cons c cs =>
          subst hn
          rw [itemsFrom_cons, ← Position.advance_append]
          have hsplit : c :: cs
              = c :: cs.take (Piece.scan c cs).2 ++ cs.drop (Piece.scan c cs).2 := by simp
          have hrest := ih _ (by simp) (before ++ c :: cs.take (Piece.scan c cs).2)
            (cs.drop (Piece.scan c cs).2) rfl
          have hspan := Span.between_advance before (c :: cs.take (Piece.scan c cs).2)
          rw [← Position.advance_append] at hspan
          rw [hsplit]
          cases hpiece : (Piece.scan c cs).1 with
          | skipped => exact hrest.skip (Piece.isGap_of_skipped hpiece)
          | word t =>
              refine .word (by simp) hspan ?_ hrest
              rintro l ⟨rfl⟩
              exact isWordOf_scan (Prod.ext hpiece rfl)
          | fault cause => exact .word (by simp) hspan (by rintro l ⟨⟩) hrest

end Lexeme

/-! ### The order of the pieces -/

/-- Between the stretches `s` and `t` of a text, in this order, stands text without words. -/
def GapBetween (text : List Char) (s t : Span) : Prop :=
  ∃ before gap rest, text = before ++ (gap ++ rest) ∧ s.stop = byteLength before ∧
    t.start = byteLength before + byteLength gap ∧ IsGap rest gap

namespace Cut

variable {before rest : List Char} {items : List (Except LexError Lexeme)}

/-- **Where each item stands**, and that a word is told from its own characters. -/
theorem exists_item (h : Cut before rest items) {x : Except LexError Lexeme} (hx : x ∈ items) :
    ∃ front word after, rest = front ++ (word ++ after) ∧ word ≠ [] ∧
      itemSpan x = .behind (before ++ front) word ∧ ∀ l, x = .ok l → IsWordOf l.token word := by
  induction h with
  | stop hgap => cases hx
  | @item before gap word rest y items hgap hword hspan halone hrest ih =>
      rcases List.mem_cons.1 hx with rfl | hx
      · exact ⟨gap, word, rest, rfl, hword, hspan, halone⟩
      · obtain ⟨front, word', after, rfl, hword', hspan', halone'⟩ := ih hx
        exact ⟨gap ++ (word ++ front), word', after, by simp, hword', by simpa using hspan',
          halone'⟩

theorem start_lt_stop (h : Cut before rest items) {x : Except LexError Lexeme} (hx : x ∈ items) :
    (itemSpan x).start < (itemSpan x).stop := by
  obtain ⟨front, word, after, -, hword, hspan, -⟩ := h.exists_item hx
  have := byteLength_pos hword
  rw [hspan]
  simp only [Span.behind]
  omega

theorem le_start (h : Cut before rest items) {x : Except LexError Lexeme} (hx : x ∈ items) :
    byteLength before ≤ (itemSpan x).start := by
  obtain ⟨front, word, after, -, -, hspan, -⟩ := h.exists_item hx
  rw [hspan]
  simp [Span.behind]

theorem stop_le (h : Cut before rest items) {x : Except LexError Lexeme} (hx : x ∈ items) :
    (itemSpan x).stop ≤ byteLength (before ++ rest) := by
  obtain ⟨front, word, after, rfl, -, hspan, -⟩ := h.exists_item hx
  rw [hspan]
  simp only [Span.behind, byteLength_append]
  omega

/-- **No item starts before one in front of it has stopped.** -/
theorem pairwise (h : Cut before rest items) :
    (items.map itemSpan).Pairwise fun s t => s.stop ≤ t.start := by
  induction h with
  | stop hgap => exact .nil
  | @item before gap word rest y items hgap hword hspan halone hrest ih =>
      refine .cons (fun t ht => ?_) ih
      obtain ⟨x, hx, rfl⟩ := List.mem_map.1 ht
      have hstop : (itemSpan y).stop = byteLength (before ++ gap ++ word) := by
        simp [hspan, Span.behind, Nat.add_assoc]
      exact hstop ▸ hrest.le_start hx

/-- **From an item to the next**, and from the last one to the end, stands text without words. -/
theorem isChain {stop : Span} (h : Cut before rest items)
    (hstop : stop.start = byteLength (before ++ rest)) {s : Span}
    (hs : s.stop = byteLength before) :
    (s :: (items.map itemSpan ++ [stop])).IsChain (GapBetween (before ++ rest)) := by
  induction h generalizing s with
  | @stop before gap hgap =>
      rw [byteLength_append] at hstop
      exact .cons_cons ⟨before, gap, [], by simp, hs, hstop, hgap⟩ (.singleton _)
  | @item before gap word rest y items hgap hword hspan halone hrest ih =>
      rw [← List.append_assoc, ← List.append_assoc] at hstop
      refine .cons_cons ⟨before, gap, word ++ rest, rfl, hs, by simp [hspan, Span.behind], hgap⟩ ?_
      simpa using ih hstop (by simp [hspan, Span.behind, Nat.add_assoc])

end Cut

/-! ### The text as a whole -/

/-- **The words and the errors of a text, with its end mark, cover it** but for text without
words. -/
structure IsPartition (text : String) (items : List (Except LexError Lexeme)) (stop : Lexeme) :
    Prop where
  /-- No word and no error is empty. -/
  start_lt_stop : ∀ x ∈ items, (itemSpan x).start < (itemSpan x).stop
  /-- They do not overlap, and stand in the order of the text. -/
  pairwise : (items.map itemSpan ++ [stop.span]).Pairwise fun s t => s.stop ≤ t.start
  /-- From the start of the text to its end, only blanks and comments stand between them. -/
  isChain : (⟨0, 0, 1, 1⟩ :: (items.map itemSpan ++ [stop.span])).IsChain (GapBetween text.toList)
  /-- Their lines and their columns are those that counting gives. -/
  behind : ∀ s ∈ items.map itemSpan ++ [stop.span], ∃ before word after,
    text.toList = before ++ (word ++ after) ∧ s = .behind before word
  /-- The end mark stands at the end, and covers nothing. -/
  atEnd : stop.token = .eof ∧ stop.span.start = text.utf8ByteSize ∧
    stop.span.stop = text.utf8ByteSize
  /-- Each word is the only word of the text that it covers. -/
  alone : ∀ l, .ok l ∈ items →
    (Lexeme.ofText (l.span.slice text)).map (List.map Lexeme.token) = .ok [l.token, .eof]

namespace Lexeme

theorem span_endOf (cs : List Char) : (endOf cs).span = .behind cs [] :=
  Span.between_advance cs []

/-- Items without an error are words. -/
theorem eq_map_words {items : List (Except LexError Lexeme)} (h : errors items = []) :
    items = (words items).map .ok := by
  induction items with
  | nil => rfl
  | cons x items ih =>
      cases x with
      | ok l => exact congrArg _ (ih h)
      | error e => cases h

/-- What is made of a text is the words among its items, or the errors if there is any. -/
theorem ofText_cases (text : String) :
    (∃ ls, ofText text = .ok (ls ++ [endOf text.toList]) ∧ items text.toList = ls.map .ok) ∨
      ofText text = .error (errors (items text.toList)) ∧ errors (items text.toList) ≠ [] := by
  unfold ofText
  by_cases h : errors (items text.toList) = []
  · exact .inl ⟨words (items text.toList), if_pos h, eq_map_words h⟩
  · exact .inr ⟨if_neg h, h⟩

/-- **What is met in a text covers it** but for text without words, and it is handed on: the words
with the end mark if there is nothing else, and all the errors if there is any. -/
theorem isPartition_ofText (text : String) :
    IsPartition text (items text.toList) (endOf text.toList) ∧
      ((∃ ls, ofText text = .ok (ls ++ [endOf text.toList]) ∧
          items text.toList = ls.map .ok) ∨
        ofText text = .error (errors (items text.toList)) ∧
          errors (items text.toList) ≠ []) := by
  have hcut : Cut [] text.toList (items text.toList) := cut_itemsFrom [] text.toList
  have hend := span_endOf text.toList
  have hsize := byteLength_toList text
  refine ⟨⟨fun x => hcut.start_lt_stop, ?_, ?_, fun s hs => ?_, ?_, fun l hl => ?_⟩,
    ofText_cases text⟩
  · refine List.pairwise_append.2 ⟨hcut.pairwise, List.pairwise_singleton _ _, fun s hs t ht => ?_⟩
    obtain ⟨x, hx, rfl⟩ := List.mem_map.1 hs
    rw [List.mem_singleton.1 ht, hend]
    exact hcut.stop_le hx
  · exact hcut.isChain (by rw [hend]; rfl) rfl
  · rcases List.mem_append.1 hs with hs | hs
    · obtain ⟨x, hx, rfl⟩ := List.mem_map.1 hs
      obtain ⟨front, word, after, htext, -, hspan, -⟩ := hcut.exists_item hx
      exact ⟨front, word, after, htext, hspan⟩
    · rw [List.mem_singleton.1 hs]
      exact ⟨text.toList, [], [], by simp, hend⟩
  · rw [hend]
    simp [endOf, Span.behind, hsize]
  · obtain ⟨front, word, after, htext, -, hspan, halone⟩ := hcut.exists_item hl
    have hslice : l.span.slice text = String.ofList word := by
      rw [← String.ofList_toList (s := text), htext, ← Span.slice_behind front word after]
      exact congrArg (Span.slice · _) hspan
    rw [hslice]
    exact halone l rfl

end Lexeme

end StackLang
