/-
**Places in a text.**

A place is carried along character by character, and yet it can be told from the text before it: its
line is one more than the line feeds there, and its column one more than the characters behind the
last of them.  A span covers what stands between its two ends.

Main definitions:

* `Span.behind` — the span of a word behind a text, by counting;
* `Position.moved`, `Span.moved` — the same place with whole lines before the text.

Main results:

* `Span.between_advance` — the span from a place to a later one, by counting;
* `Span.slice_behind` — what a span covers;
* `Position.advance_closed` — the place behind whole lines.
-/

import StackLang.Source.Span
import Mathlib

set_option relaxedAutoImplicit false
set_option autoImplicit false

namespace StackLang

/-! ### Lengths -/

theorem byteLength_toList (text : String) : byteLength text.toList = text.utf8ByteSize := by
  have hlen : ∀ cs : List Char, byteLength cs = String.utf8Len cs := by
    intro cs
    induction cs with
    | nil => rfl
    | cons c cs ih => rw [byteLength_cons, ih, String.utf8Len, Nat.add_comm]
  rw [hlen, ← String.utf8ByteSize_ofList, String.ofList_toList]

theorem byteLength_pos {cs : List Char} (h : cs ≠ []) : 0 < byteLength cs := by
  obtain ⟨c, cs, rfl⟩ := List.exists_cons_of_ne_nil h
  have := c.utf8Size_pos
  rw [byteLength_cons]
  omega

/-! ### Lines and columns -/

namespace Position

theorem line_advance (p : Position) (cs : List Char) :
    (p.advance cs).line = p.line + cs.count '\n' := by
  induction cs generalizing p with
  | nil => rfl
  | cons c cs ih =>
      rw [advance_cons, ih, List.count_cons, next]
      by_cases hc : c = '\n'
      · simp only [hc, ↓reduceIte, BEq.rfl]
        omega
      · simp [hc]

/-- The column counts the characters behind the last line feed. -/
theorem column_advance (cs : List Char) :
    (start.advance cs).column = 1 + (cs.rtakeWhile (· ≠ '\n')).length := by
  -- only the last character matters, so the induction goes from the end
  induction cs using List.reverseRecOn with
  | nil => rfl
  | append_singleton cs c ih =>
      rw [advance_append, advance_cons, advance_nil, List.rtakeWhile_concat, next]
      by_cases hc : c = '\n'
      · simp [hc]
      · simp [hc, ih, Nat.add_assoc]

end Position

namespace Span

/-- The span of `word` behind the text `before`, by counting. -/
def behind (before word : List Char) : Span where
  start := byteLength before
  stop := byteLength before + byteLength word
  line := 1 + before.count '\n'
  column := 1 + (before.rtakeWhile (· ≠ '\n')).length

/-- **The span from a place to a later one** has the line and the column of the first by
counting. -/
theorem between_advance (before word : List Char) :
    between (Position.start.advance before) ((Position.start.advance before).advance word)
      = behind before word := by
  rw [between, Position.line_advance, Position.column_advance]
  simp [behind, Position.start, Position.offset_advance]

/-! ### What a span covers -/

/-- One character more, with the bytes before it: it is kept if the span covers it. -/
def pick (s : Span) (acc : Nat × List Char) (c : Char) : Nat × List Char :=
  (acc.1 + c.utf8Size, if s.start ≤ acc.1 ∧ acc.1 < s.stop then c :: acc.2 else acc.2)

theorem slice_eq_foldl (s : Span) (text : String) :
    s.slice text = String.ofList (text.toList.foldl s.pick (0, [])).2.reverse := rfl

section Pick

variable {s : Span} {n : Nat} {cs kept : List Char}

theorem foldl_pick_before (h : n + byteLength cs ≤ s.start) :
    cs.foldl s.pick (n, kept) = (n + byteLength cs, kept) := by
  induction cs generalizing n with
  | nil => rfl
  | cons c cs ih =>
      have := c.utf8Size_pos
      rw [byteLength_cons] at h
      rw [List.foldl_cons, pick, if_neg (by omega), ih (by simp only; omega)]
      simp [Nat.add_assoc]

theorem foldl_pick_inside (hstart : s.start ≤ n) (hstop : n + byteLength cs ≤ s.stop) :
    cs.foldl s.pick (n, kept) = (n + byteLength cs, cs.reverse ++ kept) := by
  induction cs generalizing n kept with
  | nil => rfl
  | cons c cs ih =>
      have := c.utf8Size_pos
      rw [byteLength_cons] at hstop
      rw [List.foldl_cons, pick, if_pos (by simp only; omega),
        ih (by simp only; omega) (by simp only; omega)]
      simp [Nat.add_assoc]

theorem foldl_pick_behind (h : s.stop ≤ n) :
    cs.foldl s.pick (n, kept) = (n + byteLength cs, kept) := by
  induction cs generalizing n with
  | nil => rfl
  | cons c cs ih =>
      rw [List.foldl_cons, pick, if_neg (by simp only; omega), ih (by simp only; omega)]
      simp [Nat.add_assoc]

end Pick

/-- **A span covers what stands between its ends.** -/
theorem slice_behind (before word rest : List Char) :
    (behind before word).slice (String.ofList (before ++ (word ++ rest))) = String.ofList word := by
  have hbefore : before.foldl (behind before word).pick (0, []) = (0 + byteLength before, []) :=
    foldl_pick_before (by simp [behind])
  have hword : word.foldl (behind before word).pick (byteLength before, [])
      = (byteLength before + byteLength word, word.reverse ++ []) :=
    foldl_pick_inside le_rfl le_rfl
  rw [slice_eq_foldl, String.toList_ofList, List.foldl_append, List.foldl_append, hbefore,
    Nat.zero_add, hword, foldl_pick_behind (by simp [behind])]
  simp

end Span

/-! ### Lines before the text -/

/-- The place when `bytes` bytes in `lines` whole lines stand before the text. -/
def Position.moved (bytes lines : Nat) (p : Position) : Position :=
  ⟨bytes + p.offset, lines + p.line, p.column⟩

/-- The span when `bytes` bytes in `lines` whole lines stand before the text. -/
def Span.moved (bytes lines : Nat) (s : Span) : Span :=
  ⟨bytes + s.start, bytes + s.stop, lines + s.line, s.column⟩

namespace Position

variable {bytes lines : Nat}

theorem moved_advance (p : Position) (cs : List Char) :
    (p.moved bytes lines).advance cs = (p.advance cs).moved bytes lines := by
  induction cs generalizing p with
  | nil => rfl
  | cons c cs ih =>
      have hnext : (p.moved bytes lines).next c = (p.next c).moved bytes lines := by
        unfold next
        split <;> simp [moved, Nat.add_assoc]
      rw [advance_cons, advance_cons, hnext, ih]

/-- **The place behind whole lines** is the start of a text that they stand before. -/
theorem advance_closed (cs : List Char) :
    start.advance (cs ++ ['\n'])
      = start.moved (byteLength (cs ++ ['\n'])) ((cs ++ ['\n']).count '\n') := by
  have hcolumn : (start.advance (cs ++ ['\n'])).column = 1 := by
    rw [column_advance, List.rtakeWhile_concat]
    simp
  have hoffset := offset_advance start (cs ++ ['\n'])
  have hline := line_advance start (cs ++ ['\n'])
  generalize start.advance (cs ++ ['\n']) = p at *
  cases p
  simp_all [moved, start, Nat.add_comm]

end Position

end StackLang
