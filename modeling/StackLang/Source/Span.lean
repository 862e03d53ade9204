/-
**Positions and spans.**

A position in a source text is a byte offset in its UTF-8 form together with a line and a column,
both counted from one.  Only a line feed ends a line, and every other character takes one column.  A
span is the stretch between two positions; it keeps the line and the column of its start.

Main definitions:

* `Position` and `Position.advance` — a place in the text, and the place after some characters;
* `Span`, `Span.merge` — a stretch of the text, and the least stretch that covers two.
-/

set_option relaxedAutoImplicit false
set_option autoImplicit false

namespace StackLang

/-! ### Positions -/

/-- The number of bytes that the characters take in UTF-8. -/
def byteLength : List Char → Nat
  | [] => 0
  | c :: cs => c.utf8Size + byteLength cs

@[simp] theorem byteLength_nil : byteLength [] = 0 := rfl

@[simp] theorem byteLength_cons (c : Char) (cs : List Char) :
    byteLength (c :: cs) = c.utf8Size + byteLength cs := rfl

@[simp] theorem byteLength_append (cs ds : List Char) :
    byteLength (cs ++ ds) = byteLength cs + byteLength ds := by
  induction cs with
  | nil => simp
  | cons c cs ih => simp [ih, Nat.add_assoc]

/-- A place in a source text. -/
structure Position where
  /-- Bytes before the place. -/
  offset : Nat
  /-- Line, counted from one. -/
  line : Nat
  /-- Column in characters, counted from one. -/
  column : Nat
deriving DecidableEq, Repr, Inhabited

namespace Position

/-- The first place of a text. -/
def start : Position := ⟨0, 1, 1⟩

/-- The place after one character. -/
def next (p : Position) (c : Char) : Position :=
  if c = '\n' then ⟨p.offset + c.utf8Size, p.line + 1, 1⟩
  else ⟨p.offset + c.utf8Size, p.line, p.column + 1⟩

/-- The place after some characters. -/
def advance (p : Position) (cs : List Char) : Position := cs.foldl next p

@[simp] theorem advance_nil (p : Position) : p.advance [] = p := rfl

@[simp] theorem advance_cons (p : Position) (c : Char) (cs : List Char) :
    p.advance (c :: cs) = (p.next c).advance cs := rfl

theorem advance_append (p : Position) (cs ds : List Char) :
    p.advance (cs ++ ds) = (p.advance cs).advance ds := by
  simp [advance]

@[simp] theorem offset_next (p : Position) (c : Char) :
    (p.next c).offset = p.offset + c.utf8Size := by
  unfold next; split <;> rfl

/-- Advancing moves the offset by the bytes passed. -/
theorem offset_advance (p : Position) (cs : List Char) :
    (p.advance cs).offset = p.offset + byteLength cs := by
  induction cs generalizing p with
  | nil => rfl
  | cons c cs ih => simp [ih, Nat.add_assoc]

end Position

/-! ### Spans -/

/-- A stretch of a source text. -/
structure Span where
  /-- Offset of the first byte. -/
  start : Nat
  /-- Offset one past the last byte. -/
  stop : Nat
  /-- Line of the start, counted from one. -/
  line : Nat
  /-- Column of the start, counted from one. -/
  column : Nat
deriving DecidableEq, Repr, Inhabited

namespace Span

/-- The stretch between two places. -/
def between (p q : Position) : Span := ⟨p.offset, q.offset, p.line, p.column⟩

/-- The empty stretch at the end of a stretch, shown at the start of that stretch. -/
def atEnd (s : Span) : Span := ⟨s.stop, s.stop, s.line, s.column⟩

/-- The bytes covered. -/
def length (s : Span) : Nat := s.stop - s.start

/-- Whether nothing is covered. -/
def isEmpty (s : Span) : Bool := s.start = s.stop

/-- The least span that covers both.  Line and column are those of the one that starts first, and of
the first one when both start together. -/
def merge (s t : Span) : Span :=
  let first := if s.start ≤ t.start then s else t
  ⟨min s.start t.start, max s.stop t.stop, first.line, first.column⟩

/-- The characters covered, when both ends fall between two characters of the text. -/
def slice (s : Span) (text : String) : String :=
  (text.toList.foldl (fun (acc : Nat × List Char) (c : Char) =>
    (acc.1 + c.utf8Size, if s.start ≤ acc.1 ∧ acc.1 < s.stop then c :: acc.2 else acc.2))
    (0, [])).2.reverse |> String.ofList

/-- Line and column, as they stand in messages. -/
def text (s : Span) : String := s!"{s.line}:{s.column}"

end Span

end StackLang
