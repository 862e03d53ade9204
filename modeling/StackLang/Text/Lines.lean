/-
**Splitting a text into lines.**

A line ends at a line feed, and a carriage return directly before the line feed belongs to the end
of the line.  A text that ends with a line feed has no further, empty line after it.

Main definitions:

* `Text.pieces` — the parts of a text between line feeds;
* `Text.lines` — the lines of a text.
-/

set_option relaxedAutoImplicit false
set_option autoImplicit false

namespace StackLang

namespace Text

/-- The parts between line feeds: one more than there are line feeds. -/
def pieces : List Char → List (List Char)
  | [] => [[]]
  | '\n' :: cs => [] :: pieces cs
  | c :: cs =>
    match pieces cs with
    | [] => [[c]]
    | p :: ps => (c :: p) :: ps

/-- The text without one carriage return at its end. -/
def dropReturn (cs : List Char) : List Char :=
  if cs.getLast? = some '\r' then cs.dropLast else cs

/-- The lines, from the parts between line feeds: every part but the last was ended by a line feed
and loses its carriage return; the last part is a line unless it is empty. -/
def linesOfPieces : List (List Char) → List (List Char)
  | [] => []
  | [p] => if p = [] then [] else [p]
  | p :: ps => dropReturn p :: linesOfPieces ps

/-- The lines of a text, without their line ends. -/
def lines (cs : List Char) : List (List Char) := linesOfPieces (pieces cs)

/-- A text has at least one part. -/
theorem pieces_ne_nil (cs : List Char) : pieces cs ≠ [] := by
  fun_cases pieces cs <;> simp_all

end Text

end StackLang
