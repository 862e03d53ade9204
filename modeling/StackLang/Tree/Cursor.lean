/-
**A cursor over tokens.**

The words of a text with a place among them.  There is always a current word: the last one is the
end mark, and the cursor never moves past it.

Main definitions:

* `Cursor` — the current word and those after it;
* `Cursor.ofLexemes` — the cursor at the first of some words, an end mark added where it is missing;
* `Cursor.advance` — the cursor one word further.
-/

import StackLang.Token.Lexer

set_option relaxedAutoImplicit false
set_option autoImplicit false

namespace StackLang

/-- A place among words. -/
structure Cursor where
  /-- The current word. -/
  current : Lexeme
  /-- The words after it. -/
  rest : List Lexeme
deriving DecidableEq, Repr

namespace Cursor

/-- The words with an end mark at the end: one that is missing stands directly after the last
word. -/
def close (ls : List Lexeme) : List Lexeme :=
  match ls.getLast? with
  | none => [⟨.eof, ⟨0, 0, 1, 1⟩⟩]
  | some l => if l.token = .eof then ls else ls ++ [⟨.eof, l.span.atEnd⟩]

/-- The cursor at the first of some words. -/
def ofLexemes (ls : List Lexeme) : Cursor :=
  match close ls with
  | [] => ⟨⟨.eof, ⟨0, 0, 1, 1⟩⟩, []⟩
  | l :: rest => ⟨l, rest⟩

/-- The current word and those after it. -/
def lexemes (c : Cursor) : List Lexeme := c.current :: c.rest

/-- The word after the current one. -/
def peek? (c : Cursor) : Option Token := c.rest.head?.map Lexeme.token

/-- The cursor one word further; at the last word it stays. -/
def advance (c : Cursor) : Cursor :=
  match c.rest with
  | [] => c
  | l :: rest => ⟨l, rest⟩

/-- Whether the current word is an end mark. -/
def atEnd (c : Cursor) : Bool := c.current.token = .eof

/-- Whether the current word is like `t`, up to the value that it carries. -/
def check (t : Token) (c : Cursor) : Bool := c.current.token.sameKind t

theorem close_ne_nil (ls : List Lexeme) : close ls ≠ [] := by
  unfold close
  split
  · simp
  · split
    · rintro rfl; simp_all
    · simp

end Cursor

end StackLang
