/-
**From text to tokens.**

A text is cut into pieces from left to right: blanks and comments, words, and pieces that are no
word.  Each piece starts where the last one stopped and takes at least one character, so nothing is
lost and nothing is read twice.  A piece that is no word is reported and the cut goes on after it,
so that all of them are reported together.

Main definitions:

* `Piece` — what a piece is;
* `Piece.scan` — the piece at the front of a text and its length;
* `LexError` — a piece that is no word;
* `Lexeme.items` — the words and the errors of a text in order;
* `Lexeme.ofText` — the words of a text with the end mark, or all its errors.
-/

import StackLang.Token.Basic

set_option relaxedAutoImplicit false
set_option autoImplicit false

namespace StackLang

/-! ### Errors -/

/-- Why a piece of the text is no word. -/
inductive LexCause where
  | unexpectedCharacter (c : Char)
  | invalidNumber (text : String)
  | unterminatedString
  | invalidCharLiteral
deriving DecidableEq, Repr

/-- A piece of the text that is no word. -/
structure LexError where
  cause : LexCause
  span : Span
deriving DecidableEq, Repr

namespace LexCause

/-- The description of the fault, without its place. -/
def text : LexCause → String
  | unexpectedCharacter c => "unexpected character '" ++ c.toString ++ "'"
  | invalidNumber s => "invalid number '" ++ s ++ "'"
  | unterminatedString => "unterminated string"
  | invalidCharLiteral => "invalid character literal"

end LexCause

namespace LexError

/-- The description of the fault with its place. -/
def message (e : LexError) : String := e.cause.text ++ " at " ++ e.span.text

end LexError

/-! ### Pieces -/

/-- What a piece of the text is. -/
inductive Piece where
  /-- Blanks or a comment. -/
  | skipped
  /-- A word. -/
  | word (t : Token)
  /-- No word. -/
  | fault (cause : LexCause)
deriving DecidableEq, Repr

namespace Piece

/-- The blanks between words. -/
def isSkipped (c : Char) : Bool :=
  c = ' ' || c = '\t' || c = '\r' || c = '\n' || c = '\x0c'

/-- The characters of a number. -/
def isNumeric (c : Char) : Bool := c.isDigit || c = '.'

/-- The characters that start a name. -/
def isNameStart (c : Char) : Bool := c.isAlpha || c = '_'

/-- The characters inside a name. -/
def isNamePart (c : Char) : Bool := c.isAlphanum || c = '_'

/-- The integer that a run of digits stands for. -/
def natOfDigits (cs : List Char) : Nat := cs.foldl (fun n c => 10 * n + (c.toNat - '0'.toNat)) 0

/-- A run of digits and dots: only digits is an integer, which must fit in 31 bits; digits, one dot
and at least one digit is a float, and the digits before the dot may be missing. -/
def ofNumber (cs : List Char) : Piece :=
  let whole := cs.takeWhile Char.isDigit
  match cs.dropWhile Char.isDigit with
  | [] =>
    if natOfDigits whole < 0x80000000 then word (.intLiteral (Int32.ofNat (natOfDigits whole)))
    else fault (.invalidNumber (String.ofList cs))
  | _ :: places =>
    if places ≠ [] ∧ places.all Char.isDigit then
      word (.floatLiteral (Binary32.ofDecimal (natOfDigits (whole ++ places)) places.length))
    else fault (.invalidNumber (String.ofList cs))

/-- A keyword or a name. -/
def ofName (cs : List Char) : Piece :=
  let name := String.ofList cs
  word ((Token.keyword? name).getD (.identifier name))

/-- The character that a backslash before `c` stands for. -/
def unescape (c : Char) : Char :=
  if c = 'n' then '\n' else if c = 'r' then '\r' else if c = 't' then '\t'
  else if c = '0' then '\x00' else c

/-- The items of a string after its opening quote. -/
structure StringBody where
  /-- Characters passed, with the closing quote if there is one. -/
  length : Nat
  /-- The characters that the items stand for. -/
  content : List Char
  /-- Whether the closing quote was found. -/
  closed : Bool

/-- Reads items up to the closing quote.  An item is a character other than a quote, a backslash and
a line feed, or a backslash and any character but a line feed. -/
def stringBody : List Char → StringBody
  | [] => ⟨0, [], false⟩
  | '"' :: _ => ⟨1, [], true⟩
  | '\n' :: _ => ⟨0, [], false⟩
  | ['\\'] => ⟨0, [], false⟩
  | '\\' :: c :: cs =>
    if c = '\n' then ⟨0, [], false⟩
    else
      let r := stringBody cs
      ⟨r.length + 2, unescape c :: r.content, r.closed⟩
  | c :: cs =>
    let r := stringBody cs
    ⟨r.length + 1, c :: r.content, r.closed⟩

/-- The character literal after its opening quote: an ASCII character other than a quote, a
backslash and a line feed, or a backslash and an ASCII character other than a line feed, and a
quote. -/
def charBody : List Char → Option (Char × Nat)
  | '\\' :: c :: '\'' :: _ =>
    if c.toNat < 128 ∧ c ≠ '\n' then some (unescape c, 3) else none
  | c :: '\'' :: _ =>
    if c.toNat < 128 ∧ c ≠ '\'' ∧ c ≠ '\\' ∧ c ≠ '\n' then some (c, 2) else none
  | _ => none

/-- The word of two characters with this spelling. -/
def pair? (c d : Char) : Option Token :=
  if d = '=' then
    if c = '=' then some .equalEqual
    else if c = '!' then some .bangEqual
    else if c = '<' then some .lessEqual
    else if c = '>' then some .greaterEqual
    else none
  else none

/-- The word of one character with this spelling. -/
def single? (c : Char) : Option Token :=
  match c with
  | '+' => some .plus
  | '-' => some .minus
  | '*' => some .star
  | '/' => some .slash
  | '=' => some .equal
  | '<' => some .less
  | '>' => some .greater
  | '!' => some .bang
  | '(' => some .leftParen
  | ')' => some .rightParen
  | '\x7b' => some .leftBrace
  | '\x7d' => some .rightBrace
  | ',' => some .comma
  | _ => none

/-- An operator or a delimiter, the longer spelling first, or an unexpected character; with the
number of characters after the first. -/
def ofSymbol (c : Char) (cs : List Char) : Piece × Nat :=
  match cs.head?.bind (pair? c) with
  | some t => (word t, 1)
  | none =>
    match single? c with
    | some t => (word t, 0)
    | none => (fault (.unexpectedCharacter c), 0)

/-- The piece that starts with `c` in front of `cs`, and the number of its characters after `c`. -/
def scan (c : Char) (cs : List Char) : Piece × Nat :=
  if isSkipped c then (skipped, (cs.takeWhile isSkipped).length)
  else if c = '/' ∧ cs.head? = some '/' then (skipped, (cs.takeWhile (· ≠ '\n')).length)
  else if isNumeric c then
    let run := cs.takeWhile isNumeric
    (ofNumber (c :: run), run.length)
  else if isNameStart c then
    let run := cs.takeWhile isNamePart
    (ofName (c :: run), run.length)
  else if c = '"' then
    let body := stringBody cs
    (if body.closed then word (.stringLiteral (String.ofList body.content))
      else fault .unterminatedString, body.length)
  else if c = '\'' then
    match charBody cs with
    | some (d, n) => (word (.charLiteral d), n)
    | none => (fault .invalidCharLiteral, 0)
  else ofSymbol c cs

end Piece

/-! ### The words of a text -/

namespace Lexeme

/-- The words and the errors of the text that follows the place `p`, in order. -/
def itemsFrom (p : Position) : List Char → List (Except LexError Lexeme)
  | [] => []
  | c :: cs =>
    let (piece, n) := Piece.scan c cs
    let q := p.advance (c :: cs.take n)
    match piece with
    | .skipped => itemsFrom q (cs.drop n)
    | .word t => .ok ⟨t, .between p q⟩ :: itemsFrom q (cs.drop n)
    | .fault cause => .error ⟨cause, .between p q⟩ :: itemsFrom q (cs.drop n)
termination_by cs => cs.length
decreasing_by all_goals simp only [List.length_cons, List.length_drop]; omega

/-- The words and the errors of a text, in order. -/
def items (text : List Char) : List (Except LexError Lexeme) := itemsFrom Position.start text

/-- The end mark of a text. -/
def endOf (text : List Char) : Lexeme :=
  let p := Position.start.advance text
  ⟨.eof, .between p p⟩

/-- The words among some items. -/
def words (items : List (Except LexError Lexeme)) : List Lexeme :=
  items.filterMap Except.toOption

/-- The errors among some items. -/
def errors (items : List (Except LexError Lexeme)) : List LexError :=
  items.filterMap fun
    | .ok _ => none
    | .error e => some e

/-- **The words of a text**, followed by the end mark; or all errors, if there is any. -/
def ofText (text : String) : Except (List LexError) (List Lexeme) :=
  let its := items text.toList
  if errors its = [] then .ok (words its ++ [endOf text.toList]) else .error (errors its)

end Lexeme

end StackLang
