/-
**Tokens.**

The words of the language: keywords, literals with their values, names, operators and delimiters,
and the mark at the end of the text.

Main definitions:

* `Token` — a word;
* `Token.text` — how a word is named in a message;
* `Token.sameKind` — equality of words up to the value that they carry;
* `Lexeme` — a word with the stretch of the text that it takes.
-/

import StackLang.Binary32.Shortest
import StackLang.Scalar
import StackLang.Source.Span

set_option relaxedAutoImplicit false
set_option autoImplicit false

namespace StackLang

/-- A word of the language. -/
inductive Token where
  | ifWord
  | elseWord
  | whileWord
  | continueWord
  | breakWord
  | returnWord
  | defWord
  /-- The keyword before a line of target code. -/
  | asmWord
  | intLiteral (n : Int32)
  | floatLiteral (x : Binary32)
  | stringLiteral (s : String)
  | charLiteral (c : Char)
  | identifier (name : String)
  | plus
  | minus
  | star
  | slash
  | equal
  | equalEqual
  | bangEqual
  | less
  | lessEqual
  | greater
  | greaterEqual
  | bang
  | leftParen
  | rightParen
  | leftBrace
  | rightBrace
  | comma
  /-- The end of the text. -/
  | eof
deriving DecidableEq, Repr, Inhabited

/-- The text of a character inside quotes: a backslash form for tab, carriage return, line feed,
quotes and backslash, printable ASCII as it is, and the code point in hexadecimal for the rest. -/
def escapeChar (c : Char) : String :=
  if c = '\t' then "\\t"
  else if c = '\r' then "\\r"
  else if c = '\n' then "\\n"
  else if c = '\'' then "\\'"
  else if c = '"' then "\\\""
  else if c = '\\' then "\\\\"
  else if 0x20 ≤ c.toNat ∧ c.toNat ≤ 0x7E then c.toString
  else "\\u\x7b" ++ String.ofList (Nat.toDigits 16 c.toNat) ++ "\x7d"

namespace Token

/-- The name of a word in a message: its spelling, with a character shown in its escaped form. -/
def text : Token → String
  | ifWord => "if"
  | elseWord => "else"
  | whileWord => "while"
  | continueWord => "continue"
  | breakWord => "break"
  | returnWord => "return"
  | defWord => "def"
  | asmWord => "__asm__"
  | intLiteral n => toString n.toInt
  | floatLiteral x => x.text
  | stringLiteral s => "\"" ++ s ++ "\""
  | charLiteral c => "'" ++ escapeChar c ++ "'"
  | identifier name => name
  | plus => "+"
  | minus => "-"
  | star => "*"
  | slash => "/"
  | equal => "="
  | equalEqual => "=="
  | bangEqual => "!="
  | less => "<"
  | lessEqual => "<="
  | greater => ">"
  | greaterEqual => ">="
  | bang => "!"
  | leftParen => "("
  | rightParen => ")"
  | leftBrace => "\x7b"
  | rightBrace => "\x7d"
  | comma => ","
  | eof => "end of file"

/-- The type of the value that a literal stands for; a character is an integer. -/
def scalar? : Token → Option Scalar
  | intLiteral _ => some .int
  | charLiteral _ => some .int
  | floatLiteral _ => some .float
  | _ => none

/-- The word with this spelling, for the spellings that are keywords. -/
def keyword? : String → Option Token
  | "if" => some ifWord
  | "else" => some elseWord
  | "while" => some whileWord
  | "continue" => some continueWord
  | "break" => some breakWord
  | "return" => some returnWord
  | "def" => some defWord
  | "__asm__" => some asmWord
  | _ => none

/-- Whether the word is a keyword. -/
def isKeyword : Token → Bool
  | ifWord | elseWord | whileWord | continueWord | breakWord | returnWord | defWord | asmWord =>
    true
  | _ => false

/-- Whether two words are alike up to the value that they carry. -/
def sameKind (s t : Token) : Bool := s.ctorIdx == t.ctorIdx

end Token

/-- A word with its place in the text. -/
structure Lexeme where
  /-- The word. -/
  token : Token
  /-- The stretch of the text that it takes. -/
  span : Span
deriving DecidableEq, Repr, Inhabited

end StackLang
