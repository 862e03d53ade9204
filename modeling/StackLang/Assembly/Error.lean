/-
**Errors of the assembler.**

Every error belongs to one line of the text; lines are counted from zero.

Main definitions:

* `Fault` — a line that is not well formed;
* `Cause`, `Error` — any error, and its line;
* `Error.message` — the text of an error.
-/

set_option relaxedAutoImplicit false
set_option autoImplicit false

namespace StackLang

namespace Assembly

/-- What is wrong with a line that is not well formed. -/
inductive Fault where
  | expectedMnemonic (found : String)
  | unclosedBracket (text : String)
  | unterminatedLiteral (text : String)
  | unknownEscape (c : Char)
  /-- A character literal that is not one byte. -/
  | notOneByte (text : String)
  | invalidNumber (text : String)
  | emptyAddress
  /-- An operand of the wrong kind. -/
  | unexpectedOperand (kind context : String)
  /-- An address as a value of another width than an address has. -/
  | narrowLabel (label : String)
  | jumpWithoutLabel
  | interruptWithoutNumber
  | dataWithoutOperand
  /-- A hexadecimal number of more than eight bytes. -/
  | tooWide (text : String)
deriving DecidableEq, Repr

namespace Fault

/-- The description of the fault. -/
def text : Fault → String
  | expectedMnemonic found => "expected a mnemonic, found '" ++ found ++ "'"
  | unclosedBracket t => "unclosed bracket in '" ++ t ++ "'"
  | unterminatedLiteral t => "unterminated literal " ++ t
  | unknownEscape c => "unknown escape '\\" ++ c.toString ++ "'"
  | notOneByte t => "character literal " ++ t ++ " must hold one byte"
  | invalidNumber t => "invalid number '" ++ t ++ "'"
  | emptyAddress => "empty address"
  | unexpectedOperand kind context => kind ++ " is not a valid operand for " ++ context
  | narrowLabel label => "label '" ++ label ++ "' as an immediate needs a 16-bit operand"
  | jumpWithoutLabel => "jump requires a label"
  | interruptWithoutNumber => "INT requires a number"
  | dataWithoutOperand => "DB requires an operand"
  | tooWide t => "'" ++ t ++ "' is too wide"

end Fault

/-- Why a line is refused. -/
inductive Cause where
  | malformed (fault : Fault)
  | unknownMnemonic (name : String)
  | outOfRange (value least greatest : Int)
  | duplicateLabel (label : String)
  | undefinedLabel (label : String)
deriving DecidableEq, Repr

namespace Cause

/-- The description of the error, without its line. -/
def text : Cause → String
  | malformed fault => "syntax error: " ++ fault.text
  | unknownMnemonic name => "unknown mnemonic '" ++ name ++ "'"
  | outOfRange value least greatest =>
    "operand " ++ toString value ++ " out of range " ++ toString least ++ "..="
      ++ toString greatest
  | duplicateLabel label => "duplicate label '" ++ label ++ "'"
  | undefinedLabel label => "undefined label '" ++ label ++ "'"

end Cause

/-- An error with its line. -/
structure Error where
  /-- The line, counted from zero. -/
  line : Nat
  cause : Cause
deriving DecidableEq, Repr

namespace Error

/-- The description of the error with its line. -/
def message (e : Error) : String := "line " ++ toString e.line ++ ": " ++ e.cause.text

end Error

end Assembly

end StackLang
