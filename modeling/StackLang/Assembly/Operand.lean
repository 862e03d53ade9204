/-
**Operands in assembly text.**

An operand is an address in brackets, a string or a character in quotes, a label, or a number.  A
label that starts with a dot belongs to the last label before it that does not.

Main definitions:

* `Address`, `Operand` — what an operand can be;
* `qualify` — the full name of a label;
* `Operand.parse` — the operand that a text is.
-/

import StackLang.Assembly.Line
import StackLang.Assembly.Number

set_option relaxedAutoImplicit false
set_option autoImplicit false

namespace StackLang

namespace Assembly

/-- An address in brackets. -/
inductive Address where
  | absolute (address : Int)
  | label (name : String) (offset : Int)
  /-- In the frame of the running function. -/
  | frame (offset : Int)
deriving DecidableEq, Repr

/-- What an operand can be. -/
inductive Operand where
  | number (n : Number)
  /-- A character of one byte. -/
  | char (byte : UInt8)
  | string (bytes : List UInt8)
  | label (name : String)
  | memory (address : Address)
deriving DecidableEq, Repr

/-- The full name of a label: one that starts with a dot stands behind the label `scope`. -/
def qualify (scope : Option String) (name : List Char) : String :=
  match scope, name with
  | some parent, '.' :: _ => parent ++ String.ofList name
  | _, _ => String.ofList name

/-! ### Quoted operands -/

/-- The characters that the inside of a quoted operand stands for; the whole operand is `text`. -/
def unquoteBody (text : List Char) : List Char → Except Cause (List Char)
  | [] => .ok []
  | ['\\'] => .error (.malformed (.unterminatedLiteral (String.ofList text)))
  | '\\' :: c :: cs =>
    match c with
    | 'n' => (unquoteBody text cs).map ('\n' :: ·)
    | 't' => (unquoteBody text cs).map ('\t' :: ·)
    | 'r' => (unquoteBody text cs).map ('\r' :: ·)
    | '0' => (unquoteBody text cs).map ('\x00' :: ·)
    | '\\' => (unquoteBody text cs).map ('\\' :: ·)
    | '\'' => (unquoteBody text cs).map ('\'' :: ·)
    | '"' => (unquoteBody text cs).map ('"' :: ·)
    | c => .error (.malformed (.unknownEscape c))
  | c :: cs => (unquoteBody text cs).map (c :: ·)

/-- The bytes of a quoted operand, given after its opening quote. -/
def unquote (q : Char) (text body : List Char) : Except Cause (List UInt8) :=
  if body.getLast? = some q then
    (unquoteBody text body.dropLast).map fun cs => cs.flatMap String.utf8EncodeChar
  else .error (.malformed (.unterminatedLiteral (String.ofList text)))

/-! ### Addresses -/

/-- The base of an address and its offset with the sign: the sign is the first one behind the first
character. -/
def splitOffset (cs : List Char) : List Char × Option (List Char) :=
  let isSign := fun (c : Char) => c = '+' || c = '-'
  let base := cs.take 1 ++ (cs.drop 1).takeWhile fun c => !isSign c
  match (cs.drop 1).dropWhile fun c => !isSign c with
  | [] => (base, none)
  | offset => (base, some offset)

/-- The offset of an address, whose blanks do not matter. -/
def parseOffset : Option (List Char) → Except Cause Int
  | none => .ok 0
  | some text => (Number.parse (text.filter fun c => !Text.isBlank c)).map Number.value

/-- The address that the inside of brackets is.  A sum of two numbers wraps at sixty-four bits. -/
def parseAddress (scope : Option String) (inner : List Char) : Except Cause Address := do
  let (base, offset) := splitOffset (Text.trim inner)
  let offset ← parseOffset offset
  let base := Text.trim base
  if base = [] then throw (.malformed .emptyAddress)
  else if base.map Char.toUpper = ['S', 'F', 'P'] then pure (.frame offset)
  else if isLabel base then pure (.label (qualify scope base) offset)
  else
    let n ← Number.parse base
    pure (.absolute (Int.bmod (n.value + offset) 0x10000000000000000))

namespace Operand

/-- **The operand that a text is.** Labels that start with a dot belong to `scope`. -/
def parse (scope : Option String) (text : List Char) : Except Cause Operand :=
  let text := Text.trim text
  match text with
  | '[' :: inner =>
    if inner.getLast? = some ']' then (parseAddress scope inner.dropLast).map .memory
    else .error (.malformed (.unclosedBracket (String.ofList text)))
  | '"' :: body => (unquote '"' text body).map .string
  | '\'' :: body => do
    match ← unquote '\'' text body with
    | [byte] => pure (.char byte)
    | _ => throw (.malformed (.notOneByte (String.ofList text)))
  | _ =>
    if isLabel text then .ok (.label (qualify scope text))
    else (Number.parse text).map .number

/-- The word for the kind of an operand. -/
def kindName : Operand → String
  | number _ => "a number"
  | char _ => "a character"
  | string _ => "a string"
  | label _ => "a label"
  | memory _ => "an address"

/-- The integer that an operand is. -/
def value? : Operand → Option Int
  | number n => some n.value
  | char byte => some byte.toNat
  | _ => none

end Operand

end Assembly

end StackLang
