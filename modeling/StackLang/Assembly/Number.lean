/-
**Numbers in assembly text.**

A number has an optional sign and digits in base sixteen after `0x`, eight after `0o`, two before
`b` or ten, with an optional `d` at the end.  Its magnitude must fit in sixty-three bits.

Main definitions:

* `Number` — the value of a number, and how many hexadecimal digits it was written with;
* `Number.parse` — the number that a text is.
-/

import StackLang.Assembly.Error

set_option relaxedAutoImplicit false
set_option autoImplicit false

namespace StackLang

namespace Assembly

/-- A number as it was written. -/
structure Number where
  value : Int
  /-- The number of hexadecimal digits, for a number in base sixteen. -/
  hexDigits : Option Nat
deriving DecidableEq, Repr

namespace Number

/-- The value of a digit in any base up to sixteen. -/
def digit? (c : Char) : Option Nat :=
  if c.isDigit then some (c.toNat - '0'.toNat)
  else if 'a' ≤ c ∧ c ≤ 'f' then some (c.toNat - 'a'.toNat + 10)
  else if 'A' ≤ c ∧ c ≤ 'F' then some (c.toNat - 'A'.toNat + 10)
  else none

/-- The value of some digits in a base, read after digits of value `n`. -/
def ofDigits? (base n : Nat) : List Char → Option Nat
  | [] => some n
  | c :: cs =>
    match digit? c with
    | some d => if d < base then ofDigits? base (base * n + d) cs else none
    | none => none

/-- The digits of a number without its sign, in small letters, and their base. -/
def splitBase (cs : List Char) : List Char × Nat :=
  match cs with
  | '0' :: 'x' :: digits => (digits, 16)
  | '0' :: 'o' :: digits => (digits, 8)
  | _ =>
    match cs.getLast? with
    | some 'b' => (cs.dropLast, 2)
    | some 'd' => (cs.dropLast, 10)
    | _ => (cs, 10)

/-- Whether a number is negative, and what stands after its sign. -/
def splitSign : List Char → Bool × List Char
  | '-' :: cs => (true, cs)
  | '+' :: cs => (false, cs)
  | cs => (false, cs)

/-- The number that a text is, if it is one. -/
def parse? (text : List Char) : Option Number :=
  let (negative, body) := splitSign text
  let (digits, base) := splitBase (body.map Char.toLower)
  if digits = [] then none
  else
    match ofDigits? base 0 digits with
    | some n =>
      if n < 0x8000000000000000 then
        some ⟨if negative then -(n : Int) else n,
          if base = 16 then some digits.length else none⟩
      else none
    | none => none

/-- **The number that a text is.** -/
def parse (text : List Char) : Except Cause Number :=
  match parse? text with
  | some n => .ok n
  | none => .error (.malformed (.invalidNumber (String.ofList text)))

end Number

end Assembly

end StackLang
