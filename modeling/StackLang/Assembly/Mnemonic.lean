/-
**Names of instructions.**

What a name in a line of assembly text stands for: an instruction with the width of its operand, or
a directive that puts data into the image.  Case does not matter.

Main definitions:

* `Instruction`, `Directive` — what an image is written with;
* `Mnemonic` — one of the two;
* `Mnemonic.parse?` — what a name stands for.
-/

import StackLang.Assembly.Opcode

set_option relaxedAutoImplicit false
set_option autoImplicit false

namespace StackLang

namespace Assembly

/-- An instruction without its operand. -/
inductive Instruction where
  | halt
  /-- Hands control to the host. -/
  | yield
  | load (width : Width)
  | store (width : Width)
  | pop (width : Width)
  | dup (width : Width)
  | dig (width : Width)
  | arith (op : MachineOp) (width : Width)
  | toInt
  | toFloat
  | call
  /-- A call into the host. -/
  | callUser
  | ret
  | jump (condition : Condition)
  | interrupt
deriving DecidableEq, Repr, Inhabited

/-- What puts data into the image. -/
inductive Directive where
  /-- Data as it is written. -/
  | data
  /-- A number of cells of a width. -/
  | reserve (width : Width)
deriving DecidableEq, Repr, Inhabited

/-- An instruction or a directive. -/
inductive Mnemonic where
  | instruction (i : Instruction)
  | directive (d : Directive)
deriving DecidableEq, Repr, Inhabited

namespace Mnemonic

/-- The names that have no width behind them. -/
def fixed? : String → Option Mnemonic
  | "HLT" => some (.instruction .halt)
  | "YIELD" => some (.instruction .yield)
  | "CONV" => some (.instruction .toInt)
  | "CONVI" => some (.instruction .toInt)
  | "CONVF" => some (.instruction .toFloat)
  | "CALL" => some (.instruction .call)
  | "CALLUSER" => some (.instruction .callUser)
  | "RET" => some (.instruction .ret)
  | "JMP" => some (.instruction (.jump .always))
  | "JEQ" => some (.instruction (.jump .equal))
  | "JNE" => some (.instruction (.jump .notEqual))
  | "JLE" => some (.instruction (.jump .lessEqual))
  | "JGE" => some (.instruction (.jump .greaterEqual))
  | "JLT" => some (.instruction (.jump .less))
  | "JGT" => some (.instruction (.jump .greater))
  | "INT" => some (.instruction .interrupt)
  | "DB" => some (.directive .data)
  | "RESB" => some (.directive (.reserve .byte))
  | "RESW" => some (.directive (.reserve .short))
  | "RESD" => some (.directive (.reserve .word))
  | _ => none

/-- The instructions on the stack and memory, by the name before the width. -/
def ofStem? (width : Width) : String → Option Mnemonic
  | "LOAD" => some (.instruction (.load width))
  | "STORE" => some (.instruction (.store width))
  | "POP" => some (.instruction (.pop width))
  | "DUP" => some (.instruction (.dup width))
  | "DIG" => some (.instruction (.dig width))
  | _ => none

/-- The name without the width at its end, and the width: two bytes, four bytes, or one where none
is written. -/
def splitWidth (cs : List Char) : List Char × Width :=
  match cs.reverse with
  | '6' :: '1' :: stem => (stem.reverse, .short)
  | '2' :: '3' :: stem => (stem.reverse, .word)
  | _ => (cs, .byte)

/-- What a name in capitals with a width behind it stands for.  Arithmetic on floats has no width.
-/
def sized? (cs : List Char) : Option Mnemonic :=
  let (stem, width) := splitWidth cs
  let stem := String.ofList stem
  match ofStem? width stem with
  | some m => some m
  | none =>
    match MachineOp.ofName? stem with
    | some op => if width ≠ .byte ∧ !op.isFloat then some (.instruction (.arith op width)) else none
    | none => none

/-- **What a name stands for.** -/
def parse? (name : List Char) : Option Mnemonic :=
  let upper := name.map Char.toUpper
  match fixed? (String.ofList upper) with
  | some m => some m
  | none =>
    match MachineOp.ofName? (String.ofList upper) with
    | some op => some (.instruction (.arith op .byte))
    | none => sized? upper

end Mnemonic

end Assembly

end StackLang
