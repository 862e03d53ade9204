/-
**Instructions of the stack machine.**

Every value is one cell of thirty-two bits, so the type of a cell matters only to arithmetic and to
the text of a literal operand.  A conditional jump tests the cell that was popped last.

Main definitions:

* `Op`, `Operand`, `Target` — the parts of an instruction;
* `Instr` — an instruction with its identity.
-/

import StackLang.Condition
import StackLang.Tree.Literal

set_option relaxedAutoImplicit false
set_option autoImplicit false

namespace StackLang

/-! ### Parts of an instruction -/

namespace Condition

/-- The test of `left - right` that stands for a comparison. -/
def ofComparison? : BinaryOp → Option Condition
  | .equal => some equal
  | .notEqual => some notEqual
  | .less => some less
  | .lessEqual => some lessEqual
  | .greater => some greater
  | .greaterEqual => some greaterEqual
  | _ => none

end Condition

/-- Arithmetic of the machine. -/
inductive ArithOp where
  | add
  | sub
  | mul
  | div
deriving DecidableEq, Repr, Inhabited

namespace ArithOp

/-- The common part of the names of the instructions. -/
def stem : ArithOp → String
  | add => "ADD"
  | sub => "SUB"
  | mul => "MUL"
  | div => "DIV"

/-- The arithmetic that an operator stands for. -/
def ofBinary? : BinaryOp → Option ArithOp
  | .add => some add
  | .subtract => some sub
  | .multiply => some mul
  | .divide => some div
  | _ => none

end ArithOp

/-- What an instruction does. -/
inductive Op where
  /-- Pushes the operand. -/
  | load
  /-- Pops into the place of the operand. -/
  | store
  | pop
  /-- Pushes a copy of the top cell. -/
  | dup
  | arith (op : ArithOp) (type : Scalar)
  | toFloat
  | toInt
  | jump (condition : Condition)
  | call
  | ret
  | halt
  /-- A text of target code, as it stands. -/
  | assembly (text : String)
  /-- Nothing; it is taken out before the text is written. -/
  | nop
  /-- The start of a function. -/
  | entry (name : String)
deriving DecidableEq, Repr, Inhabited

namespace Op

/-- The name of the instruction, where it is written as one. -/
def mnemonic? : Op → Option String
  | load => some "LOAD32"
  | store => some "STORE32"
  | pop => some "POP32"
  | dup => some "DUP32"
  | arith op .int => some (op.stem ++ "32")
  | arith op .float => some (op.stem ++ "F")
  | toFloat => some "CONVF"
  | toInt => some "CONVI"
  | jump c => some c.mnemonic
  | call => some "CALL"
  | ret => some "RET"
  | halt => some "HLT"
  | assembly _ | nop | entry _ => none

/-- Whether the instruction is a conditional jump. -/
def isConditionalJump : Op → Bool
  | jump c => c.isConditional
  | _ => false

/-- Whether the instruction is a jump. -/
def isJump : Op → Bool
  | jump _ => true
  | _ => false

end Op

/-- The operand of an instruction. -/
inductive Operand where
  | none
  /-- A cell, with the type that its text shows. -/
  | immediate (bits : UInt32) (type : Scalar)
  /-- A cell of the frame, at an offset from the return cell. -/
  | frame (offset : Int)
  /-- The cell of a global variable. -/
  | global (name : String)
  /-- A place in the code. -/
  | label (name : String)
deriving DecidableEq, Repr, Inhabited

namespace Operand

/-- An integer. -/
def int (n : Int32) : Operand := immediate n.toUInt32 .int

/-- A float. -/
def float (x : Binary32) : Operand := immediate x.bits .float

/-- The operand that pushes a literal. -/
def ofLiteral : Literal → Operand
  | .int n => int n
  | .float x => float x

/-- Zero of a type. -/
def zero : Scalar → Operand
  | .int => int 0
  | .float => float .zero

/-- The integer that the operand is. -/
def int? : Operand → Option Int32
  | immediate bits .int => some bits.toInt32
  | _ => Option.none

/-- Eight hexadecimal digits of a cell. -/
def hexDigits (bits : UInt32) : String :=
  let ds := (Nat.toDigits 16 bits.toNat).map Char.toUpper
  String.ofList (List.replicate (8 - ds.length) '0' ++ ds)

/-- The text of the operand; a float is written by its bits. -/
def text : Operand → String
  | none => ""
  | immediate bits .int => toString bits.toInt32.toInt
  | immediate bits .float => "0x" ++ hexDigits bits
  | frame offset =>
    if offset < 0 then "[SFP - " ++ toString (-offset) ++ "]"
    else "[SFP + " ++ toString offset ++ "]"
  | global name => "[" ++ name ++ "]"
  | label name => name

end Operand

/-- Where a jump goes. -/
inductive Target where
  /-- To the instruction with this identity. -/
  | instr (id : Nat)
  /-- To the end of the function, as long as that is not known. -/
  | epilogue
deriving DecidableEq, Repr, Inhabited

/-! ### Instructions -/

/-- An instruction with its identity. -/
structure Instr where
  /-- The identity, by which jumps refer to the instruction. -/
  id : Nat
  op : Op
  operand : Operand
  /-- Where the instruction may go on, for jumps. -/
  target : Option Target
  /-- The remark that stands behind the instruction. -/
  comment : Option String
deriving DecidableEq, Repr, Inhabited

namespace Instr

/-- An instruction with an operand. -/
def plain (id : Nat) (op : Op) (operand : Operand) : Instr := ⟨id, op, operand, none, none⟩

/-- A jump. -/
def jump (id : Nat) (c : Condition) (target : Option Target) : Instr :=
  ⟨id, .jump c, .none, target, none⟩

/-- The instruction with a remark. -/
def withComment (comment : String) (i : Instr) : Instr := { i with comment := some comment }

/-- The instruction, made to do nothing. -/
def erase (i : Instr) : Instr := ⟨i.id, .nop, .none, none, none⟩

/-- Whether the instruction does nothing. -/
def isNop (i : Instr) : Bool := i.op = .nop

/-- The integer that the instruction pushes, for a push of an integer. -/
def pushed? (i : Instr) : Option Int32 :=
  match i.op with
  | .load => i.operand.int?
  | _ => none

/-- The instruction that the instruction may jump to. -/
def targetId? (i : Instr) : Option Nat :=
  match i.target with
  | some (.instr k) => some k
  | _ => none

/-- The remark that is written behind the instruction; a float operand is explained by its value. -/
def remark? (i : Instr) : Option String :=
  match i.comment with
  | some comment => some comment
  | none =>
    match i.operand with
    | .immediate bits .float => some (Binary32.text ⟨bits⟩)
    | _ => none

@[simp] theorem id_erase (i : Instr) : i.erase.id = i.id := rfl

@[simp] theorem isNop_erase (i : Instr) : i.erase.isNop = true := rfl

end Instr

end StackLang
