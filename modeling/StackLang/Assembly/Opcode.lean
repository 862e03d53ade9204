/-
**Opcodes.**

The first byte of an encoded instruction.  Most opcodes are a family's base with bits added to it:
the width of the operand in the two low bits, and above them the way to the operand or a small
depth.  A jump has an even opcode in its short form and the next odd one in its wide form.

Main definitions:

* `Width` — the width of an operand;
* `MachineOp` — the arithmetic that the machine knows;
* `Opcode` — the bases and the bits.
-/

import StackLang.Condition

set_option relaxedAutoImplicit false
set_option autoImplicit false

namespace StackLang

namespace Assembly

/-! ### Widths -/

/-- The width of an operand. -/
inductive Width where
  | byte
  | short
  | word
deriving DecidableEq, Repr, Inhabited

namespace Width

/-- The low bits of the opcode. -/
def modifier : Width → UInt8
  | byte => 0
  | short => 1
  | word => 2

/-- The number of bytes. -/
def bytes : Width → Nat
  | byte => 1
  | short => 2
  | word => 4

/-- The least number that an operand of the width can stand for, read with a sign. -/
def least : Width → Int
  | byte => -128
  | short => -32768
  | word => -2147483648

/-- The greatest number that an operand of the width can stand for, read without a sign. -/
def greatest : Width → Int
  | byte => 255
  | short => 65535
  | word => 4294967295

end Width

/-! ### Arithmetic -/

/-- The arithmetic that the machine knows, in the order of the opcodes. -/
inductive MachineOp where
  | add
  | sub
  | mul
  | div
  | mod
  | shl
  | shr
  | and
  | or
  | xor
  | not
  | addF
  | subF
  | mulF
  | divF
deriving DecidableEq, Repr, Inhabited

namespace MachineOp

/-- The place in the order of the opcodes. -/
def index : MachineOp → UInt8
  | add => 0
  | sub => 1
  | mul => 2
  | div => 3
  | mod => 4
  | shl => 5
  | shr => 6
  | and => 7
  | or => 8
  | xor => 9
  | not => 10
  | addF => 11
  | subF => 12
  | mulF => 13
  | divF => 14

/-- Whether the operands are floats, which have one width only. -/
def isFloat : MachineOp → Bool
  | addF | subF | mulF | divF => true
  | _ => false

/-- The arithmetic of a name in capitals. -/
def ofName? : String → Option MachineOp
  | "ADD" => some add
  | "SUB" => some sub
  | "MUL" => some mul
  | "DIV" => some div
  | "MOD" => some mod
  | "SHL" => some shl
  | "SHR" => some shr
  | "AND" => some and
  | "OR" => some or
  | "XOR" => some xor
  | "NOT" => some not
  | "ADDF" => some addF
  | "SUBF" => some subF
  | "MULF" => some mulF
  | "DIVF" => some divF
  | _ => none

end MachineOp

/-! ### Bases and bits -/

namespace Opcode

def halt : UInt8 := 0xFF

/-- Hands control to the host. -/
def yield : UInt8 := 0xFE

def load : UInt8 := 0x00

def store : UInt8 := 0x10

def pop : UInt8 := 0x1C

def dup : UInt8 := 0x20

def dig : UInt8 := 0x30

/-- A load from the frame. -/
def loadFrame : UInt8 := 0x5C

/-- A store into the frame. -/
def storeFrame : UInt8 := 0x6C

/-- The operand is an address. -/
def atAddress : UInt8 := 0x4

/-- The address is taken from the stack. -/
def fromStack : UInt8 := 0x8

/-- The operand is the value. -/
def asValue : UInt8 := 0xC

/-- A depth of three or more, which follows in a byte of its own. -/
def deep : UInt8 := 0xC

def arithmetic : UInt8 := 0x80

def toInt : UInt8 := 0xBC

def toFloat : UInt8 := 0xBD

def call : UInt8 := 0x40

/-- A call whose address is taken from the stack. -/
def callStack : UInt8 := 0x41

def ret : UInt8 := 0x42

/-- A call into the host. -/
def callUser : UInt8 := 0x43

/-- The short jump that is always taken. -/
def jump : UInt8 := 0xC0

/-- A software interrupt, which shares its value with one of the short jumps. -/
def interrupt : UInt8 := 0xC6

/-- The arithmetic `op` on operands of a width. -/
def ofArithmetic (op : MachineOp) (width : Width) : UInt8 :=
  arithmetic + (op.index <<< 2) + width.modifier

/-- The place of a condition in the order of the opcodes. -/
def ofCondition : Condition → UInt8
  | .always => 0
  | .equal => 1
  | .notEqual => 2
  | .lessEqual => 3
  | .greaterEqual => 4
  | .less => 5
  | .greater => 6

/-- The jump to a near place, given by the distance in one byte. -/
def shortJump (c : Condition) : UInt8 := jump + 2 * ofCondition c

/-- The jump to any place, given by the address in two bytes. -/
def wideJump (c : Condition) : UInt8 := shortJump c + 1

end Opcode

end Assembly

end StackLang
