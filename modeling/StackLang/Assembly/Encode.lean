/-
**Encoding of instructions and data.**

Each instruction is one opcode with its operand behind it.  The kind of the operand chooses the
opcode among those of the instruction, and a number must be in the range of the field that it is
written to.

Main definitions:

* `encodeMemory`, `encodeDepth`, `encode` — instructions;
* `encodeReserve`, `encodeData` — directives.
-/

import StackLang.Assembly.Item
import StackLang.Assembly.Mnemonic
import StackLang.Assembly.Operand

set_option relaxedAutoImplicit false
set_option autoImplicit false

namespace StackLang

namespace Assembly

/-! ### Checks -/

/-- Refuses a number outside of a range. -/
def checkRange (least greatest value : Int) : Except Cause Unit :=
  if least ≤ value ∧ value ≤ greatest then .ok () else .error (.outOfRange value least greatest)

theorem checkRange_eq_ok_iff {least greatest value : Int} :
    checkRange least greatest value = .ok () ↔ least ≤ value ∧ value ≤ greatest := by
  unfold checkRange
  split <;> simp_all

/-- The error for an operand of a kind that `context` does not take. -/
def unexpected (operand : Operand) (context : String) : Cause :=
  .malformed (.unexpectedOperand operand.kindName context)

/-! ### Instructions -/

/-- An opcode with the bytes of its operand. -/
def opcodeWith (op : UInt8) (operand : List UInt8) : List Item := [.bytes (op :: operand)]

/-- An instruction that takes no operand. -/
def encodeBare (op : UInt8) : Option Operand → Except Cause (List Item)
  | none => .ok (opcodeWith op [])
  | some operand => .error (unexpected operand "this instruction")

/-- Whether an instruction brings a value from memory to the stack or the other way. -/
inductive Transfer where
  | load
  | store
deriving DecidableEq, Repr

namespace Transfer

/-- The opcode of a transfer without the bits for its operand. -/
def opcode : Transfer → UInt8
  | load => Opcode.load
  | store => Opcode.store

/-- The opcode of a transfer from or to the frame. -/
def frameOpcode : Transfer → UInt8
  | load => Opcode.loadFrame
  | store => Opcode.storeFrame

end Transfer

/-- A transfer of a value given by a number, which must be a load. -/
def encodeValue (transfer : Transfer) (width : Width) (operand : Operand) :
    Except Cause (List Item) :=
  match transfer, operand.value? with
  | .load, some value => do
    checkRange width.least width.greatest value
    pure (opcodeWith (Opcode.load ||| width.modifier ||| Opcode.asValue)
      (littleEndian width.bytes value))
  | _, _ => .error (unexpected operand "this instruction")

/-- A load or a store.  Without an operand the address is taken from the stack.  An address of two
bytes can be a value as well, by the name of its label alone. -/
def encodeMemory (transfer : Transfer) (width : Width) (line : Nat) :
    Option Operand → Except Cause (List Item)
  | none =>
    .ok (opcodeWith (transfer.opcode ||| width.modifier ||| Opcode.fromStack) [])
  | some (.memory (.frame offset)) => do
    checkRange (-128) 127 offset
    pure (opcodeWith (transfer.frameOpcode + width.modifier) (littleEndian 1 offset))
  | some (.memory (.absolute address)) => do
    checkRange Width.short.least Width.short.greatest address
    pure (opcodeWith (transfer.opcode ||| width.modifier ||| Opcode.atAddress)
      (littleEndian 2 address))
  | some (.memory (.label name offset)) =>
    .ok (opcodeWith (transfer.opcode ||| width.modifier) [] ++ [.address name offset line])
  | some (.label name) =>
    if width = .short then
      .ok (opcodeWith (transfer.opcode ||| width.modifier ||| Opcode.asValue) []
        ++ [.address name 0 line])
    else .error (.malformed (.narrowLabel name))
  | some operand => encodeValue transfer width operand

/-- The depth that an operand gives: the top of the stack where there is none. -/
def depthOf : Option Operand → Except Cause Int
  | none => .ok 0
  | some (.number n) => .ok n.value
  | some operand => .error (unexpected operand "DUP/DIG")

/-- A copy or a move of a cell from some depth of the stack.  Depths below three are part of the
opcode. -/
def encodeDepth (base : UInt8) (width : Width) (operand : Option Operand) :
    Except Cause (List Item) := do
  let depth ← depthOf operand
  checkRange 0 255 depth
  if depth < 3 then
    pure (opcodeWith (base ||| width.modifier ||| (UInt8.ofNat depth.toNat <<< 2)) [])
  else
    pure (opcodeWith (base ||| width.modifier ||| Opcode.deep) (littleEndian 1 depth))

/-- A call of a label, or of an address on the stack. -/
def encodeCall (line : Nat) : Option Operand → Except Cause (List Item)
  | none => .ok (opcodeWith Opcode.callStack [])
  | some (.label name) => .ok (opcodeWith Opcode.call [] ++ [.address name 0 line])
  | some operand => .error (unexpected operand "CALL")

/-- A jump, which starts out in its wide form. -/
def encodeJump (condition : Condition) (line : Nat) : Option Operand → Except Cause (List Item)
  | some (.label name) => .ok [.jump condition name line .wide]
  | some operand => .error (unexpected operand "a jump")
  | none => .error (.malformed .jumpWithoutLabel)

/-- A software interrupt with its number. -/
def encodeInterrupt (operand : Option Operand) : Except Cause (List Item) :=
  match operand.bind Operand.value? with
  | some value => do
    checkRange 0 65535 value
    pure (opcodeWith Opcode.interrupt (littleEndian 2 value))
  | none => .error (.malformed .interruptWithoutNumber)

/-! ### Directives -/

/-- A number of cells of a width, one where no number is given. -/
def encodeReserve (width : Width) (operand : Option (List Char)) : Except Cause (List Item) := do
  let count ← match operand with
    | none => pure 1
    | some text => (Number.parse text).map Number.value
  checkRange 1 65535 count
  pure [.reserved (count.toNat * width.bytes)]

/-- The bytes of one operand of a data directive, which was written as `text`.  A hexadecimal number
of more than two digits takes a byte for each two digits, another number one byte. -/
def encodeDatum (text : List Char) : Operand → Except Cause (List UInt8)
  | .string bytes => .ok bytes
  | .char byte => .ok [byte]
  | .number n =>
    match n.hexDigits with
    | some digits =>
      if 2 < digits then
        if 8 < (digits + 1) / 2 then .error (.malformed (.tooWide (String.ofList text)))
        else .ok (littleEndian ((digits + 1) / 2) n.value)
      else encodeByte n.value
    | none => encodeByte n.value
  | operand => .error (unexpected operand "DB")
where
  /-- A number as one byte, with or without a sign. -/
  encodeByte (value : Int) : Except Cause (List UInt8) := do
    checkRange Width.byte.least Width.byte.greatest value
    pure (littleEndian 1 value)

/-- The bytes of the operands of a data directive up to the first one that is refused, and why it
is. -/
def encodeData (scope : Option String) : List (List Char) → List UInt8 × Option Cause
  | [] => ([], none)
  | text :: texts =>
    match (Operand.parse scope text).bind (encodeDatum text) with
    | .ok bytes =>
      let (rest, cause) := encodeData scope texts
      (bytes ++ rest, cause)
    | .error cause => ([], some cause)

/-! ### All instructions -/

/-- **The items of an instruction** on the line `line`. -/
def encode (line : Nat) (instruction : Instruction) (operand : Option Operand) :
    Except Cause (List Item) :=
  match instruction with
  | .halt => encodeBare Opcode.halt operand
  | .yield => encodeBare Opcode.yield operand
  | .ret => encodeBare Opcode.ret operand
  | .callUser => encodeBare Opcode.callUser operand
  | .toInt => encodeBare Opcode.toInt operand
  | .toFloat => encodeBare Opcode.toFloat operand
  | .pop width => encodeBare (Opcode.pop ||| width.modifier) operand
  | .arith op width =>
    encodeBare (Opcode.ofArithmetic op (if op.isFloat then .byte else width)) operand
  | .load width => encodeMemory .load width line operand
  | .store width => encodeMemory .store width line operand
  | .dup width => encodeDepth Opcode.dup width operand
  | .dig width => encodeDepth Opcode.dig width operand
  | .call => encodeCall line operand
  | .jump condition => encodeJump condition line operand
  | .interrupt => encodeInterrupt operand

end Assembly

end StackLang
