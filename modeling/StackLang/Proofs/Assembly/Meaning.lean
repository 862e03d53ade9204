/-
**What instructions mean, in a text and in an image.**

A text says what an instruction does by its name and its operand, an image by an opcode and the
bytes behind it.  Either way an instruction means the same thing, an operation with an argument.
The argument is a number as far as the field of the image can hold it: a reference to a label stands
for an address of two bytes, and a number with a sign for the same bits without one.

Main definitions:

* `Meaning` — an operation with its argument;
* `Statement`, `statements` — the instructions of a text;
* `Statement.meaning?` — what an instruction of a text means;
* `Shape`, `opcodes`, `shapeOf?` — the forms of instructions in an image, by their opcodes;
* `decodeFrom` — what the bytes of an image mean.
-/

import StackLang.Proofs.Assembly.Rows

set_option relaxedAutoImplicit false
set_option autoImplicit false

namespace StackLang

namespace Assembly

/-! ### Meanings -/

/-- The argument of an operation. -/
inductive Argument where
  | none
  /-- A value. -/
  | value (n : Nat)
  /-- The cell at an address that is given by a number. -/
  | address (n : Nat)
  /-- The cell at an address that is given by a label. -/
  | reference (n : Nat)
  /-- The cell at an offset from the frame. -/
  | frame (n : Nat)
  /-- The cell at a depth of the stack. -/
  | depth (n : Nat)
  /-- A place in the code. -/
  | target (n : Nat)
deriving DecidableEq, Repr

/-- An operation with its argument. -/
structure Meaning where
  instruction : Instruction
  argument : Argument
deriving DecidableEq, Repr

/-- A number as far as some bytes can hold it. -/
def field (bytes : Nat) (value : Int) : Nat := (value % 256 ^ bytes).toNat

/-- The operation of an instruction: arithmetic on floats has one width only. -/
def Instruction.operation : Instruction → Instruction
  | .arith op width => .arith op (if op.isFloat then .byte else width)
  | instruction => instruction

/-! ### Instructions of a text -/

/-- An instruction of a text. -/
structure Statement where
  instruction : Instruction
  operand : Option Operand
deriving DecidableEq, Repr

/-- The instructions of some lines, none of which holds a directive. -/
def statementsFrom (scope : Option String) : List (List Char) → Option (List Statement)
  | [] => some []
  | text :: texts => do
    let parts ← (SourceLine.parse text).toOption
    let scope := Row.scopeAfter scope parts.label
    match parts.mnemonic with
    | none => statementsFrom scope texts
    | some name =>
      match Mnemonic.parse? name with
      | some (.instruction instruction) =>
        let operand ← (parts.operand.mapM (Operand.parse scope)).toOption
        let rest ← statementsFrom scope texts
        pure (⟨instruction, operand⟩ :: rest)
      | _ => none

/-- **The instructions of a text** that is made of labels and instructions only. -/
def statements (text : String) : Option (List Statement) :=
  statementsFrom none (Text.lines text.toList)

namespace Statement

/-- Whether the opcode of the instruction is its own.  An interrupt shares its opcode with a short
jump, and a store of two bytes to the name of a label shares it with dropping two bytes. -/
def isOwn : Statement → Bool
  | ⟨.interrupt, _⟩ => false
  | ⟨.store .short, some (.label _)⟩ => false
  | _ => true

variable (labels : List (String × Nat))

/-- The place in the code that an operand names. -/
def target? : Option Operand → Option Argument
  | some (.label name) => (labels.lookup name).map fun address => .target (field 2 address)
  | _ => none

/-- The cell or the value that the operand of a load or a store stands for. -/
def cell? (width : Width) : Option Operand → Option Argument
  | none => some .none
  | some (.memory (.frame offset)) => some (.frame (field 1 offset))
  | some (.memory (.absolute address)) => some (.address (field 2 address))
  | some (.memory (.label name offset)) =>
    (labels.lookup name).map fun address => .reference (field 2 (address + offset))
  | some (.label name) => (labels.lookup name).map fun address => .value (field 2 address)
  | some operand => operand.value?.map fun value => .value (field width.bytes value)

/-- The depth that an operand stands for. -/
def depth? : Option Operand → Option Argument
  | none => some (.depth 0)
  | some (.number n) => some (.depth (field 1 n.value))
  | _ => none

/-- The argument of an instruction, when labels have the given addresses. -/
def argument? : Statement → Option Argument
  | ⟨.load width, operand⟩ => cell? labels width operand
  | ⟨.store width, operand⟩ => cell? labels width operand
  | ⟨.dup _, operand⟩ => depth? operand
  | ⟨.dig _, operand⟩ => depth? operand
  | ⟨.jump _, operand⟩ => target? labels operand
  | ⟨.call, none⟩ => some .none
  | ⟨.call, operand⟩ => target? labels operand
  | ⟨_, none⟩ => some .none
  | ⟨_, some _⟩ => none

/-- **What an instruction of a text means**, when labels have the given addresses. -/
def meaning? (s : Statement) : Option Meaning :=
  (s.argument? labels).map fun argument => ⟨s.instruction.operation, argument⟩

end Statement

/-! ### Instructions of an image -/

/-- What stands behind an opcode, and what it is for. -/
inductive Form where
  | none
  | value (width : Width)
  | address
  | reference
  | frame
  /-- The depth is part of the opcode. -/
  | shallow (depth : Nat)
  | deep
  /-- The distance to a near place. -/
  | near
  /-- The address of any place. -/
  | far
deriving DecidableEq, Repr

namespace Form

/-- The number of bytes behind the opcode. -/
def length : Form → Nat
  | none => 0
  | value width => width.bytes
  | address => 2
  | reference => 2
  | frame => 1
  | shallow _ => 0
  | deep => 1
  | near => 1
  | far => 2

/-- The number that some bytes hold, the lowest first. -/
def number : List UInt8 → Nat
  | [] => 0
  | b :: bs => b.toNat + 256 * number bs

/-- The argument that the bytes behind the opcode at the address `here` stand for.  A distance is
counted from its own byte, and has a sign. -/
def argument (here : Nat) (bytes : List UInt8) : Form → Argument
  | none => .none
  | value _ => .value (number bytes)
  | address => .address (number bytes)
  | reference => .reference (number bytes)
  | frame => .frame (number bytes)
  | shallow depth => .depth depth
  | deep => .depth (number bytes)
  | near => .target (field 2 (here + 1 + Int.bmod (number bytes) 256))
  | far => .target (number bytes)

end Form

/-- An operation with the form of its argument. -/
structure Shape where
  instruction : Instruction
  form : Form
deriving DecidableEq, Repr

/-- The widths of operands. -/
def widths : List Width := [.byte, .short, .word]

/-- The opcodes of a transfer in all its forms but one: a load can have a value behind it. -/
def transferOpcodes (transfer : Transfer) (width : Width) (instruction : Instruction) :
    List (UInt8 × Shape) :=
  [(transfer.opcode ||| width.modifier, ⟨instruction, .reference⟩),
    (transfer.opcode ||| width.modifier ||| Opcode.atAddress, ⟨instruction, .address⟩),
    (transfer.opcode ||| width.modifier ||| Opcode.fromStack, ⟨instruction, .none⟩),
    (transfer.frameOpcode + width.modifier, ⟨instruction, .frame⟩)]

/-- The opcodes of an operation on a cell at some depth of the stack. -/
def depthOpcodes (base : UInt8) (width : Width) (instruction : Instruction) :
    List (UInt8 × Shape) :=
  [(base ||| width.modifier, ⟨instruction, .shallow 0⟩),
    (base ||| width.modifier ||| 4, ⟨instruction, .shallow 1⟩),
    (base ||| width.modifier ||| 8, ⟨instruction, .shallow 2⟩),
    (base ||| width.modifier ||| Opcode.deep, ⟨instruction, .deep⟩)]

/-- **The opcodes of an image** with the shapes of their instructions. -/
def opcodes : List (UInt8 × Shape) :=
  [(Opcode.halt, ⟨.halt, .none⟩), (Opcode.yield, ⟨.yield, .none⟩), (Opcode.ret, ⟨.ret, .none⟩),
    (Opcode.callUser, ⟨.callUser, .none⟩), (Opcode.toInt, ⟨.toInt, .none⟩),
    (Opcode.toFloat, ⟨.toFloat, .none⟩), (Opcode.callStack, ⟨.call, .none⟩),
    (Opcode.call, ⟨.call, .far⟩)]
  ++ widths.flatMap (fun width =>
    (Opcode.pop ||| width.modifier, ⟨.pop width, .none⟩)
      :: (Opcode.load ||| width.modifier ||| Opcode.asValue, ⟨.load width, .value width⟩)
      :: transferOpcodes .load width (.load width) ++ transferOpcodes .store width (.store width)
      ++ depthOpcodes Opcode.dup width (.dup width) ++ depthOpcodes Opcode.dig width (.dig width))
  ++ [MachineOp.add, .sub, .mul, .div, .mod, .shl, .shr, .and, .or, .xor, .not].flatMap (fun op =>
    widths.map fun width => (Opcode.ofArithmetic op width, ⟨.arith op width, .none⟩))
  ++ [MachineOp.addF, .subF, .mulF, .divF].map (fun op =>
    (Opcode.ofArithmetic op .byte, ⟨.arith op .byte, .none⟩))
  ++ [Condition.always, .equal, .notEqual, .lessEqual, .greaterEqual, .less, .greater].flatMap
    (fun condition => [(Opcode.shortJump condition, ⟨.jump condition, .near⟩),
      (Opcode.wideJump condition, ⟨.jump condition, .far⟩)])

/-- The shape of the instruction with an opcode. -/
def shapeOf? (op : UInt8) : Option Shape := opcodes.lookup op

/-- **What the bytes of an image mean**, the first one standing at the address `here`. -/
def decodeFrom (here : Nat) : List UInt8 → Option (List Meaning)
  | [] => some []
  | op :: bytes =>
    match shapeOf? op with
    | none => none
    | some shape =>
      let size := shape.form.length
      if bytes.length < size then none
      else do
        let rest ← decodeFrom (here + (size + 1)) (bytes.drop size)
        pure (⟨shape.instruction, shape.form.argument here (bytes.take size)⟩ :: rest)
termination_by bytes => bytes.length

namespace Statement

/-- The form of the argument of an instruction in an image, its jump in the given form. -/
def form? (jump : JumpForm) : Statement → Option Form
  | ⟨.load _, none⟩ | ⟨.store _, none⟩ => some .none
  | ⟨.load _, some (.memory (.frame _))⟩ | ⟨.store _, some (.memory (.frame _))⟩ => some .frame
  | ⟨.load _, some (.memory (.absolute _))⟩ | ⟨.store _, some (.memory (.absolute _))⟩ =>
    some .address
  | ⟨.load _, some (.memory (.label _ _))⟩ | ⟨.store _, some (.memory (.label _ _))⟩ =>
    some .reference
  | ⟨.load width, some (.label _)⟩ | ⟨.load width, some (.number _)⟩
  | ⟨.load width, some (.char _)⟩ => some (.value width)
  | ⟨.dup _, none⟩ | ⟨.dig _, none⟩ => some (.shallow 0)
  | ⟨.dup _, some (.number n)⟩ | ⟨.dig _, some (.number n)⟩ =>
    some (if n.value < 3 then .shallow n.value.toNat else .deep)
  | ⟨.call, some (.label _)⟩ => some .far
  | ⟨.jump _, some (.label _)⟩ => some (if jump = .short then .near else .far)
  | ⟨.load _, some _⟩ | ⟨.store _, some _⟩ | ⟨.dup _, some _⟩ | ⟨.dig _, some _⟩
  | ⟨.jump _, none⟩ => none
  | ⟨_, none⟩ => some .none
  | ⟨_, some _⟩ => none

/-- The shape of an instruction in an image, its jump in the given form. -/
def shape? (jump : JumpForm) (s : Statement) : Option Shape :=
  (s.form? jump).map fun form => ⟨s.instruction.operation, form⟩

end Statement

end Assembly

end StackLang
