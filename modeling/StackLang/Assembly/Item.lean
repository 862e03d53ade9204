/-
**Items of an image.**

What the lines of a text put into an image is a list of items: bytes that are known, references to
labels, and the marks of labels and lines, which take no room.

Main definitions:

* `JumpForm`, `Item` — what an image is made of;
* `littleEndian` — a number as bytes.
-/

import StackLang.Assembly.Opcode

set_option relaxedAutoImplicit false
set_option autoImplicit false

namespace StackLang

namespace Assembly

/-! ### Numbers as bytes -/

/-- The low `width` bytes of a number, the lowest first. -/
def littleEndian : (width : Nat) → Int → List UInt8
  | 0, _ => []
  | n + 1, value => UInt8.ofNat (value % 256).toNat :: littleEndian n (value / 256)

@[simp] theorem length_littleEndian (width : Nat) (value : Int) :
    (littleEndian width value).length = width := by
  induction width generalizing value with
  | zero => rfl
  | succ n ih => simp [littleEndian, ih]

/-! ### Items -/

/-- How a jump names its target: by a distance in one byte, or by an address in two. -/
inductive JumpForm where
  | short
  | wide
deriving DecidableEq, Repr

/-- What an image is made of. -/
inductive Item where
  /-- The label `name` stands for the place of this item. -/
  | label (name : String)
  /-- An instruction of the line `number` starts at the place of this item. -/
  | line (number : Nat)
  | bytes (bs : List UInt8)
  /-- Cells without a value. -/
  | reserved (count : Nat)
  /-- The address of a label with an offset, written on the line `line`. -/
  | address (label : String) (offset : Int) (line : Nat)
  /-- A jump to a label, written on the line `line`. -/
  | jump (condition : Condition) (label : String) (line : Nat) (form : JumpForm)
deriving DecidableEq, Repr

end Assembly

end StackLang
