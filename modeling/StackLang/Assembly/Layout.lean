/-
**Layout of an image.**

While lines are assembled, the bytes of the image are put into cells one behind the other, and every
label and every line of an instruction is noted with the address of the cell that comes next.  A
reference to a label takes a cell for each of its bytes, the first of which names the label.  All
jumps start in their wide form.  A jump whose target is near enough is made short: one of its cells
is taken out, and the addresses behind that cell come one nearer.  Passes over all cells go on until
one makes no jump short; then the references are written with the addresses that the labels have.

All of this is done with addresses, which count from zero and not from the first byte.  Addresses
are numbers without a bound: those of thirty-two bits are enough for every image that fits into
memory, and an address is cut where it is written, not where it is noted.

Main definitions:

* `Reaches` — whether a target is near enough for a short jump;
* `Draft` — cells with the addresses of labels and lines;
* `Draft.push` — what an item of the text puts into a draft;
* `Draft.relax` — passes that make jumps short, as often as it helps;
* `Draft.resolve` — the cells as bytes;
* `Image`, `Draft.image` — the finished image.
-/

import StackLang.Assembly.Error
import StackLang.Assembly.Item

set_option relaxedAutoImplicit false
set_option autoImplicit false

namespace StackLang

namespace Assembly

/-! ### Addresses of labels -/

/-- The address of a label that is used on the line `line`. -/
def findLabel (table : List (String × Nat)) (name : String) (line : Nat) : Except Error Nat :=
  match table.lookup name with
  | some place => .ok place
  | none => .error ⟨line, .undefinedLabel name⟩

/-- The distance from the operand of a jump, at `here`, to its target once the jump is short: a
target behind the jump comes one byte nearer. -/
def shortDistance (here target : Nat) : Int :=
  if here < target then (target : Int) - 1 - here else (target : Int) - here

/-- Whether a wide jump with its operand at `here` can be short. -/
def Reaches (here target : Nat) : Prop :=
  -128 ≤ shortDistance here target ∧ shortDistance here target ≤ 127

instance (here target : Nat) : Decidable (Reaches here target) := by
  unfold Reaches; infer_instance

/-- The labels when the byte behind `here` is taken out. -/
def shiftDown (here : Nat) (table : List (String × Nat)) : List (String × Nat) :=
  table.map fun (name, place) => (name, if here < place then place - 1 else place)

/-! ### Addresses of lines -/

/-- The lines, the last one first, when one more is noted at an address behind the others or at that
of the last one, which it replaces. -/
def noteLine (address number : Nat) : List (Nat × Nat) → List (Nat × Nat)
  | [] => [(address, number)]
  | (last, other) :: lines =>
    if last = address then (address, number) :: lines
    else (address, number) :: (last, other) :: lines

/-- The lines, the last one first, when the byte behind `here` is taken out. -/
def shiftNotes (here : Nat) (lines : List (Nat × Nat)) : List (Nat × Nat) :=
  lines.foldr (fun (address, number) =>
    noteLine (if here < address then address - 1 else address) number) []

/-! ### Cells -/

namespace Draft

/-- A byte of an image that is not finished. -/
inductive Cell where
  | byte (b : UInt8)
  /-- A byte without a value. -/
  | reserved
  /-- The low byte of the address of a label with an offset, written on the line `line`. -/
  | address (label : String) (offset : Int) (line : Nat)
  /-- The operand of a jump to a label, written on the line `line`: the low byte of its address, or
  the distance to it. -/
  | branch (label : String) (line : Nat) (form : JumpForm)
  /-- The high byte of an address. -/
  | high
deriving DecidableEq, Repr

end Draft

/-- **Cells with the addresses of labels and lines.** -/
structure Draft where
  /-- The address of the first cell. -/
  origin : Nat
  cells : Array Draft.Cell
  labels : List (String × Nat)
  /-- The addresses of the instructions with their lines, the last one first. -/
  lines : List (Nat × Nat)

/-- The cells of an item: a reference to a label has one for each of its bytes. -/
def Item.draft : Item → List Draft.Cell
  | .label _ => []
  | .line _ => []
  | .bytes bs => bs.map .byte
  | .reserved count => List.replicate count .reserved
  | .address name offset ln => [.address name offset ln, .high]
  | .jump condition name ln .wide =>
    [.byte (Opcode.wideJump condition), .branch name ln .wide, .high]
  | .jump condition name ln .short =>
    [.byte (Opcode.shortJump condition), .branch name ln .short]

namespace Draft

/-- A draft without a cell. -/
def empty (origin : Nat) : Draft := ⟨origin, #[], [], []⟩

/-- The address of the next cell. -/
def position (d : Draft) : Nat := d.origin + d.cells.size

/-- The draft with one more item.  Labels and lines are noted with the address of the next cell. -/
def push (d : Draft) : Item → Draft
  | .label name => { d with labels := d.labels ++ [(name, d.position)] }
  | .line number => { d with lines := noteLine d.position number d.lines }
  | item => { d with cells := d.cells ++ item.draft }

/-- The draft of some items. -/
def ofItems (origin : Nat) (items : List Item) : Draft := items.foldl push (empty origin)

/-! ### Passes -/

/-- The opcode of a jump in its short form. -/
def Cell.shortOpcode : Cell → Cell
  | .byte b => .byte (b &&& 0xFE)
  | cell => cell

/-- A draft during a pass. -/
structure Scan where
  /-- The cells that the pass has left behind, the last one first. -/
  before : List Cell
  labels : List (String × Nat)
  lines : List (Nat × Nat)
  /-- The number of jumps that were made short. -/
  shrunk : Nat

namespace Scan

/-- The pass leaves a cell behind as it is. -/
def skip (s : Scan) (cell : Cell) : Scan := { s with before := cell :: s.before }

/-- The jump with its operand at `here` is made short: it takes the short opcode, its second cell is
taken out, and what stands behind comes nearer. -/
def shrink (s : Scan) (here : Nat) (name : String) (line : Nat) : Scan :=
  { before := .branch name line .short :: s.before.modifyHead Cell.shortOpcode
    labels := shiftDown here s.labels
    lines := shiftNotes here s.lines
    shrunk := s.shrunk + 1 }

end Scan

/-- The pass over some cells, the first of them at the address `here`. -/
def scanFrom (here : Nat) (s : Scan) : List Cell → Except Error Scan
  | .branch name line .wide :: second :: cells =>
    match findLabel s.labels name line with
    | .error e => .error e
    | .ok target =>
      if Reaches here target then scanFrom (here + 1) (s.shrink here name line) cells
      else scanFrom (here + 1) (s.skip (.branch name line .wide)) (second :: cells)
  | cell :: cells => scanFrom (here + 1) (s.skip cell) cells
  | [] => .ok s

/-- The draft after a pass from the first cell to the last, with the number of jumps that were made
short. -/
def pass (d : Draft) : Except Error (Draft × Nat) := do
  let s ← scanFrom d.origin ⟨[], d.labels, d.lines, 0⟩ d.cells.toList
  pure (⟨d.origin, s.before.reverse.toArray, s.labels, s.lines⟩, s.shrunk)

/-- Every jump that is made short takes a cell out. -/
theorem length_scanFrom {here : Nat} {s s' : Scan} {cells : List Cell}
    (h : scanFrom here s cells = .ok s') :
    s'.before.length + s'.shrunk = s.before.length + s.shrunk + cells.length := by
  fun_induction scanFrom here s cells with
  | case1 => cases h
  | case2 here s name line second cells target _ _ ih =>
      have := ih h
      simp only [Scan.shrink, List.length_cons, List.length_modifyHead] at this ⊢
      omega
  | case3 here s name line second cells target _ _ ih =>
      have := ih h
      simp only [Scan.skip, List.length_cons] at this ⊢
      omega
  | case4 here s cell cells _ ih =>
      have := ih h
      simp only [Scan.skip, List.length_cons] at this ⊢
      omega
  | case5 =>
      cases h
      simp

theorem size_pass {d next : Draft} {shrunk : Nat} (h : d.pass = .ok (next, shrunk)) :
    next.cells.size + shrunk = d.cells.size := by
  unfold pass at h
  cases hs : scanFrom d.origin ⟨[], d.labels, d.lines, 0⟩ d.cells.toList with
  | error e =>
      rw [hs] at h
      cases h
  | ok s =>
      rw [hs] at h
      cases h
      simpa using length_scanFrom hs

/-- **The draft with as many short jumps as can be.** Passes go on until one makes no jump short. -/
def relax (d : Draft) : Except Error Draft :=
  match h : d.pass with
  | .error e => .error e
  | .ok (next, shrunk) =>
    if shrunk = 0 then .ok next
    else
      have := size_pass h
      next.relax
termination_by d.cells.size

/-! ### Bytes -/

/-- A cell at the address `here` as bytes.  A reference is written by its first cell, and the
address of a label is cut to two bytes. -/
def Cell.write (labels : List (String × Nat)) (here : Nat) : Cell → Except Error (List UInt8)
  | .byte b => .ok [b]
  | .reserved => .ok [0]
  | .address name offset line => do
    let target ← findLabel labels name line
    pure (littleEndian 2 (target + offset))
  | .branch name line .wide => do
    let target ← findLabel labels name line
    pure (littleEndian 2 target)
  | .branch name line .short => do
    let target ← findLabel labels name line
    pure (littleEndian 1 ((target : Int) - here))
  | .high => .ok []

/-- Some bytes with those of the cells behind them, the first of which stands at the address
`here`. -/
def writeFrom (labels : List (String × Nat)) (here : Nat) (done : Array UInt8) :
    List Cell → Except Error (Array UInt8)
  | [] => .ok done
  | cell :: cells => do
    let bytes ← cell.write labels here
    writeFrom labels (here + 1) (done ++ bytes) cells

/-- **The cells as bytes.** Cells without a value are zero, and those at the end are left out. -/
def resolve (d : Draft) : Except Error (Array UInt8) :=
  writeFrom d.labels d.origin #[] (d.cells.toList.reverse.dropWhile (· = .reserved)).reverse

end Draft

/-! ### Images -/

/-- An image with the addresses of what was in the text. -/
structure Image where
  /-- The address of the first byte. -/
  origin : Nat
  bytes : List UInt8
  /-- The addresses of the labels, sorted by name. -/
  labels : List (String × Nat)
  /-- The addresses of the instructions with their lines, in order. -/
  lines : List (Nat × Nat)
deriving DecidableEq, Repr

/-- **The image of a draft** whose jumps stay in their forms. -/
def Draft.image (d : Draft) : Except Error Image := do
  let bytes ← d.resolve
  pure ⟨d.origin, bytes.toList, d.labels.mergeSort fun x y => x.1 ≤ y.1, d.lines.reverse⟩

end Assembly

end StackLang
