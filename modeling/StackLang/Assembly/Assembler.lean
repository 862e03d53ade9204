/-
**The assembler.**

A text is assembled line by line into items, which are put into a draft and laid out as an image.  A
line that is refused stops the assembly of a text; an assembler that is fed by hand goes on, with
what the refused line did before the fault.

Main definitions:

* `Assembler` — what has been assembled so far;
* `Assembler.assembleLine` — one more line;
* `Assembler.draft`, `Assembler.finish` — the draft and the finished image;
* `assemble` — the image of a text.
-/

import StackLang.Assembly.Encode
import StackLang.Assembly.Layout
import StackLang.Text.Lines

set_option relaxedAutoImplicit false
set_option autoImplicit false

namespace StackLang

namespace Assembly

/-! ### Assembly line by line -/

/-- What has been assembled so far. -/
structure Assembler where
  /-- The address of the first byte. -/
  origin : Nat
  items : Array Item
  /-- The labels so far in capitals, since two labels may not differ in case only. -/
  defined : List String
  /-- The last label that does not start with a dot. -/
  scope : Option String

namespace Assembler

/-- Nothing assembled yet. -/
def empty (origin : Nat) : Assembler := ⟨origin, #[], [], none⟩

/-- The assembler with more items. -/
def push (a : Assembler) (items : List Item) : Assembler :=
  { a with items := a.items ++ items }

/-- The assembler after the label `name`, and what is wrong with it.  A label without a dot in front
opens a scope even where it is refused. -/
def defineLabel (a : Assembler) (name : List Char) : Assembler × Option Cause :=
  let label := qualify a.scope name
  let a := if name.head? = some '.' then a else { a with scope := some label }
  let upper := label.toUpper
  if upper ∈ a.defined then (a, some (.duplicateLabel label))
  else ({ a with defined := upper :: a.defined }.push [.label label], none)

/-- The assembler with the items of an encoding, and what is wrong with it. -/
def pushResult (a : Assembler) : Except Cause (List Item) → Assembler × Option Cause
  | .ok items => (a.push items, none)
  | .error cause => (a, some cause)

/-- The assembler after an instruction or a directive on the line `line`, and what is wrong with it.
Only an instruction marks its line. -/
def assembleMnemonic (a : Assembler) (line : Nat) (mnemonic : Mnemonic)
    (operand : Option (List Char)) : Assembler × Option Cause :=
  match mnemonic with
  | .directive (.reserve width) => a.pushResult (encodeReserve width operand)
  | .directive .data =>
    match operand with
    | none => (a, some (.malformed .dataWithoutOperand))
    | some text =>
      let (bytes, cause) := encodeData a.scope (splitOperands text)
      (a.push [.bytes bytes], cause)
  | .instruction instruction =>
    (a.push [.line line]).pushResult do
      let operand ← operand.mapM (Operand.parse a.scope)
      encode line instruction operand

/-- The assembler after a label, if there is one, and what is wrong with it. -/
def defineLabel? (a : Assembler) : Option (List Char) → Assembler × Option Cause
  | none => (a, none)
  | some name => a.defineLabel name

/-- The assembler after a line in its parts, and what is wrong with it. -/
def assembleParts (a : Assembler) (line : Nat) (parts : SourceLine) : Assembler × Option Cause :=
  match a.defineLabel? parts.label with
  | (a, some cause) => (a, some cause)
  | (a, none) =>
    match parts.mnemonic with
    | none => (a, none)
    | some name =>
      match Mnemonic.parse? name with
      | none => (a, some (.unknownMnemonic (String.ofList name)))
      | some mnemonic => a.assembleMnemonic line mnemonic parts.operand

/-- **The assembler after the line `line`, and what is wrong with it.** -/
def assembleLine (a : Assembler) (line : Nat) (text : List Char) : Assembler × Option Error :=
  match SourceLine.parse text with
  | .error cause => (a, some ⟨line, cause⟩)
  | .ok parts =>
    let (a, cause) := a.assembleParts line parts
    (a, cause.map (⟨line, ·⟩))

/-- The assembler after some lines, counted from `line`, unless one is refused. -/
def assembleLines (a : Assembler) (line : Nat) : List (List Char) → Except Error Assembler
  | [] => .ok a
  | text :: texts =>
    match a.assembleLine line text with
    | (a, none) => a.assembleLines (line + 1) texts
    | (_, some e) => .error e

end Assembler

/-! ### Images -/

namespace Assembler

/-- **What has been assembled so far as a draft.** -/
def draft (a : Assembler) : Draft := .ofItems a.origin a.items.toList

/-- **The image of what has been assembled.** -/
def finish (a : Assembler) : Except Error Image := do
  let d ← a.draft.relax
  d.image

end Assembler

/-- **The image of a text**, to be put at the address `origin`. -/
def assemble (text : String) (origin : Nat) : Except Error Image := do
  let a ← (Assembler.empty origin).assembleLines 0 (Text.lines text.toList)
  a.finish

end Assembly

end StackLang
