/-
**The text of code.**

Each instruction takes one line that starts with a tab; labels and the names of functions take lines
of their own.  A jump is written with the label of its target, so the text exists only after labels
were given.

Main definitions:

* `Code.lines` — the lines of some instructions;
* `Code.text` — the text of code.
-/

import StackLang.Code.Basic
import StackLang.Text.Lines
import StackLang.Typing.Error

set_option relaxedAutoImplicit false
set_option autoImplicit false

namespace StackLang

namespace Code

/-- The text of what stands behind the name of an instruction. -/
def argument (c : Code) (i : Instr) : Except InternalError String :=
  match i.target with
  | none => .ok i.operand.text
  | some .epilogue => .error (.openReturn i.id)
  | some (.instr k) =>
    match c.label? k with
    | some label => .ok label
    | none => .error (.unlabelledTarget i.id)

/-- The line of an instruction. -/
def line (mnemonic argument : String) (remark : Option String) : String :=
  let head := "\t" ++ mnemonic ++ if argument.isEmpty then "" else " " ++ argument
  match remark with
  | some remark => head ++ "    ; " ++ remark
  | none => head

/-- The lines of an instruction after its label. -/
def body (c : Code) (i : Instr) : Except InternalError (List String) :=
  match i.op with
  | .entry name => .ok [name ++ ":"]
  | .assembly text => .ok ((Text.lines text.toList).map String.ofList)
  | op =>
    match op.mnemonic? with
    | none => .ok []
    | some mnemonic => do pure [line mnemonic (← c.argument i) i.remark?]

/-- The lines of an instruction with its label. -/
def linesOf (c : Code) (i : Instr) : Except InternalError (List String) := do
  let label := match c.label? i.id with
    | some label => [label ++ ":"]
    | none => []
  pure (label ++ (← c.body i))

/-- The lines of some instructions. -/
def lines (c : Code) : List Instr → Except InternalError (List String)
  | [] => .ok []
  | i :: is => do
    let first ← c.linesOf i
    let rest ← c.lines is
    pure (first ++ rest)

/-- **The text of code.** Each line ends with a line feed, and there is at least one. -/
def text (c : Code) : Except InternalError String := do
  pure ("\n".intercalate (← c.lines c.instrs) ++ "\n")

end Code

end StackLang
