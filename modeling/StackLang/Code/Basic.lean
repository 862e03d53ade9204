/-
**Code.**

Code is a list of instructions with distinct identities.  Jumps name their targets by identity, so
an instruction can be a target before it has a place in the list, and it can lose its place and stay
a target.  Labels are given to identities, whether they have a place or not.

Main definitions:

* `Code` — a list of instructions;
* `Code.append`, `Code.ofLinked` — adding an instruction, and giving places to given ones;
* `Code.resolveReturns` — the end of a function becomes known;
* `Code.label?`, `Code.position?` — the label and the place of an identity.
-/

import StackLang.Code.Instr

set_option relaxedAutoImplicit false
set_option autoImplicit false

namespace StackLang

/-- A list of instructions. -/
structure Code where
  /-- The next identity that is free. -/
  fresh : Nat
  /-- The instructions in the order in which they run. -/
  instrs : List Instr
  /-- The labels, by identity. -/
  labels : List (Nat × String)
  /-- The instructions that lost their place, with the one that took it. -/
  replaced : List (Nat × Nat)

namespace Code

/-- Code of given instructions, none of which has a label. -/
def ofInstrs (fresh : Nat) (instrs : List Instr) : Code := ⟨fresh, instrs, [], []⟩

/-- Gives an instruction the place at the end of a list.  One that has a place already keeps that,
and the list ends there. -/
def place (i : Instr) (instrs : List Instr) : List Instr :=
  instrs.takeWhile (fun j => j.id ≠ i.id) ++ [i]

/-- Code of the given instructions, placed in the order of `order`. -/
def ofOrder (all : List Instr) (order : List Nat) : Code :=
  ofInstrs all.length
    (order.foldl (fun is k => match all[k]? with
      | some i => place i is
      | none => is) [])

/-- The number of instructions that have a place. -/
def length (c : Code) : Nat := c.instrs.length

/-- The label of an identity. -/
def label? (k : Nat) (c : Code) : Option String := c.labels.lookup k

/-- The place of an identity in the list. -/
def position? (k : Nat) (c : Code) : Option Nat := c.instrs.findIdx? fun i => i.id = k

/-- The code with one more instruction at its end, which is made for the next free identity. -/
def append (make : Nat → Instr) (c : Code) : Code :=
  { c with fresh := c.fresh + 1, instrs := c.instrs ++ [make c.fresh] }

/-! ### Returns -/

/-- The instruction with the end of its function known. -/
def resolveInstr (epilogue : Nat) (i : Instr) : Instr :=
  if i.target = some .epilogue then { i with target := some (.instr epilogue) } else i

/-- The instruction that stands in the place of `k`: `k` itself or the one that took its place, and
so on for that one. -/
def standIn (c : Code) : Nat → Nat → Nat
  | 0, k => k
  | fuel + 1, k =>
    match c.replaced.lookup k with
    | some j => standIn c fuel j
    | none => k

/-- The end of the function that starts at `start` becomes known: the jumps to it, from `start` to
the end of the code, go to `epilogue`. -/
def resolveReturns (start epilogue : Nat) (c : Code) : Code :=
  let start := c.standIn c.replaced.length start
  let before := c.instrs.takeWhile fun i => i.id ≠ start
  let after := c.instrs.dropWhile fun i => i.id ≠ start
  { c with instrs := before ++ after.map (resolveInstr epilogue) }

/-- The names of the functions whose code is here, in order. -/
def functions (c : Code) : List String :=
  c.instrs.filterMap fun i =>
    match i.op with
    | .entry name => some name
    | _ => none

end Code

end StackLang
