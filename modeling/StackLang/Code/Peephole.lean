/-
**The peephole optimizer.**

A pass goes over the instructions once.  At each one that does something it tries six rules, the
first that applies is used, and the walk goes on behind that instruction.  A rule changes
instructions in place or makes them do nothing, from the instruction where it is tried onward; the
list keeps its length and its identities.  A rule never reaches over an instruction that a jump goes
to, unless the rule accounts for that jump itself; for this the pass keeps count of the jumps to
each instruction.

The optimizer takes out what does nothing and runs a pass, again and again until a pass changes
nothing.  Each change takes away an instruction that does something or a push of an operand, which
bounds the number of passes.

Main definitions:

* `Peephole.References` — how many jumps go to each instruction;
* `Peephole.Rule`, `Peephole.rules` — the rules;
* `Peephole.pass` — one pass;
* `Code.optimize` — passes until nothing changes.
-/

import StackLang.Code.Splice
import Std.Data.HashMap

set_option relaxedAutoImplicit false
set_option autoImplicit false

namespace StackLang

namespace Peephole

/-! ### Jumps to an instruction -/

/-- How many jumps go to each instruction. -/
abbrev References := Std.HashMap Nat Nat

namespace References

/-- The number of jumps to an instruction. -/
def count (refs : References) (k : Nat) : Nat := refs.getD k 0

/-- One more jump to an instruction. -/
def add (refs : References) (k : Nat) : References := refs.insert k (refs.count k + 1)

/-- One jump less to an instruction. -/
def release (refs : References) (k : Nat) : References := refs.insert k (refs.count k - 1)

/-- The jump of an instruction is gone. -/
def releaseTarget (refs : References) (i : Instr) : References :=
  match i.targetId? with
  | some k => refs.release k
  | none => refs

/-- The jumps of some instructions. -/
def ofInstrs (is : List Instr) : References :=
  is.foldl (fun refs i => match i.targetId? with
    | some k => refs.add k
    | none => refs) ∅

/-- Whether no jump goes to an instruction. -/
def isPlain (refs : References) (i : Instr) : Bool := refs.count i.id = 0

end References

/-! ### Rules -/

/-- The names of the rules. -/
inductive RuleName where
  | comparisonJump
  | jumpToNext
  | constantJump
  | deadPair
  | floatLiteral
  | duplicateLoad
deriving DecidableEq, Repr

/-- A rule: the instructions from where it is tried onward as it leaves them, with the count of
jumps after it; nothing where it does not apply. -/
abbrev Rule := References → List Instr → Option (List Instr × References)

/-- A comparison whose truth value is tested at once is one jump:

```
    Jcc  T                J(not cc) X   for JEQ X
    LOAD32 0              Jcc X         for JNE X
    JMP  E
T:  LOAD32 1
E:  POP32
    JEQ/JNE X
```

No other jump goes to `T` or `E`. -/
def comparisonJump : Rule := fun refs is =>
  match is with
  | first :: zero :: skip :: one :: drop :: test :: rest =>
    match first.op, test.op with
    | .jump cc, .jump c =>
      if cc.isConditional ∧ (c = .equal ∨ c = .notEqual)
          ∧ refs.isPlain zero ∧ refs.isPlain skip ∧ refs.isPlain test
          ∧ zero.pushed? = some 0 ∧ skip.op = .jump .always ∧ one.pushed? = some 1 ∧ drop.op = .pop
          ∧ first.targetId? = some one.id ∧ refs.count one.id = 1
          ∧ skip.targetId? = some drop.id ∧ refs.count drop.id = 1 then
        some ({ first with
              op := .jump (if c = .equal then cc.negate else cc)
              target := test.target }
            :: zero.erase :: skip.erase :: one.erase :: drop.erase :: test.erase :: rest,
          (refs.release one.id).release drop.id)
      else none
    | _, _ => none
  | _ => none

/-- Whether the first of some instructions other than those that do nothing, or one before it, is
`k`. -/
def reaches (k : Nat) : List Instr → Bool
  | [] => false
  | i :: is => i.id = k || (i.isNop && reaches k is)

/-- A jump to the next instruction does nothing. -/
def jumpToNext : Rule := fun refs is =>
  match is with
  | i :: rest =>
    match i.op.isJump, i.targetId? with
    | true, some k => if reaches k rest then some (i.erase :: rest, refs.release k) else none
    | _, _ => none
  | [] => none

/-- A test of a known integer is a jump or nothing. -/
def constantJump : Rule := fun refs is =>
  match is with
  | first :: drop :: test :: rest =>
    match first.pushed?, test.op with
    | some n, .jump c =>
      if refs.isPlain drop ∧ refs.isPlain test ∧ drop.op = .pop ∧ c.isConditional then
        if c.holds n then
          some (⟨first.id, .jump .always, .none, test.target, none⟩
            :: drop.erase :: test.erase :: rest, refs)
        else some (first.erase :: drop.erase :: test.erase :: rest, refs.releaseTarget test)
      else none
    | _, _ => none
  | _ => none

/-- Whether the first of some instructions that does something is a conditional jump. -/
def testsNext : List Instr → Bool
  | [] => false
  | i :: is => if i.isNop then testsNext is else i.op.isConditionalJump

/-- A cell that is pushed and dropped at once need not be pushed, unless a jump tests it. -/
def deadPair : Rule := fun refs is =>
  match is with
  | first :: drop :: rest =>
    if (first.op = .load ∨ first.op = .dup) ∧ refs.isPlain drop ∧ drop.op = .pop
        ∧ testsNext rest = false then
      some (first.erase :: drop.erase :: rest, refs)
    else none
  | _ => none

/-- A known integer that is turned into a float is a float. -/
def floatLiteral : Rule := fun refs is =>
  match is with
  | first :: change :: rest =>
    match first.pushed? with
    | some n =>
      if refs.isPlain change ∧ change.op = .toFloat then
        some ({ first with operand := .float (.ofInt32 n), comment := none }
          :: change.erase :: rest, refs)
      else none
    | none => none
  | _ => none

/-- A cell that is pushed twice is pushed and copied. -/
def duplicateLoad : Rule := fun refs is =>
  match is with
  | first :: second :: rest =>
    if first.op = .load ∧ second.op = .load ∧ first.operand = second.operand
        ∧ refs.isPlain second then
      some (first :: { second with op := .dup, operand := .none, comment := none } :: rest, refs)
    else none
  | _ => none

/-- The rules in the order in which they are tried. -/
def rules : List (RuleName × Rule) :=
  [(.comparisonJump, comparisonJump), (.jumpToNext, jumpToNext), (.constantJump, constantJump),
    (.deadPair, deadPair), (.floatLiteral, floatLiteral), (.duplicateLoad, duplicateLoad)]

/-- The first rule that applies, with its outcome. -/
def firstRule? (refs : References) (is : List Instr) :
    Option (RuleName × List Instr × References) :=
  rules.findSome? fun (name, rule) => (rule refs is).map fun out => (name, out)

/-! ### Passes -/

/-- One pass over the next `n` instructions: the instructions after it, and the rules used in order.
-/
def pass : Nat → References → List Instr → List Instr × List RuleName
  | 0, _, is => (is, [])
  | _ + 1, _, [] => ([], [])
  | n + 1, refs, i :: is =>
    if i.isNop then
      let (rest, used) := pass n refs is
      (i :: rest, used)
    else
      match firstRule? refs (i :: is) with
      | some (name, j :: js, refs) =>
        let (rest, used) := pass n refs js
        (j :: rest, name :: used)
      | _ =>
        let (rest, used) := pass n refs is
        (i :: rest, used)

/-- One pass over all instructions. -/
def passAll (is : List Instr) : List Instr × List RuleName :=
  pass is.length (.ofInstrs is) is

/-! ### Statistics -/

/-- What the optimizer did. -/
structure Stats where
  /-- Passes, with the last one, which changed nothing. -/
  passes : Nat
  duplicateLoads : Nat
  deadPairs : Nat
  constantJumps : Nat
  floatLiterals : Nat
  comparisonJumps : Nat
  jumpsToNext : Nat
  /-- Instructions that were taken out because they did nothing. -/
  nopsRemoved : Nat
deriving DecidableEq, Repr

namespace Stats

/-- Nothing was done. -/
def zero : Stats := ⟨0, 0, 0, 0, 0, 0, 0, 0⟩

/-- The uses of rules, all together. -/
def total (s : Stats) : Nat :=
  s.duplicateLoads + s.deadPairs + s.constantJumps + s.floatLiterals + s.comparisonJumps
    + s.jumpsToNext

/-- One more use of a rule. -/
def add (s : Stats) : RuleName → Stats
  | .comparisonJump => { s with comparisonJumps := s.comparisonJumps + 1 }
  | .jumpToNext => { s with jumpsToNext := s.jumpsToNext + 1 }
  | .constantJump => { s with constantJumps := s.constantJumps + 1 }
  | .deadPair => { s with deadPairs := s.deadPairs + 1 }
  | .floatLiteral => { s with floatLiterals := s.floatLiterals + 1 }
  | .duplicateLoad => { s with duplicateLoads := s.duplicateLoads + 1 }

/-- One more pass, which used the given rules after `removed` instructions were taken out. -/
def addPass (removed : Nat) (used : List RuleName) (s : Stats) : Stats :=
  used.foldl add { s with passes := s.passes + 1, nopsRemoved := s.nopsRemoved + removed }

end Stats

end Peephole

namespace Code

open Peephole

/-- Splices and runs passes until one changes nothing, at most `fuel` of them. -/
def optimizeFrom : Nat → Code → Stats → Code × Stats
  | 0, c, s => (c, s)
  | fuel + 1, c, s =>
    let (removed, c) := c.splice
    let (instrs, used) := passAll c.instrs
    let c := { c with instrs }
    let s := s.addPass removed used
    if used = [] then (c, s) else optimizeFrom fuel c s

/-- **The optimized code**, and the statistics with what was done added to `s`.  A use of a rule
takes away an instruction that does something or a push, so no more passes than this can change
something. -/
def optimize (c : Code) (s : Stats) : Code × Stats := optimizeFrom (2 * c.length + 1) c s

end Code

end StackLang
