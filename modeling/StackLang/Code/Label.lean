/-
**Labels of jump targets.**

Before code is written as text, every instruction that a jump goes to gets a label.  Labels are
given in the order in which the jumps stand in the code, and one that was given stays.

Main definitions:

* `Code.assignLabels` — the code with labels, and how many were given;
* `Code.finalize` — the code as it is written: spliced and labelled.
-/

import StackLang.Code.Splice
import StackLang.Typing.Names

set_option relaxedAutoImplicit false
set_option autoImplicit false

namespace StackLang

namespace Code

/-- Gives labels to the targets of some instructions: the new labels, and the counters after them.
-/
def labelTargets (labels : List (Nat × String)) (counters : Counters) :
    List Instr → List (Nat × String) × Counters
  | [] => (labels, counters)
  | i :: is =>
    match i.targetId? with
    | none => labelTargets labels counters is
    | some k =>
      match labels.lookup k with
      | some _ => labelTargets labels counters is
      | none =>
        let (label, counters) := counters.labelName
        labelTargets ((k, label) :: labels) counters is

/-- The code with a label for every target of a jump, the number of new labels, and the counters. -/
def assignLabels (c : Code) (counters : Counters) : Nat × Code × Counters :=
  let (labels, counters) := labelTargets c.labels counters c.instrs
  (labels.length - c.labels.length, { c with labels }, counters)

/-- The code as it is written, and the counters after its labels. -/
def finalize (c : Code) (counters : Counters) : Code × Counters :=
  (c.splice.2.assignLabels counters).2

end Code

end StackLang
