/-
**Taking out instructions that do nothing.**

An instruction that does nothing is taken out of the list, and the jumps to it go to the next
instruction that stays.  At the end of the list there is no next one, so the last instruction always
stays.

Main definitions:

* `Code.thin` — the instructions that stay, and what takes the place of the others;
* `Code.splice` — the code without instructions that do nothing, and how many were taken out.
-/

import StackLang.Code.Basic

set_option relaxedAutoImplicit false
set_option autoImplicit false

namespace StackLang

namespace Code

/-- The instructions that stay, and the pairs of one that goes and the one that takes its place. -/
def thin : List Instr → List Instr × List (Nat × Nat)
  | [] => ([], [])
  | i :: is =>
    match i.isNop, thin is with
    | true, (j :: kept, gone) => (j :: kept, (i.id, j.id) :: gone)
    | _, (kept, gone) => (i :: kept, gone)

/-- The instruction with its target moved to the one that takes its place. -/
def redirect (gone : List (Nat × Nat)) (i : Instr) : Instr :=
  match i.targetId?.bind fun k => gone.lookup k with
  | some k => { i with target := some (.instr k) }
  | none => i

/-- The code without the instructions that do nothing, except at its end; and how many were taken
out. -/
def splice (c : Code) : Nat × Code :=
  let (kept, gone) := thin c.instrs
  (gone.length,
    { c with instrs := kept.map (redirect gone), replaced := gone ++ c.replaced })

end Code

end StackLang
