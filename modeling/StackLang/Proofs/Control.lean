/-
**Control stays inside its function.**

The code that a compilation writes consists of the code of the statements, which ends in the halt,
and of that of the functions that calls go to, each from its entry to its return.  Every jump has a
target, which is an instruction of the same segment and not the entry.  Before the optimizer, jumps
out of loops go to the ends of the innermost loop around them, and returns to the end of their
function.

Main results:

* `Compile.exists_spliced_finish` — code as it is written was spliced last;
* `Compile.control_compile` — **control stays inside its function** in everything that is compiled.
-/

import StackLang.Proofs.Lower.Traces
import StackLang.Proofs.Segments
import StackLang.Proofs.Text.Program

set_option relaxedAutoImplicit false
set_option autoImplicit false

namespace StackLang

namespace Compile

open Relation

variable {optimize : Bool} {source : String} {compiled : Compiled}

/-- The last thing done to code as it is written is a splice, behind what the optimizer did. -/
theorem exists_spliced_finish (optimize : Bool) {c : Code} (hreg : Machine.Regular c.instrs) :
    ∃ is, ReflTransGen Peephole.Improves c.instrs is ∧
      (finish optimize c).1.instrs = Code.spliced is := by
  cases optimize with
  | false => exact ⟨c.instrs, .refl, rfl⟩
  | true => exact ⟨(c.optimize .zero).1.instrs, Peephole.improved_optimize hreg .zero, rfl⟩

/-- **Control stays inside its function**: what is compiled consists of the segment of the
statements and of one for each function that is called; the jumps have targets, which are in their
own segments and are no entries; nothing is left that does nothing.  In the code before the
optimizer, jumps out of loops go with the innermost loop around them, and returns to the end of
their function. -/
theorem control_compile (h : compile optimize source = .ok compiled) :
    ∃ t typing c, tree source = .ok t ∧ lowered (prepare optimize t) = .ok (typing, c) ∧
      compiled.code = (finish optimize c).1 ∧
      Segments (none :: (Lower.reached typing.round).map fun i => some i.name)
        compiled.code.instrs ∧
      (compiled.code.instrs.map Instr.id).Nodup ∧ Linked compiled.code.instrs ∧
      (∀ i ∈ compiled.code.instrs, i.isNop = false) ∧
      Lower.UnitControl typing c.instrs := by
  obtain ⟨t, htree, -⟩ := Step.except_bind_eq_ok.1 h
  obtain ⟨typing, c, text, hinfer, hc, hcode, -⟩ := exists_of_compile htree h
  have hlowered : lowered (prepare optimize t) = .ok (typing, c) := by
    simp [lowered, bind, Except.bind, pure, Except.pure, hinfer, hc]
  obtain ⟨k, hunit⟩ := emits_lowered hlowered
  obtain ⟨is, hsteps, hspliced⟩ := exists_spliced_finish optimize hunit.regular
  have hreg := Peephole.regular_of_improved hsteps hunit.regular
  have hsegments := hunit.segments.of_improved hsteps hunit.regular
  refine ⟨t, typing, c, htree, hlowered, hcode, ?_⟩
  rw [hcode, hspliced]
  exact ⟨hsegments.spliced hreg, (Code.regular_spliced hreg).nodup,
    Peephole.linked_spliced hreg (Peephole.linked_of_improved hsteps hunit.regular hunit.linked),
    hsegments.isNop_eq_false, hunit.control⟩

/-- Loops inside each other with jumps out of them, in a function that returns from inside. -/
theorem control_compile_loops : ∃ compiled,
    compile false
      "def f(x) { while x { while 1 { if x { break } continue } return 2 } 3 } 1 + f(4)"
      = .ok compiled ∧
    ∃ t typing c, tree
        "def f(x) { while x { while 1 { if x { break } continue } return 2 } 3 } 1 + f(4)"
        = .ok t ∧ lowered (prepare false t) = .ok (typing, c) ∧
      compiled.code = (finish false c).1 ∧
      Segments (none :: (Lower.reached typing.round).map fun i => some i.name)
        compiled.code.instrs ∧
      (compiled.code.instrs.map Instr.id).Nodup ∧ Linked compiled.code.instrs ∧
      (∀ i ∈ compiled.code.instrs, i.isNop = false) ∧
      Lower.UnitControl typing c.instrs := by
  have hrun : (compile false
      "def f(x) { while x { while 1 { if x { break } continue } return 2 } 3 } 1 + f(4)"
      ).toOption.isSome = true := by decide +kernel
  obtain ⟨compiled, hcompiled⟩ := Option.isSome_iff_exists.1 hrun
  have hcompiled := Step.eq_ok_of_toOption hcompiled
  exact ⟨compiled, hcompiled, control_compile hcompiled⟩

end Compile

end StackLang
