/-
**The optimizer keeps the result.**

A pass tries its rules at one instruction after another, so it makes a chain of changes, each with
the instructions that the walk has passed before it.  The optimizer puts splices between the passes.
What every change and every splice keeps, the optimizer therefore keeps.

Main definitions:

* `Peephole.Improves` — one change or one splice.

Main results:

* `Peephole.improved_passAll`, `Peephole.improved_optimize` — a pass and the optimizer make a chain
  of them;
* `Peephole.halts_of_improved` — a chain of them keeps what a run to a halt shows.
-/

import StackLang.Proofs.Peephole.Sound
import StackLang.Proofs.Peephole.Walk
import StackLang.Proofs.Splice

set_option relaxedAutoImplicit false
set_option autoImplicit false

namespace StackLang

namespace Peephole

open Machine Relation

/-- One change of a rule, or one splice. -/
inductive Improves : List Instr → List Instr → Prop where
  | change {pre post seg seg' : List Instr} (h : Rewrites pre post seg seg') :
      Improves (pre ++ (seg ++ post)) (pre ++ (seg' ++ post))
  | splice (is : List Instr) : Improves is (Code.spliced is)

/-! ### What is kept -/

variable {code code' : List Instr}

theorem Improves.regular (h : Improves code code') (hreg : Regular code) : Regular code' := by
  cases h with
  | change h => exact h.regular hreg
  | splice => exact Code.regular_spliced hreg

theorem Improves.guarded (h : Improves code code') (hreg : Regular code) (hcode : Guarded code) :
    Guarded code' := by
  cases h with
  | change h => exact h.guarded hcode
  | splice => exact Code.guarded_spliced hreg hcode

theorem Improves.halts (h : Improves code code') (hreg : Regular code) (hcode : Guarded code)
    {o : Outcome} (ho : Halts code o) : Halts code' o := by
  cases h with
  | change h => exact h.halts hreg hcode ho
  | splice => exact Code.halts_spliced hreg hcode ho

theorem regular_of_improved (h : ReflTransGen Improves code code') (hreg : Regular code) :
    Regular code' := by
  induction h with
  | refl => exact hreg
  | tail _ h ih => exact h.regular ih

theorem guarded_of_improved (h : ReflTransGen Improves code code') (hreg : Regular code)
    (hcode : Guarded code) : Guarded code' := by
  induction h with
  | refl => exact hcode
  | tail hs h ih => exact h.guarded (regular_of_improved hs hreg) ih

/-- **Changes and splices keep what a run to a halt shows.** -/
theorem halts_of_improved (h : ReflTransGen Improves code code') (hreg : Regular code)
    (hcode : Guarded code) {o : Outcome} (ho : Halts code o) : Halts code' o := by
  induction h with
  | refl => exact ho
  | tail hs h ih =>
      exact h.halts (regular_of_improved hs hreg) (guarded_of_improved hs hreg hcode) ih

/-! ### Passes -/

/-- A step of a pass is a change, or it leaves the code as it is. -/
theorem Walk.IsSound.improved_step {w : Walk} (h : w.IsSound) :
    ReflTransGen Improves w.code w.step.code := by
  rcases h.code_step with ⟨hcode, -⟩ | ⟨_, _, _, _, hchange, hold, hnew, -⟩
  · rw [hcode]
  · rw [hold, hnew]
    exact .single (.change hchange)

theorem Walk.IsSound.improved_iterate {w : Walk} (h : w.IsSound) (n : Nat) :
    ReflTransGen Improves w.code (Walk.step^[n] w).code := by
  induction n with
  | zero => exact .refl
  | succ n ih =>
      rw [Function.iterate_succ_apply']
      exact ih.trans (h.iterate n).improved_step

/-- **A pass is a chain of changes.** -/
theorem improved_passAll (hreg : Regular code) :
    ReflTransGen Improves code (passAll code).1 := by
  rw [Walk.passAll_eq]
  exact (Walk.isSound_start hreg).improved_iterate code.length

theorem improved_optimizeFrom (fuel : Nat) {c : Code} (hreg : Regular c.instrs) (s : Stats) :
    ReflTransGen Improves c.instrs (c.optimizeFrom fuel s).1.instrs := by
  induction fuel generalizing c s with
  | zero => exact .refl
  | succ fuel ih =>
      have hsplice : Improves c.instrs c.splice.2.instrs := .splice c.instrs
      have hpass := improved_passAll (hsplice.regular hreg)
      have hboth := ReflTransGen.head hsplice hpass
      rw [Code.optimizeFrom]
      simp only
      split
      case isTrue => exact hboth
      case isFalse =>
        refine hboth.trans ?_
        exact @ih { c.splice.2 with instrs := (passAll c.splice.2.instrs).1 }
          (regular_of_improved hboth hreg) _

/-- **The optimizer makes a chain of changes and splices.** -/
theorem improved_optimize {c : Code} (hreg : Regular c.instrs) (s : Stats) :
    ReflTransGen Improves c.instrs (c.optimize s).1.instrs :=
  improved_optimizeFrom _ hreg s

end Peephole

end StackLang
