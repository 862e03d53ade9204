/-
**The optimizer keeps the result of a program.**

The code of a unit is regular, and its conditional jumps stand behind the pops whose cells they
test.  That is all that the changes of the optimizer ask for.

Main results:

* `Compile.improved_finish` — code as it is written was made by changes and splices;
* `Compile.halts_optimize` — optimized code halts as the code of the program does, with the same top
  cell, the same number of cells and the same variables.
-/

import StackLang.Compile
import StackLang.Proofs.Lower.Regular
import StackLang.Proofs.Peephole.Optimize

set_option relaxedAutoImplicit false
set_option autoImplicit false

namespace StackLang

namespace Compile

open Machine

variable {fold : Bool} {t : Node Span} {typing : Typing} {c : Code}

/-- Code that was lowered is the code of a unit. -/
theorem emits_lowered (h : lowered t = .ok (typing, c)) :
    ∃ k, Lower.EmitsUnit typing c.instrs k := by
  rw [lowered] at h
  cases ht : (Document.ofTree t).infer with
  | error e =>
      rw [ht] at h
      cases h
  | ok typing' =>
      rw [ht] at h
      cases hc : typing'.lower with
      | error e =>
          simp only [bind, Except.bind, hc] at h
          cases h
      | ok c' =>
          simp only [bind, Except.bind, hc] at h
          cases h
          exact Typing.emits_lower hc

/-- The last splice and the labels of the output change the code as the optimizer does. -/
theorem improved_finalize (c : Code) (counters : Counters) :
    Peephole.Improves c.instrs (c.finalize counters).1.instrs := .splice c.instrs

/-- **Code as it is written was made by changes and splices.** -/
theorem improved_finish (optimize : Bool) {c : Code} (hreg : Regular c.instrs) :
    Relation.ReflTransGen Peephole.Improves c.instrs (finish optimize c).1.instrs := by
  cases optimize with
  | false => exact .single (improved_finalize c .zero)
  | true => exact (Peephole.improved_optimize hreg .zero).tail (improved_finalize _ .zero)

/-- Code as it is written shows what the code that was lowered does. -/
theorem halts_finish (h : lowered t = .ok (typing, c)) {o : Outcome} (ho : Halts c.instrs o)
    (optimize : Bool) : Halts (finish optimize c).1.instrs o := by
  obtain ⟨k, hunit⟩ := emits_lowered h
  exact Peephole.halts_of_improved (improved_finish optimize hunit.regular) hunit.regular
    hunit.guarded ho

/-- **The optimizer keeps what a run of a program to its halt shows**: the top cell, the number of
cells and the variables, whether the tree was folded or not. -/
theorem halts_optimize (h : lowered (prepare fold t) = .ok (typing, c)) {o : Outcome}
    (ho : Halts c.instrs o) (s : Peephole.Stats) : Halts (c.optimize s).1.instrs o := by
  obtain ⟨k, hunit⟩ := emits_lowered h
  have hreg := hunit.regular
  exact Peephole.halts_of_improved (Peephole.improved_optimize hreg s) hreg hunit.guarded ho

/-- A loop that counts: the optimized code shows its end. -/
theorem halts_optimize_count : ∃ t typing c o,
    tree "x = 0 while x < 2 { x = x + 1 } x" = .ok t ∧
      lowered (prepare false t) = .ok (typing, c) ∧ Halts c.instrs o ∧
      (o.top, o.depth, o.globals "x@g0") = (2, 1, 2) ∧
      Halts (c.optimize .zero).1.instrs o := by
  have hrun : (tree "x = 0 while x < 2 { x = x + 1 } x").toOption.bind (fun t =>
      (lowered (prepare false t)).toOption.bind fun p =>
        (outcome? 100 p.2.instrs).map fun o => (o.top, o.depth, o.globals "x@g0"))
      = some (2, 1, 2) := by decide +kernel
  simp only [Option.bind_eq_some_iff, Option.map_eq_some_iff] at hrun
  obtain ⟨t, ht, ⟨typing, c⟩, hc, o, ho, hshown⟩ := hrun
  have hlowered := Step.eq_ok_of_toOption hc
  exact ⟨t, typing, c, o, Step.eq_ok_of_toOption ht, hlowered, halts_of_outcome? ho, hshown,
    halts_optimize hlowered (halts_of_outcome? ho) .zero⟩

end Compile

end StackLang
