/-
**The stack is in order in every run of a compiled program.**

The code of a unit has marks if the jumps of the unit fit, folding leaves the jumps fitting, and the
optimizer keeps marks right.  So in every run of the code as it is written each instruction finds
the cells that it works on and leaves those of the frame alone.

The jumps of a text need not fit.  In `1 + (while 1 { return { break } })` the `return` drops the
one that waits for its sum, and then the `break` goes to where the sum is computed.

Main results:

* `Compile.disciplined_finish` — every state of a run of a compiled program keeps stack discipline
  if the jumps of its text fit;
* `Compile.not_disciplined_break_in_return` — a text without that fails for want of a cell.
-/

import StackLang.Proofs.Lower.Levels
import StackLang.Proofs.Peephole.Levels
import StackLang.Proofs.Peephole.Program

set_option relaxedAutoImplicit false
set_option autoImplicit false

namespace StackLang

namespace Machine

variable {code : List Instr} {s : State} {f : Fault}

/-- Why a run of up to `n` instructions fails, if it does. -/
def fault? (n : Nat) (code : List Instr) : Option Fault :=
  match run code n (start code) with
  | .failed f => some f
  | _ => none

/-- A run that fails meets a state in which the next instruction fails. -/
theorem exists_reaches_of_failed {n : Nat} (h : run code n s = .failed f) :
    ∃ t, Reaches code s t ∧ step code t = .failed f := by
  induction n generalizing s with
  | zero => cases h
  | succ n ih =>
      rw [run_succ] at h
      cases hs : step code s with
      | next t =>
          rw [hs] at h
          obtain ⟨u, htu, hu⟩ := ih h
          exact ⟨u, (Reaches.step hs).trans htu, hu⟩
      | halted o =>
          rw [hs] at h
          cases h
      | failed g =>
          rw [hs] at h
          cases h
          exact ⟨s, .refl s, hs⟩

theorem exists_reaches_of_fault? {n : Nat} (h : fault? n code = some f) :
    ∃ t, Reaches code (start code) t ∧ step code t = .failed f := by
  unfold fault? at h
  split at h
  · cases h
    exact exists_reaches_of_failed ‹_›
  · cases h

end Machine

namespace Compile

open Machine

variable {optimize : Bool} {source : String} {t : Node Span} {typing : Typing} {c : Code}

theorem jumpsFit_prepare (h : t.jumpsFit none 0 = true) :
    (prepare optimize t).jumpsFit none 0 = true := by
  cases optimize with
  | false => exact h
  | true => exact t.jumpsFit_fold _ _ h

theorem hasAssembly_prepare (h : t.hasAssembly = false) :
    (prepare optimize t).hasAssembly = false := by
  cases optimize with
  | false => exact h
  | true => exact Node.hasAssembly_fold h

/-- The typing of a source text is sound for the items of its tree. -/
theorem exists_sound (ht : t.IsSource)
    (h : lowered t = .ok (typing, c)) :
    ∃ mark items, (Document.ofTree t).root = .unit mark items ∧ typing.Sound items := by
  obtain ⟨typing', hinfer, h⟩ := Step.except_bind_eq_ok.1 h
  split at h
  · cases h
    have hsource := Document.isSource_ofTree ht
    cases hroot : (Document.ofTree t).root with
    | unit mark items =>
        rw [hroot] at hsource
        exact ⟨mark, items, rfl, Document.infer_sound hroot hsource hinfer⟩
    | _ =>
        rw [hroot] at hsource
        cases hsource
  · cases h

/-- **The code of a source text has marks** if the jumps of the text fit. -/
theorem leveled_lowered (ht : t.IsSource) (hasm : t.hasAssembly = false)
    (hfits : t.jumpsFit none 0 = true)
    (h : lowered t = .ok (typing, c)) :
    ∃ ann, ann.map Prod.fst = c.instrs ∧ Leveled typing.layout ann := by
  obtain ⟨mark, items, hroot, hsound⟩ := exists_sound ht h
  obtain ⟨k, hunit⟩ := emits_lowered h
  have hshape : (Node.unit mark items).shape = t.shape :=
    hroot ▸ Node.shape_number (fun i s => (⟨i, s⟩ : Mark)) 0 t
  refine @Lower.EmitsUnit.leveled _ _ _ _ hsound mark ?_ ?_ hunit
  · rwa [Node.jumpsFit_of_shape hshape]
  · rwa [← Node.hasAssembly_shape, hshape, Node.hasAssembly_shape]

/-- **Every state of a run of a compiled program keeps stack discipline** if no jump of the text
leaves a loop with fewer cells than wait at the loop. -/
theorem disciplined_finish (hsource : tree source = .ok t) (hasm : t.hasAssembly = false)
    (hfits : t.jumpsFit none 0 = true) (h : lowered (prepare optimize t) = .ok (typing, c))
    {s : State}
    (hs : Reaches (finish optimize c).1.instrs (start (finish optimize c).1.instrs) s) :
    Disciplined typing.layout (finish optimize c).1.instrs s := by
  obtain ⟨k, hunit⟩ := emits_lowered h
  have himproved := improved_finish optimize hunit.regular
  have hlowered := leveled_lowered (isSource_prepare (isSource_tree hsource))
    (hasAssembly_prepare hasm) (jumpsFit_prepare hfits) h
  obtain ⟨ann, hann, hleveled⟩ :=
    Peephole.leveled_of_improved himproved hunit.regular hlowered
  have hreg := Peephole.regular_of_improved himproved hunit.regular
  rw [← hann] at hs hreg ⊢
  exact disciplined_of_leveled hleveled hreg hs

/-- A loop that is left while a cell waits outside of it: its jumps fit, and every run keeps
discipline. -/
theorem disciplined_finish_break : ∃ t typing c,
    tree "def f(x) { while 1 { if x { break } return 2 } 3 } 1 + f(4)" = .ok t ∧
      t.hasAssembly = false ∧ t.jumpsFit none 0 = true ∧
      lowered (prepare true t) = .ok (typing, c) ∧
      ∀ s, Reaches (finish true c).1.instrs (start (finish true c).1.instrs) s →
        Disciplined typing.layout (finish true c).1.instrs s := by
  have hrun : (tree "def f(x) { while 1 { if x { break } return 2 } 3 } 1 + f(4)").toOption.any
      (fun t => !t.hasAssembly && t.jumpsFit none 0 &&
        (lowered (prepare true t)).toOption.isSome) = true := by
    decide +kernel
  simp only [Option.any_eq_true, Bool.and_eq_true, Bool.not_eq_true', Option.isSome_iff_exists]
    at hrun
  obtain ⟨t, ht, ⟨hasm, hfits⟩, ⟨typing, c⟩, hc⟩ := hrun
  have ht := Step.eq_ok_of_toOption ht
  have hc := Step.eq_ok_of_toOption hc
  exact ⟨t, typing, c, ht, hasm, hfits, hc, fun s hs => disciplined_finish ht hasm hfits hc hs⟩

/-- In `1 + (while 1 { return { break } })` the sum is computed without its left operand. -/
theorem not_disciplined_break_in_return : ∃ t typing c s,
    tree "1 + (while 1 { return { break } })" = .ok t ∧ t.hasAssembly = false ∧
      lowered (prepare false t) = .ok (typing, c) ∧
      Reaches (finish false c).1.instrs (start (finish false c).1.instrs) s ∧
      step (finish false c).1.instrs s = .failed .emptyStack ∧
      ¬ Disciplined typing.layout (finish false c).1.instrs s := by
  have hrun : (tree "1 + (while 1 { return { break } })").toOption.bind (fun t =>
      if t.hasAssembly then none else
        (lowered (prepare false t)).toOption.bind fun p =>
          fault? 100 (finish false p.2).1.instrs) = some .emptyStack := by decide +kernel
  simp only [Option.bind_eq_some_iff, Option.ite_none_left_eq_some] at hrun
  obtain ⟨t, ht, hasm, ⟨typing, c⟩, hc, hfault⟩ := hrun
  obtain ⟨s, hs, hfailed⟩ := exists_reaches_of_fault? hfault
  refine ⟨t, typing, c, s, Step.eq_ok_of_toOption ht, by simpa using hasm,
    Step.eq_ok_of_toOption hc, hs, hfailed, fun h => ?_⟩
  cases h.fault _ hfailed

end Compile

end StackLang
