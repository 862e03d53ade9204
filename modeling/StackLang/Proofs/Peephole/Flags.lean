/-
**Conditional jumps own their flags.**

A conditional jump tests the cell that was popped last.  In lowered code that is the cell of the pop
directly before it: nothing stands between the two, and no jump goes to the conditional jump, so
that there is no other way to it.  The optimizer relies on this where it takes away a push with its
pop, and it keeps it: after every single use of a rule, and after every splice, in whatever order
they come.

Main definitions:

* `OwnsFlags` — conditional jumps stand behind a pop, and no jump goes to one;
* `Peephole.Advances` — one step of the optimizer, in a pass or between two.

Main results:

* `Peephole.Advances.improves` — a step is a change or a splice, or it leaves the code as it is;
* `Peephole.exists_advances_optimize` — the optimizer takes such steps;
* `Compile.ownsFlags_lowered` — **conditional jumps own their flags** in the code of a program,
  wherever the optimizer stands.
-/

import StackLang.Proofs.Peephole.Program

set_option relaxedAutoImplicit false
set_option autoImplicit false

namespace StackLang

open Machine Relation

/-! ### Flags -/

/-- **Conditional jumps own their flags**: directly before each of them stands a pop, and no jump
goes to it. -/
def OwnsFlags (code : List Instr) : Prop :=
  ∀ pre test post, code = pre ++ test :: post → test.op.isConditionalJump = true →
    (∃ before drop, pre = before ++ [drop] ∧ drop.op = .pop) ∧
      ∀ i ∈ code, i.targetId? ≠ some test.id

theorem Machine.Guarded.ownsFlags {code : List Instr} (h : Guarded code) : OwnsFlags code := by
  rintro pre test post rfl htest
  refine ⟨?_, fun i hi hk => ?_⟩
  · rcases List.eq_nil_or_concat pre with rfl | ⟨before, drop, rfl⟩
    · -- code does not start with a conditional jump
      simp [quiet_cons.1 h.quiet] at htest
    · have hchain : (drop :: test :: post).IsChain Follower := by
        have := h.chain
        rw [List.concat_eq_append, List.append_assoc] at this
        exact this.right_of_append
      exact ⟨before, drop, List.concat_eq_append, (List.isChain_cons_cons.1 hchain).1 htest⟩
  · have hquiet := h.untargeted i hi test.id hk test (by simp) rfl
    simp [hquiet] at htest

namespace Peephole

/-! ### Steps of the optimizer -/

/-- **One step of the optimizer**: a pass goes on behind the next instruction, or the code is
spliced and a new pass starts. -/
inductive Advances : Walk → Walk → Prop where
  | step (w : Walk) : Advances w w.step
  | splice (w : Walk) : Advances w (.start (Code.spliced w.code))

namespace Advances

variable {v w : Walk}

theorem isSound (h : Advances v w) (hv : v.IsSound) : w.IsSound := by
  cases h with
  | step => exact hv.step
  | splice => exact Walk.isSound_start (Code.regular_spliced hv.regular)

/-- A step is a change or a splice, or it leaves the code as it is. -/
theorem improves (h : Advances v w) (hv : v.IsSound) : ReflTransGen Improves v.code w.code := by
  cases h with
  | step => exact hv.improved_step
  | splice => exact .single (.splice v.code)

/-- **A step keeps conditional jumps behind the pops whose cells they test.** -/
theorem guarded (h : Advances v w) (hv : v.IsSound) (hcode : Guarded v.code) : Guarded w.code :=
  guarded_of_improved (h.improves hv) hv.regular hcode

end Advances

section Runs

variable {v w : Walk}

/-- What holds at the start holds wherever the optimizer stands. -/
theorem guarded_of_advances (h : ReflTransGen Advances v w) (hv : v.IsSound)
    (hcode : Guarded v.code) : w.IsSound ∧ Guarded w.code := by
  induction h with
  | refl => exact ⟨hv, hcode⟩
  | tail _ h ih => exact ⟨h.isSound ih.1, h.guarded ih.1 ih.2⟩

theorem advances_iterate (n : Nat) (w : Walk) : ReflTransGen Advances w (Walk.step^[n] w) := by
  induction n with
  | zero => exact .refl
  | succ n ih =>
      rw [Function.iterate_succ_apply']
      exact ih.tail (.step _)

theorem exists_advances_optimizeFrom (fuel : Nat) {c : Code} (s : Stats) (hw : w.code = c.instrs) :
    ∃ v, ReflTransGen Advances w v ∧ v.code = (c.optimizeFrom fuel s).1.instrs := by
  induction fuel generalizing w c s with
  | zero => exact ⟨w, .refl, hw⟩
  | succ fuel ih =>
      -- a splice, and the walk over what it leaves
      have hsplice : Advances w (.start c.splice.2.instrs) := by
        have := Advances.splice w
        rwa [hw] at this
      have hround := ReflTransGen.head hsplice
        (advances_iterate c.splice.2.instrs.length (.start c.splice.2.instrs))
      rw [Code.optimizeFrom]
      simp only [Walk.passAll_eq]
      split
      case isTrue => exact ⟨_, hround, rfl⟩
      case isFalse =>
        obtain ⟨v, hv, hcode⟩ := @ih _ { c.splice.2 with instrs := _ } _ rfl
        exact ⟨v, hround.trans hv, hcode⟩

/-- **The optimizer takes such steps**, from any code to what it makes of it. -/
theorem exists_advances_optimize (c : Code) (s : Stats) :
    ∃ w, ReflTransGen Advances (.start c.instrs) w ∧ w.code = (c.optimize s).1.instrs :=
  exists_advances_optimizeFrom _ s rfl

end Runs

end Peephole

namespace Compile

open Peephole

variable {t : Node Span} {typing : Typing} {c : Code}

/-- Code as it is written is spliced once more. -/
theorem exists_advances_finish (optimize : Bool) (c : Code) :
    ∃ w, ReflTransGen Advances (.start c.instrs) w ∧ w.code = (finish optimize c).1.instrs := by
  cases optimize with
  | false => exact ⟨_, .single (.splice (.start c.instrs)), rfl⟩
  | true =>
      obtain ⟨w, hw, hcode⟩ := exists_advances_optimize c .zero
      refine ⟨_, hw.tail (.splice w), ?_⟩
      rw [hcode]
      rfl

/-- **Conditional jumps own their flags** in the code of a program, wherever the optimizer stands:
before it, after every use of a rule, after every splice, and in the code that is written. -/
theorem ownsFlags_lowered (h : lowered t = .ok (typing, c)) :
    (∀ w, ReflTransGen Advances (.start c.instrs) w → OwnsFlags w.code) ∧
      (∀ s, ∃ w, ReflTransGen Advances (.start c.instrs) w ∧
        w.code = (c.optimize s).1.instrs) ∧
      ∀ optimize, ∃ w, ReflTransGen Advances (.start c.instrs) w ∧
        w.code = (finish optimize c).1.instrs := by
  obtain ⟨k, hunit⟩ := emits_lowered h
  refine ⟨fun w hw => ?_, exists_advances_optimize c, fun b => exists_advances_finish b c⟩
  exact (guarded_of_advances hw (Walk.isSound_start hunit.regular) hunit.guarded).2.ownsFlags

/-- A comparison that a loop tests, with a conditional jump for each of the two. -/
theorem ownsFlags_lowered_count : ∃ t typing c,
    tree "x = 0 while x < 2 { x = x + 1 } x" = .ok t ∧ lowered t = .ok (typing, c) ∧
      c.instrs.countP (fun i => i.op.isConditionalJump) = 2 ∧
      (∀ w, ReflTransGen Advances (.start c.instrs) w → OwnsFlags w.code) ∧
      (∀ s, ∃ w, ReflTransGen Advances (.start c.instrs) w ∧
        w.code = (c.optimize s).1.instrs) ∧
      ∀ optimize, ∃ w, ReflTransGen Advances (.start c.instrs) w ∧
        w.code = (finish optimize c).1.instrs := by
  have hrun : (tree "x = 0 while x < 2 { x = x + 1 } x").toOption.bind (fun t =>
      (lowered t).toOption.map fun p => p.2.instrs.countP fun i => i.op.isConditionalJump)
      = some 2 := by decide +kernel
  simp only [Option.bind_eq_some_iff, Option.map_eq_some_iff] at hrun
  obtain ⟨t, ht, ⟨typing, c⟩, hc, hcount⟩ := hrun
  have hlowered := Step.eq_ok_of_toOption hc
  exact ⟨t, typing, c, Step.eq_ok_of_toOption ht, hlowered, hcount, ownsFlags_lowered hlowered⟩

end Compile

end StackLang
