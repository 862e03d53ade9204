/-
**Short jumps stay near.**

A jump is made short when its target is near where labels stand at that moment, and other jumps that
are made short afterwards move labels again.  But every such move brings two places of the items
nearer to each other, on the same side as before: so a distance that fitted one byte goes on to fit.

Main definitions:

* `AreNear` — every short jump has its target within the range of a signed byte.

Main results:

* `Shrinks.areNear` — making one jump short leaves the short jumps near their targets;
* `areNear_relax` — the short jumps of a layout are near their targets.
-/

import StackLang.Proofs.Assembly.Layout

set_option relaxedAutoImplicit false
set_option autoImplicit false

namespace StackLang

namespace Assembly

/-- The distance of a jump, from its operand to its target, fits one byte. -/
def IsNear (operand target : Nat) : Prop :=
  -128 ≤ (target : Int) - operand ∧ (target : Int) - operand ≤ 127

/-- **Every short jump is near its target.** -/
def AreNear (items : List Item) : Prop :=
  ∀ xs condition name line ys, items = xs ++ .jump condition name line .short :: ys →
    ∀ target, (labelTable items).lookup name = some target → IsNear (totalSize xs + 1) target

/-- Where there are wide jumps only, nothing is to be shown. -/
theorem areNear_of_wide {items : List Item} (h : items.map (Item.withForm .wide) = items) :
    AreNear items := by
  intro xs condition name line ys hitems
  exact absurd (by simp [hitems]) (short_notMem_of_wide h condition name line)

/-- Of two items of a list, one stands in front of the other or both are the same. -/
theorem append_cons_cases {xs xs' ys ys' : List Item} {x x' : Item}
    (h : xs ++ x :: ys = xs' ++ x' :: ys') :
    (xs = xs' ∧ x = x' ∧ ys = ys') ∨ (∃ zs, xs' = xs ++ x :: zs ∧ ys = zs ++ x' :: ys') ∨
      ∃ zs, xs = xs' ++ x' :: zs ∧ ys' = zs ++ x :: ys := by
  induction xs generalizing xs' with
  | nil =>
      cases xs' with
      | nil => exact .inl ⟨rfl, List.cons.inj h⟩
      | cons z zs =>
          obtain ⟨rfl, hys⟩ := List.cons.inj h
          exact .inr (.inl ⟨zs, rfl, hys⟩)
  | cons z xs ih =>
      cases xs' with
      | nil =>
          obtain ⟨rfl, hys⟩ := List.cons.inj h
          exact .inr (.inr ⟨xs, rfl, hys.symm⟩)
      | cons z' xs' =>
          obtain ⟨rfl, hrest⟩ := List.cons.inj h
          simpa using ih hrest

/-- **Making one jump short** leaves the short jumps near their targets. -/
theorem Shrinks.areNear {items items' : List Item} (hstep : Shrinks items items')
    (h : AreNear items) : AreNear items' := by
  obtain ⟨condition, name, line, xs, ys, target, htarget, hreaches⟩ := hstep
  intro xs' condition' name' line' ys' hitems target' htarget'
  rw [labelTable_short, lookup_shiftDown] at htarget'
  obtain ⟨place, hplace, rfl⟩ := Option.map_eq_some_iff.1 htarget'
  rcases append_cons_cases hitems with ⟨rfl, hjump, -⟩ | ⟨zs, rfl, rfl⟩ | ⟨zs, rfl, rfl⟩
  · -- the jump that was made short
    cases hjump
    rw [htarget] at hplace
    cases hplace
    unfold Reaches shortDistance at hreaches
    unfold IsNear
    split at hreaches <;> split <;> omega
  · -- a short jump behind it
    have hnear := h (xs ++ .jump condition name line .wide :: zs) condition' name' line' ys'
      (by simp) place hplace
    unfold IsNear at hnear ⊢
    simp only [totalSize_append, totalSize, Item.size] at hnear ⊢
    split <;> omega
  · -- a short jump before it
    have hnear := h xs' condition' name' line' (zs ++ .jump condition name line .wide :: ys)
      (by simp) place hplace
    unfold IsNear at hnear ⊢
    simp only [totalSize_append, totalSize, Item.size] at hnear ⊢
    split <;> omega

/-- **The short jumps of a layout are near their targets.** -/
theorem areNear_relax {items : List Item} (h : AreNear items) : AreNear (relax items) :=
  relax_induction (fun _ _ hstep => hstep.areNear) h

end Assembly

end StackLang
