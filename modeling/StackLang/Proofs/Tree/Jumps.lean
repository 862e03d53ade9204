/-
**Jumps out of loops.**

A jump to the end or to the head of a loop drops the cells that wait for their operators since the
loop was entered.  A `return` drops all cells that wait in the function before its value is
computed, so inside of the value there can be fewer than at the start of the loop, and then a jump
out of the loop leaves too few behind.

Main definitions:

* `Node.jumpsFit` — no jump leaves a loop with fewer waiting cells than the loop was entered with.

Main results:

* `Node.jumpsFit_of_shape` — whether the jumps of a tree fit depends on its shape;
* `Node.jumpsFit_fold` — the jumps of a folded tree fit if those of the tree did.
-/

import StackLang.Proofs.Tree.Shape
import StackLang.Tree.Fold

set_option relaxedAutoImplicit false
set_option autoImplicit false

namespace StackLang

namespace Node

variable {α β : Type}

mutual

/-- **No jump leaves a loop with fewer waiting cells than the loop was entered with.**  The
innermost loop was entered with `loop` waiting cells, and `depth` cells wait for the value of the
tree. -/
def jumpsFit (loop : Option Nat) (depth : Nat) : Node α → Bool
  | .binary _ op l r =>
    if op = .assign then jumpsFit loop depth r
    else jumpsFit loop depth l && jumpsFit loop (depth + 1) r
  | .unary _ op x => jumpsFit loop (if op = .minus then depth + 1 else depth) x
  | .call _ _ as => argumentsFit loop (depth + 1) as
  | .cond _ c t e => jumpsFit loop depth c && jumpsFit loop depth t && optionFits loop depth e
  | .loop _ c b => jumpsFit (some depth) depth c && jumpsFit (some depth) depth b
  | .breakLoop _ | .continueLoop _ => loop.all fun d => d ≤ depth
  | .returnValue _ v => jumpsFit loop 0 v
  | .define _ _ b => jumpsFit none 0 b
  | .block _ is => allFit loop depth is
  | .unit _ is => allFit none 0 is
  | .literal .. | .identifier .. | .prototype .. | .assembly .. | .nop .. => true

/-- `Node.jumpsFit` for each of some trees. -/
def allFit (loop : Option Nat) (depth : Nat) : List (Node α) → Bool
  | [] => true
  | x :: xs => jumpsFit loop depth x && allFit loop depth xs

/-- `Node.jumpsFit` for the arguments of a call, of which the last one is computed first. -/
def argumentsFit (loop : Option Nat) (depth : Nat) : List (Node α) → Bool
  | [] => true
  | x :: xs => jumpsFit loop (depth + xs.length) x && argumentsFit loop depth xs

/-- `Node.jumpsFit` for a tree that may be missing. -/
def optionFits (loop : Option Nat) (depth : Nat) : Option (Node α) → Bool
  | none => true
  | some x => jumpsFit loop depth x

end

theorem length_mapList (f : α → β) (xs : List (Node α)) : (mapList f xs).length = xs.length := by
  rw [mapList_eq_map, List.length_map]

mutual

theorem jumpsFit_map (f : α → β) (loop : Option Nat) (depth : Nat) (x : Node α) :
    (x.map f).jumpsFit loop depth = x.jumpsFit loop depth := by
  cases x with
  | binary n op l r => simp only [map, jumpsFit, jumpsFit_map f _ _ l, jumpsFit_map f _ _ r]
  | unary n op x => simp only [map, jumpsFit, jumpsFit_map f _ _ x]
  | call n c as => simp only [map, jumpsFit, argumentsFit_map f _ _ as]
  | cond n c t e =>
      simp only [map, jumpsFit, jumpsFit_map f _ _ c, jumpsFit_map f _ _ t, optionFits_map f _ _ e]
  | loop n c b => simp only [map, jumpsFit, jumpsFit_map f _ _ c, jumpsFit_map f _ _ b]
  | returnValue n v => simp only [map, jumpsFit, jumpsFit_map f _ _ v]
  | define n p b => simp only [map, jumpsFit, jumpsFit_map f _ _ b]
  | block n is => simp only [map, jumpsFit, allFit_map f _ _ is]
  | unit n is => simp only [map, jumpsFit, allFit_map f _ _ is]
  | _ => simp only [map, jumpsFit]

theorem allFit_map (f : α → β) (loop : Option Nat) (depth : Nat) (xs : List (Node α)) :
    allFit loop depth (mapList f xs) = allFit loop depth xs := by
  cases xs with
  | nil => rfl
  | cons x xs => simp only [mapList, allFit, jumpsFit_map f _ _ x, allFit_map f _ _ xs]

theorem argumentsFit_map (f : α → β) (loop : Option Nat) (depth : Nat) (xs : List (Node α)) :
    argumentsFit loop depth (mapList f xs) = argumentsFit loop depth xs := by
  cases xs with
  | nil => rfl
  | cons x xs =>
      simp only [mapList, argumentsFit, length_mapList, jumpsFit_map f _ _ x,
        argumentsFit_map f _ _ xs]

theorem optionFits_map (f : α → β) (loop : Option Nat) (depth : Nat) (x : Option (Node α)) :
    optionFits loop depth (mapOption f x) = optionFits loop depth x := by
  cases x with
  | none => rfl
  | some x => simp only [mapOption, optionFits, jumpsFit_map f _ _ x]

end

/-- **Whether the jumps of a tree fit depends on its shape.** -/
theorem jumpsFit_of_shape {x : Node α} {y : Node β} (h : y.shape = x.shape) (loop : Option Nat)
    (depth : Nat) : y.jumpsFit loop depth = x.jumpsFit loop depth := by
  have := congrArg (jumpsFit loop depth) h
  rwa [shape, shape, jumpsFit_map, jumpsFit_map] at this

theorem allFit_iff {loop : Option Nat} {depth : Nat} {xs : List (Node α)} :
    allFit loop depth xs = true ↔ ∀ x ∈ xs, x.jumpsFit loop depth = true := by
  induction xs with
  | nil => simp [allFit]
  | cons x xs ih => simp [allFit, ih]

/-! ### Folding -/

theorem length_foldList (xs : List (Node α)) : (foldList xs).1.length = xs.length := by
  induction xs with
  | nil => rfl
  | cons x xs ih => simp [foldList, ih]

section Folding

variable {loop : Option Nat} {depth : Nat} {n : α}

theorem jumpsFit_foldBinary {op : BinaryOp} {l r : Node α}
    (h : (binary n op l r).jumpsFit loop depth = true) :
    (foldBinary n op l r).1.jumpsFit loop depth = true := by
  unfold foldBinary
  split
  · split
    · rfl
    · exact h
  · exact h

theorem jumpsFit_foldUnary {op : UnaryOp} {x : Node α}
    (h : (unary n op x).jumpsFit loop depth = true) :
    (foldUnary n op x).1.jumpsFit loop depth = true := by
  unfold foldUnary
  split
  · rfl
  · exact h

theorem jumpsFit_foldCond {c t : Node α} {e : Option (Node α)}
    (h : (cond n c t e).jumpsFit loop depth = true) :
    (foldCond n c t e).1.jumpsFit loop depth = true := by
  unfold foldCond
  split
  · simp only [jumpsFit, Bool.and_eq_true] at h
    simp only
    split
    · exact h.1.2
    · cases e with
      | none => rfl
      | some x => exact h.2
  · exact h

end Folding

mutual

/-- At the end of a body no loop is open and no cell waits, as in the value of a `return`. -/
theorem jumpsFit_unwrapTail (x : Node α) (h : x.jumpsFit none 0 = true) :
    x.unwrapTail.1.jumpsFit none 0 = true := by
  cases x with
  | returnValue n v => exact h
  | block n is => exact allFit_unwrapLast is h
  | cond n c t e =>
      simp only [jumpsFit, Bool.and_eq_true] at h
      simp only [unwrapTail, jumpsFit, Bool.and_eq_true]
      exact ⟨⟨h.1.1, jumpsFit_unwrapTail t h.1.2⟩, optionFits_unwrapOption e h.2⟩
  | _ => exact h

theorem allFit_unwrapLast (xs : List (Node α)) (h : allFit none 0 xs = true) :
    allFit none 0 (unwrapLast xs).1 = true := by
  match xs with
  | [] => rfl
  | [x] =>
      simp only [allFit, Bool.and_true] at h
      simpa only [unwrapLast, allFit, Bool.and_true] using jumpsFit_unwrapTail x h
  | x :: y :: ys =>
      rw [allFit, Bool.and_eq_true] at h
      simp only [unwrapLast]
      rw [allFit, h.1, Bool.true_and]
      exact allFit_unwrapLast (y :: ys) h.2

theorem optionFits_unwrapOption (e : Option (Node α)) (h : optionFits none 0 e = true) :
    optionFits none 0 (unwrapOption e).1 = true := by
  cases e with
  | none => rfl
  | some x => exact jumpsFit_unwrapTail x h

end

mutual

/-- **The jumps of a folded tree fit if those of the tree did.** -/
theorem jumpsFit_fold (loop : Option Nat) (depth : Nat) (x : Node α)
    (h : x.jumpsFit loop depth = true) : x.fold.1.jumpsFit loop depth = true := by
  cases x with
  | binary n op l r =>
      refine jumpsFit_foldBinary ?_
      by_cases hop : op = .assign
      · simp only [jumpsFit, if_pos hop] at h ⊢
        exact jumpsFit_fold _ _ r h
      · simp only [jumpsFit, if_neg hop, Bool.and_eq_true] at h ⊢
        exact ⟨jumpsFit_fold _ _ l h.1, jumpsFit_fold _ _ r h.2⟩
  | unary n op x =>
      rw [jumpsFit] at h
      refine jumpsFit_foldUnary ?_
      rw [jumpsFit]
      exact jumpsFit_fold _ _ x h
  | call n f as =>
      rw [jumpsFit] at h
      simp only [fold, jumpsFit]
      exact argumentsFit_fold _ _ as h
  | cond n c t e =>
      simp only [jumpsFit, Bool.and_eq_true] at h
      refine jumpsFit_foldCond ?_
      simp only [jumpsFit, Bool.and_eq_true]
      exact ⟨⟨jumpsFit_fold _ _ c h.1.1, jumpsFit_fold _ _ t h.1.2⟩, optionFits_fold _ _ e h.2⟩
  | loop n c b =>
      simp only [jumpsFit, Bool.and_eq_true] at h
      simp only [fold, jumpsFit, Bool.and_eq_true]
      exact ⟨jumpsFit_fold _ _ c h.1, jumpsFit_fold _ _ b h.2⟩
  | returnValue n v =>
      rw [jumpsFit] at h
      simp only [fold, jumpsFit]
      exact jumpsFit_fold _ _ v h
  | define n p b =>
      rw [jumpsFit] at h
      simp only [fold, jumpsFit]
      exact jumpsFit_unwrapTail _ (jumpsFit_fold _ _ b h)
  | block n is =>
      rw [jumpsFit] at h
      simp only [fold, jumpsFit]
      exact allFit_fold _ _ is h
  | unit n is =>
      rw [jumpsFit] at h
      simp only [fold, jumpsFit]
      exact allFit_fold _ _ is h
  | _ => exact h

theorem allFit_fold (loop : Option Nat) (depth : Nat) (xs : List (Node α))
    (h : allFit loop depth xs = true) : allFit loop depth (foldList xs).1 = true := by
  cases xs with
  | nil => rfl
  | cons x xs =>
      rw [allFit, Bool.and_eq_true] at h
      simp only [foldList, allFit, Bool.and_eq_true]
      exact ⟨jumpsFit_fold _ _ x h.1, allFit_fold _ _ xs h.2⟩

theorem argumentsFit_fold (loop : Option Nat) (depth : Nat) (xs : List (Node α))
    (h : argumentsFit loop depth xs = true) : argumentsFit loop depth (foldList xs).1 = true := by
  cases xs with
  | nil => rfl
  | cons x xs =>
      rw [argumentsFit, Bool.and_eq_true] at h
      simp only [foldList, argumentsFit, Bool.and_eq_true, length_foldList]
      exact ⟨jumpsFit_fold _ _ x h.1, argumentsFit_fold _ _ xs h.2⟩

theorem optionFits_fold (loop : Option Nat) (depth : Nat) (e : Option (Node α))
    (h : optionFits loop depth e = true) : optionFits loop depth (foldOption e).1 = true := by
  cases e with
  | none => rfl
  | some x => exact jumpsFit_fold _ _ x h

end

end Node

end StackLang
