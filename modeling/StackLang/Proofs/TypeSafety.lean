/-
**Compiled programs are type-safe, but for what they return.**

Inference gives every tree a type, and lowering converts a value wherever another type is wanted:
for an operator, a branch, a variable.  So cells that were produced as floats come only to
instructions that compute on floats, and cells that were produced as integers only to those that
compute on integers, as a run with tags shows.

A `return` alone takes the cell as it is.  In `def f(x) { if x { return 1.5 } 2 }` the body gives an
integer, and so the result is recorded as one, but what is returned on the way is a float; a sum
with the result then adds the bits of the float.  And a `return` drops the cells that wait before
its value is computed, so a `break` in the value goes to a place where other cells are awaited.

Main definitions:

* `Node.hasReturn` — whether there is a `return` in a tree.

Main results:

* `Compile.typeSafe_lowered` — every state of a run of lowered code is type-safe if what functions
  return has the types that are recorded of them;
* `Compile.typeSafe_of_noReturn` — so all texts without `return` are type-safe;
* `Compile.not_typeSafe_return`, `Compile.not_typeSafe_break_in_return` — texts that go wrong in one
  of the two ways.
-/

import StackLang.Proofs.Discipline
import StackLang.Proofs.Lower.Frames

set_option relaxedAutoImplicit false
set_option autoImplicit false

namespace StackLang

/-! ### Cells of the wrong type -/

namespace Machine

/-- The next instruction computes on a cell, `j` cells below the top, that does not count as its
type. -/
def Tagged.miscounts (j : Nat) (T : Tagged) : Bool :=
  T.state.rest.head?.any fun i => i.op.consumed[j]?.any fun type => !decide (T.Counts j type)

theorem TypeSafe.not_miscounts {cell : CellTyping} {code : List Instr} {T : Tagged}
    (h : TypeSafe cell code T) {j : Nat} : ¬ T.miscounts j = true := by
  intro hj
  simp only [Tagged.miscounts, Option.any_eq_true, Bool.not_eq_true', decide_eq_false_iff_not] at hj
  obtain ⟨i, hi, type, htype, hcounts⟩ := hj
  obtain ⟨rest, hrest⟩ := List.head?_eq_some_iff.1 hi
  exact hcounts (h.consumed i rest hrest j type htype)

end Machine

/-! ### Texts without returns -/

namespace Node

variable {α β : Type}

/-- Whether the tree is a `return`. -/
def isReturn : Node α → Bool
  | returnValue .. => true
  | _ => false

/-- Whether there is a `return` in the tree. -/
def hasReturn (x : Node α) : Bool := x.subtrees.any isReturn

theorem hasReturn_eq_false {x : Node α} :
    x.hasReturn = false ↔ Every (fun y => y.isReturn = false) x := by
  simp [hasReturn, Every]

/-- Whether there is a `return` in a tree depends on its shape. -/
theorem hasReturn_shape (x : Node α) : x.shape.hasReturn = x.hasReturn := by
  have hroot : ∀ y : Node α, y.shape.isReturn = y.isReturn := by
    intro y
    cases y <;> rfl
  rw [Bool.eq_iff_iff, ← Bool.not_eq_false, ← Bool.not_eq_false, not_iff_not,
    hasReturn_eq_false, hasReturn_eq_false, every_shape]
  simp only [hroot]

/-- Folding brings no `return` into a tree. -/
theorem hasReturn_fold {x : Node α} (h : x.hasReturn = false) : x.fold.1.hasReturn = false := by
  rw [hasReturn_eq_false] at h ⊢
  refine every_fold ?_ x h
  constructor <;> intros
  case returnValue h => cases h
  all_goals rfl

/-- **Where nothing is returned, all returns fit.** -/
theorem returnsFit_of_noReturn {x : Node Note} (h : Every (fun y => y.isReturn = false) x)
    (result : Option Scalar) (waited waiting : Bool) :
    x.returnsFit result (some waited) waiting = true := by
  induction x using induction_children generalizing waited waiting with
  | h x ih =>
      obtain ⟨hx, hbelow⟩ := every_iff_children.1 h
      have hall : ∀ {waited waiting : Bool}, ∀ y ∈ x.children,
          y.returnsFit result (some waited) waiting = true :=
        fun y hy => ih y hy (hbelow y hy) _ _
      cases x with
      | returnValue => cases hx
      | binary n op l r =>
          rw [returnsFit]
          split
          · exact hall r (by simp [children])
          · exact Bool.and_eq_true_iff.2 ⟨hall l (by simp [children]), hall r (by simp [children])⟩
      | unary n op y => exact hall y (by simp [children])
      | cond n c t e =>
          rw [returnsFit, hall c (by simp [children]), hall t (by simp [children])]
          cases e with
          | none => rfl
          | some e => exact hall e (by simp [children])
      | loop n c b =>
          exact Bool.and_eq_true_iff.2 ⟨hall c (by simp [children]), hall b (by simp [children])⟩
      | call n f as => exact allReturnsFit_iff.2 fun y hy => hall y (by simp [children, hy])
      | block n is | unit n is =>
          exact allReturnsFit_iff.2 fun y hy => hall y (by simpa [children] using hy)
      | _ => rfl

/-- Whether there is a `return` in a tree is seen in a tree of the same shape. -/
theorem every_isReturn_of_shape {x : Node α} {y : Node β} (hxy : y.shape = x.shape)
    (h : Every (fun z => z.isReturn = false) x) : Every (fun z => z.isReturn = false) y := by
  rw [← hasReturn_eq_false, ← hasReturn_shape] at h ⊢
  rwa [hxy]

end Node

namespace Compile

open Machine

variable {optimize : Bool} {source : String} {t : Node Span} {typing : Typing} {c : Code}

/-- What lowering relies on holds of the typing of a text without target code. -/
theorem suitable_lowered (ht : t.IsSource) (hasm : t.hasAssembly = false)
    (h : lowered t = .ok (typing, c)) (hfits : typing.returnsFit = true) :
    ∃ items, Lower.Suitable items typing := by
  obtain ⟨typing', hinfer, h⟩ := Step.except_bind_eq_ok.1 h
  split at h
  · cases h
    have hsource := Document.isSource_ofTree ht
    cases hroot : (Document.ofTree t).root with
    | unit mark items =>
        rw [hroot] at hsource
        have hshape : (Node.unit mark items).shape = t.shape :=
          hroot ▸ Node.shape_number (fun i s => (⟨i, s⟩ : Mark)) 0 t
        rw [← Node.hasAssembly_shape, ← hshape, Node.hasAssembly_shape] at hasm
        exact ⟨items, Document.infer_sound hroot hsource hinfer,
          Document.infer_consistent hroot hsource hinfer,
          Document.infer_params hroot hsource hinfer, Document.infer_returns hroot hsource hinfer,
          (Node.every_unit.1 (Node.hasAssembly_eq_false.1 hasm)).2, hfits⟩
    | _ =>
        rw [hroot] at hsource
        cases hsource
  · cases h

/-- The code of a suitable unit is type-safe, for it has stamps. -/
theorem typeSafe_of_suitable {items : List (Node Mark)} (h : lowered t = .ok (typing, c))
    (hsuitable : Lower.Suitable items typing) {T : Tagged} (hT : Produces c.instrs T) :
    TypeSafe typing.Receives c.instrs T := by
  obtain ⟨k, hunit⟩ := emits_lowered h
  obtain ⟨ann, hann, hstamped⟩ := hunit.stamped hsuitable
  have hreg := hunit.regular
  rw [← hann] at hT hreg ⊢
  exact typeSafe_of_wellStamped (Typing.fitting hsuitable.sound hsuitable.consistent) hstamped
    hreg hT

/-- **Lowered code is type-safe in every run** if what functions return has the types that are
recorded of them, and no returned value leaves a loop at which cells waited. -/
theorem typeSafe_lowered (hsource : tree source = .ok t) (hasm : t.hasAssembly = false)
    (h : lowered (prepare optimize t) = .ok (typing, c)) (hfits : typing.returnsFit = true)
    {T : Tagged} (hT : Produces c.instrs T) : TypeSafe typing.Receives c.instrs T := by
  obtain ⟨items, hsuitable⟩ := suitable_lowered (isSource_prepare (isSource_tree hsource))
    (hasAssembly_prepare hasm) h hfits
  exact typeSafe_of_suitable h hsuitable hT

/-- A function with a loop, which returns a float in two places: its returns fit, and every run is
type-safe. -/
theorem typeSafe_lowered_loop : ∃ t typing c,
    tree "def f(x, y) { while x { if y < 1 { return 2.5 } x = x - 1 } y * 2.0 } 1 + f(3, 4)"
      = .ok t ∧ t.hasAssembly = false ∧ lowered (prepare true t) = .ok (typing, c) ∧
      typing.returnsFit = true ∧
      ∀ T, Produces c.instrs T → TypeSafe typing.Receives c.instrs T := by
  have hrun : (tree
      "def f(x, y) { while x { if y < 1 { return 2.5 } x = x - 1 } y * 2.0 } 1 + f(3, 4)"
      ).toOption.any (fun t => !t.hasAssembly &&
        (lowered (prepare true t)).toOption.any fun p => p.1.returnsFit) = true := by
    decide +kernel
  simp only [Option.any_eq_true, Bool.and_eq_true, Bool.not_eq_true'] at hrun
  obtain ⟨t, ht, hasm, ⟨typing, c⟩, hc, hfits⟩ := hrun
  have ht := Step.eq_ok_of_toOption ht
  have hc := Step.eq_ok_of_toOption hc
  exact ⟨t, typing, c, ht, hasm, hc, hfits, fun T hT => typeSafe_lowered ht hasm hc hfits hT⟩

/-- Where nothing is returned, all returns of the typing fit. -/
theorem returnsFit_lowered (ht : t.IsSource) (hnone : t.hasReturn = false)
    (h : lowered t = .ok (typing, c)) : typing.returnsFit = true := by
  obtain ⟨mark, items, hroot, hsound⟩ := exists_sound ht h
  obtain ⟨n, ys, hys, hshape, -⟩ := hsound.root
  have hsource : (Node.unit mark items).shape = t.shape :=
    hroot ▸ Node.shape_number (fun i s => (⟨i, s⟩ : Mark)) 0 t
  rw [← Node.hasReturn_shape, ← hsource, Node.hasReturn_shape] at hnone
  have hitems := (Node.every_unit.1 (Node.hasReturn_eq_false.1 hnone)).2
  rw [Typing.returnsFit, hys, Node.returnsFit, Bool.and_eq_true, Node.allReturnsFit_iff,
    List.all_eq_true]
  refine ⟨fun y hy => ?_, fun f hf => ?_⟩
  · obtain ⟨x, hx, hxy⟩ := Lower.exists_item hshape hy
    exact Node.returnsFit_of_noReturn (Node.every_isReturn_of_shape hxy (hitems x hx)) _ _ _
  · obtain ⟨m, p, b, hb, hbshape⟩ := hsound.exists_define hf
    exact Node.returnsFit_of_noReturn
      (Node.every_isReturn_of_shape hbshape (Node.every_define.1 (hitems _ hb)).2.2) _ _ _

theorem hasReturn_prepare (h : t.hasReturn = false) : (prepare optimize t).hasReturn = false := by
  cases optimize with
  | false => exact h
  | true => exact Node.hasReturn_fold h

/-- **Texts without `return` are type-safe** in every run of their lowered code. -/
theorem typeSafe_of_noReturn (hsource : tree source = .ok t) (hasm : t.hasAssembly = false)
    (hnone : t.hasReturn = false) (h : lowered (prepare optimize t) = .ok (typing, c)) {T : Tagged}
    (hT : Produces c.instrs T) : TypeSafe typing.Receives c.instrs T := by
  have ht := @isSource_prepare optimize t (isSource_tree hsource)
  obtain ⟨items, hsuitable⟩ := suitable_lowered ht (hasAssembly_prepare hasm) h
    (returnsFit_lowered ht (hasReturn_prepare hnone) h)
  exact typeSafe_of_suitable h hsuitable hT

/-- Where the function returns a float although its result was recorded as an integer, the sum adds
the bits of the float. -/
theorem not_typeSafe_return : ∃ t typing c T,
    tree "def f(x) { if x { return 1.5 } 2 } f(1) + 1" = .ok t ∧ t.hasAssembly = false ∧
      lowered (prepare false t) = .ok (typing, c) ∧
      typing.round.instances.returns "f@@i32" = .int ∧ Produces c.instrs T ∧
      ¬ TypeSafe typing.Receives c.instrs T := by
  have hrun : (tree "def f(x) { if x { return 1.5 } 2 } f(1) + 1").toOption.any (fun t =>
      !t.hasAssembly && (lowered (prepare false t)).toOption.any fun p =>
        p.1.round.instances.returns "f@@i32" = .int ∧
          ((Tagged.start p.2.instrs).later p.2.instrs 13).miscounts 1) = true := by
    decide +kernel
  simp only [Option.any_eq_true, Bool.and_eq_true, Bool.not_eq_true', decide_eq_true_eq] at hrun
  obtain ⟨t, ht, hasm, ⟨typing, c⟩, hc, hreturns, hmiscounts⟩ := hrun
  exact ⟨t, typing, c, _, Step.eq_ok_of_toOption ht, hasm, Step.eq_ok_of_toOption hc, hreturns,
    Produces.start.later 13, fun h => h.not_miscounts hmiscounts⟩

/-- Where a returned value leaves the loop, the one of its sum has taken the place of the float that
waited for the other sum. -/
theorem not_typeSafe_break_in_return : ∃ t typing c T,
    tree "1.5 + (while 1 { return 1 + (if 1 { break }) })" = .ok t ∧ t.hasAssembly = false ∧
      lowered (prepare false t) = .ok (typing, c) ∧ typing.round.inferred = [] ∧
      Produces c.instrs T ∧ ¬ TypeSafe typing.Receives c.instrs T := by
  have hrun : (tree "1.5 + (while 1 { return 1 + (if 1 { break }) })").toOption.any (fun t =>
      !t.hasAssembly && (lowered (prepare false t)).toOption.any fun p =>
        p.1.round.inferred.isEmpty ∧
          ((Tagged.start p.2.instrs).later p.2.instrs 11).miscounts 1) = true := by
    decide +kernel
  simp only [Option.any_eq_true, Bool.and_eq_true, Bool.not_eq_true', decide_eq_true_eq,
    List.isEmpty_iff] at hrun
  obtain ⟨t, ht, hasm, ⟨typing, c⟩, hc, hinferred, hmiscounts⟩ := hrun
  exact ⟨t, typing, c, _, Step.eq_ok_of_toOption ht, hasm, Step.eq_ok_of_toOption hc, hinferred,
    Produces.start.later 11, fun h => h.not_miscounts hmiscounts⟩

end Compile

end StackLang
