/-
**What folding leaves as it is.**

Folding moves and drops trees and makes literals and empty statements, but it does not change the
root of any other tree.  What can be seen at the root and holds of every subtree holds of every
subtree of the folded tree.

Main definitions:

* `Node.Makes` — what folding makes of a node with one property has another;
* `Node.IsOfRoot` — a property that can be seen at the root;
* `Node.hasAssembly` — a tree with target code in it.

Main results:

* `Node.every_fold_of_makes` — what folding makes at every node it makes everywhere;
* `Node.every_fold` — what can be seen at the root of all subtrees lasts when a tree is folded;
* `Node.hasAssembly_fold` — folding brings no target code into a tree.
-/

import StackLang.Tree.Fold
import StackLang.Proofs.Tree.Shape

set_option relaxedAutoImplicit false
set_option autoImplicit false

namespace StackLang

namespace Node

variable {α : Type}

/-- The property can be seen at the root, and what folding makes has it. -/
structure IsOfRoot (P : Node α → Prop) : Prop where
  literal (n : α) (v : Literal) : P (.literal n v)
  nop (n : α) : P (.nop n)
  binary {n : α} {op : BinaryOp} {l r : Node α} (l' r' : Node α) (h : P (.binary n op l r)) :
    P (.binary n op l' r')
  unary {n : α} {op : UnaryOp} {x : Node α} (x' : Node α) (h : P (.unary n op x)) :
    P (.unary n op x')
  call {n : α} {f : Node α} {as : List (Node α)} (f' : Node α) (as' : List (Node α))
    (h : P (.call n f as)) : P (.call n f' as')
  cond {n : α} {c t : Node α} {e : Option (Node α)} (c' t' : Node α) (e' : Option (Node α))
    (h : P (.cond n c t e)) : P (.cond n c' t' e')
  loop {n : α} {c b : Node α} (c' b' : Node α) (h : P (.loop n c b)) : P (.loop n c' b')
  returnValue {n : α} {v : Node α} (v' : Node α) (h : P (.returnValue n v)) : P (.returnValue n v')
  define {n : α} {p b : Node α} (p' b' : Node α) (h : P (.define n p b)) : P (.define n p' b')
  block {n : α} {is : List (Node α)} (is' : List (Node α)) (h : P (.block n is)) : P (.block n is')
  unit {n : α} {is : List (Node α)} (is' : List (Node α)) (h : P (.unit n is)) : P (.unit n is')

variable {P Q : Node α → Prop}

/-- The property lasts at a node when the trees below it that stand at the end of a function body
are exchanged. -/
structure IsOfStem (Q : Node α → Prop) : Prop where
  block {n : α} {is : List (Node α)} (is' : List (Node α)) (h : Q (.block n is)) : Q (.block n is')
  cond {n : α} {c t : Node α} {e : Option (Node α)} (t' : Node α) (e' : Option (Node α))
    (h : Q (.cond n c t e)) : Q (.cond n c t' e')

/-- What stands at a node with `P` has `Q` when it is folded. -/
structure Makes (P Q : Node α → Prop) : Prop where
  stem : IsOfStem Q
  literal (n : α) (v : Literal) : Q (.literal n v)
  nop (n : α) : Q (.nop n)
  leaf {x : Node α} (hx : x.children = []) (h : P x) : Q x
  binary {n : α} {op : BinaryOp} {l r : Node α} (h : P (.binary n op l r))
    (hkept : (foldBinary n op l.fold.1 r.fold.1).2 = 0) : Q (.binary n op l.fold.1 r.fold.1)
  unary {n : α} {op : UnaryOp} {x : Node α} (h : P (.unary n op x))
    (hkept : (foldUnary n op x.fold.1).2 = 0) : Q (.unary n op x.fold.1)
  call {n : α} {f : Node α} {as : List (Node α)} (h : P (.call n f as)) :
    Q (.call n f.fold.1 (foldList as).1)
  cond {n : α} {c t : Node α} {e : Option (Node α)} (h : P (.cond n c t e))
    (hkept : (foldCond n c.fold.1 t.fold.1 (foldOption e).1).2 = 0) :
    Q (.cond n c.fold.1 t.fold.1 (foldOption e).1)
  loop {n : α} {c b : Node α} (h : P (.loop n c b)) : Q (.loop n c.fold.1 b.fold.1)
  returnValue {n : α} {v : Node α} (h : P (.returnValue n v)) : Q (.returnValue n v.fold.1)
  define {n : α} {p b : Node α} (h : P (.define n p b)) :
    Q (.define n p.fold.1 b.fold.1.unwrapTail.1)
  block {n : α} {is : List (Node α)} (h : P (.block n is)) : Q (.block n (foldList is).1)
  unit {n : α} {is : List (Node α)} (h : P (.unit n is)) : Q (.unit n (foldList is).1)

theorem IsOfRoot.isOfStem (hP : IsOfRoot P) : IsOfStem P where
  block is' h := hP.block is' h
  cond t' e' h := hP.cond _ t' e' h

theorem IsOfRoot.makes (hP : IsOfRoot P) : Makes P P where
  stem := hP.isOfStem
  literal := hP.literal
  nop := hP.nop
  leaf _ h := h
  binary h _ := hP.binary _ _ h
  unary h _ := hP.unary _ h
  call h := hP.call _ _ h
  cond h _ := hP.cond _ _ _ h
  loop h := hP.loop _ _ h
  returnValue h := hP.returnValue _ h
  define h := hP.define _ _ h
  block h := hP.block _ h
  unit h := hP.unit _ h

/-! ### Single nodes -/

theorem every_foldBinary (hQ : Makes P Q) {n : α} {op : BinaryOp} {l r : Node α}
    (h : (foldBinary n op l r).2 = 0 → Q (binary n op l r)) (hl : Every Q l) (hr : Every Q r) :
    Every Q (foldBinary n op l r).1 := by
  unfold foldBinary at h ⊢
  split at h
  · split at h
    · exact every_literal.2 (hQ.literal _ _)
    · exact every_binary.2 ⟨h rfl, hl, hr⟩
  · exact every_binary.2 ⟨h rfl, hl, hr⟩

theorem every_foldUnary (hQ : Makes P Q) {n : α} {op : UnaryOp} {x : Node α}
    (h : (foldUnary n op x).2 = 0 → Q (unary n op x)) (hx : Every Q x) :
    Every Q (foldUnary n op x).1 := by
  unfold foldUnary at h ⊢
  split at h
  · exact every_literal.2 (hQ.literal _ _)
  · exact every_unary.2 ⟨h rfl, hx⟩

theorem every_foldCond (hQ : Makes P Q) {n : α} {c t : Node α} {e : Option (Node α)}
    (h : (foldCond n c t e).2 = 0 → Q (cond n c t e)) (hc : Every Q c) (ht : Every Q t)
    (he : ∀ x, e = some x → Every Q x) : Every Q (foldCond n c t e).1 := by
  unfold foldCond at h ⊢
  split at h
  · simp only
    split
    · exact ht
    · cases e with
      | none => exact every_nop.2 (hQ.nop _)
      | some x => exact he x rfl
  · exact every_cond.2 ⟨h rfl, hc, ht, he⟩

/-! ### The end of a function body -/

mutual

theorem every_unwrapTail (hQ : IsOfStem Q) (x : Node α) (h : Every Q x) :
    Every Q x.unwrapTail.1 := by
  cases x with
  | returnValue n v => exact (every_returnValue.1 h).2
  | block n is =>
      obtain ⟨hroot, his⟩ := every_block.1 h
      exact every_block.2 ⟨hQ.block _ hroot, every_unwrapLast hQ is his⟩
  | cond n c t e =>
      obtain ⟨hroot, hc, ht, he⟩ := every_cond.1 h
      exact every_cond.2 ⟨hQ.cond _ _ hroot, hc, every_unwrapTail hQ t ht,
        every_unwrapOption hQ e he⟩
  | _ => exact h

theorem every_unwrapLast (hQ : IsOfStem Q) (xs : List (Node α)) (h : ∀ x ∈ xs, Every Q x) :
    ∀ x ∈ (unwrapLast xs).1, Every Q x := by
  match xs with
  | [] => exact h
  | [x] =>
      have hx := every_unwrapTail hQ x (h x (by simp))
      simpa [unwrapLast] using hx
  | x :: y :: ys =>
      rw [List.forall_mem_cons] at h
      have hys := every_unwrapLast hQ (y :: ys) h.2
      simpa [unwrapLast] using ⟨h.1, hys⟩

theorem every_unwrapOption (hQ : IsOfStem Q) (e : Option (Node α))
    (h : ∀ x, e = some x → Every Q x) : ∀ x, (unwrapOption e).1 = some x → Every Q x := by
  cases e with
  | none =>
      intro x hx
      cases hx
  | some y =>
      intro x hx
      cases hx
      exact every_unwrapTail hQ y (h y rfl)

end

/-! ### Trees -/

mutual

/-- **What folding makes at every node it makes everywhere.** -/
theorem every_fold_of_makes (hQ : Makes P Q) (x : Node α) (h : Every P x) :
    Every Q x.fold.1 := by
  cases x with
  | literal n v => exact every_literal.2 (hQ.literal n v)
  | nop n => exact every_nop.2 (hQ.nop n)
  | binary n op l r =>
      obtain ⟨hroot, hl, hr⟩ := every_binary.1 h
      exact every_foldBinary hQ (hQ.binary hroot) (every_fold_of_makes hQ l hl)
        (every_fold_of_makes hQ r hr)
  | unary n op x =>
      obtain ⟨hroot, hx⟩ := every_unary.1 h
      exact every_foldUnary hQ (hQ.unary hroot) (every_fold_of_makes hQ x hx)
  | call n f as =>
      obtain ⟨hroot, hf, has⟩ := every_call.1 h
      exact every_call.2 ⟨hQ.call hroot, every_fold_of_makes hQ f hf,
        every_foldList_of_makes hQ as has⟩
  | cond n c t e =>
      obtain ⟨hroot, hc, ht, he⟩ := every_cond.1 h
      exact every_foldCond hQ (hQ.cond hroot) (every_fold_of_makes hQ c hc)
        (every_fold_of_makes hQ t ht) (every_foldOption_of_makes hQ e he)
  | loop n c b =>
      obtain ⟨hroot, hc, hb⟩ := every_loop.1 h
      exact every_loop.2 ⟨hQ.loop hroot, every_fold_of_makes hQ c hc,
        every_fold_of_makes hQ b hb⟩
  | returnValue n v =>
      obtain ⟨hroot, hv⟩ := every_returnValue.1 h
      exact every_returnValue.2 ⟨hQ.returnValue hroot, every_fold_of_makes hQ v hv⟩
  | define n p b =>
      obtain ⟨hroot, hp, hb⟩ := every_define.1 h
      exact every_define.2 ⟨hQ.define hroot, every_fold_of_makes hQ p hp,
        every_unwrapTail hQ.stem _ (every_fold_of_makes hQ b hb)⟩
  | block n is =>
      obtain ⟨hroot, his⟩ := every_block.1 h
      exact every_block.2 ⟨hQ.block hroot, every_foldList_of_makes hQ is his⟩
  | unit n is =>
      obtain ⟨hroot, his⟩ := every_unit.1 h
      exact every_unit.2 ⟨hQ.unit hroot, every_foldList_of_makes hQ is his⟩
  | identifier n x => exact every_identifier.2 (hQ.leaf rfl h.self)
  | breakLoop n => exact every_breakLoop.2 (hQ.leaf rfl h.self)
  | continueLoop n => exact every_continueLoop.2 (hQ.leaf rfl h.self)
  | prototype n f ps => exact every_prototype.2 (hQ.leaf rfl h.self)
  | assembly n t => exact every_assembly.2 (hQ.leaf rfl h.self)

theorem every_foldList_of_makes (hQ : Makes P Q) (xs : List (Node α)) (h : ∀ x ∈ xs, Every P x) :
    ∀ x ∈ (foldList xs).1, Every Q x := by
  cases xs with
  | nil => nofun
  | cons x xs =>
      rw [List.forall_mem_cons] at h
      have hx := every_fold_of_makes hQ x h.1
      have hxs := every_foldList_of_makes hQ xs h.2
      simpa [foldList] using ⟨hx, hxs⟩

theorem every_foldOption_of_makes (hQ : Makes P Q) (e : Option (Node α))
    (h : ∀ x, e = some x → Every P x) : ∀ x, (foldOption e).1 = some x → Every Q x := by
  cases e with
  | none => nofun
  | some y =>
      intro x hx
      cases hx
      exact every_fold_of_makes hQ y (h y rfl)

end

/-- **What can be seen at the root of every subtree lasts when a tree is folded.** -/
theorem every_fold (hP : IsOfRoot P) (x : Node α) (h : Every P x) : Every P x.fold.1 :=
  every_fold_of_makes hP.makes x h

/-! ### Target code -/

/-- Whether the tree is a piece of target code. -/
def isAssembly : Node α → Bool
  | assembly .. => true
  | _ => false

/-- Whether there is target code in the tree. -/
def hasAssembly (x : Node α) : Bool := x.subtrees.any isAssembly

theorem hasAssembly_eq_false {x : Node α} :
    x.hasAssembly = false ↔ Every (fun y => y.isAssembly = false) x := by
  simp [hasAssembly, Every]

/-- Whether there is target code in a tree depends on its shape. -/
theorem hasAssembly_shape (x : Node α) : x.shape.hasAssembly = x.hasAssembly := by
  have hroot : ∀ y : Node α, y.shape.isAssembly = y.isAssembly := by
    intro y
    cases y <;> rfl
  rw [Bool.eq_iff_iff, ← Bool.not_eq_false, ← Bool.not_eq_false, not_iff_not,
    hasAssembly_eq_false, hasAssembly_eq_false, every_shape]
  simp only [hroot]

/-- **Folding brings no target code into a tree.** -/
theorem hasAssembly_fold {x : Node α} (h : x.hasAssembly = false) :
    x.fold.1.hasAssembly = false := by
  rw [hasAssembly_eq_false] at h ⊢
  refine every_fold ?_ x h
  constructor <;> intros <;> rfl

end Node

end StackLang
