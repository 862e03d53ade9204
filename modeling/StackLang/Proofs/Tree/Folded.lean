/-
**What folding leaves to fold.**

One run leaves no operator on literals that has a value and no condition on a literal.  At the end
of a function body it takes one `return` away; when the value of that `return` ends in another one,
this one now stands at the end of the body, and another run takes it away.  So the folded tree is
folded to itself exactly when no function body in it ends in a `return`, and that is so when no such
value did.

Main definitions:

* `Node.IsComputed` — nothing is left to compute at the root;
* `Node.Returned` — the values of the returns at the end of a tree;
* `Node.IsTailFree`, `Node.ReturnsOnce` — function bodies without returns at their ends, and without
  a second one behind the first.

Main results:

* `Node.every_isComputed_fold` — one run leaves no operator and no condition to compute;
* `Node.returned_unwrapTail`, `Node.returned_fold` — the returns at the end that are left;
* `Node.fold_eq_self_iff` — the trees that folding leaves as they are;
* `Node.fold_normal` — how far one run gets.
-/

import StackLang.Tree.Parser
import StackLang.Proofs.Step
import StackLang.Proofs.Tree.Fold

set_option relaxedAutoImplicit false
set_option autoImplicit false

namespace StackLang

namespace Node

variable {α : Type}

/-! ### Operators and conditions -/

/-- Nothing is left to compute at the root: an operator on literals is an assignment or a division
of an integer by the integer zero, and no condition is a literal. -/
def IsComputed : Node α → Prop
  | binary _ op l r => ∀ i a j b, l = literal i a → r = literal j b →
    op = .assign ∨ op = .divide ∧ (∃ k, a = .int k) ∧ b = .int 0
  | unary _ _ x => ∀ i v, x ≠ literal i v
  | cond _ c _ _ => ∀ i v, c ≠ literal i v
  | _ => True

/-- Assignments and divisions of an integer by zero are the operators that have no value. -/
theorem eval?_eq_none_iff {op : BinaryOp} {a b : Literal} :
    op.eval? a b = none ↔ op = .assign ∨ op = .divide ∧ (∃ k, a = .int k) ∧ b = .int 0 := by
  cases op <;> cases a <;> cases b <;>
    simp [BinaryOp.eval?, BinaryOp.isComparison, BinaryOp.evalInt?, BinaryOp.evalFloat?]

section Kept

variable {n : α}

theorem foldBinary_eq_zero_iff {op : BinaryOp} {l r : Node α} :
    (foldBinary n op l r).2 = 0 ↔ IsComputed (binary n op l r) := by
  unfold foldBinary
  split
  · rename_i i a j b
    have hvalue : IsComputed (binary n op (literal i a) (literal j b)) ↔ op.eval? a b = none := by
      rw [eval?_eq_none_iff]
      refine ⟨fun h => h i a j b rfl rfl, fun h i' a' j' b' hl hr => ?_⟩
      cases hl
      cases hr
      exact h
    rw [hvalue]
    split <;> simp_all
  · rename_i hnot
    simpa [IsComputed] using fun i a j b hl hr => absurd hr (hnot i a j b hl)

theorem foldUnary_eq_zero_iff {op : UnaryOp} {x : Node α} :
    (foldUnary n op x).2 = 0 ↔ IsComputed (unary n op x) := by
  unfold foldUnary
  split <;> simp_all [IsComputed]

theorem foldCond_eq_zero_iff {c t : Node α} {e : Option (Node α)} :
    (foldCond n c t e).2 = 0 ↔ IsComputed (cond n c t e) := by
  unfold foldCond
  split <;> simp_all [IsComputed]

/-! What is not computed is kept. -/

theorem foldBinary_of_eq_zero {op : BinaryOp} {l r : Node α} (h : (foldBinary n op l r).2 = 0) :
    (foldBinary n op l r).1 = binary n op l r := by
  unfold foldBinary at h ⊢
  split at h
  · split at h
    · cases h
    · rfl
  · rfl

theorem foldUnary_of_eq_zero {op : UnaryOp} {x : Node α} (h : (foldUnary n op x).2 = 0) :
    (foldUnary n op x).1 = unary n op x := by
  unfold foldUnary at h ⊢
  split at h
  · cases h
  · rfl

theorem foldCond_of_eq_zero {c t : Node α} {e : Option (Node α)}
    (h : (foldCond n c t e).2 = 0) : (foldCond n c t e).1 = cond n c t e := by
  unfold foldCond at h ⊢
  split at h
  · cases h
  · rfl

end Kept

/-- **One run leaves no operator and no condition to compute.** -/
theorem every_isComputed_fold (x : Node α) : Every IsComputed x.fold.1 := by
  have hmakes : Makes (fun _ : Node α => True) IsComputed :=
    { stem := ⟨fun _ _ => trivial, fun _ _ h => h⟩
      literal := fun _ _ => trivial
      nop := fun _ => trivial
      leaf := fun {x} hx _ => by cases x <;> trivial
      binary := fun _ hkept => foldBinary_eq_zero_iff.1 hkept
      unary := fun _ hkept => foldUnary_eq_zero_iff.1 hkept
      call := fun _ => trivial
      cond := fun _ hkept => foldCond_eq_zero_iff.1 hkept
      loop := fun _ => trivial
      returnValue := fun _ => trivial
      define := fun _ => trivial
      block := fun _ => trivial
      unit := fun _ => trivial }
  exact every_fold_of_makes hmakes x fun _ _ => trivial

/-! ### Returns at the end -/

/-- `Returned v x`: a `return` at the end of `x` returns `v`.  The tree itself, the last statement
of a block at the end and both branches of a condition at the end are at the end. -/
inductive Returned (v : Node α) : Node α → Prop
  | here (n : α) : Returned v (returnValue n v)
  | last {n : α} {is : List (Node α)} {x : Node α} (hx : is.getLast? = some x)
      (h : Returned v x) : Returned v (block n is)
  | yes {n : α} {c t : Node α} {e : Option (Node α)} (h : Returned v t) :
      Returned v (cond n c t e)
  | no {n : α} {c t e : Node α} (h : Returned v e) : Returned v (cond n c t (some e))

/-- No function body ends in a `return`. -/
def IsTailFree : Node α → Prop
  | define _ _ b => ∀ v, ¬ Returned v b
  | _ => True

/-- A `return` at the end of a function body returns no value that ends in another one. -/
def ReturnsOnce : Node α → Prop
  | define _ _ b => ∀ v w, Returned v b → ¬ Returned w v
  | _ => True

section Returned

variable {n : α} {v w : Node α}

theorem returned_block {is : List (Node α)} :
    Returned v (block n is) ↔ ∃ x, is.getLast? = some x ∧ Returned v x := by
  refine ⟨fun h => ?_, fun ⟨x, hx, h⟩ => .last hx h⟩
  cases h with
  | last hx h => exact ⟨_, hx, h⟩

theorem returned_cond {c t : Node α} {e : Option (Node α)} :
    Returned v (cond n c t e) ↔ Returned v t ∨ ∃ x, e = some x ∧ Returned v x := by
  refine ⟨fun h => ?_, ?_⟩
  · cases h with
    | yes h => exact .inl h
    | no h => exact .inr ⟨_, rfl, h⟩
  · rintro (h | ⟨x, rfl, h⟩)
    · exact .yes h
    · exact .no h

theorem returned_returnValue : Returned v (returnValue n w) ↔ v = w := by
  refine ⟨fun h => ?_, ?_⟩
  · cases h
    rfl
  · rintro rfl
    exact .here n

end Returned

/-! ### The returns that are taken away -/

theorem unwrapLast_concat (xs : List (Node α)) (x : Node α) :
    unwrapLast (xs ++ [x]) = (xs ++ [x.unwrapTail.1], x.unwrapTail.2) := by
  induction xs with
  | nil => rfl
  | cons y xs ih =>
      cases xs with
      | nil => rfl
      | cons z xs =>
          rw [List.cons_append, List.cons_append, unwrapLast, ← List.cons_append, ih]
          rfl

theorem getLast?_unwrapLast (xs : List (Node α)) :
    (unwrapLast xs).1.getLast? = xs.getLast?.map fun x => x.unwrapTail.1 := by
  rcases List.eq_nil_or_concat xs with rfl | ⟨ys, x, rfl⟩
  · rfl
  · rw [List.concat_eq_append, unwrapLast_concat]
    simp

theorem unwrapOption_eq_map (e : Option (Node α)) :
    (unwrapOption e).1 = e.map fun x => x.unwrapTail.1 := by
  cases e <;> rfl

/-- What is left at the end of a body was the value of a `return` before. -/
theorem exists_returned_of_unwrapTail {w x : Node α} (h : Returned w x.unwrapTail.1) :
    ∃ v, Returned v x ∧ Returned w v := by
  induction x using induction_children with
  | h x ih =>
      cases x with
      | returnValue n v => exact ⟨v, .here n, h⟩
      | block n is =>
          obtain ⟨y, hy, hw⟩ := returned_block.1 h
          rw [getLast?_unwrapLast, Option.map_eq_some_iff] at hy
          obtain ⟨x, hx, rfl⟩ := hy
          obtain ⟨v, hv, hvw⟩ := ih x (List.mem_of_getLast? hx) hw
          exact ⟨v, .last hx hv, hvw⟩
      | cond n c t e =>
          rcases returned_cond.1 h with hw | ⟨y, hy, hw⟩
          · obtain ⟨v, hv, hvw⟩ := ih t (by simp [children]) hw
            exact ⟨v, .yes hv, hvw⟩
          · rw [unwrapOption_eq_map, Option.map_eq_some_iff] at hy
            obtain ⟨x, rfl, rfl⟩ := hy
            obtain ⟨v, hv, hvw⟩ := ih x (by simp [children]) hw
            exact ⟨v, .no hv, hvw⟩
      | _ => cases h

theorem Returned.unwrapTail {v w x : Node α} (hv : Returned v x) (hw : Returned w v) :
    Returned w x.unwrapTail.1 := by
  induction hv with
  | here n => exact hw
  | last hx _ ih =>
      refine .last ?_ ih
      rw [getLast?_unwrapLast, hx]
      rfl
  | yes _ ih => exact .yes ih
  | no _ ih => exact .no ih

/-- **The returns at the end of a body from which the returns at the end were taken away** are those
at the end of their values. -/
theorem returned_unwrapTail {w x : Node α} :
    Returned w x.unwrapTail.1 ↔ ∃ v, Returned v x ∧ Returned w v :=
  ⟨exists_returned_of_unwrapTail, fun ⟨_, hv, hw⟩ => hv.unwrapTail hw⟩

/-- A tree without a `return` at its end stays as it is. -/
theorem unwrapTail_of_not_returned {x : Node α} (h : ∀ v, ¬ Returned v x) :
    x.unwrapTail = (x, 0) := by
  induction x using induction_children with
  | h x ih =>
      cases x with
      | returnValue n v => exact absurd (.here n) (h v)
      | block n is =>
          rcases List.eq_nil_or_concat is with rfl | ⟨ys, x, rfl⟩
          · rfl
          · rw [List.concat_eq_append] at h ih ⊢
            have hx := ih x (by simp [children]) fun v hv => h v (.last (by simp) hv)
            simp only [unwrapTail, unwrapLast_concat, hx]
      | cond n c t e =>
          have ht := ih t (by simp [children]) fun v hv => h v (.yes hv)
          cases e with
          | none => simp only [unwrapTail, unwrapOption, ht]
          | some e =>
              have he := ih e (by simp [children]) fun v hv => h v (.no hv)
              simp only [unwrapTail, unwrapOption, ht, he]
      | _ => rfl

/-- A `return` at the end is counted. -/
theorem unwrapTail_pos {v x : Node α} (h : Returned v x) : 0 < x.unwrapTail.2 := by
  induction h with
  | here n => exact Nat.one_pos
  | last hx _ ih =>
      obtain ⟨ys, rfl⟩ := List.getLast?_eq_some_iff.1 hx
      simpa only [unwrapTail, unwrapLast_concat] using ih
  | yes _ ih => exact Nat.lt_of_lt_of_le ih (Nat.le_add_right _ _)
  | no _ ih => exact Nat.lt_of_lt_of_le ih (Nat.le_add_left _ _)

/-! ### The returns that are folded -/

theorem foldList_eq_map (xs : List (Node α)) : (foldList xs).1 = xs.map fun x => x.fold.1 := by
  induction xs with
  | nil => rfl
  | cons x xs ih => simp only [foldList, ih, List.map_cons]

theorem foldOption_eq_map (e : Option (Node α)) :
    (foldOption e).1 = e.map fun x => x.fold.1 := by
  cases e <;> rfl

theorem not_returned_foldBinary {n : α} {op : BinaryOp} {l r v : Node α} :
    ¬ Returned v (foldBinary n op l r).1 := by
  unfold foldBinary
  split
  · split <;> nofun
  · nofun

theorem not_returned_foldUnary {n : α} {op : UnaryOp} {x v : Node α} :
    ¬ Returned v (foldUnary n op x).1 := by
  unfold foldUnary
  split <;> nofun

/-- What a folded condition returns it returned before. -/
theorem returned_of_foldCond {n : α} {c t v : Node α} {e : Option (Node α)}
    (h : Returned v (foldCond n c t e).1) : Returned v (cond n c t e) := by
  unfold foldCond at h
  split at h
  · simp only at h
    split at h
    · exact .yes h
    · cases e with
      | none => cases h
      | some e => exact .no h
  · exact h

/-- **The returns at the end of a folded tree** return what returns at its end returned, folded. -/
theorem returned_fold {x v : Node α} (h : Returned v x.fold.1) :
    ∃ u, Returned u x ∧ v = u.fold.1 := by
  induction x using induction_children with
  | h x ih =>
      cases x with
      | binary n op l r => exact absurd h not_returned_foldBinary
      | unary n op x => exact absurd h not_returned_foldUnary
      | returnValue n u => exact ⟨u, .here n, returned_returnValue.1 h⟩
      | cond n c t e =>
          rcases returned_cond.1 (returned_of_foldCond h) with hv | ⟨y, hy, hv⟩
          · obtain ⟨u, hu, rfl⟩ := ih t (by simp [children]) hv
            exact ⟨u, .yes hu, rfl⟩
          · rw [foldOption_eq_map, Option.map_eq_some_iff] at hy
            obtain ⟨x, rfl, rfl⟩ := hy
            obtain ⟨u, hu, rfl⟩ := ih x (by simp [children]) hv
            exact ⟨u, .no hu, rfl⟩
      | block n is =>
          obtain ⟨y, hy, hv⟩ := returned_block.1 h
          rw [foldList_eq_map, List.getLast?_map, Option.map_eq_some_iff] at hy
          obtain ⟨x, hx, rfl⟩ := hy
          obtain ⟨u, hu, rfl⟩ := ih x (List.mem_of_getLast? hx) hv
          exact ⟨u, .last hx hu, rfl⟩
      | _ => cases h

/-- **A function body ends in no `return`** when those at its end were taken away, unless one of
them returned a value that ends in another one. -/
theorem every_isTailFree_fold {x : Node α} (h : Every ReturnsOnce x) :
    Every IsTailFree x.fold.1 := by
  have hmakes : Makes (@ReturnsOnce α) IsTailFree :=
    { stem := ⟨fun _ _ => trivial, fun _ _ _ => trivial⟩
      literal := fun _ _ => trivial
      nop := fun _ => trivial
      leaf := fun {x} hx _ => by cases x <;> trivial
      binary := fun _ _ => trivial
      unary := fun _ _ => trivial
      call := fun _ => trivial
      cond := fun _ _ => trivial
      loop := fun _ => trivial
      returnValue := fun _ => trivial
      define := fun h w hw => by
        obtain ⟨v, hv, hvw⟩ := returned_unwrapTail.1 hw
        obtain ⟨u, hu, rfl⟩ := returned_fold hv
        obtain ⟨t, ht, -⟩ := returned_fold hvw
        exact h u t hu ht
      block := fun _ => trivial
      unit := fun _ => trivial }
  exact every_fold_of_makes hmakes x h

/-! ### Trees that are folded to themselves -/

/-- What is done at the root when nothing changes below it. -/
def foldRoot : Node α → Node α × Nat
  | binary n op l r => foldBinary n op l r
  | unary n op x => foldUnary n op x
  | cond n c t e => foldCond n c t e
  | define n p b => (define n p b.unwrapTail.1, b.unwrapTail.2)
  | x => (x, 0)

theorem foldRoot_eq_zero_iff {x : Node α} :
    x.foldRoot.2 = 0 ↔ x.IsComputed ∧ x.IsTailFree := by
  cases x with
  | binary n op l r => exact foldBinary_eq_zero_iff.trans (and_iff_left trivial).symm
  | unary n op x => exact foldUnary_eq_zero_iff.trans (and_iff_left trivial).symm
  | cond n c t e => exact foldCond_eq_zero_iff.trans (and_iff_left trivial).symm
  | define n p b =>
      refine ⟨fun h => ⟨trivial, fun v hv => ?_⟩, fun h => ?_⟩
      · have hpos := unwrapTail_pos hv
        have hzero : b.unwrapTail.2 = 0 := h
        omega
      · simp only [foldRoot, unwrapTail_of_not_returned h.2]
  | _ => exact ⟨fun _ => ⟨trivial, trivial⟩, fun _ => rfl⟩

theorem foldRoot_of_eq_zero {x : Node α} (h : x.foldRoot.2 = 0) : x.foldRoot = (x, 0) := by
  refine Prod.ext ?_ h
  cases x with
  | binary n op l r => exact foldBinary_of_eq_zero h
  | unary n op x => exact foldUnary_of_eq_zero h
  | cond n c t e => exact foldCond_of_eq_zero h
  | define n p b => simp only [foldRoot, unwrapTail_of_not_returned (foldRoot_eq_zero_iff.1 h).2]
  | _ => rfl

theorem foldList_of_forall {xs : List (Node α)} (h : ∀ x ∈ xs, x.fold = (x, 0)) :
    foldList xs = (xs, 0) := by
  induction xs with
  | nil => rfl
  | cons x xs ih =>
      rw [List.forall_mem_cons] at h
      simp only [foldList, h.1, ih h.2]

theorem foldOption_of_forall {e : Option (Node α)} (h : ∀ x ∈ e.toList, x.fold = (x, 0)) :
    foldOption e = (e, 0) := by
  cases e with
  | none => rfl
  | some x => simp only [foldOption, h x (by simp)]

theorem fold_eq_foldRoot {x : Node α} (h : ∀ y ∈ x.children, y.fold = (y, 0)) :
    x.fold = x.foldRoot := by
  cases x <;> simp only [children, List.forall_mem_cons] at h
  case binary => simp only [fold, h.1, h.2.1, Nat.zero_add]; rfl
  case unary => simp only [fold, h.1, Nat.zero_add]; rfl
  case call => simp only [fold, h.1, foldList_of_forall h.2]; rfl
  case cond => simp only [fold, h.1, h.2.1, foldOption_of_forall h.2.2, Nat.zero_add]; rfl
  case loop => simp only [fold, h.1, h.2.1]; rfl
  case returnValue => simp only [fold, h.1]; rfl
  case define => simp only [fold, h.1, h.2.1, Nat.zero_add]; rfl
  case block => simp only [fold, foldList_of_forall h]; rfl
  case unit => simp only [fold, foldList_of_forall h]; rfl
  all_goals rfl

theorem eq_zero_of_foldList {xs : List (Node α)} (h : (foldList xs).2 = 0) :
    ∀ x ∈ xs, x.fold.2 = 0 := by
  induction xs with
  | nil => nofun
  | cons x xs ih =>
      have hsum : x.fold.2 + (foldList xs).2 = 0 := h
      rw [List.forall_mem_cons]
      exact ⟨by omega, ih (by omega)⟩

theorem eq_zero_of_foldOption {e : Option (Node α)} (h : (foldOption e).2 = 0) :
    ∀ x ∈ e.toList, x.fold.2 = 0 := by
  cases e with
  | none => nofun
  | some x =>
      intro y hy
      cases List.mem_singleton.1 hy
      exact h

/-- Every replacement below a node is counted. -/
theorem eq_zero_of_fold {x : Node α} (h : x.fold.2 = 0) : ∀ y ∈ x.children, y.fold.2 = 0 := by
  cases x <;> simp only [fold, Nat.add_eq_zero_iff, children, List.forall_mem_cons] at h ⊢
  case binary => exact ⟨h.1.1, h.1.2, nofun⟩
  case unary => exact ⟨h.1, nofun⟩
  case call => exact ⟨h.1, eq_zero_of_foldList h.2⟩
  case cond => exact ⟨h.1.1.1, h.1.1.2, eq_zero_of_foldOption h.1.2⟩
  case loop => exact ⟨h.1, h.2, nofun⟩
  case returnValue => exact ⟨h, nofun⟩
  case define => exact ⟨h.1.1, h.1.2, nofun⟩
  case block => exact eq_zero_of_foldList h
  case unit => exact eq_zero_of_foldList h
  all_goals nofun

/-- Without a replacement nothing changes. -/
theorem fold_of_eq_zero {x : Node α} (h : x.fold.2 = 0) : x.fold = (x, 0) := by
  induction x using induction_children with
  | h x ih =>
      have hroot := fold_eq_foldRoot fun y hy => ih y hy (eq_zero_of_fold h y hy)
      rw [hroot] at h ⊢
      exact foldRoot_of_eq_zero h

/-- **The trees that are folded to themselves.** -/
theorem fold_eq_self_iff {x : Node α} :
    x.fold = (x, 0) ↔ Every IsComputed x ∧ Every IsTailFree x := by
  induction x using induction_children with
  | h x ih =>
      have hroot (h : ∀ y ∈ x.children, y.fold = (y, 0)) :
          x.fold = (x, 0) ↔ x.IsComputed ∧ x.IsTailFree := by
        rw [fold_eq_foldRoot h, ← foldRoot_eq_zero_iff]
        exact ⟨fun h => congrArg Prod.snd h, foldRoot_of_eq_zero⟩
      rw [every_iff_children, every_iff_children]
      constructor
      · intro h
        have hbelow : ∀ y ∈ x.children, y.fold = (y, 0) := fun y hy =>
          fold_of_eq_zero (eq_zero_of_fold (congrArg Prod.snd h) y hy)
        obtain ⟨hcomputed, htail⟩ := (hroot hbelow).1 h
        exact ⟨⟨hcomputed, fun y hy => ((ih y hy).1 (hbelow y hy)).1⟩,
          htail, fun y hy => ((ih y hy).1 (hbelow y hy)).2⟩
      · rintro ⟨⟨hcomputed, hcomputed'⟩, htail, htail'⟩
        exact (hroot fun y hy => (ih y hy).2 ⟨hcomputed' y hy, htail' y hy⟩).2 ⟨hcomputed, htail⟩

/-! ### How far one run gets -/

/-- **How far one run gets**: no operator and no condition is left to compute; the folded tree is
folded to itself exactly when no function body in it ends in a `return`; and that is so when no
`return` at the end of a function body returned a value that ends in another one. -/
theorem fold_normal (x : Node α) :
    Every IsComputed x.fold.1 ∧ (x.fold.1.fold = (x.fold.1, 0) ↔ Every IsTailFree x.fold.1) ∧
      (Every ReturnsOnce x → Every IsTailFree x.fold.1 ∧ x.fold.1.fold = (x.fold.1, 0)) := by
  have hcomputed := every_isComputed_fold x
  have hself : x.fold.1.fold = (x.fold.1, 0) ↔ Every IsTailFree x.fold.1 := by
    rw [fold_eq_self_iff, and_iff_right hcomputed]
  refine ⟨hcomputed, hself, fun h => ?_⟩
  have htail := every_isTailFree_fold h
  exact ⟨htail, hself.2 htail⟩

/-- A function that returns at the end of one branch and adds literals at the end of the other. -/
theorem fold_normal_branches : ∃ x : Node Nat, Every ReturnsOnce x ∧ x.fold.2 = 2 ∧
    Every IsComputed x.fold.1 ∧ Every IsTailFree x.fold.1 ∧ x.fold.1.fold = (x.fold.1, 0) := by
  let x : Node Nat := define 0 (prototype 1 "f" ["x"]) (block 2 [cond 3 (identifier 4 "x")
    (block 5 [returnValue 6 (literal 7 (.int 1))])
    (some (block 8 [binary 9 .add (literal 10 (.int 2)) (literal 11 (.int 3))]))])
  have honce : Every ReturnsOnce x := by
    refine every_define.2 ⟨fun v w hv hw => ?_, by simp [ReturnsOnce], by simp [ReturnsOnce]⟩
    rcases returned_cond.1 (by simpa [returned_block] using hv) with hv | ⟨e, he, hv⟩
    · obtain rfl : v = literal 7 (.int 1) := by
        simpa [returned_block, returned_returnValue] using hv
      cases hw
    · cases he
      obtain ⟨sum, hsum, hv⟩ := returned_block.1 hv
      cases hsum
      cases hv
  obtain ⟨hcomputed, -, hnormal⟩ := fold_normal x
  exact ⟨x, honce, rfl, hcomputed, hnormal honce⟩

open Cursor in
/-- A returned block that ends in a `return`: one run takes the outer `return` away, and the inner
one is left at the end of the body. -/
theorem not_isTailFree_nested : ∃ (ls : List Lexeme) (x : Node Span),
    Lexeme.ofText "def f() { return { return 1 } }" = .ok ls ∧ (ofLexemes ls).parse = .ok x ∧
    x.fold.2 = 1 ∧ ¬ Every IsTailFree x.fold.1 ∧ x.fold.1.fold.2 = 1 ∧
    x.fold.1.fold.1 ≠ x.fold.1 := by
  have hlex : (Lexeme.ofText "def f() { return { return 1 } }").toOption = some [
      ⟨.defWord, ⟨0, 3, 1, 1⟩⟩, ⟨.identifier "f", ⟨4, 5, 1, 5⟩⟩, ⟨.leftParen, ⟨5, 6, 1, 6⟩⟩,
      ⟨.rightParen, ⟨6, 7, 1, 7⟩⟩, ⟨.leftBrace, ⟨8, 9, 1, 9⟩⟩, ⟨.returnWord, ⟨10, 16, 1, 11⟩⟩,
      ⟨.leftBrace, ⟨17, 18, 1, 18⟩⟩, ⟨.returnWord, ⟨19, 25, 1, 20⟩⟩,
      ⟨.intLiteral 1, ⟨26, 27, 1, 27⟩⟩, ⟨.rightBrace, ⟨28, 29, 1, 29⟩⟩,
      ⟨.rightBrace, ⟨30, 31, 1, 31⟩⟩, ⟨.eof, ⟨31, 31, 1, 32⟩⟩] := by
    decide +kernel
  refine ⟨_, .unit ⟨0, 31, 1, 1⟩ [.define ⟨0, 31, 1, 1⟩ (.prototype ⟨4, 7, 1, 5⟩ "f" [])
    (.block ⟨8, 31, 1, 9⟩ [.returnValue ⟨10, 29, 1, 11⟩ (.block ⟨17, 29, 1, 18⟩
      [.returnValue ⟨19, 27, 1, 20⟩ (.literal ⟨26, 27, 1, 27⟩ (.int 1))])])],
    Step.eq_ok_of_toOption hlex, rfl, rfl, ?_, rfl, ?_⟩
  · simp [fold, foldList, unwrapTail, unwrapLast, IsTailFree, returned_block, returned_returnValue]
  · simp [fold, foldList, unwrapTail, unwrapLast]

end Node

end StackLang
