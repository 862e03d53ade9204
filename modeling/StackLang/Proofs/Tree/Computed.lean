/-
**Folding that only computes.**

Folding takes away operators on literals and the branches of an `if` that is decided.  Most of the
time nothing else changes, but not always: compared literals may lie further apart than a cell can
hold, and then the code finds another order than folding did; and the branch that is dropped may
have been the first to assign a variable or to call a function, and then names stand for something
else, or nothing, in the rest of the text.  In a steady tree neither happens, and the folded tree
is the tree with some of its integers computed.

Main definitions:

* `Node.IsIdle` — a tree that brings in no name;
* `Node.IsSteady` — a tree in which folding only computes;
* `Node.Computed` — a tree with some of its integers computed.

Main results:

* `Node.computed_fold` — the folded tree is such a tree;
* `Node.Computed.number` — whatever the notes are.
-/

import StackLang.Proofs.Eval.Basic
import StackLang.Proofs.Tree.Source
import StackLang.Proofs.Typing.Settles

set_option relaxedAutoImplicit false
set_option autoImplicit false

namespace StackLang

namespace Node

variable {α β α' β' : Type}

/-! ### Steady trees -/

/-- Whether the root brings in a name: an assignment, a call or a definition does. -/
def isBusy : Node α → Bool
  | binary _ op _ _ => op = .assign
  | call .. | define .. | prototype .. | unit .. => true
  | _ => false

/-- There is no assignment, call or definition in the tree. -/
def IsIdle (x : Node α) : Prop := x.Every fun y => y.isBusy = false

instance (x : Node α) : Decidable x.IsIdle :=
  inferInstanceAs (Decidable (∀ y ∈ x.subtrees, y.isBusy = false))

/-- The integer that is the tree. -/
def int? : Node α → Option Int32
  | literal _ (.int v) => some v
  | _ => none

/-- What is asked of the root for folding to do no more than compute: the difference of integers
that are compared does not wrap, and a branch that is dropped brings in no name. -/
def IsSteadyHead : Node α → Prop
  | binary _ op l r => ∀ a ∈ l.fold.1.int?, ∀ b ∈ r.fold.1.int?,
      op.isComparison = true → op.holdsInt (a - b) 0 = op.holdsInt a b
  | cond _ c t e => ∀ v ∈ c.fold.1.int?, if v = 0 then t.IsIdle else ∀ x ∈ e, x.IsIdle
  | _ => True

-- the instances are named because there is another one, that goes through all integers
instance : (x : Node α) → Decidable x.IsSteadyHead
  | binary _ _ _ _ => @Option.decidableForallMem _ _ (fun _ => Option.decidableForallMem _) _
  | cond _ _ _ _ => @Option.decidableForallMem _ _ (fun _ => inferInstance) _
  | literal .. | identifier .. | unary .. | call .. | loop .. | breakLoop .. | continueLoop ..
  | returnValue .. | define .. | prototype .. | block .. | assembly .. | unit .. | nop .. =>
    .isTrue trivial

/-- **Folding the tree only computes.** -/
def IsSteady (x : Node α) : Prop := x.Every IsSteadyHead

instance (x : Node α) : Decidable x.IsSteady :=
  inferInstanceAs (Decidable (∀ y ∈ x.subtrees, y.IsSteadyHead))

/-- What is asked of the root of an expression on integers without jumps and target code for folding
to do no more than compute. -/
def IsFairHead (x : Node α) : Prop :=
  x.IsPlainHead ∧ x.isDetour = false ∧ x.isFloat = false ∧ x.IsSteadyHead

/-- A steady expression on integers, without jumps and target code. -/
def IsFair (x : Node α) : Prop := x.Every IsFairHead

theorem isFair_iff {x : Node α} :
    x.IsFair ↔ x.IsPlain ∧ x.IsStraight ∧ x.IsFloatFree ∧ x.IsSteady := by
  simp only [IsFair, IsPlain, IsStraight, IsFloatFree, IsSteady, Every, IsFairHead, ← forall_and]

/-! ### Computed trees -/

mutual

/-- **The second tree is the first with some of its integers computed**, and notes at the nodes that
correspond stand in the relation `same`. -/
inductive Computed (same : α → β → Prop) : Node α → Node β → Prop
  | literal {n : α} {n' : β} {v : Literal} (hn : same n n') :
      Computed same (literal n v) (literal n' v)
  | identifier {n : α} {n' : β} {x : String} (hn : same n n') :
      Computed same (identifier n x) (identifier n' x)
  | binary {n : α} {n' : β} {op : BinaryOp} {l r : Node α} {l' r' : Node β} (hn : same n n')
      (hl : Computed same l l') (hr : Computed same r r') :
      Computed same (binary n op l r) (binary n' op l' r')
  | unary {n : α} {n' : β} {op : UnaryOp} {x : Node α} {x' : Node β} (hn : same n n')
      (hx : Computed same x x') : Computed same (unary n op x) (unary n' op x')
  | call {n : α} {n' : β} {f : Node α} {f' : Node β} {as : List (Node α)} {as' : List (Node β)}
      (hn : same n n') (hf : Computed same f f') (has : ComputedList same as as') :
      Computed same (call n f as) (call n' f' as')
  | cond {n : α} {n' : β} {c t : Node α} {c' t' : Node β} {e : Option (Node α)}
      {e' : Option (Node β)} (hn : same n n') (hc : Computed same c c') (ht : Computed same t t')
      (he : ComputedOption same e e') : Computed same (cond n c t e) (cond n' c' t' e')
  | loop {n : α} {n' : β} {c b : Node α} {c' b' : Node β} (hn : same n n')
      (hc : Computed same c c') (hb : Computed same b b') :
      Computed same (loop n c b) (loop n' c' b')
  | block {n : α} {n' : β} {is : List (Node α)} {is' : List (Node β)} (hn : same n n')
      (his : ComputedList same is is') : Computed same (block n is) (block n' is')
  | nop {n : α} {n' : β} (hn : same n n') : Computed same (nop n) (nop n')
  /-- An operator on two integers. -/
  | value {n : α} {n' m m' : β} {op : BinaryOp} {l r : Node α} {a b v : Int32} (hn : same n n')
      (hl : Computed same l (Node.literal m (.int a)))
      (hr : Computed same r (Node.literal m' (.int b))) (hv : op.value? a b = some v) :
      Computed same (Node.binary n op l r) (Node.literal n' (.int v))
  /-- A sign of an integer. -/
  | sign {n : α} {n' m : β} {op : UnaryOp} {x : Node α} {a v : Int32} (hn : same n n')
      (hx : Computed same x (Node.literal m (.int a))) (hv : op.eval (.int a) = .int v) :
      Computed same (Node.unary n op x) (Node.literal n' (.int v))
  /-- A test that holds. -/
  | yes {n : α} {m : β} {c t : Node α} {t' : Node β} {e : Option (Node α)} {v : Int32}
      (hc : Computed same c (Node.literal m (.int v))) (hv : v ≠ 0) (ht : Computed same t t')
      (he : ∀ x ∈ e, x.IsIdle) (hd : t'.isDefinition = false) :
      Computed same (Node.cond n c t e) t'
  /-- A test that does not hold. -/
  | no {n : α} {m : β} {c t e : Node α} {e' : Node β}
      (hc : Computed same c (Node.literal m (.int 0))) (ht : t.IsIdle)
      (he : Computed same e e') (hd : e'.isDefinition = false) :
      Computed same (Node.cond n c t (some e)) e'
  /-- A test that does not hold, with nothing to do then. -/
  | skip {n : α} {n' m : β} {c t : Node α} (hn : same n n')
      (hc : Computed same c (Node.literal m (.int 0))) (ht : t.IsIdle) :
      Computed same (Node.cond n c t none) (Node.nop n')

/-- The same along lists. -/
inductive ComputedList (same : α → β → Prop) : List (Node α) → List (Node β) → Prop
  | nil : ComputedList same [] []
  | cons {x : Node α} {x' : Node β} {xs : List (Node α)} {xs' : List (Node β)}
      (hx : Computed same x x') (hxs : ComputedList same xs xs') :
      ComputedList same (x :: xs) (x' :: xs')

/-- The same for trees that may be missing. -/
inductive ComputedOption (same : α → β → Prop) : Option (Node α) → Option (Node β) → Prop
  | none : ComputedOption same none none
  | some {x : Node α} {x' : Node β} (hx : Computed same x x') :
      ComputedOption same (some x) (some x')

end

/-! ### The folded tree -/

variable {same : α → β → Prop} {x : Node α} {x' : Node β}

theorem Computed.isDefinition (h : Computed same x x') : x.isDefinition = false := by
  cases h <;> rfl

theorem Computed.isDefinition_computed (h : Computed same x x') : x'.isDefinition = false := by
  cases h <;> first | rfl | assumption

mutual

/-- **What is computed is an integer.** -/
theorem Computed.isFloatFree (x : Node α) {x' : Node β} (hx : x.IsFloatFree)
    (h : Computed same x x') : x'.IsFloatFree := by
  cases h with
  | @literal _ n' v _ =>
      have hv := hx.self
      cases v with
      | int a => exact every_literal.2 rfl
      | float a => cases hv
  | identifier _ => exact every_identifier.2 rfl
  | @binary n n' op l r l' r' _ hl hr =>
      obtain ⟨-, hxl, hxr⟩ := every_binary.1 hx
      exact every_binary.2 ⟨rfl, isFloatFree l hxl hl, isFloatFree r hxr hr⟩
  | @unary n n' op y y' _ hy =>
      exact every_unary.2 ⟨rfl, isFloatFree y (every_unary.1 hx).2 hy⟩
  | @call n n' f f' as as' _ hf has =>
      obtain ⟨-, hxf, hxas⟩ := every_call.1 hx
      exact every_call.2 ⟨rfl, isFloatFree f hxf hf, isFloatFree_list as hxas has⟩
  | @cond n n' c t c' t' e e' _ hc ht he =>
      obtain ⟨-, hxc, hxt, hxe⟩ := every_cond.1 hx
      exact every_cond.2 ⟨rfl, isFloatFree c hxc hc, isFloatFree t hxt ht,
        isFloatFree_option e hxe he⟩
  | @loop n n' c b c' b' _ hc hb =>
      obtain ⟨-, hxc, hxb⟩ := every_loop.1 hx
      exact every_loop.2 ⟨rfl, isFloatFree c hxc hc, isFloatFree b hxb hb⟩
  | @block n n' is is' _ his =>
      exact every_block.2 ⟨rfl, isFloatFree_list is (every_block.1 hx).2 his⟩
  | nop _ => exact every_nop.2 rfl
  | value _ _ _ _ => exact every_literal.2 rfl
  | sign _ _ _ => exact every_literal.2 rfl
  | @yes n m c t t' e v _ _ ht _ _ => exact isFloatFree t (every_cond.1 hx).2.2.1 ht
  | @no n m c t e e' _ _ he _ => exact isFloatFree e ((every_cond.1 hx).2.2.2 e rfl) he
  | skip _ _ _ => exact every_nop.2 rfl

theorem Computed.isFloatFree_list (xs : List (Node α)) {xs' : List (Node β)}
    (hxs : ∀ x ∈ xs, x.IsFloatFree) (h : ComputedList same xs xs') :
    ∀ x ∈ xs', x.IsFloatFree := by
  cases h with
  | nil => exact fun _ hy => absurd hy List.not_mem_nil
  | @cons y y' ys ys' hy hys =>
      rw [List.forall_mem_cons] at hxs
      exact List.forall_mem_cons.2 ⟨isFloatFree y hxs.1 hy, isFloatFree_list ys hxs.2 hys⟩

theorem Computed.isFloatFree_option (o : Option (Node α)) {o' : Option (Node β)}
    (ho : ∀ x, o = some x → x.IsFloatFree) (h : ComputedOption same o o') :
    ∀ x, o' = some x → x.IsFloatFree := by
  cases h with
  | none =>
      intro y hy
      cases hy
  | @some y y' hy =>
      intro z hz
      cases hz
      exact isFloatFree y (ho y rfl) hy

end

/-- Folding finds the value that the code finds, unless the difference of compared integers
wraps. -/
theorem value?_of_eval? {op : BinaryOp} {a b : Int32} {v : Literal}
    (h : op.eval? (.int a) (.int b) = some v)
    (hsteady : op.isComparison = true → op.holdsInt (a - b) 0 = op.holdsInt a b) :
    ∃ w, v = .int w ∧ op.value? a b = some w := by
  unfold BinaryOp.eval? at h
  unfold BinaryOp.value?
  cases hop : op.isComparison with
  | true =>
      rw [if_pos hop] at h
      cases h
      rw [hsteady hop]
      exact ⟨_, rfl, rfl⟩
  | false =>
      rw [if_neg (by simp [hop])] at h
      obtain ⟨w, hw, rfl⟩ := Option.map_eq_some_iff.1 h
      exact ⟨w, rfl, hw⟩

theorem eval_int (op : UnaryOp) (a : Int32) : ∃ w, op.eval (.int a) = .int w := by
  cases op <;> exact ⟨_, rfl⟩

/-- A literal that is no float is an integer. -/
theorem exists_int {n : α} {v : Literal} (h : (literal n v).IsFloatFree) : ∃ a, v = .int a := by
  cases v with
  | int a => exact ⟨a, rfl⟩
  | float a => cases h.self

section Heads

variable {n : α} {l r c t : Node α} {l' r' c' t' : Node α} {e e' : Option (Node α)}

theorem computed_foldBinary {op : BinaryOp} (hl : Computed (fun _ _ => True) l l')
    (hr : Computed (fun _ _ => True) r r') (hl' : l'.IsFloatFree) (hr' : r'.IsFloatFree)
    (hsteady : ∀ a ∈ l'.int?, ∀ b ∈ r'.int?,
      op.isComparison = true → op.holdsInt (a - b) 0 = op.holdsInt a b) :
    Computed (fun _ _ => True) (binary n op l r) (foldBinary n op l' r').1 := by
  unfold foldBinary
  split
  · obtain ⟨a, rfl⟩ := exists_int hl'
    obtain ⟨b, rfl⟩ := exists_int hr'
    split
    · case h_1 v hv =>
      obtain ⟨w, rfl, hw⟩ := value?_of_eval? hv (hsteady a rfl b rfl)
      exact .value trivial hl hr hw
    · exact .binary trivial hl hr
  · exact .binary trivial hl hr

theorem computed_foldUnary {op : UnaryOp} (hx : Computed (fun _ _ => True) c c')
    (hc' : c'.IsFloatFree) :
    Computed (fun _ _ => True) (unary n op c) (foldUnary n op c').1 := by
  unfold foldUnary
  split
  · obtain ⟨a, rfl⟩ := exists_int hc'
    obtain ⟨w, hw⟩ := eval_int op a
    simp only [hw]
    exact .sign trivial hx hw
  · exact .unary trivial hx

theorem computed_foldCond (hc : Computed (fun _ _ => True) c c') (hc' : c'.IsFloatFree)
    (ht : Computed (fun _ _ => True) t t') (he : ComputedOption (fun _ _ => True) e e')
    (hsteady : ∀ v ∈ c'.int?, if v = 0 then t.IsIdle else ∀ x ∈ e, x.IsIdle) :
    Computed (fun _ _ => True) (cond n c t e) (foldCond n c' t' e').1 := by
  unfold foldCond
  split
  · obtain ⟨a, rfl⟩ := exists_int hc'
    have hidle := hsteady a rfl
    by_cases ha : a = 0
    · subst ha
      rw [if_pos rfl] at hidle
      cases he with
      | none => exact .skip trivial hc hidle
      | some he => exact .no hc hidle he he.isDefinition_computed
    · rw [if_neg ha] at hidle
      have htrue : (Literal.int a).isTrue = true := by simp [Literal.isTrue, ha]
      simp only [htrue, if_true]
      exact .yes hc ha ht hidle ht.isDefinition_computed
  · exact .cond trivial hc ht he

end Heads

mutual

/-- **The folded tree is the tree with some of its integers computed.** -/
theorem computed_fold (x : Node α) (hx : x.IsFair) : Computed (fun _ _ => True) x x.fold.1 := by
  have hfree : ∀ {x : Node α}, x.IsFair → x.IsFloatFree := fun h => (isFair_iff.1 h).2.2.1
  cases x with
  | literal n v => exact .literal trivial
  | identifier n x => exact .identifier trivial
  | binary n op l r =>
      obtain ⟨⟨-, -, -, hsteady⟩, hl, hr⟩ := every_binary.1 hx
      have hl' := computed_fold l hl
      have hr' := computed_fold r hr
      exact computed_foldBinary hl' hr' (Computed.isFloatFree l (hfree hl) hl')
        (Computed.isFloatFree r (hfree hr) hr') hsteady
  | unary n op x =>
      obtain ⟨-, hx⟩ := every_unary.1 hx
      have hx' := computed_fold x hx
      exact computed_foldUnary hx' (Computed.isFloatFree x (hfree hx) hx')
  | call n f as =>
      obtain ⟨-, hf, has⟩ := every_call.1 hx
      exact .call trivial (computed_fold f hf) (computed_foldList as has)
  | cond n c t e =>
      obtain ⟨⟨-, -, -, hsteady⟩, hc, ht, he⟩ := every_cond.1 hx
      have hc' := computed_fold c hc
      exact computed_foldCond hc' (Computed.isFloatFree c (hfree hc) hc') (computed_fold t ht)
        (computed_foldOption e he) hsteady
  | loop n c b =>
      obtain ⟨-, hc, hb⟩ := every_loop.1 hx
      exact .loop trivial (computed_fold c hc) (computed_fold b hb)
  | block n is => exact .block trivial (computed_foldList is (every_block.1 hx).2)
  | nop n => exact .nop trivial
  | breakLoop n => exact absurd hx.self.2.1 (by simp [isDetour])
  | continueLoop n => exact absurd hx.self.2.1 (by simp [isDetour])
  | returnValue n v => exact absurd hx.self.2.1 (by simp [isDetour])
  | assembly n text => exact absurd hx.self.2.1 (by simp [isDetour])
  | define n p b => exact absurd hx.self.1 id
  | prototype n f ps => exact absurd hx.self.1 id
  | unit n is => exact absurd hx.self.1 id

theorem computed_foldList (xs : List (Node α)) (hxs : ∀ x ∈ xs, x.IsFair) :
    ComputedList (fun _ _ => True) xs (foldList xs).1 := by
  cases xs with
  | nil => exact .nil
  | cons x xs =>
      rw [List.forall_mem_cons] at hxs
      exact .cons (computed_fold x hxs.1) (computed_foldList xs hxs.2)

theorem computed_foldOption (o : Option (Node α)) (ho : ∀ x, o = some x → x.IsFair) :
    ComputedOption (fun _ _ => True) o (foldOption o).1 := by
  cases o with
  | none => exact .none
  | some x => exact .some (computed_fold x (ho x rfl))

end

/-! ### Other notes -/

/-- Whether a tree brings in a name depends on its shape. -/
theorem isIdle_shape (x : Node α) : x.shape.IsIdle ↔ x.IsIdle := by
  have hroot : ∀ y : Node α, y.shape.isBusy = y.isBusy := by
    intro y
    cases y <;> rfl
  simp only [IsIdle, every_shape, hroot]

theorem IsIdle.number {x : Node α} (h : x.IsIdle) (f : Nat → α → α') (k : Nat) :
    (x.number f k).1.IsIdle := by
  rwa [← isIdle_shape, shape_number, isIdle_shape]

theorem isIdle_numberOption {e : Option (Node α)} (h : ∀ x ∈ e, x.IsIdle) (f : Nat → α → α')
    (k : Nat) : ∀ x ∈ (numberOption f k e).1, x.IsIdle := by
  cases e with
  | none =>
      intro x hx
      cases hx
  | some y =>
      intro x hx
      cases hx
      exact (h y rfl).number f k

mutual

/-- **What is computed does not depend on the notes.** -/
theorem Computed.number (f : Nat → α → α') (g : Nat → β → β') (x : Node α) {x' : Node β}
    (h : Computed (fun _ _ => True) x x') (k j : Nat) :
    Computed (fun _ _ => True) (x.number f k).1 (x'.number g j).1 := by
  cases h with
  | literal _ => exact .literal trivial
  | identifier _ => exact .identifier trivial
  | @binary _ _ op l r l' r' _ hl hr =>
      exact .binary trivial (number f g l hl _ _) (number f g r hr _ _)
  | @unary _ _ op y y' _ hy => exact .unary trivial (number f g y hy _ _)
  | @call _ _ c c' as as' _ hc has =>
      exact .call trivial (number f g c hc _ _) (number_list f g as has _ _)
  | @cond _ _ c t c' t' e e' _ hc ht he =>
      exact .cond trivial (number f g c hc _ _) (number f g t ht _ _) (number_option f g e he _ _)
  | @loop _ _ c b c' b' _ hc hb =>
      exact .loop trivial (number f g c hc _ _) (number f g b hb _ _)
  | @block _ _ is is' _ his => exact .block trivial (number_list f g is his _ _)
  | nop _ => exact .nop trivial
  | @value _ _ m m' op l r a b v _ hl hr hv =>
      exact .value trivial (number f g l hl _ 0) (number f g r hr _ 0) hv
  | @sign _ _ m op y a v _ hy hv => exact .sign trivial (number f g y hy _ 0) hv
  | @yes _ m c t t' e v hc hv ht he hd =>
      exact .yes (number f g c hc _ 0) hv (number f g t ht _ _) (isIdle_numberOption he f _)
        (by rw [isDefinition_number, hd])
  | @no _ m c t e e' hc ht he hd =>
      exact .no (number f g c hc _ 0) (ht.number f _) (number f g e he _ _)
        (by rw [isDefinition_number, hd])
  | @skip _ _ m c t _ hc ht => exact .skip trivial (number f g c hc _ 0) (ht.number f _)

theorem Computed.number_list (f : Nat → α → α') (g : Nat → β → β') (xs : List (Node α))
    {xs' : List (Node β)} (h : ComputedList (fun _ _ => True) xs xs') (k j : Nat) :
    ComputedList (fun _ _ => True) (numberList f k xs).1 (numberList g j xs').1 := by
  cases h with
  | nil => exact .nil
  | @cons y y' ys ys' hy hys => exact .cons (number f g y hy _ _) (number_list f g ys hys _ _)

theorem Computed.number_option (f : Nat → α → α') (g : Nat → β → β') (o : Option (Node α))
    {o' : Option (Node β)} (h : ComputedOption (fun _ _ => True) o o') (k j : Nat) :
    ComputedOption (fun _ _ => True) (numberOption f k o).1 (numberOption g j o').1 := by
  cases h with
  | none => exact .none
  | @some y y' hy => exact .some (number f g y hy _ _)

end

/-! ### Items -/

/-- The same for the items of a unit. -/
inductive ComputedItem : Node α → Node β → Prop
  | define {n m : α} {n' m' : β} {f : String} {ps : List String} {b : Node α} {b' : Node β}
      (hb : Computed (fun _ _ => True) b b') :
      ComputedItem (define n (prototype m f ps) b) (define n' (prototype m' f ps) b')
  | expression {x : Node α} {x' : Node β} (hx : Computed (fun _ _ => True) x x') :
      ComputedItem x x'

theorem ComputedItem.isFloatFree (h : ComputedItem x x') (hx : x.IsFloatFree) :
    x'.IsFloatFree := by
  cases h with
  | define hb =>
      exact every_define.2 ⟨rfl, every_prototype.2 rfl,
        Computed.isFloatFree _ (every_define.1 hx).2.2 hb⟩
  | expression hx' => exact Computed.isFloatFree x hx hx'

theorem isFloatFree_computedItems {xs : List (Node α)} {xs' : List (Node β)}
    (h : List.Forall₂ ComputedItem xs xs') (hxs : ∀ x ∈ xs, x.IsFloatFree) :
    ∀ x ∈ xs', x.IsFloatFree := by
  induction h with
  | nil => exact fun _ hx => absurd hx List.not_mem_nil
  | cons hx _ ih =>
      rw [List.forall_mem_cons] at hxs ⊢
      exact ⟨hx.isFloatFree hxs.1, ih hxs.2⟩

mutual

/-- Where there is no `return` there is none at the end. -/
theorem unwrapTail_of_isStraight (x : Node α) (hx : x.IsStraight) : x.unwrapTail.1 = x := by
  cases x with
  | returnValue n v => exact absurd hx.self (by simp [isDetour])
  | block n is =>
      simp only [unwrapTail, unwrapLast_of_isStraight is (every_block.1 hx).2]
  | cond n c t e =>
      obtain ⟨-, -, ht, he⟩ := every_cond.1 hx
      simp only [unwrapTail, unwrapTail_of_isStraight t ht, unwrapOption_of_isStraight e he]
  | _ => rfl

theorem unwrapLast_of_isStraight (xs : List (Node α)) (hxs : ∀ x ∈ xs, x.IsStraight) :
    (unwrapLast xs).1 = xs := by
  match xs with
  | [] => rfl
  | [x] => simp only [unwrapLast, unwrapTail_of_isStraight x (hxs x (by simp))]
  | x :: y :: ys =>
      rw [List.forall_mem_cons] at hxs
      simp only [unwrapLast, unwrapLast_of_isStraight (y :: ys) hxs.2]

theorem unwrapOption_of_isStraight (o : Option (Node α)) (ho : ∀ x, o = some x → x.IsStraight) :
    (unwrapOption o).1 = o := by
  cases o with
  | none => rfl
  | some x => simp only [unwrapOption, unwrapTail_of_isStraight x (ho x rfl)]

end

/-- Folding brings no jump into a tree. -/
theorem isStraight_fold {x : Node α} (h : x.IsStraight) : x.fold.1.IsStraight := by
  refine every_fold ?_ x h
  constructor <;> intros <;> first | rfl | assumption

theorem computedItem_fold {x : Node α} (hitem : x.IsItem) (hstraight : x.IsStraight)
    (hfree : x.IsFloatFree) (hsteady : x.IsSteady) : ComputedItem x x.fold.1 := by
  cases hdefinition : x.isDefinition with
  | true =>
      cases x with
      | define n p b =>
          obtain ⟨m, f, ps, rfl, -, -, hb⟩ := isItem_define.1 hitem
          have hstraight' := (every_define.1 hstraight).2.2
          simp only [fold, unwrapTail_of_isStraight _ (isStraight_fold hstraight')]
          exact .define (computed_fold b (isFair_iff.2
            ⟨hb, hstraight', (every_define.1 hfree).2.2, (every_define.1 hsteady).2.2⟩))
      | _ => cases hdefinition
  | false =>
      exact .expression (computed_fold x (isFair_iff.2
        ⟨(isItem_of_not_isDefinition hdefinition).1 hitem, hstraight, hfree, hsteady⟩))

theorem ComputedItem.number (f : Nat → α → α') (g : Nat → β → β') (h : ComputedItem x x')
    (k j : Nat) : ComputedItem (x.number f k).1 (x'.number g j).1 := by
  cases h with
  | @define _ _ _ _ _ _ b b' hb => exact .define (Computed.number f g b hb _ _)
  | expression hx => exact .expression (Computed.number f g x hx k j)

theorem computedItems_number (f : Nat → α → α') (g : Nat → β → β') {xs : List (Node α)}
    {xs' : List (Node β)} (h : List.Forall₂ ComputedItem xs xs') (k j : Nat) :
    List.Forall₂ ComputedItem (numberList f k xs).1 (numberList g j xs').1 := by
  induction h generalizing k j with
  | nil => exact .nil
  | cons hx _ ih => exact .cons (hx.number f g k j) (ih _ _)

theorem computedItems_fold {xs : List (Node α)} (hitem : ∀ x ∈ xs, x.IsItem)
    (hstraight : ∀ x ∈ xs, x.IsStraight) (hfree : ∀ x ∈ xs, x.IsFloatFree)
    (hsteady : ∀ x ∈ xs, x.IsSteady) : List.Forall₂ ComputedItem xs (foldList xs).1 := by
  induction xs with
  | nil => exact .nil
  | cons x xs ih =>
      rw [List.forall_mem_cons] at hitem hstraight hfree hsteady
      exact .cons (computedItem_fold hitem.1 hstraight.1 hfree.1 hsteady.1)
        (ih hitem.2 hstraight.2 hfree.2 hsteady.2)

end Node

end StackLang
