/-
**Trees up to their notes.**

Most of what is said about a tree does not depend on the notes at its nodes.  Two trees that differ
in their notes only have the same shape.

Main definitions:

* `Node.shape` — the tree without its notes;
* `Node.Every` — something holds of every subtree.

Main results:

* `Node.induction_children` — induction over what is directly below a node;
* `Node.map_number` — numbering changes the notes only;
* `Node.shape_number`, `Node.shape_map` — numbering and mapping keep the shape;
* `Node.every_shape` — what depends on shapes holds of every subtree or of none of the same shape.
-/

import StackLang.Tree.Document
import Mathlib

set_option relaxedAutoImplicit false
set_option autoImplicit false

namespace StackLang

namespace Node

variable {α β γ : Type}

/-- The tree without its notes. -/
def shape (x : Node α) : Node Unit := x.map fun _ => ()

/-! ### Lists of trees -/

theorem mapList_eq_map (f : α → β) (xs : List (Node α)) : mapList f xs = xs.map (map f) := by
  induction xs with
  | nil => rfl
  | cons x xs ih => rw [mapList, ih, List.map_cons]

theorem subtreesList_eq_flatMap (xs : List (Node α)) : subtreesList xs = xs.flatMap subtrees := by
  induction xs with
  | nil => rfl
  | cons x xs ih => rw [subtreesList, ih, List.flatMap_cons]

theorem self_mem_subtrees (x : Node α) : x ∈ x.subtrees := by
  cases x <;> simp [subtrees]

/-! ### What is directly below a node -/

theorem sizeOf_lt_of_mem_children {x y : Node α} (h : y ∈ x.children) : sizeOf y < sizeOf x := by
  cases x <;>
    simp only [children, List.mem_cons, List.not_mem_nil, or_false, Option.mem_toList] at h
  case binary | loop | define =>
    rcases h with rfl | rfl <;>
      simp only [binary.sizeOf_spec, loop.sizeOf_spec, define.sizeOf_spec] <;>
      omega
  case unary | returnValue =>
    subst h
    simp
  case block | unit =>
    have := List.sizeOf_lt_of_mem h
    simp only [block.sizeOf_spec, unit.sizeOf_spec]
    omega
  case call =>
    rcases h with rfl | h
    · simp only [call.sizeOf_spec]
      omega
    · have := List.sizeOf_lt_of_mem h
      simp only [call.sizeOf_spec]
      omega
  case cond =>
    rcases h with rfl | rfl | rfl <;> simp <;> omega

/-- **Induction over what is directly below a node.** -/
@[elab_as_elim]
theorem induction_children {P : Node α → Prop} (h : ∀ x, (∀ y ∈ x.children, P y) → P x)
    (x : Node α) : P x :=
  h x fun y hy =>
    have := sizeOf_lt_of_mem_children hy
    induction_children h y
termination_by sizeOf x

/-! ### The shape is kept -/

mutual

theorem map_map (f : α → β) (g : β → γ) (x : Node α) :
    (x.map f).map g = x.map fun n => g (f n) := by
  cases x with
  | binary n op l r => simp only [map, map_map f g l, map_map f g r]
  | unary n op x => simp only [map, map_map f g x]
  | call n c as => simp only [map, map_map f g c, mapList_mapList f g as]
  | cond n c t e => simp only [map, map_map f g c, map_map f g t, mapOption_mapOption f g e]
  | loop n c b => simp only [map, map_map f g c, map_map f g b]
  | returnValue n v => simp only [map, map_map f g v]
  | define n p b => simp only [map, map_map f g p, map_map f g b]
  | block n is => simp only [map, mapList_mapList f g is]
  | unit n is => simp only [map, mapList_mapList f g is]
  | _ => simp only [map]

theorem mapList_mapList (f : α → β) (g : β → γ) (xs : List (Node α)) :
    mapList g (mapList f xs) = mapList (fun n => g (f n)) xs := by
  cases xs with
  | nil => rfl
  | cons x xs => simp only [mapList, map_map f g x, mapList_mapList f g xs]

theorem mapOption_mapOption (f : α → β) (g : β → γ) (x : Option (Node α)) :
    mapOption g (mapOption f x) = mapOption (fun n => g (f n)) x := by
  cases x with
  | none => rfl
  | some x => simp only [mapOption, map_map f g x]

end

@[simp] theorem shape_map (f : α → β) (x : Node α) : (x.map f).shape = x.shape := map_map f _ x

section Constructors

variable {n : α}

theorem shape_binary (op : BinaryOp) (l r : Node α) :
    (binary n op l r).shape = binary () op l.shape r.shape := rfl

theorem shape_unary (op : UnaryOp) (x : Node α) : (unary n op x).shape = unary () op x.shape := rfl

theorem shape_call (f : Node α) (as : List (Node α)) :
    (call n f as).shape = call () f.shape (as.map shape) :=
  congrArg (call () f.shape) (mapList_eq_map _ as)

theorem shape_cond (c t : Node α) (e : Option (Node α)) :
    (cond n c t e).shape = cond () c.shape t.shape (e.map shape) := by
  cases e <;> rfl

theorem shape_loop (c b : Node α) : (loop n c b).shape = loop () c.shape b.shape := rfl

theorem shape_returnValue (v : Node α) : (returnValue n v).shape = returnValue () v.shape := rfl

theorem shape_define (p b : Node α) : (define n p b).shape = define () p.shape b.shape := rfl

theorem shape_block (is : List (Node α)) : (block n is).shape = block () (is.map shape) :=
  congrArg (block ()) (mapList_eq_map _ is)

theorem shape_unit (is : List (Node α)) : (unit n is).shape = unit () (is.map shape) :=
  congrArg (unit ()) (mapList_eq_map _ is)

end Constructors

section Number

variable {f : Nat → α → β} {g : β → γ} {h : α → γ}

mutual

/-- **Numbering changes the notes only.** -/
theorem map_number (hg : ∀ i a, g (f i a) = h a) (k : Nat) (x : Node α) :
    (x.number f k).1.map g = x.map h := by
  cases x with
  | binary n op l r =>
      have hl := map_number hg (k + 1) l
      have hr := map_number hg (number f (k + 1) l).2 r
      simp only [number, map, hg, hl, hr]
  | unary n op x =>
      have hx := map_number hg (k + 1) x
      simp only [number, map, hg, hx]
  | call n c as =>
      have hc := map_number hg (k + 1) c
      have has := mapList_numberList hg (number f (k + 1) c).2 as
      simp only [number, map, hg, hc, has]
  | cond n c t e =>
      have hc := map_number hg (k + 1) c
      have ht := map_number hg (number f (k + 1) c).2 t
      have he := mapOption_numberOption hg (number f (number f (k + 1) c).2 t).2 e
      simp only [number, map, hg, hc, ht, he]
  | loop n c b =>
      have hc := map_number hg (k + 1) c
      have hb := map_number hg (number f (k + 1) c).2 b
      simp only [number, map, hg, hc, hb]
  | returnValue n v =>
      have hv := map_number hg (k + 1) v
      simp only [number, map, hg, hv]
  | define n p b =>
      have hp := map_number hg (k + 1) p
      have hb := map_number hg (number f (k + 1) p).2 b
      simp only [number, map, hg, hp, hb]
  | block n is =>
      have his := mapList_numberList hg (k + 1) is
      simp only [number, map, hg, his]
  | unit n is =>
      have his := mapList_numberList hg (k + 1) is
      simp only [number, map, hg, his]
  | _ => simp only [number, map, hg]

theorem mapList_numberList (hg : ∀ i a, g (f i a) = h a) (k : Nat) (xs : List (Node α)) :
    mapList g (numberList f k xs).1 = mapList h xs := by
  cases xs with
  | nil => rfl
  | cons x xs =>
      have hx := map_number hg k x
      have hxs := mapList_numberList hg (number f k x).2 xs
      simp only [numberList, mapList, hx, hxs]

theorem mapOption_numberOption (hg : ∀ i a, g (f i a) = h a) (k : Nat) (x : Option (Node α)) :
    mapOption g (numberOption f k x).1 = mapOption h x := by
  cases x with
  | none => rfl
  | some x =>
      have hx := map_number hg k x
      simp only [numberOption, mapOption, hx]

end

end Number

/-- Whether a cell is left depends on the shape. -/
theorem yieldsCell_shape (x : Node α) : x.shape.yieldsCell = x.yieldsCell := by
  cases x <;> rfl

/-- **Numbering keeps the shape.** -/
theorem shape_number (f : Nat → α → β) (k : Nat) (x : Node α) : (x.number f k).1.shape = x.shape :=
  map_number (g := fun _ => ()) (h := fun _ => ()) (fun _ _ => rfl) k x

/-! ### Every subtree -/

/-- Something holds of every subtree. -/
def Every (P : Node α → Prop) (x : Node α) : Prop := ∀ y ∈ x.subtrees, P y

variable {P : Node α → Prop}

theorem Every.self {x : Node α} (h : Every P x) : P x := h x x.self_mem_subtrees

section Constructors

variable {n : α}

@[simp] theorem every_literal {v : Literal} : Every P (literal n v) ↔ P (literal n v) := by
  simp [Every, subtrees]

@[simp] theorem every_identifier {x : String} :
    Every P (identifier n x) ↔ P (identifier n x) := by
  simp [Every, subtrees]

@[simp] theorem every_breakLoop : Every P (breakLoop n) ↔ P (breakLoop n) := by
  simp [Every, subtrees]

@[simp] theorem every_continueLoop : Every P (continueLoop n) ↔ P (continueLoop n) := by
  simp [Every, subtrees]

@[simp] theorem every_nop : Every P (nop n) ↔ P (nop n) := by
  simp [Every, subtrees]

@[simp] theorem every_assembly {t : String} : Every P (assembly n t) ↔ P (assembly n t) := by
  simp [Every, subtrees]

@[simp] theorem every_prototype {f : String} {ps : List String} :
    Every P (prototype n f ps) ↔ P (prototype n f ps) := by
  simp [Every, subtrees]

@[simp] theorem every_binary {op : BinaryOp} {l r : Node α} :
    Every P (binary n op l r) ↔ P (binary n op l r) ∧ Every P l ∧ Every P r := by
  simp only [Every, subtrees, List.forall_mem_cons, List.forall_mem_append]

@[simp] theorem every_unary {op : UnaryOp} {x : Node α} :
    Every P (unary n op x) ↔ P (unary n op x) ∧ Every P x := by
  simp only [Every, subtrees, List.forall_mem_cons]

@[simp] theorem every_call {f : Node α} {as : List (Node α)} :
    Every P (call n f as) ↔ P (call n f as) ∧ Every P f ∧ ∀ x ∈ as, Every P x := by
  simp only [Every, subtrees, List.forall_mem_cons, List.forall_mem_append,
    subtreesList_eq_flatMap, List.mem_flatMap, forall_exists_index, and_imp]
  tauto

@[simp] theorem every_cond {c t : Node α} {e : Option (Node α)} :
    Every P (cond n c t e) ↔
      P (cond n c t e) ∧ Every P c ∧ Every P t ∧ ∀ x, e = some x → Every P x := by
  cases e <;> simp [Every, subtrees, subtreesOption, or_imp, forall_and]

@[simp] theorem every_loop {c b : Node α} :
    Every P (loop n c b) ↔ P (loop n c b) ∧ Every P c ∧ Every P b := by
  simp only [Every, subtrees, List.forall_mem_cons, List.forall_mem_append]

@[simp] theorem every_returnValue {v : Node α} :
    Every P (returnValue n v) ↔ P (returnValue n v) ∧ Every P v := by
  simp only [Every, subtrees, List.forall_mem_cons]

@[simp] theorem every_define {p b : Node α} :
    Every P (define n p b) ↔ P (define n p b) ∧ Every P p ∧ Every P b := by
  simp only [Every, subtrees, List.forall_mem_cons, List.forall_mem_append]

@[simp] theorem every_block {is : List (Node α)} :
    Every P (block n is) ↔ P (block n is) ∧ ∀ x ∈ is, Every P x := by
  simp only [Every, subtrees, List.forall_mem_cons, subtreesList_eq_flatMap, List.mem_flatMap,
    forall_exists_index, and_imp]
  tauto

@[simp] theorem every_unit {is : List (Node α)} :
    Every P (unit n is) ↔ P (unit n is) ∧ ∀ x ∈ is, Every P x := by
  simp only [Every, subtrees, List.forall_mem_cons, subtreesList_eq_flatMap, List.mem_flatMap,
    forall_exists_index, and_imp]
  tauto

end Constructors

/-- What holds of every subtree holds of the root and of every subtree of what is below it. -/
theorem every_iff_children {x : Node α} :
    Every P x ↔ P x ∧ ∀ y ∈ x.children, Every P y := by
  cases x <;> simp [children]

/-- What holds of every subtree holds of every subtree of one. -/
theorem Every.below {x : Node α} (h : Every P x) : ∀ y ∈ x.subtrees, Every P y := by
  induction x using induction_children with
  | h x ih => exact every_iff_children.2 ⟨h, fun y hy => ih y hy ((every_iff_children.1 h).2 y hy)⟩

mutual

theorem subtrees_map (f : α → β) (x : Node α) : (x.map f).subtrees = x.subtrees.map (map f) := by
  cases x with
  | binary n op l r => simp [map, subtrees, subtrees_map f l, subtrees_map f r]
  | unary n op x => simp [map, subtrees, subtrees_map f x]
  | call n c as => simp [map, subtrees, subtrees_map f c, subtrees_mapList f as]
  | cond n c t e =>
      simp [map, subtrees, subtrees_map f c, subtrees_map f t, subtrees_mapOption f e]
  | loop n c b => simp [map, subtrees, subtrees_map f c, subtrees_map f b]
  | returnValue n v => simp [map, subtrees, subtrees_map f v]
  | define n p b => simp [map, subtrees, subtrees_map f p, subtrees_map f b]
  | block n is => simp [map, subtrees, subtrees_mapList f is]
  | unit n is => simp [map, subtrees, subtrees_mapList f is]
  | _ => simp [map, subtrees]

theorem subtrees_mapList (f : α → β) (xs : List (Node α)) :
    subtreesList (mapList f xs) = (subtreesList xs).map (map f) := by
  cases xs with
  | nil => rfl
  | cons x xs => simp [mapList, subtreesList, subtrees_map f x, subtrees_mapList f xs]

theorem subtrees_mapOption (f : α → β) (x : Option (Node α)) :
    subtreesOption (mapOption f x) = (subtreesOption x).map (map f) := by
  cases x with
  | none => rfl
  | some x => simp [mapOption, subtreesOption, subtrees_map f x]

end

/-- **What depends on shapes holds of the subtrees of a tree as of those of its shape.** -/
theorem every_shape {P : Node Unit → Prop} {x : Node α} :
    Every P x.shape ↔ Every (fun y => P y.shape) x := by
  simp only [Every, shape, subtrees_map, List.forall_mem_map]

end Node

end StackLang
