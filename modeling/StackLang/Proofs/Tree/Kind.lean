/-
**Trees as kinds over trees.**

A tree is a note, and what its root is with the trees directly below it.  Most of what is said about
trees is the same for every sort of root: only what is below it matters.  It is said of kinds here,
so that no proof behind this module has a case for each sort.

Main definitions:

* `Kind` — what a node is, up to the nodes below it, and `Kind.refill`, the same kind with other
  nodes below it;
* `Node.kind`, `Node.ofKind`, `Node.withChildren` — a tree as a kind over trees.

Main results:

* `Kind.children_refill`, `Kind.map_refill` — what is below a kind that is filled;
* `Node.subtrees_eq`, `Node.notes_eq`, `Node.identities_eq` — a tree and what is directly below it;
* `Node.perm_children_subtrees` — all nodes but the root are directly below a node;
* `Node.eq_of_shape_notes` — a tree is its shape and its notes.
-/

import StackLang.Proofs.Tree.Identity

set_option relaxedAutoImplicit false
set_option autoImplicit false

namespace StackLang

/-! ### Kinds -/

/-- What a node is, with a `β` in the place of every node directly below it. -/
inductive Kind (β : Type) where
  | literal (value : Literal)
  | identifier (name : String)
  | binary (op : BinaryOp) (left right : β)
  | unary (op : UnaryOp) (operand : β)
  | call (callee : β) (args : List β)
  | cond (condition yes : β) (no : Option β)
  | loop (condition body : β)
  | breakLoop
  | continueLoop
  | returnValue (value : β)
  | define (prototype body : β)
  | prototype (name : String) (params : List String)
  | block (items : List β)
  | assembly (text : String)
  | unit (items : List β)
  | nop

namespace Kind

variable {β γ : Type}

/-- What is directly below, in the order of evaluation. -/
def children : Kind β → List β
  | binary _ l r => [l, r]
  | unary _ x => [x]
  | call f as => f :: as
  | cond c t e => c :: t :: e.toList
  | loop c b => [c, b]
  | returnValue v => [v]
  | define p b => [p, b]
  | block is | unit is => is
  | literal _ | identifier _ | breakLoop | continueLoop | prototype _ _ | assembly _ | nop => []

def map (f : β → γ) : Kind β → Kind γ
  | literal v => literal v
  | identifier x => identifier x
  | binary op l r => binary op (f l) (f r)
  | unary op x => unary op (f x)
  | call g as => call (f g) (as.map f)
  | cond c t e => cond (f c) (f t) (e.map f)
  | loop c b => loop (f c) (f b)
  | breakLoop => breakLoop
  | continueLoop => continueLoop
  | returnValue v => returnValue (f v)
  | define p b => define (f p) (f b)
  | prototype g ps => prototype g ps
  | block is => block (is.map f)
  | assembly t => assembly t
  | unit is => unit (is.map f)
  | nop => nop

/-- A list whose members are replaced, one after the other, by those of another list; where that is
too short, they stay. -/
def refillList : List β → List β → List β
  | _, [] => []
  | [], as => as
  | b :: bs, _ :: as => b :: refillList bs as

/-- The kind with what is directly below it replaced, in the order of evaluation, by the members of
a list; where that is too short, it stays. -/
def refill (bs : List β) : Kind β → Kind β
  | binary op l r => binary op (bs.headD l) (bs.tail.headD r)
  | unary op x => unary op (bs.headD x)
  | call f as => call (bs.headD f) (refillList bs.tail as)
  | cond c t e => cond (bs.headD c) (bs.tail.headD t) (e.map bs.tail.tail.headD)
  | loop c b => loop (bs.headD c) (bs.tail.headD b)
  | returnValue v => returnValue (bs.headD v)
  | define p b => define (bs.headD p) (bs.tail.headD b)
  | block is => block (refillList bs is)
  | unit is => unit (refillList bs is)
  | literal v => literal v
  | identifier x => identifier x
  | breakLoop => breakLoop
  | continueLoop => continueLoop
  | prototype f ps => prototype f ps
  | assembly t => assembly t
  | nop => nop

variable {bs as : List β} {k : Kind β} (f : β → γ)

theorem refillList_nil : refillList [] as = as := by
  cases as <;> rfl

theorem refillList_of_length (h : bs.length = as.length) : refillList bs as = bs := by
  induction as generalizing bs with
  | nil => rw [List.length_eq_zero_iff.1 h, refillList]
  | cons a as ih =>
      cases bs with
      | nil => cases h
      | cons b bs => rw [refillList, ih (Nat.succ.inj h)]

/-- Nothing is replaced by the members of an empty list. -/
@[simp] theorem refill_nil : k.refill [] = k := by
  cases k <;> simp [refill, refillList_nil]
  case cond e => cases e <;> rfl

theorem map_refillList : (refillList bs as).map f = refillList (bs.map f) (as.map f) := by
  induction as generalizing bs with
  | nil => simp [refillList]
  | cons a as ih => cases bs <;> simp [refillList, ih]

@[simp] theorem children_map : (k.map f).children = k.children.map f := by
  cases k <;> simp [map, children]
  case cond e => cases e <;> rfl

/-- A kind that is filled with as many nodes as it has below it has these below it. -/
theorem children_refill (h : bs.length = k.children.length) : (k.refill bs).children = bs := by
  cases k <;> simp only [refill, children] at h ⊢
  case call =>
    cases bs with
    | nil => cases h
    | cons b bs => simp [refillList_of_length (Nat.succ.inj h)]
  case cond e =>
    cases e <;> rcases bs with _ | ⟨b, _ | ⟨c, _ | ⟨d, _ | _⟩⟩⟩ <;> simp at h ⊢
  case block | unit => exact refillList_of_length h
  all_goals rcases bs with _ | ⟨b, _ | ⟨c, _ | _⟩⟩ <;> simp at h ⊢

/-- A kind that is filled with what was below it is as it was. -/
theorem refill_map_children (g : β → β) : (k.map g).refill k.children = k := by
  cases k <;> simp [map, refill, children, refillList_of_length]
  case cond e => cases e <;> rfl

theorem map_map {δ : Type} (g : γ → δ) : (k.map f).map g = k.map fun b => g (f b) := by
  cases k <;> simp [map, Function.comp_def]

/-- A kind that is filled with what is below it stays. -/
@[simp] theorem refill_children : k.refill k.children = k := by
  have hmap : k.map (fun b => b) = k := by cases k <;> simp [map]
  have h := k.refill_map_children fun b => b
  rwa [hmap] at h

theorem map_refill : (k.refill bs).map f = (k.map f).refill (bs.map f) := by
  cases k <;> simp [refill, map, map_refillList, ← List.map_tail]
  case cond e => cases e <;> simp

end Kind

/-! ### Trees as kinds over trees -/

namespace Node

variable {α β : Type}

/-- What the root is, with the trees directly below it. -/
def kind : Node α → Kind (Node α)
  | literal _ v => .literal v
  | identifier _ x => .identifier x
  | binary _ op l r => .binary op l r
  | unary _ op x => .unary op x
  | call _ f as => .call f as
  | cond _ c t e => .cond c t e
  | loop _ c b => .loop c b
  | breakLoop _ => .breakLoop
  | continueLoop _ => .continueLoop
  | returnValue _ v => .returnValue v
  | define _ p b => .define p b
  | prototype _ f ps => .prototype f ps
  | block _ is => .block is
  | assembly _ t => .assembly t
  | unit _ is => .unit is
  | nop _ => .nop

/-- The tree with a note at its root and a kind over the trees directly below it. -/
def ofKind (n : α) : Kind (Node α) → Node α
  | .literal v => literal n v
  | .identifier x => identifier n x
  | .binary op l r => binary n op l r
  | .unary op x => unary n op x
  | .call f as => call n f as
  | .cond c t e => cond n c t e
  | .loop c b => loop n c b
  | .breakLoop => breakLoop n
  | .continueLoop => continueLoop n
  | .returnValue v => returnValue n v
  | .define p b => define n p b
  | .prototype f ps => prototype n f ps
  | .block is => block n is
  | .assembly t => assembly n t
  | .unit is => unit n is
  | .nop => nop n

/-- The tree with other trees directly below its root. -/
def withChildren (xs : List (Node α)) (x : Node α) : Node α := ofKind x.note (x.kind.refill xs)

variable {n : α} {k : Kind (Node α)} {x : Node α} {xs : List (Node α)}

@[simp] theorem kind_ofKind : (ofKind n k).kind = k := by cases k <;> rfl

@[simp] theorem note_ofKind : (ofKind n k).note = n := by cases k <;> rfl

@[simp] theorem ofKind_kind : ofKind x.note x.kind = x := by cases x <;> rfl

@[simp] theorem children_kind : x.kind.children = x.children := by cases x <;> rfl

@[simp] theorem children_ofKind : (ofKind n k).children = k.children := by cases k <;> rfl

@[simp] theorem note_withChildren : (x.withChildren xs).note = x.note := note_ofKind

@[simp] theorem kind_withChildren : (x.withChildren xs).kind = x.kind.refill xs := kind_ofKind

@[simp] theorem kind_withNote : (x.withNote n).kind = x.kind := by cases x <;> rfl

theorem mapOption_eq_map (f : α → β) (o : Option (Node α)) : mapOption f o = o.map (map f) := by
  cases o <;> rfl

@[simp] theorem note_map (f : α → β) (x : Node α) : (x.map f).note = f x.note := by
  cases x <;> rfl

@[simp] theorem kind_map (f : α → β) (x : Node α) : (x.map f).kind = x.kind.map (map f) := by
  cases x <;> simp [map, kind, Kind.map, mapList_eq_map, mapOption_eq_map]

@[simp] theorem children_map (f : α → β) (x : Node α) :
    (x.map f).children = x.children.map (map f) := by
  rw [← children_kind, kind_map, Kind.children_map, children_kind]

theorem map_ofKind (f : α → β) : (ofKind n k).map f = ofKind (f n) (k.map (map f)) := by
  rw [← @ofKind_kind _ ((ofKind n k).map f), note_map, kind_map, note_ofKind, kind_ofKind]

/-- The trees below a root are those that are put there, when there are as many. -/
theorem children_withChildren (h : xs.length = x.children.length) :
    (x.withChildren xs).children = xs := by
  rw [withChildren, children_ofKind, Kind.children_refill (by rwa [children_kind])]

/-- The trees below a root can be replaced by trees that are equal up to what `f` drops. -/
theorem map_ofKind_refill (f : α → β) (h : xs.map (map f) = x.children.map (map f)) :
    (ofKind n (x.kind.refill xs)).map f = ofKind (f n) (x.map f).kind := by
  rw [map_ofKind, Kind.map_refill, h, kind_map, ← children_kind, ← Kind.children_map,
    Kind.refill_children]

theorem map_withChildren (f : α → β) :
    (x.withChildren xs).map f = (x.map f).withChildren (xs.map (map f)) := by
  rw [withChildren, withChildren, map_ofKind, Kind.map_refill, note_map, kind_map]

end Node

/-! ### A tree and what is directly below it -/

namespace Node

variable {α : Type}

theorem notesList_eq_flatMap (xs : List (Node α)) : notesList xs = xs.flatMap notes := by
  induction xs with
  | nil => rfl
  | cons x xs ih => rw [notesList, ih, List.flatMap_cons]

theorem subtrees_eq (x : Node α) : x.subtrees = x :: x.children.flatMap subtrees := by
  cases x <;> simp [subtrees, children, subtreesList_eq_flatMap]
  case cond e => cases e <;> simp [subtreesOption]

theorem notes_eq (x : Node α) : x.notes = x.note :: x.children.flatMap notes := by
  cases x <;> simp [notes, note, children, notesList_eq_flatMap]
  case cond e => cases e <;> simp [notesOption]

theorem notes_eq_map_subtrees (x : Node α) : x.notes = x.subtrees.map note := by
  induction x using induction_children with
  | h x ih =>
      rw [notes_eq, subtrees_eq, List.map_cons, List.map_flatMap]
      exact congrArg _ (List.flatMap_congr fun y hy => ih y hy)

theorem identities_eq (x : Node Mark) :
    x.identities = x.identity :: x.children.flatMap identities := by
  rw [identities, notes_eq, List.map_cons, List.map_flatMap]
  rfl

theorem identities_eq_map_subtrees (x : Node Mark) : x.identities = x.subtrees.map identity := by
  rw [identities, notes_eq_map_subtrees, List.map_map]
  rfl

@[simp] theorem identity_ofKind {m : Mark} {k : Kind (Node Mark)} :
    (ofKind m k).identity = m.id := by
  rw [identity, note_ofKind]

@[simp] theorem identity_withChildren {x : Node Mark} {xs : List (Node Mark)} :
    (x.withChildren xs).identity = x.identity := identity_ofKind

theorem identities_ofKind {m : Mark} {k : Kind (Node Mark)} :
    (ofKind m k).identities = m.id :: k.children.flatMap identities := by
  rw [identities_eq, identity_ofKind, children_ofKind]

theorem mem_identities {x y : Node Mark} (h : y ∈ x.subtrees) : y.identity ∈ x.identities := by
  rw [identities_eq_map_subtrees]
  exact List.mem_map_of_mem h

/-- The identities of a tree below another one are among those of that one. -/
theorem sublist_of_mem_children {x y : Node Mark} (h : y ∈ x.children) :
    y.identities.Sublist (x.children.flatMap identities) :=
  List.sublist_flatten_of_mem (List.mem_map_of_mem h)

/-- There are fewer nodes in a tree below another one. -/
theorem length_identities_lt {x y : Node Mark} (h : y ∈ x.children) :
    y.identities.length < x.identities.length := by
  rw [identities_eq x, List.length_cons]
  exact Nat.lt_succ_of_le (sublist_of_mem_children h).length_le

theorem length_identities_pos (x : Node Mark) : 0 < x.identities.length := by
  rw [identities_eq, List.length_cons]
  exact Nat.succ_pos _

/-- A bound on the number of nodes leaves one for what is below the root. -/
theorem exists_succ_of_length_le {x : Node Mark} {n : Nat} (h : x.identities.length ≤ n) :
    ∃ m, n = m + 1 ∧ ∀ y ∈ x.children, y.identities.length ≤ m := by
  obtain ⟨m, rfl⟩ := Nat.exists_eq_add_one.2 (x.length_identities_pos.trans_le h)
  exact ⟨m, rfl, fun y hy => Nat.le_of_lt_succ ((length_identities_lt hy).trans_le h)⟩

theorem mem_subtrees_iff {x y : Node α} :
    y ∈ x.subtrees ↔ y = x ∨ ∃ z ∈ x.children, y ∈ z.subtrees := by
  rw [subtrees_eq, List.mem_cons, List.mem_flatMap]

theorem mem_subtrees_of_mem_children {x y z : Node α} (hy : y ∈ x.subtrees)
    (hz : z ∈ y.children) : z ∈ x.subtrees := by
  induction x using induction_children with
  | h x ih =>
      rcases mem_subtrees_iff.1 hy with rfl | ⟨w, hw, hyw⟩
      · exact mem_subtrees_iff.2 (.inr ⟨z, hz, z.self_mem_subtrees⟩)
      · exact mem_subtrees_iff.2 (.inr ⟨w, hw, ih w hw hyw⟩)

/-- The identities of a subtree are among those of the tree, in their order. -/
theorem sublist_of_mem_subtrees {x y : Node Mark} (h : y ∈ x.subtrees) :
    y.identities.Sublist x.identities := by
  induction x using induction_children with
  | h x ih =>
      rcases mem_subtrees_iff.1 h with rfl | ⟨z, hz, hyz⟩
      · exact .refl _
      · rw [identities_eq x]
        exact ((ih z hz hyz).trans (sublist_of_mem_children hz)).cons _

/-- All nodes but the root are directly below a node, once for each of them. -/
theorem perm_children_subtrees (x : Node α) :
    (x :: x.subtrees.flatMap children).Perm x.subtrees := by
  induction x using induction_children with
  | h x ih =>
      have hbelow : ∀ ys ⊆ x.children,
          (ys ++ (ys.flatMap subtrees).flatMap children).Perm (ys.flatMap subtrees) := by
        intro ys hys
        induction ys with
        | nil => exact .nil
        | cons y ys ihys =>
            have hy := ih y (hys List.mem_cons_self)
            have hrest := ihys fun w hw => hys (List.mem_cons_of_mem _ hw)
            rw [List.flatMap_cons, List.flatMap_append]
            refine .trans ?_ (hy.append hrest)
            rw [List.cons_append, List.cons_append]
            exact .cons _ (List.perm_append_comm_assoc _ _ _)
      have hall := hbelow x.children (List.Subset.refl _)
      rw [subtrees_eq, List.flatMap_cons]
      exact .cons _ hall

/-- All identities but that of the root are those of a node directly below another one, once for
each of them. -/
theorem perm_references (x : Node Mark) :
    (x.identity :: x.subtrees.flatMap fun y => y.children.map identity).Perm x.identities := by
  have hperm := x.perm_children_subtrees.map identity
  rwa [List.map_cons, List.map_flatMap, ← identities_eq_map_subtrees] at hperm

/-! ### Notes -/

section Notes

variable {β : Type}

theorem notes_map (f : α → β) (x : Node α) : (x.map f).notes = x.notes.map f := by
  induction x using induction_children with
  | h x ih =>
      rw [notes_eq, note_map, children_map, notes_eq, List.map_cons, List.flatMap_map,
        List.map_flatMap]
      exact congrArg _ (List.flatMap_congr fun y hy => ih y hy)

/-- Trees with the same shape have as many notes. -/
theorem length_notes_of_shape {x : Node α} {y : Node β} (h : x.shape = y.shape) :
    x.notes.length = y.notes.length := by
  simpa [shape, notes_map] using congrArg (fun z => z.notes.length) h

/-- Kinds over trees with the same shapes are the same when they are over the same trees. -/
theorem kind_eq_of_shape {x y : Node α} (h : x.shape = y.shape) (hxs : x.children = y.children) :
    x.kind = y.kind := by
  have hkind : x.kind.map (fun _ => x) = y.kind.map fun _ => x := by
    have hshape := congrArg (fun z => z.kind.map fun _ => x) h
    simpa only [shape, kind_map, Kind.map_map] using hshape
  rw [← x.kind.refill_map_children fun _ => x, ← y.kind.refill_map_children fun _ => x, hkind,
    children_kind, children_kind, hxs]

/-- **A tree is its shape and its notes.** -/
theorem eq_of_shape_notes {x y : Node α} (h : x.shape = y.shape) (hnotes : x.notes = y.notes) :
    x = y := by
  induction x using induction_children generalizing y with
  | h x ih =>
      rw [notes_eq, notes_eq, List.cons.injEq] at hnotes
      obtain ⟨hnote, hbelow⟩ := hnotes
      have hshapes : x.children.map shape = y.children.map shape := by
        have hchildren := congrArg children h
        rwa [shape, shape, children_map, children_map] at hchildren
      have hchildren : x.children = y.children := by
        -- the notes are those of the children, one after the other, and each has as many
        generalize x.children = xs at ih hbelow hshapes
        generalize y.children = ys at hbelow hshapes
        induction xs generalizing ys with
        | nil => exact (List.map_eq_nil_iff.1 hshapes.symm).symm
        | cons z zs ihzs =>
            obtain ⟨w, ws, rfl, hw, hws⟩ := List.map_eq_cons_iff.1 hshapes.symm
            rw [List.flatMap_cons, List.flatMap_cons] at hbelow
            obtain ⟨hfirst, hrest⟩ :=
              List.append_inj hbelow (length_notes_of_shape hw.symm)
            rw [ih z List.mem_cons_self hw.symm hfirst,
              ihzs (fun v hv => ih v (List.mem_cons_of_mem _ hv)) ws hrest hws.symm]
      rw [← @ofKind_kind _ x, ← @ofKind_kind _ y, hnote, kind_eq_of_shape h hchildren]

theorem map_id (x : Node α) : x.map (fun n => n) = x :=
  eq_of_shape_notes (shape_map _ x) (by rw [notes_map, List.map_id'])

end Notes

end Node

end StackLang
