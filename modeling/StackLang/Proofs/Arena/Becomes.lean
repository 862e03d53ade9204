/-
**Trees in an arena.**

An arena holds a tree when every node of it stands at its place, with the places of the nodes below
it.  What a pass makes of some trees is described by what it makes them into, and by the places that
it writes to: the trees that it makes use these places and new ones, and all other places are left
as they were.

Main definitions:

* `Arena.Shows`, `Arena.Holds` — a node stands at its place, and so does every node of a tree;
* `Arena.IsTree` — what is below the root is a tree without sharing;
* `Arena.Becomes` — some trees in an arena become others.

Main results:

* `Arena.Becomes.append`, `Arena.Becomes.made`, `Arena.Becomes.stored` — one pass after another,
  a new node, and a node that is changed;
* `Arena.exists_mapM` — a pass over some trees that writes to a part of each of them.
-/

import StackLang.Proofs.Arena.Basic

set_option relaxedAutoImplicit false
set_option autoImplicit false

namespace StackLang

namespace Arena

open Node (identity identities)

variable {A B C : Arena} {c : Cell} {k : Nat} {x y : Node Mark} {xs ys zs : List (Node Mark)}
  {ks ls : List Nat}

/-! ### Steps -/

theorem bind_of_eq_some {α β : Type} {m : Pass α} {f : α → Pass β} {a : α}
    (h : m A = some (a, B)) : (m >>= f) A = f a B := by
  change (m A >>= fun r => f r.1 r.2) = _
  rw [h]
  rfl

theorem cell_eq (h : A.cells[k]? = some c) : cell k A = some (c, A) := by
  rw [cell, h]
  rfl

theorem modifyCell_eq {f : Cell → Cell} (h : A.cells[k]? = some c) :
    modifyCell k f A = some ((), A.set k (f c)) := by
  rw [modifyCell, h]
  rfl

theorem alloc_eq {kind : Kind Nat} {span : Span} :
    alloc kind span A = some (A.size, A.push ⟨kind, span, .empty⟩) := rfl

theorem lt_size_of_getElem? (h : A.cells[k]? = some c) : k < A.size :=
  (List.getElem?_eq_some_iff.1 h).1

theorem getElem?_push_of_lt (h : k < A.size) : (A.push c).cells[k]? = A.cells[k]? :=
  List.getElem?_append_left h

theorem getElem?_push_size : (A.push c).cells[A.size]? = some c := by
  simp [push, size]

theorem getElem?_set_self {d : Cell} (h : A.cells[k]? = some d) :
    (A.set k c).cells[k]? = some c :=
  List.getElem?_set_self (lt_size_of_getElem? h)

theorem getElem?_set_ne {j : Nat} (h : j ≠ k) : (A.set k c).cells[j]? = A.cells[j]? :=
  List.getElem?_set_ne h.symm

/-! ### What an arena holds -/

/-- The root of a tree stands at its place, with the places of the nodes below it. -/
def Shows (A : Arena) (x : Node Mark) : Prop :=
  ∃ c, A.cells[x.identity]? = some c ∧ c.kind = x.kind.map identity ∧ c.span = x.note.span

/-- Every node of a tree stands at its place. -/
def Holds (A : Arena) (x : Node Mark) : Prop := x.Every A.Shows

/-- **What is below the root is a tree**: every node of it stands at its place, and no place is that
of two nodes. -/
structure IsTree (A : Arena) (x : Node Mark) : Prop where
  root : A.root = some x.identity
  holds : A.Holds x
  nodup : x.identities.Nodup

theorem holds_iff : A.Holds x ↔ A.Shows x ∧ ∀ y ∈ x.children, A.Holds y :=
  Node.every_iff_children

theorem Shows.lt_size (h : A.Shows x) : x.identity < A.size := by
  obtain ⟨c, hc, -⟩ := h
  exact lt_size_of_getElem? hc

theorem Holds.lt_size (h : A.Holds x) : ∀ k ∈ x.identities, k < A.size := by
  rw [Node.identities_eq_map_subtrees, List.forall_mem_map]
  exact fun y hy => (h y hy).lt_size

/-- A tree without sharing has no more nodes than the arena. -/
theorem Holds.length_le (h : A.Holds x) (hnodup : x.identities.Nodup) :
    x.identities.length ≤ A.size := by
  have hsub : x.identities ⊆ List.range A.size := fun k hk => List.mem_range.2 (h.lt_size k hk)
  simpa using (hnodup.subperm hsub).length_le

/-- What is below a node of a tree without sharing is one. -/
theorem IsTree.below (h : A.IsTree x) (hy : y ∈ x.subtrees) : A.Holds y ∧ y.identities.Nodup :=
  ⟨Node.Every.below h.holds y hy, h.nodup.sublist (Node.sublist_of_mem_subtrees hy)⟩

/-- A tree is held where its nodes stand as before. -/
theorem Holds.congr (h : A.Holds x) (hsame : ∀ k ∈ x.identities, B.cells[k]? = A.cells[k]?) :
    B.Holds x := by
  intro y hy
  obtain ⟨c, hc, hkind, hspan⟩ := h y hy
  exact ⟨c, (hsame _ (Node.mem_identities hy)).trans hc, hkind, hspan⟩

/-- What is recorded at the nodes. -/
def annotations (A : Arena) : List Annotations := A.cells.map Cell.annotations

/-- What is recorded at the nodes does not depend on what they are. -/
theorem annotations_set_withKind {kind : Kind Nat} (h : A.cells[k]? = some c) :
    (A.set k (c.withKind kind)).annotations = A.annotations := by
  obtain ⟨hk, rfl⟩ := List.getElem?_eq_some_iff.1 h
  refine List.ext_getElem (by simp [annotations, set]) fun j hj hj' => ?_
  simp only [annotations, set, Cell.withKind, List.getElem_map, List.getElem_set]
  split
  case isTrue heq => simp only [heq]
  case isFalse => rfl

/-! ### What becomes of trees -/

/-- **Some trees in an arena become the trees `xs`**: these use the places `ks` and new ones,
without sharing; the other places are left as they were; and nothing is recorded. -/
structure Becomes (A B : Arena) (ks : List Nat) (xs : List (Node Mark)) : Prop where
  holds : ∀ x ∈ xs, B.Holds x
  nodup : (xs.flatMap identities).Nodup
  mem : ∀ k ∈ xs.flatMap identities, k ∈ ks ∨ A.size ≤ k
  frame : ∀ k < A.size, k ∉ ks → B.cells[k]? = A.cells[k]?
  grown : ∃ n, B.annotations = A.annotations ++ List.replicate n .empty
  root : B.root = A.root

namespace Becomes

theorem size_le (h : Becomes A B ks xs) : A.size ≤ B.size := by
  obtain ⟨n, hn⟩ := h.grown
  have hlength := congrArg List.length hn
  simp only [annotations, List.length_map, List.length_append] at hlength
  unfold size
  omega

theorem lt_size (h : Becomes A B ks xs) : ∀ k ∈ xs.flatMap identities, k < B.size := by
  intro k hk
  obtain ⟨x, hx, hkx⟩ := List.mem_flatMap.1 hk
  exact (h.holds x hx).lt_size k hkx

/-- A tree elsewhere is left as it was. -/
theorem keeps (h : Becomes A B ks xs) (hy : A.Holds y) (hdisj : ks.Disjoint y.identities) :
    B.Holds y :=
  hy.congr fun k hk => h.frame k (hy.lt_size k hk) fun hks => hdisj hks hk

/-- Nothing is done. -/
theorem refl (h : ∀ x ∈ xs, A.Holds x) (hnodup : (xs.flatMap identities).Nodup) :
    Becomes A A (xs.flatMap identities) xs :=
  ⟨h, hnodup, fun _ hk => .inl hk, fun _ _ _ => rfl, ⟨0, (List.append_nil _).symm⟩, rfl⟩

/-- Some of the trees, or of what is below them, are all that is used later. -/
theorem of_sublist (h : Becomes A B ks xs) (hzs : ∀ z ∈ zs, B.Holds z)
    (hsub : (zs.flatMap identities).Sublist (xs.flatMap identities)) : Becomes A B ks zs :=
  { h with
    holds := hzs
    nodup := h.nodup.sublist hsub
    mem := fun k hk => h.mem k (hsub.subset hk) }

theorem grown_trans (h : Becomes A B ks xs) (h' : Becomes B C ls ys) :
    ∃ n, C.annotations = A.annotations ++ List.replicate n .empty := by
  obtain ⟨m, hm⟩ := h.grown
  obtain ⟨n, hn⟩ := h'.grown
  exact ⟨m + n, by rw [hn, hm, List.append_assoc, List.replicate_append_replicate]⟩

/-- What some trees became becomes other trees. -/
theorem trans (h : Becomes A B ks xs) (h' : Becomes B C (xs.flatMap identities) zs) :
    Becomes A C ks zs where
  holds := h'.holds
  nodup := h'.nodup
  mem k hk := by
    rcases h'.mem k hk with hxs | hsize
    · exact h.mem k hxs
    · exact .inr (h.size_le.trans hsize)
  frame k hk hks := by
    have hxs : k ∉ xs.flatMap identities := fun hxs =>
      (h.mem k hxs).elim hks fun hle => absurd hk (Nat.not_lt.2 hle)
    rw [h'.frame k (Nat.lt_of_lt_of_le hk h.size_le) hxs, h.frame k hk hks]
  grown := h.grown_trans h'
  root := h'.root.trans h.root

/-- **One pass after another**, at places that have nothing in common. -/
theorem append (h : Becomes A B ks xs) (h' : Becomes B C ls ys) (hls : ∀ k ∈ ls, k < A.size)
    (hdisj : ks.Disjoint ls) : Becomes A C (ks ++ ls) (xs ++ ys) := by
  have hxs : ls.Disjoint (xs.flatMap identities) := fun k hl hx => by
    rcases h.mem k hx with hk | hsize
    · exact hdisj hk hl
    · exact absurd (hls k hl) (Nat.not_lt.2 hsize)
  constructor
  case holds =>
    refine fun x hx => (List.mem_append.1 hx).elim (fun hx => ?_) (h'.holds x)
    exact h'.keeps (h.holds x hx) fun k hl hk => hxs hl (List.mem_flatMap.2 ⟨x, hx, hk⟩)
  case nodup =>
    rw [List.flatMap_append]
    refine h.nodup.append h'.nodup fun k hx hy => ?_
    rcases h'.mem k hy with hl | hsize
    · exact hxs hl hx
    · exact absurd (h.lt_size k hx) (Nat.not_lt.2 hsize)
  case mem =>
    intro k hk
    rw [List.flatMap_append, List.mem_append] at hk
    rcases hk with hx | hy
    · exact (h.mem k hx).imp_left (List.mem_append_left _)
    · exact (h'.mem k hy).imp (List.mem_append_right _) h.size_le.trans
  case frame =>
    intro k hk hks
    rw [List.mem_append, not_or] at hks
    rw [h'.frame k (Nat.lt_of_lt_of_le hk h.size_le) hks.2, h.frame k hk hks.1]
  case grown => exact h.grown_trans h'
  case root => exact h'.root.trans h.root

/-- **A new node** is made above some trees. -/
theorem made (h : Becomes A B ks ys) {kind : Kind (Node Mark)} (hchildren : kind.children = ys)
    (s : Span) :
    Becomes A (B.push ⟨kind.map identity, s, .empty⟩) ks [.ofKind ⟨B.size, s⟩ kind] := by
  have hlt := h.lt_size
  have hself : B.size ∉ ys.flatMap identities := fun hk => absurd (hlt _ hk) (lt_irrefl _)
  constructor
  case holds =>
    rw [List.forall_mem_singleton, holds_iff]
    constructor
    · exact ⟨_, by rw [Node.identity_ofKind, getElem?_push_size], by rw [Node.kind_ofKind],
        by rw [Node.note_ofKind]⟩
    · rw [Node.children_ofKind, hchildren]
      exact fun y hy => (h.holds y hy).congr fun k hk =>
        getElem?_push_of_lt (hlt k (List.mem_flatMap.2 ⟨y, hy, hk⟩))
  case nodup =>
    rw [List.flatMap_singleton, Node.identities_ofKind, hchildren]
    exact List.nodup_cons.2 ⟨hself, h.nodup⟩
  case mem =>
    rw [List.flatMap_singleton, Node.identities_ofKind, hchildren, List.forall_mem_cons]
    exact ⟨.inr h.size_le, h.mem⟩
  case frame =>
    intro k hk hks
    rw [getElem?_push_of_lt (Nat.lt_of_lt_of_le hk h.size_le), h.frame k hk hks]
  case grown =>
    obtain ⟨n, hn⟩ := h.grown
    exact ⟨n + 1, by
      rw [List.replicate_succ', ← List.append_assoc, ← hn]
      simp [annotations, push]⟩
  case root => exact h.root

/-- **A node is changed** to stand above other trees. -/
theorem stored (h : Becomes A B ks ys) (hc : A.cells[k]? = some c) (hk : k ∉ ks)
    {kind : Kind (Node Mark)} (hchildren : kind.children = ys) :
    Becomes A (B.set k (c.withKind (kind.map identity))) (k :: ks) [.ofKind ⟨k, c.span⟩ kind] := by
  have hlt := lt_size_of_getElem? hc
  have hb : B.cells[k]? = some c := (h.frame k hlt hk).trans hc
  have hself : k ∉ ys.flatMap identities := fun hy =>
    (h.mem k hy).elim hk fun hle => absurd hlt (Nat.not_lt.2 hle)
  constructor
  case holds =>
    rw [List.forall_mem_singleton, holds_iff]
    constructor
    · exact ⟨_, by rw [Node.identity_ofKind, getElem?_set_self hb], by rw [Node.kind_ofKind]; rfl,
        by rw [Node.note_ofKind]; rfl⟩
    · rw [Node.children_ofKind, hchildren]
      refine fun y hy => (h.holds y hy).congr fun j hj => getElem?_set_ne ?_
      rintro rfl
      exact hself (List.mem_flatMap.2 ⟨y, hy, hj⟩)
  case nodup =>
    rw [List.flatMap_singleton, Node.identities_ofKind, hchildren]
    exact List.nodup_cons.2 ⟨hself, h.nodup⟩
  case mem =>
    rw [List.flatMap_singleton, Node.identities_ofKind, hchildren, List.forall_mem_cons]
    exact ⟨.inl List.mem_cons_self, fun j hj => (h.mem j hj).imp_left (List.mem_cons_of_mem _)⟩
  case frame =>
    intro j hj hjs
    rw [List.mem_cons, not_or] at hjs
    rw [getElem?_set_ne hjs.1, h.frame j hj hjs.2]
  case grown =>
    obtain ⟨n, hn⟩ := h.grown
    exact ⟨n, (annotations_set_withKind hb).trans hn⟩
  case root => exact h.root

end Becomes

/-! ### A pass over some trees -/

section Runs

variable {γ : Type} {f : Nat → Pass γ} {w : Node Mark → List Nat} {out : Node Mark → Node Mark → γ}
  {t : Node Mark → Node Span}

/-- **A pass over some trees that writes to a part of each of them**: what it makes of one it makes
of all. -/
theorem exists_mapM (hxs : ∀ x ∈ xs, A.Holds x) (hw : ∀ x ∈ xs, w x ⊆ x.identities)
    (hdisj : xs.Pairwise fun x y => (w x).Disjoint y.identities)
    (hf : ∀ x ∈ xs, ∀ A, A.Holds x → ∃ y B, f x.identity A = some (out x y, B) ∧
      y.map Mark.span = t x ∧ Becomes A B (w x) [y]) :
    ∃ ys B, (xs.map identity).mapM f A = some ((xs.zip ys).map fun p => out p.1 p.2, B) ∧
      ys.map (Node.map Mark.span) = xs.map t ∧ Becomes A B (xs.flatMap w) ys := by
  induction xs generalizing A with
  | nil => exact ⟨[], A, rfl, rfl, @Becomes.refl A [] nofun .nil⟩
  | cons x xs ih =>
      rw [List.forall_mem_cons] at hxs hw hf
      rw [List.pairwise_cons] at hdisj
      obtain ⟨y, B, hrun, hy, hbecomes⟩ := hf.1 A hxs.1
      have hkept : ∀ z ∈ xs, B.Holds z := fun z hz => hbecomes.keeps (hxs.2 z hz) (hdisj.1 z hz)
      obtain ⟨ys, C, hruns, hys, hall⟩ := ih hkept hw.2 hdisj.2 hf.2
      refine ⟨y :: ys, C, ?_, by rw [List.map_cons, hy, hys, List.map_cons],
        hbecomes.append hall (fun k hk => ?_) fun k hx hk => ?_⟩
      · rw [List.map_cons, List.mapM_cons, bind_of_eq_some hrun, bind_of_eq_some hruns]
        rfl
      · obtain ⟨z, hz, hkz⟩ := List.mem_flatMap.1 hk
        exact (hxs.2 z hz).lt_size k (hw.2 z hz hkz)
      · obtain ⟨z, hz, hkz⟩ := List.mem_flatMap.1 hk
        exact hdisj.1 z hz hx (hw.2 z hz hkz)

end Runs

end Arena

end StackLang
