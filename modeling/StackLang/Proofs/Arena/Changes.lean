/-
**What is done to an arena.**

Folding, copying, storing copies and recording parents are all that is done to an arena after it was
parsed.  Each of them starts with a tree below the root and leaves one there, so whatever was done
before, each of them has a result: no reference leads to a place that is not there, and no pass runs
in a circle.

Main definitions:

* `Arena.Changes` — one of the things that are done to an arena;
* `Arena.Carries` — an arena holds a tree, and each of these things can be done to it.

Main results:

* `Arena.IsTree.carries` — **an arena with a tree below its root can be worked with**;
* `Arena.Changes.isTree`, `Arena.isTree_of_changes` — changes keep a tree below the root.
-/

import StackLang.Proofs.Arena.Copy
import StackLang.Proofs.Arena.Links
import StackLang.Proofs.Arena.Rewrite

set_option relaxedAutoImplicit false
set_option autoImplicit false

namespace StackLang

namespace Arena

open Node (identity identities)
open Relation (ReflTransGen)

variable {A B : Arena} {x y z : Node Mark} {j k : Nat}

/-! ### What is done to an arena -/

/-- **A change**: constants are folded; a copy of a node that is reached is made, and is left aside
or stored at a node that is reached; or it is recorded which node is above which. -/
inductive Changes : Arena → Arena → Prop where
  | fold {A B : Arena} {n : Nat} (h : fold A = some (n, B)) : Changes A B
  | clone {A B : Arena} {j k : Nat} (hk : A.Reaches k) (h : clone k A = some (j, B)) : Changes A B
  | graft {A B : Arena} {i j k : Nat} (hk : A.Reaches k) (hj : A.Reaches j)
      (h : graft k j A = some (i, B)) : Changes A B
  | link {A B : Arena} {k : Nat} (hk : A.root = some k) (h : link k none A = some ((), B)) :
      Changes A B

/-- **An arena holds a tree, and can be worked with.** -/
structure Carries (A : Arena) (x : Node Mark) : Prop where
  isTree : A.IsTree x
  /-- The nodes of the tree are those that are reached, -/
  reaches : ∀ k, A.Reaches k ↔ k ∈ x.identities
  /-- each of them in one way only. -/
  once : ∀ k, A.Reaches k → ∃! ps, A.Path k ps
  /-- Folding ends, with the folded tree below the root. -/
  fold : ∃ y B, fold A = some ((x.map Mark.span).fold.2, B) ∧ B.IsTree y ∧
    y.map Mark.span = (x.map Mark.span).fold.1
  /-- Copying a node that is reached ends, with a copy besides the tree. -/
  clone : ∀ y ∈ x.subtrees, ∃ z B, clone y.identity A = some (z.identity, B) ∧ IsCopy A B y z ∧
    B.IsTree x
  /-- Storing a copy at a node that is reached replaces what stood there. -/
  graft : ∀ y ∈ x.subtrees, ∀ j ∈ x.identities, ∃ z B C,
    Arena.clone y.identity A = some (z.identity, B) ∧ IsCopy A B y z ∧
    graft y.identity j A = some (z.identity, C) ∧ C.IsTree (Node.replaceAt j z x)
  /-- Recording which node is above which ends, and the nodes above a node are then those on the way
  to it. -/
  link : ∃ B, link x.identity none A = some ((), B) ∧ B.IsTree x ∧
    ∀ k ps, B.Path k ps → B.ancestors k = some (ps.map Prod.fst)

/-- **An arena with a tree below its root can be worked with.** -/
theorem IsTree.carries (h : A.IsTree x) : A.Carries x where
  isTree := h
  reaches k := h.reaches_iff
  once k hk := by
    obtain ⟨ps, hp⟩ := hk
    exact ⟨ps, hp, fun qs hq => h.path_unique hq hp⟩
  fold := fold_eq h
  clone y hy := by
    obtain ⟨z, B, hrun, hequal, hb⟩ := clone_eq (h.below hy).1 (h.below hy).2
    exact ⟨z, B, hrun, hb.isCopy hequal, hb.isTree h⟩
  graft y hy j hj := by
    obtain ⟨z, B, C, hclone, hequal, hb, hgraft, -, hC⟩ := graft_eq h hy hj
    exact ⟨z, B, C, hclone, hb.isCopy hequal, hgraft, hC⟩
  link := by
    obtain ⟨B, hrun, hlinked, hB⟩ := link_eq h
    exact ⟨B, hrun, hB, fun k ps => hlinked.ancestors_eq hB⟩

/-- **A change keeps a tree below the root.** -/
theorem Changes.isTree (h : Changes A B) (hA : A.IsTree x) : ∃ y, B.IsTree y := by
  have hcarries := hA.carries
  cases h with
  | fold h =>
      obtain ⟨y, C, hrun, hC, -⟩ := hcarries.fold
      cases h.symm.trans hrun
      exact ⟨y, hC⟩
  | clone hk h =>
      rw [hA.reaches_iff, Node.identities_eq_map_subtrees, List.mem_map] at hk
      obtain ⟨y, hy, rfl⟩ := hk
      obtain ⟨z, C, hrun, -, hC⟩ := hcarries.clone y hy
      cases h.symm.trans hrun
      exact ⟨x, hC⟩
  | graft hk hj h =>
      rw [hA.reaches_iff] at hj
      rw [hA.reaches_iff, Node.identities_eq_map_subtrees, List.mem_map] at hk
      obtain ⟨y, hy, rfl⟩ := hk
      obtain ⟨z, C, D, -, -, hrun, hD⟩ := hcarries.graft y hy _ hj
      cases h.symm.trans hrun
      exact ⟨_, hD⟩
  | link hk h =>
      obtain rfl := Option.some.inj (hk.symm.trans hA.root)
      obtain ⟨C, hrun, hC, -⟩ := hcarries.link
      cases h.symm.trans hrun
      exact ⟨x, hC⟩

/-- **Some changes keep a tree below the root.** -/
theorem isTree_of_changes (h : ReflTransGen Changes A B) (hA : A.IsTree x) : ∃ y, B.IsTree y := by
  induction h with
  | refl => exact ⟨x, hA⟩
  | tail _ hstep ih =>
      obtain ⟨y, hy⟩ := ih
      exact hstep.isTree hy

end Arena

end StackLang
