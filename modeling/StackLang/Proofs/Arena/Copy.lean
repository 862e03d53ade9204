/-
**Copies in an arena.**

A copy is made from the leaves up, out of new nodes.  It leaves all nodes that were there as they
were, and so it can be made of any part of a tree, and the tree can be read while it is made.  When
the kind of the copy's root is stored at a node, what is below the copy's root is below that node.

Main definitions:

* `Arena.IsCopy` — a copy equal to what it was made of, in new places only.

Main results:

* `Arena.clone_eq` — **a copy** is made;
* `Arena.graft_eq` — **storing a copy** replaces what stood there.
-/

import StackLang.Proofs.Arena.Becomes
import StackLang.Proofs.Tree.Replace

set_option relaxedAutoImplicit false
set_option autoImplicit false

namespace StackLang

namespace Arena

open Node (identity identities)

variable {A B : Arena} {x y : Node Mark} {k : Nat}

/-! ### What a copy is -/

/-- **`y` is a copy of `x`**: it has the kinds and the spans of `x`, it is made of new nodes at
which nothing is recorded, and no node that was there changed. -/
structure IsCopy (A B : Arena) (x y : Node Mark) : Prop where
  equal : y.map Mark.span = x.map Mark.span
  holds : B.Holds y
  nodup : y.identities.Nodup
  fresh : ∀ i ∈ y.identities, A.size ≤ i
  blank : ∀ i ∈ y.identities, ∃ c, B.cells[i]? = some c ∧ c.annotations = .empty
  kept : ∀ i < A.size, B.cells[i]? = A.cells[i]?
  root : B.root = A.root

/-- Nothing is recorded at a node that was not there. -/
theorem Becomes.blank {ks : List Nat} {xs : List (Node Mark)} {c : Cell} (h : Becomes A B ks xs)
    (hk : A.size ≤ k) (hc : B.cells[k]? = some c) : c.annotations = .empty := by
  obtain ⟨n, hn⟩ := h.grown
  have hat : B.annotations[k]? = some c.annotations := by simp [annotations, hc]
  rw [hn, List.getElem?_append_right (by simpa [annotations, size] using hk)] at hat
  exact List.eq_of_mem_replicate (List.mem_of_getElem? hat)

theorem Becomes.isCopy (h : Becomes A B [] [y]) (hequal : y.map Mark.span = x.map Mark.span) :
    IsCopy A B x y where
  equal := hequal
  holds := h.holds y List.mem_cons_self
  nodup := by simpa using h.nodup
  fresh i hi := by simpa using h.mem i (by simpa using hi)
  blank i hi := by
    have hlt := (h.holds y List.mem_cons_self).lt_size i hi
    have hfresh : A.size ≤ i := by simpa using h.mem i (by simpa using hi)
    exact ⟨_, List.getElem?_eq_getElem hlt, h.blank hfresh (List.getElem?_eq_getElem hlt)⟩
  kept i hi := h.frame i hi List.not_mem_nil
  root := h.root

/-- The tree below the root stays where it was when a copy is made. -/
theorem Becomes.isTree (h : Becomes A B [] [y]) (hA : A.IsTree x) : B.IsTree x :=
  ⟨h.root.trans hA.root, h.keeps hA.holds (List.disjoint_nil_left _), hA.nodup⟩

/-! ### Making a copy -/

theorem cloneWithin_eq {n : Nat} (h : A.Holds x) (hn : x.identities.length ≤ n) :
    ∃ y B, cloneWithin n x.identity A = some (y.identity, B) ∧
      y.map Mark.span = x.map Mark.span ∧ Becomes A B [] [y] := by
  induction x using Node.induction_children generalizing A n with
  | h x ih =>
      obtain ⟨n, rfl, hfew⟩ := Node.exists_succ_of_length_le hn
      rw [holds_iff] at h
      obtain ⟨⟨c, hc, hkind, hspan⟩, hbelow⟩ := h
      obtain ⟨ys, B, hrun, hspans, hbecomes⟩ := @exists_mapM A x.children _ (cloneWithin n)
        (fun _ => []) (fun _ y => y.identity) (Node.map Mark.span) hbelow
        (fun _ _ => List.nil_subset _)
        (List.pairwise_of_forall fun _ _ => List.disjoint_nil_left _) fun z hz A hA =>
          ih z hz hA (hfew z hz)
      have hlength : ys.length = x.children.length := by simpa using congrArg List.length hspans
      have hplaces : (x.children.zip ys).map (fun p => p.2.identity) = ys.map identity := by
        have hsnd := congrArg (List.map identity) (List.map_snd_zip hlength.le)
        rwa [List.map_map] at hsnd
      rw [List.flatMap_eq_nil_iff.2 fun _ _ => rfl] at hbecomes
      have hframe : B.cells[x.identity]? = some c :=
        (hbecomes.frame _ (lt_size_of_getElem? hc) nofun).trans hc
      have hfilled := @Kind.children_refill _ ys x.kind (by simpa using hlength)
      have hmade := hbecomes.made hfilled c.span
      refine ⟨_, _, ?_, ?_, hmade⟩
      · rw [cloneWithin, bind_of_eq_some (cell_eq hc), hkind, Kind.children_map, Node.children_kind,
          bind_of_eq_some hrun, bind_of_eq_some (cell_eq hframe), alloc_eq, hplaces,
          Kind.map_refill, Node.identity_ofKind]
      · rw [Node.map_ofKind_refill Mark.span hspans, hspan, ← Node.note_map Mark.span,
          Node.ofKind_kind]

/-- **A copy** is made of new nodes, all old ones are left as they were, and it is equal to what it
was made of. -/
theorem clone_eq (h : A.Holds x) (hnodup : x.identities.Nodup) :
    ∃ y B, clone x.identity A = some (y.identity, B) ∧
      y.map Mark.span = x.map Mark.span ∧ Becomes A B [] [y] :=
  cloneWithin_eq h (h.length_le hnodup)

/-! ### Storing a copy -/

section Graft

variable {j : Nat} {z : Node Mark}

/-- **A node is replaced** by storing the kind of a node elsewhere. -/
theorem holds_replaceAt {d : Cell} (h : A.Holds x) (hz : A.Holds z) (hj : j ∉ z.identities)
    (hd : A.cells[j]? = some d) :
    (A.set j (d.withKind (z.kind.map identity))).Holds (Node.replaceAt j z x) := by
  induction x using Node.induction_children with
  | h x ih =>
      obtain ⟨⟨c, hc, hkind, hspan⟩, hbelow⟩ := holds_iff.1 h
      rw [holds_iff]
      by_cases hx : x.identity = j
      case pos =>
        rw [hx] at hc
        obtain rfl : c = d := Option.some.inj (hc.symm.trans hd)
        constructor
        · refine ⟨c.withKind (z.kind.map identity), ?_, ?_, ?_⟩
          · rw [Node.identity_replaceAt, hx, getElem?_set_self hd]
          · rw [Node.replaceAt_of_eq hx, Node.kind_withNote]
            rfl
          · rw [Node.note_replaceAt]
            exact hspan
        · rw [Node.replaceAt_of_eq hx, Node.children_withNote]
          rw [Node.identities_eq, List.mem_cons, not_or] at hj
          refine fun y hy => ((holds_iff.1 hz).2 y hy).congr fun k hk => getElem?_set_ne ?_
          rintro rfl
          exact hj.2 (List.mem_flatMap.2 ⟨y, hy, hk⟩)
      case neg =>
        constructor
        · refine ⟨c, ?_, ?_, ?_⟩
          · rw [Node.identity_replaceAt, getElem?_set_ne hx, hc]
          · have hsame : (x.children.map (Node.replaceAt j z)).map identity =
                x.children.map identity := by
              rw [List.map_map]
              exact List.map_congr_left fun y _ => Node.identity_replaceAt
            rw [Node.replaceAt_of_ne hx, Node.kind_withChildren, Kind.map_refill, hsame,
              ← Node.children_kind, ← Kind.children_map, Kind.refill_children, hkind]
          · rw [Node.note_replaceAt]
            exact hspan
        · rw [Node.children_replaceAt hx, List.forall_mem_map]
          exact fun y hy => ih y hy (hbelow y hy)

/-- **Storing a copy** replaces what stood there by it. -/
theorem graft_eq (h : A.IsTree x) (hy : y ∈ x.subtrees) (hj : j ∈ x.identities) :
    ∃ z B C, clone y.identity A = some (z.identity, B) ∧
      z.map Mark.span = y.map Mark.span ∧ Becomes A B [] [z] ∧
      graft y.identity j A = some (z.identity, C) ∧ C.annotations = B.annotations ∧
      C.IsTree (Node.replaceAt j z x) := by
  obtain ⟨z, B, hclone, hspans, hb⟩ := clone_eq (h.below hy).1 (h.below hy).2
  have hkept : B.Holds x := hb.keeps h.holds (List.disjoint_nil_left _)
  have hfresh : ∀ k ∈ z.identities, A.size ≤ k := fun k hk => by
    simpa using hb.mem k (by simpa using hk)
  have hold : ∀ k ∈ x.identities, k ∉ z.identities := fun k hk hz =>
    absurd (h.holds.lt_size k hk) (Nat.not_lt.2 (hfresh k hz))
  obtain ⟨c, hc, hkind, -⟩ := (hb.holds z List.mem_cons_self).self
  obtain ⟨w, hw, rfl⟩ := List.mem_map.1 (Node.identities_eq_map_subtrees x ▸ hj)
  obtain ⟨d, hd, -⟩ := hkept w hw
  refine ⟨z, B, B.set w.identity (d.withKind (z.kind.map identity)), hclone, hspans, hb, ?_,
    annotations_set_withKind hd, ⟨?_, ?_, ?_⟩⟩
  · rw [graft, bind_of_eq_some hclone, bind_of_eq_some (cell_eq hc),
      bind_of_eq_some (modifyCell_eq hd), hkind]
    rfl
  · rw [Node.identity_replaceAt, ← h.root]
    exact hb.root
  · exact holds_replaceAt hkept (hb.holds z List.mem_cons_self) (hold _ hj) hd
  · exact Node.nodup_replaceAt h.nodup (by simpa using hb.nodup) (fun k hk => hold k hk) hj

end Graft

end Arena

end StackLang
