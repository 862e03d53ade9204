/-
**Arenas and documents.**

A document is the tree that an arena holds, under other names: in an arena a node is made after the
nodes below it, in a document before them.  What is done to a document can be done to the arena, and
then the two are equal under other names again, with what is recorded above the nodes.  So what
holds of arenas holds of documents.

Main definitions:

* `Arena.Mirrors` — a document is what an arena holds, and has the same recorded.

Main results:

* `Arena.exists_mirrors_ofTree` — the document of a tree, and an arena that holds the tree;
* `Arena.Mirrors.link`, `Arena.Mirrors.clone`, `Arena.Mirrors.graft` — one change to both;
* `Arena.Mirrors.of_changes` — **whatever is done to a document** can be done to the arena.
-/

import StackLang.Proofs.Arena.Changes
import StackLang.Proofs.Tree.Numbered

set_option relaxedAutoImplicit false
set_option autoImplicit false

namespace StackLang

namespace Arena

open Node (identity identities)
open Relation (ReflTransGen)

variable {A B C : Arena} {c : Cell} {x y z : Node Mark} {d e : Document} {f g : Nat → Nat}
  {j k : Nat} {ks : List Nat}

/-! ### What is recorded -/

/-- What is recorded at a node stays when other nodes are made. -/
theorem exists_cell_of_grown (h : A.annotations <+: B.annotations) (hc : A.cells[k]? = some c) :
    ∃ c', B.cells[k]? = some c' ∧ c'.annotations = c.annotations := by
  obtain ⟨added, hadded⟩ := h
  have hat : A.annotations[k]? = some c.annotations := by simp [annotations, hc]
  have hb : B.annotations[k]? = some c.annotations := by
    rw [← hadded, List.getElem?_append_left (List.getElem?_eq_some_iff.1 hat).1, hat]
  simpa [annotations] using hb

theorem climbWithin_of_grown (h : A.annotations <+: B.annotations) {n m : Nat} {p : Option Nat}
    (hn : n ≤ m) (hclimb : climbWithin A n p = some ks) :
    climbWithin B m p = some ks ∧ ∀ i ∈ ks, i < A.size := by
  induction n generalizing m p ks with
  | zero =>
      cases p with
      | none =>
          cases hclimb
          exact ⟨by cases m <;> rfl, nofun⟩
      | some k => cases hclimb
  | succ n ih =>
      obtain ⟨m, rfl⟩ := Nat.exists_eq_add_one.2 (Nat.lt_of_lt_of_le (Nat.succ_pos _) hn)
      cases p with
      | none =>
          cases hclimb
          exact ⟨rfl, nofun⟩
      | some k =>
          cases hc : A.cells[k]? with
          | none => simp [climbWithin, hc] at hclimb
          | some c =>
              obtain ⟨c', hc', heq⟩ := exists_cell_of_grown h hc
              rw [climbWithin_succ hc, Option.map_eq_some_iff] at hclimb
              obtain ⟨ls, hls, rfl⟩ := hclimb
              obtain ⟨hB, hlt⟩ := ih (Nat.le_of_succ_le_succ hn) hls
              refine ⟨by rw [climbWithin_succ hc', heq, hB, Option.map_some], ?_⟩
              exact List.forall_mem_cons.2 ⟨lt_size_of_getElem? hc, hlt⟩

/-- The nodes recorded above a node stay when other nodes are made. -/
theorem ancestors_of_grown (h : A.annotations <+: B.annotations)
    (hks : A.ancestors k = some ks) : B.ancestors k = some ks ∧ ∀ i ∈ ks, i < A.size := by
  cases hc : A.cells[k]? with
  | none => simp [ancestors, hc] at hks
  | some c =>
      obtain ⟨c', hc', heq⟩ := exists_cell_of_grown h hc
      have hsize : A.size ≤ B.size := by simpa [annotations, size] using h.length_le
      rw [ancestors_of_cell hc] at hks
      rw [ancestors_of_cell hc', heq]
      exact climbWithin_of_grown h hsize hks

/-- Where nothing is recorded, nothing is above. -/
theorem ancestors_of_blank (hc : A.cells[k]? = some c) (hblank : c.annotations = .empty) :
    A.ancestors k = some [] := by
  rw [ancestors_of_cell hc, hblank]
  cases A.size <;> rfl

/-! ### Documents that mirror arenas -/

/-- **A document mirrors an arena**: it is the tree that the arena holds, under other names, and has
the same recorded above every node. -/
structure Mirrors (A : Arena) (x : Node Mark) (d : Document) (f : Nat → Nat) : Prop where
  isTree : A.IsTree x
  numbered : d.Numbered
  root : d.root = x.map (Mark.rename f)
  record : ∀ k ∈ x.identities, ∃ ks, A.ancestors k = some ks ∧
    d.ancestors (f k) = ks.map f ∧ d.parent? (f k) = ks.head?.map f

/-- **The document of a tree** mirrors an arena that holds the tree when nothing is recorded. -/
theorem exists_mirrors_ofTree {t : Node Span} (hA : A.IsTree x) (hx : x.map Mark.span = t)
    (hblank : ∀ c ∈ A.cells, c.annotations = .empty) : ∃ f, A.Mirrors x (.ofTree t) f := by
  have hspans : (Document.ofTree t).root.map Mark.span = x.map Mark.span := by
    rw [hx]
    exact (Node.map_number (h := fun s => s) (fun _ _ => rfl) 0 t).trans t.map_id
  obtain ⟨f, hf⟩ := Node.exists_rename hspans hA.nodup
  refine ⟨f, hA, Document.numbered_ofTree t, hf, fun k hk => ⟨[], ?_, ?_, rfl⟩⟩
  · have hc := List.getElem?_eq_getElem (hA.holds.lt_size k hk)
    exact ancestors_of_blank hc (hblank _ (List.getElem_mem _))
  · exact Document.ancestors_of_none rfl

namespace Mirrors

theorem identity_root (h : A.Mirrors x d f) : d.root.identity = f x.identity := by
  rw [h.root, Node.identity_rename]

theorem identities_root (h : A.Mirrors x d f) : d.root.identities = x.identities.map f := by
  rw [h.root, Node.identities_rename]

theorem mem_nodes (h : A.Mirrors x d f) (hy : y ∈ x.subtrees) :
    y.map (Mark.rename f) ∈ d.nodes := by
  rw [Document.nodes, h.root, Node.subtrees_map]
  exact List.mem_map_of_mem hy

/-- The nodes that are recorded above a node of the document are those on the way to it. -/
theorem ancestors_link (h : A.Mirrors x d f) (hB : B.IsTree x) {ps : List (Nat × Nat)}
    (hp : B.Path k ps) : d.link.ancestors (f k) = (ps.map Prod.fst).map f ∧
      d.link.parent? (f k) = (ps.map Prod.fst).head?.map f := by
  induction hp with
  | root hroot =>
      obtain rfl := Option.some.inj (hroot.symm.trans hB.root)
      have hnone := h.numbered.parent?_link_root
      rw [h.identity_root] at hnone
      exact ⟨Document.ancestors_of_none hnone, hnone⟩
  | @step j k i ps c hp hc hj ih =>
      rcases (hp.step hc hj).cases_tree hB with ⟨-, hnil⟩ | ⟨y, hy, i, rs, hi, -, heq⟩
      · cases hnil
      cases heq
      obtain ⟨z, hz, rfl⟩ := List.mem_map.1 (List.mem_of_getElem? hi)
      have hy' := h.mem_nodes hy
      have hz' : z.map (Mark.rename f) ∈ (y.map (Mark.rename f)).children := by
        rw [Node.children_map]
        exact List.mem_map_of_mem hz
      have hparent := h.numbered.parent?_link hy' hz'
      have hlt := h.numbered.rising _ hy' _ hz'
      rw [Node.identity_rename, Node.identity_rename] at hparent hlt
      refine ⟨?_, hparent⟩
      rw [Document.ancestors_of_some hparent, if_pos hlt, ih.1]
      rfl

/-- **Recording which node is above which**, in both. -/
theorem link (h : A.Mirrors x d f) :
    ∃ B, Arena.link x.identity none A = some ((), B) ∧ B.Mirrors x d.link f := by
  obtain ⟨B, hrun, hlinked, hB⟩ := link_eq h.isTree
  refine ⟨B, hrun, hB, h.numbered.link, h.root, fun k hk => ?_⟩
  obtain ⟨ps, hp⟩ := hB.reaches_iff.2 hk
  exact ⟨_, hlinked.ancestors_eq hB hp, h.ancestors_link hB hp⟩

/-- **Making a copy**, in both. -/
theorem clone (h : A.Mirrors x d f) (hy : y ∈ x.subtrees) :
    ∃ (z : Node Mark) (B : Arena), Arena.clone y.identity A = some (z.identity, B) ∧
      B.Mirrors x (d.clone (y.map (Mark.rename f))).2 f := by
  obtain ⟨z, B, hrun, -, hb⟩ := clone_eq (h.isTree.below hy).1 (h.isTree.below hy).2
  refine ⟨z, B, hrun, hb.isTree h.isTree, h.numbered.clone _, h.root, fun k hk => ?_⟩
  obtain ⟨ks, hks, hancestors, hparent⟩ := h.record k hk
  obtain ⟨n, hn⟩ := hb.grown
  refine ⟨ks, (ancestors_of_grown (hn ▸ List.prefix_append _ _) hks).1, ?_, hparent⟩
  rw [← hancestors]
  exact Document.ancestors_congr rfl

/-- **Storing a copy**, in both.  The nodes that were there keep their names. -/
theorem graft (h : A.Mirrors x d f) (hy : y ∈ x.subtrees) (hj : j ∈ x.identities) :
    ∃ (z : Node Mark) (C : Arena) (g : Nat → Nat),
      Arena.graft y.identity j A = some (z.identity, C) ∧ (∀ k < A.size, g k = f k) ∧
      C.Mirrors (Node.replaceAt j z x) (d.graft (f j) (y.map (Mark.rename f))).2 g := by
  obtain ⟨z, B, C, -, hspans, hb, hrun, hsame, hC⟩ := graft_eq h.isTree hy hj
  have hcopy := hb.isCopy hspans
  obtain ⟨-, -, hfresh, -⟩ := Document.Numbered.copy d (y.map (Mark.rename f))
  obtain ⟨e, he⟩ : ∃ e, ((y.map (Mark.rename f)).copy d.fresh).1 = z.map (Mark.rename e) := by
    refine Node.exists_rename ?_ hcopy.nodup
    rw [Node.map_span_copy, Node.map_span_rename, hspans]
  -- the nodes of the copy are named as in the document, and the others as before
  let g : Nat → Nat := fun k => if k < A.size then f k else e k
  have hold : ∀ k < A.size, g k = f k := fun k hk => if_pos hk
  have hnew : ∀ k ∈ z.identities, g k = e k := fun k hk => if_neg (Nat.not_lt.2 (hcopy.fresh k hk))
  have hx : x.map (Mark.rename g) = d.root := by
    rw [h.root]
    exact Node.rename_congr fun k hk => hold k (h.isTree.holds.lt_size k hk)
  have hz : z.map (Mark.rename g) = ((y.map (Mark.rename f)).copy d.fresh).1 := by
    rw [he]
    exact Node.rename_congr hnew
  have hjg : g j = f j := hold j (h.isTree.holds.lt_size j hj)
  have hinj : ∀ i ∈ x.identities, g i = g j → i = j := fun i hi heq => by
    refine List.inj_on_of_nodup_map ?_ hi hj heq
    rw [← Node.identities_rename, hx]
    exact h.numbered.nodup
  refine ⟨z, C, g, hrun, hold, hC, h.numbered.graft ?_ _, ?_, fun k hk => ?_⟩
  · rw [h.identities_root]
    exact List.mem_map_of_mem hj
  · rw [Node.replaceAt_rename hinj, hjg, hx, hz]
    rfl
  obtain ⟨n, hn⟩ := hb.grown
  by_cases hkx : k ∈ x.identities
  case pos =>
    obtain ⟨ks, hks, hancestors, hparent⟩ := h.record k hkx
    obtain ⟨hCks, hlt⟩ := ancestors_of_grown (hsame.trans hn ▸ List.prefix_append _ _) hks
    have hmap : ks.map g = ks.map f := List.map_congr_left fun i hi => hold i (hlt i hi)
    refine ⟨ks, hCks, ?_, ?_⟩ <;> rw [hold k (h.isTree.holds.lt_size k hkx)]
    · rw [hmap, ← hancestors]
      exact Document.ancestors_congr rfl
    · rw [← List.head?_map, hmap, List.head?_map]
      exact hparent
  case neg =>
    have hkz := (Node.mem_of_mem_replaceAt hk).resolve_left hkx
    obtain ⟨c, hc, hblank⟩ := hcopy.blank k hkz
    have hgrown : B.annotations <+: C.annotations := by rw [hsame]
    obtain ⟨c', hc', heq⟩ := exists_cell_of_grown hgrown hc
    have hgk : d.fresh ≤ g k := by
      refine (hfresh _ ?_).1
      rw [← hz, Node.identities_rename]
      exact List.mem_map_of_mem hkz
    have hnone : (d.graft (f j) (y.map (Mark.rename f))).2.parent? (g k) = none :=
      h.numbered.parent?_of_fresh hgk
    exact ⟨[], ancestors_of_blank hc' (heq.trans hblank), Document.ancestors_of_none hnone, hnone⟩

/-- **A change of a document** can be made to the arena. -/
theorem changes (h : A.Mirrors x d f) (hd : Document.Changes d e) :
    ∃ B y g, Changes A B ∧ B.Mirrors y e g := by
  have hmem : ∀ w ∈ d.nodes, ∃ y ∈ x.subtrees, y.map (Mark.rename f) = w := fun w hw => by
    rw [Document.nodes, h.root, Node.subtrees_map] at hw
    exact List.mem_map.1 hw
  have hreached : ∀ y ∈ x.subtrees, A.Reaches y.identity := fun y hy =>
    h.isTree.reaches_iff.2 (Node.mem_identities hy)
  cases hd with
  | link =>
      obtain ⟨B, hrun, hB⟩ := h.link
      exact ⟨B, x, f, .link h.isTree.root hrun, hB⟩
  | clone hw =>
      obtain ⟨y, hy, rfl⟩ := hmem _ hw
      obtain ⟨z, B, hrun, hB⟩ := h.clone hy
      exact ⟨B, x, f, .clone (hreached y hy) hrun, hB⟩
  | graft hk hw =>
      obtain ⟨y, hy, rfl⟩ := hmem _ hw
      rw [h.identities_root] at hk
      obtain ⟨j, hj, rfl⟩ := List.mem_map.1 hk
      obtain ⟨z, C, g, hrun, -, hC⟩ := h.graft hy hj
      exact ⟨C, _, g, .graft (hreached y hy) (h.isTree.reaches_iff.2 hj) hrun, hC⟩

/-- **Whatever is done to a document** can be done to the arena. -/
theorem of_changes (h : A.Mirrors x d f) (hd : ReflTransGen Document.Changes d e) :
    ∃ B y g, ReflTransGen Changes A B ∧ B.Mirrors y e g := by
  induction hd with
  | refl => exact ⟨A, x, f, .refl, h⟩
  | tail _ hstep ih =>
      obtain ⟨B, y, g, hB, hmirrors⟩ := ih
      obtain ⟨C, z, g', hC, hmirrors'⟩ := hmirrors.changes hstep
      exact ⟨C, z, g', hB.tail hC, hmirrors'⟩

end Mirrors

end Arena

end StackLang
