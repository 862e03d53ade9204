/-
**The way to a node.**

A node of an arena is reached from the root over a chain of references.  Where what is below the
root is a tree, every node of it is reached in one way only; and when the node above each node was
recorded, the nodes recorded above it are those on this way.

Main definitions:

* `Arena.Path`, `Arena.Reaches` — a place is reached from the root, through some places or at all;
* `Arena.Above` — the place that is recorded above a place;
* `Arena.Linked` — what is above the nodes of some trees was recorded.

Main results:

* `Arena.IsTree.reaches_iff`, `Arena.IsTree.path_unique` — the nodes that are reached are those of
  the tree, each in one way;
* `Arena.link_eq` — **recording** what is above each node of the tree changes nothing else;
* `Arena.Linked.ancestors_eq` — the nodes recorded above a node are those on the way to it.
-/

import StackLang.Proofs.Arena.Becomes

set_option relaxedAutoImplicit false
set_option autoImplicit false

namespace StackLang

namespace Arena

open Node (identity identities)

variable {A B : Arena} {c : Cell} {x y : Node Mark} {j k : Nat} {ps qs : List (Nat × Nat)}

/-! ### Ways from the root -/

/-- **The way to a place**: the places above it, with the number of the reference that is followed
at each of them, the nearest first. -/
inductive Path (A : Arena) : Nat → List (Nat × Nat) → Prop where
  | root {k : Nat} (h : A.root = some k) : Path A k []
  | step {j k i : Nat} {ps : List (Nat × Nat)} {c : Cell} (h : Path A k ps)
      (hc : A.cells[k]? = some c) (hj : c.kind.children[i]? = some j) : Path A j ((k, i) :: ps)

/-- A place is reached from the root. -/
def Reaches (A : Arena) (k : Nat) : Prop := ∃ ps, A.Path k ps

/-- Every reference of a node of a tree is to a node directly below it. -/
theorem Shows.children_eq (h : A.Shows y) (hc : A.cells[y.identity]? = some c) :
    c.kind.children = y.children.map identity := by
  obtain ⟨d, hd, hkind, -⟩ := h
  obtain rfl : d = c := Option.some.inj (hd.symm.trans hc)
  rw [hkind, Kind.children_map, Node.children_kind]

/-- A way leads to a node of the tree, below which there are fewer nodes the longer the way is. -/
theorem Path.exists_subtree (h : A.IsTree x) (hp : A.Path k ps) : ∃ y ∈ x.subtrees,
    y.identity = k ∧ y.identities.length + ps.length ≤ x.identities.length := by
  induction hp with
  | root hroot =>
      exact ⟨x, x.self_mem_subtrees, Option.some.inj (h.root.symm.trans hroot), Nat.le_refl _⟩
  | @step j k i ps c hp hc hj ih =>
      obtain ⟨y, hy, rfl, hlength⟩ := ih
      rw [(h.holds y hy).children_eq hc] at hj
      obtain ⟨z, hz, rfl⟩ := List.mem_map.1 (List.mem_of_getElem? hj)
      refine ⟨z, Node.mem_subtrees_of_mem_children hy hz, rfl, ?_⟩
      have hlt := Node.length_identities_lt hz
      rw [List.length_cons]
      omega

/-- The last step of a way. -/
theorem Path.cases_tree (h : A.IsTree x) (hp : A.Path k ps) :
    (k = x.identity ∧ ps = []) ∨ ∃ y ∈ x.subtrees, ∃ i qs, (y.children.map identity)[i]? = some k ∧
      A.Path y.identity qs ∧ ps = (y.identity, i) :: qs := by
  cases hp with
  | root hroot => exact .inl ⟨Option.some.inj (hroot.symm.trans h.root), rfl⟩
  | @step _ k i ps c hp hc hj =>
      obtain ⟨y, hy, rfl, -⟩ := hp.exists_subtree h
      rw [(h.holds y hy).children_eq hc] at hj
      exact .inr ⟨y, hy, i, ps, hj, hp, rfl⟩

theorem Path.mem_identities (h : A.IsTree x) (hp : A.Path k ps) : k ∈ x.identities := by
  obtain ⟨y, hy, rfl, -⟩ := hp.exists_subtree h
  exact Node.mem_identities hy

/-- A way is not longer than there are nodes. -/
theorem Path.length_le (h : A.IsTree x) (hp : A.Path k ps) : ps.length ≤ A.size := by
  obtain ⟨y, -, -, hlength⟩ := hp.exists_subtree h
  have hsize := h.holds.length_le h.nodup
  omega

/-- What is below a node that is reached is reached. -/
theorem Holds.reaches (h : A.Holds x) (hx : A.Reaches x.identity) :
    ∀ y ∈ x.subtrees, A.Reaches y.identity := by
  induction x using Node.induction_children with
  | h x ih =>
      obtain ⟨hroot, hbelow⟩ := holds_iff.1 h
      intro y hy
      rcases Node.mem_subtrees_iff.1 hy with rfl | ⟨z, hz, hyz⟩
      · exact hx
      · refine ih z hz (hbelow z hz) ?_ y hyz
        obtain ⟨ps, hp⟩ := hx
        obtain ⟨c, hc, -⟩ := id hroot
        obtain ⟨i, hi⟩ := List.getElem?_of_mem
          (hroot.children_eq hc ▸ List.mem_map_of_mem hz : z.identity ∈ c.kind.children)
        exact ⟨_, hp.step hc hi⟩

/-- **The places that are reached are those of the tree.** -/
theorem IsTree.reaches_iff (h : A.IsTree x) : A.Reaches k ↔ k ∈ x.identities := by
  refine ⟨fun ⟨ps, hp⟩ => hp.mem_identities h, fun hk => ?_⟩
  obtain ⟨y, hy, rfl⟩ := List.mem_map.1 (Node.identities_eq_map_subtrees x ▸ hk)
  exact h.holds.reaches ⟨[], .root h.root⟩ y hy

/-! ### One way only -/

theorem IsTree.nodup_references (h : A.IsTree x) :
    (x.identity :: x.subtrees.flatMap fun y => y.children.map identity).Nodup :=
  x.perm_references.nodup_iff.2 h.nodup

/-- The root is not below a node. -/
theorem IsTree.not_below_root (h : A.IsTree x) {i : Nat} (hy : y ∈ x.subtrees) :
    (y.children.map identity)[i]? ≠ some x.identity := fun hi =>
  (List.nodup_cons.1 h.nodup_references).1
    (List.mem_flatMap.2 ⟨y, hy, List.mem_of_getElem? hi⟩)

/-- A place is below one node only, and once. -/
theorem IsTree.above_unique (h : A.IsTree x) {y' : Node Mark} {i i' : Nat} (hy : y ∈ x.subtrees)
    (hy' : y' ∈ x.subtrees) (hi : (y.children.map identity)[i]? = some j)
    (hi' : (y'.children.map identity)[i']? = some j) : y = y' ∧ i = i' := by
  obtain ⟨hnodup, hdisj⟩ := List.nodup_flatMap.1 (List.nodup_cons.1 h.nodup_references).2
  obtain rfl : y = y' := by
    by_contra hne
    have : Std.Symm (Function.onFun List.Disjoint fun y : Node Mark => y.children.map identity) :=
      ⟨fun _ _ hd => hd.symm⟩
    exact hdisj.forall hy hy' hne (List.mem_of_getElem? hi) (List.mem_of_getElem? hi')
  refine ⟨rfl, ?_⟩
  have hlt := (List.getElem?_eq_some_iff.1 hi).1
  exact (List.getElem?_inj hlt (hnodup y hy)).1 (hi.trans hi'.symm)

/-- **Every place is reached in one way only.** -/
theorem IsTree.path_unique (h : A.IsTree x) (hp : A.Path k ps) (hq : A.Path k qs) : ps = qs := by
  induction hp generalizing qs with
  | root hroot =>
      obtain rfl := Option.some.inj (hroot.symm.trans h.root)
      rcases hq.cases_tree h with ⟨-, rfl⟩ | ⟨y, hy, i, rs, hi, -⟩
      · rfl
      · exact absurd hi (h.not_below_root hy)
  | @step j k i ps c hp hc hj ih =>
      rcases (hp.step hc hj).cases_tree h with ⟨-, hnil⟩ | ⟨y, hy, i, rs, hi, -, heq⟩
      · cases hnil
      cases heq
      rcases hq.cases_tree h with ⟨rfl, -⟩ | ⟨y', hy', i', rs', hi', hq', rfl⟩
      · exact absurd hi (h.not_below_root hy)
      obtain ⟨rfl, rfl⟩ := h.above_unique hy hy' hi hi'
      rw [ih hq']

/-! ### Recording what is above -/

/-- The place that is recorded above a place. -/
def Above (A : Arena) (k : Nat) (p : Option Nat) : Prop :=
  ∃ c, A.cells[k]? = some c ∧ c.annotations.enclosing = p

/-- Nothing changed but what is recorded above the nodes. -/
def Keeps (A B : Arena) : Prop :=
  ∀ (k : Nat) (c : Cell), A.cells[k]? = some c → ∃ p, B.cells[k]? = some (c.withEnclosing p)

/-- **What is above the nodes of some trees was recorded**, each with the place above its root, and
nothing else changed. -/
structure Linked (A B : Arena) (ws : List (Node Mark × Option Nat)) : Prop where
  size : B.size = A.size
  root : B.root = A.root
  keeps : A.Keeps B
  frame : ∀ k : Nat, (∀ w ∈ ws, k ∉ w.1.identities) → B.cells[k]? = A.cells[k]?
  roots : ∀ w ∈ ws, B.Above w.1.identity w.2
  below : ∀ w ∈ ws, ∀ y ∈ w.1.subtrees, ∀ z ∈ y.children, B.Above z.identity (some y.identity)

section Linked

variable {ws : List (Node Mark × Option Nat)} {p : Option Nat}

/-- A tree is held whatever is recorded at its nodes. -/
theorem Holds.of_keeps (h : A.Holds x) (hkeeps : A.Keeps B) : B.Holds x := by
  intro y hy
  obtain ⟨c, hc, hkind, hspan⟩ := h y hy
  obtain ⟨p, hp⟩ := hkeeps _ c hc
  exact ⟨_, hp, hkind, hspan⟩

theorem keeps_set (hc : A.cells[k]? = some c) : A.Keeps (A.set k (c.withEnclosing p)) := by
  intro j d hd
  by_cases hj : j = k
  case pos =>
    subst hj
    obtain rfl : c = d := Option.some.inj (hc.symm.trans hd)
    exact ⟨p, getElem?_set_self hc⟩
  case neg => exact ⟨d.annotations.enclosing, (getElem?_set_ne hj).trans hd⟩

/-- The trees on the stack after the root of the first one was met. -/
def behind (x : Node Mark) (ws : List (Node Mark × Option Nat)) : List (Node Mark × Option Nat) :=
  (x.children.map fun y => (y, some x.identity)).reverse ++ ws

theorem mem_behind {w : Node Mark × Option Nat} :
    w ∈ behind x ws ↔ (∃ y ∈ x.children, w = (y, some x.identity)) ∨ w ∈ ws := by
  simp [behind, eq_comm]

theorem perm_behind (x : Node Mark) (ws : List (Node Mark × Option Nat)) :
    (x.identity :: (behind x ws).flatMap fun w => w.1.identities).Perm
      (((x, p) :: ws).flatMap fun w => w.1.identities) := by
  rw [List.flatMap_cons, Node.identities_eq x, behind, List.flatMap_append, List.cons_append]
  refine .cons _ (.append_right _ ?_)
  refine ((List.reverse_perm _).flatMap_right _).trans (.of_eq ?_)
  rw [List.flatMap_map]

theorem Linked.nil (A : Arena) : Linked A A [] :=
  ⟨rfl, rfl, fun _ _ hc => ⟨_, hc⟩, fun _ _ => rfl, nofun, nofun⟩

/-- Recording the rest, and before that what is above the first root. -/
theorem Linked.cons (hc : A.cells[x.identity]? = some c)
    (hnodup : (((x, p) :: ws).flatMap fun w => w.1.identities).Nodup)
    (h : Linked (A.set x.identity (c.withEnclosing p)) B (behind x ws)) :
    Linked A B ((x, p) :: ws) := by
  have hnodup' := (perm_behind x ws).nodup_iff.2 hnodup
  have hself : ∀ w ∈ behind x ws, x.identity ∉ w.1.identities := fun w hw hx =>
    (List.nodup_cons.1 hnodup').1 (List.mem_flatMap.2 ⟨w, hw, hx⟩)
  constructor
  case size => exact h.size.trans (List.length_set)
  case root => exact h.root
  case keeps =>
    intro k d hd
    obtain ⟨q, hq⟩ := @keeps_set A c x.identity p hc k d hd
    obtain ⟨r, hr⟩ := h.keeps k _ hq
    exact ⟨r, hr⟩
  case frame =>
    intro k hk
    rw [List.forall_mem_cons, Node.identities_eq, List.mem_cons, not_or] at hk
    rw [h.frame k ?_, getElem?_set_ne hk.1.1]
    intro w hw hkw
    rcases mem_behind.1 hw with ⟨y, hy, rfl⟩ | hw
    · exact hk.1.2 (List.mem_flatMap.2 ⟨y, hy, hkw⟩)
    · exact hk.2 w hw hkw
  case roots =>
    rw [List.forall_mem_cons]
    refine ⟨⟨_, (h.frame _ hself).trans (getElem?_set_self hc), rfl⟩, fun w hw => ?_⟩
    exact h.roots w (mem_behind.2 (.inr hw))
  case below =>
    rw [List.forall_mem_cons]
    refine ⟨fun y hy z hz => ?_, fun w hw => h.below w (mem_behind.2 (.inr hw))⟩
    rcases Node.mem_subtrees_iff.1 hy with rfl | ⟨v, hv, hyv⟩
    · exact h.roots (z, some y.identity) (mem_behind.2 (.inl ⟨z, hz, rfl⟩))
    · exact h.below (v, some x.identity) (mem_behind.2 (.inl ⟨v, hv, rfl⟩)) y hyv z hz

/-- **Recording what is above the nodes of some trees.** -/
theorem linkWithin_eq {n : Nat} (hholds : ∀ w ∈ ws, A.Holds w.1)
    (hnodup : (ws.flatMap fun w => w.1.identities).Nodup)
    (hn : (ws.flatMap fun w => w.1.identities).length ≤ n) :
    ∃ B, linkWithin n (ws.map fun w => (w.1.identity, w.2)) A = some ((), B) ∧ Linked A B ws := by
  -- every round takes one node from those that are left
  induction n generalizing ws A with
  | zero =>
      cases ws with
      | nil => exact ⟨A, rfl, .nil A⟩
      | cons w ws => simp [Node.identities_eq w.1] at hn
  | succ n ih =>
      cases ws with
      | nil => exact ⟨A, rfl, .nil A⟩
      | cons w ws =>
          obtain ⟨x, p⟩ := w
          rw [List.forall_mem_cons] at hholds
          obtain ⟨hx, hrest⟩ := hholds
          obtain ⟨c, hc, hkind, -⟩ := hx.self
          have hperm := @perm_behind p x ws
          have hheld : ∀ w ∈ behind x ws, (A.set x.identity (c.withEnclosing p)).Holds w.1 := by
            intro w hw
            rcases mem_behind.1 hw with ⟨y, hy, rfl⟩ | hw
            · exact ((holds_iff.1 hx).2 y hy).of_keeps (keeps_set hc)
            · exact (hrest w hw).of_keeps (keeps_set hc)
          obtain ⟨B, hrun, hB⟩ := ih hheld (List.nodup_cons.1 (hperm.nodup_iff.2 hnodup)).2
            (Nat.le_of_succ_le_succ (hperm.length_eq.trans_le hn))
          refine ⟨B, ?_, hB.cons hc hnodup⟩
          have hstack :
              ((c.withEnclosing p).kind.children.map fun j => (j, some x.identity)).reverse ++
                ws.map (fun w => (w.1.identity, w.2)) =
              (behind x ws).map fun w => (w.1.identity, w.2) := by
            change (c.kind.children.map _).reverse ++ _ = _
            rw [hx.self.children_eq hc, behind, List.map_append, List.map_reverse, List.map_map,
              List.map_map]
            rfl
          rw [List.map_cons, linkWithin, bind_of_eq_some (modifyCell_eq hc),
            bind_of_eq_some (cell_eq (getElem?_set_self hc)), hstack, hrun]

/-- **Recording what is above each node of the tree** below the root. -/
theorem link_eq (h : A.IsTree x) :
    ∃ B, link x.identity none A = some ((), B) ∧ Linked A B [(x, none)] ∧ B.IsTree x := by
  have hlength := h.holds.length_le h.nodup
  obtain ⟨B, hrun, hB⟩ := @linkWithin_eq A [(x, none)] A.size (List.forall_mem_singleton.2 h.holds)
    (by simpa using h.nodup) (by simpa using hlength)
  exact ⟨B, hrun, hB, hB.root.trans h.root, h.holds.of_keeps hB.keeps, h.nodup⟩

theorem climbWithin_succ {n : Nat} (hc : A.cells[k]? = some c) :
    climbWithin A (n + 1) (some k) = (climbWithin A n c.annotations.enclosing).map (k :: ·) := by
  simp only [climbWithin, hc]
  change (climbWithin A n c.annotations.enclosing >>= fun ks => some (k :: ks)) = _
  cases climbWithin A n c.annotations.enclosing <;> rfl

theorem ancestors_of_cell (hc : A.cells[k]? = some c) :
    A.ancestors k = climbWithin A A.size c.annotations.enclosing := by
  rw [ancestors, hc]
  rfl

theorem Linked.climbWithin_eq {n : Nat} (h : Linked A B [(x, none)]) (hB : B.IsTree x)
    (hp : B.Path k ps) (hn : ps.length ≤ n) : ∃ c, B.cells[k]? = some c ∧
      climbWithin B n c.annotations.enclosing = some (ps.map Prod.fst) := by
  induction hp generalizing n with
  | root hroot =>
      obtain rfl := Option.some.inj (hroot.symm.trans hB.root)
      obtain ⟨c, hc, habove⟩ := h.roots _ List.mem_cons_self
      refine ⟨c, hc, ?_⟩
      rw [habove]
      cases n <;> rfl
  | @step j k i ps d hp hd hj ih =>
      obtain ⟨n, rfl⟩ := Nat.exists_eq_add_one.2 (Nat.lt_of_lt_of_le (Nat.succ_pos _) hn)
      obtain ⟨c, hc, hclimb⟩ := ih (Nat.le_of_succ_le_succ hn)
      rcases (hp.step hd hj).cases_tree hB with ⟨-, hnil⟩ | ⟨y, hy, i, rs, hi, -, heq⟩
      · cases hnil
      cases heq
      obtain ⟨z, hz, rfl⟩ := List.mem_map.1 (List.mem_of_getElem? hi)
      obtain ⟨e, he, habove⟩ := h.below _ List.mem_cons_self y hy z hz
      refine ⟨e, he, ?_⟩
      rw [habove, climbWithin_succ hc, hclimb, Option.map_some, List.map_cons]

/-- **The nodes recorded above a node are those on the way to it**, nearest first. -/
theorem Linked.ancestors_eq (h : Linked A B [(x, none)]) (hB : B.IsTree x) (hp : B.Path k ps) :
    B.ancestors k = some (ps.map Prod.fst) := by
  obtain ⟨c, hc, hclimb⟩ := h.climbWithin_eq hB hp (hp.length_le hB)
  rw [ancestors_of_cell hc, hclimb]

end Linked

end Arena

end StackLang
