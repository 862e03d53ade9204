/-
**Folding in an arena.**

Folding writes to the places of the tree below the root only, and to new ones.  A node that is
computed is left behind where it stands, and a new one takes its place in the node above; a branch
that is taken and a value that was returned move up as they are.  So what was a tree stays one, and
it is the folded tree.

Main results:

* `Node.fold_eq_withChildren` — folding below a node and folding the node;
* `Arena.unwrapTail_eq`, `Arena.foldRoot_turns`, `Arena.rewrite_turns` — what becomes of a tree;
* `Arena.fold_eq` — **folding in an arena** folds the tree that it holds.
-/

import StackLang.Proofs.Tree.Folded
import StackLang.Proofs.Arena.Becomes

set_option relaxedAutoImplicit false
set_option autoImplicit false

namespace StackLang

namespace Node

variable {α β : Type}

/-! ### Folded trees -/

theorem foldList_snd (xs : List (Node α)) :
    (foldList xs).2 = (xs.map fun x => x.fold.2).sum := by
  induction xs with
  | nil => rfl
  | cons x xs ih => simp only [foldList, ih, List.map_cons, List.sum_cons]

/-- **Folding below a node and folding the node.** -/
theorem fold_eq_withChildren (x : Node α) :
    x.fold = ((x.withChildren (x.children.map fun y => y.fold.1)).foldRoot.1,
      (x.children.map fun y => y.fold.2).sum +
        (x.withChildren (x.children.map fun y => y.fold.1)).foldRoot.2) := by
  cases x <;> simp [fold, children, withChildren, kind, note, Kind.refill, ofKind, foldRoot,
    foldList_eq_map, foldList_snd, foldOption_eq_map, Kind.refillList_of_length, Nat.add_assoc]
  case cond e => cases e <;> simp [foldOption]

/-- The `return` at the end is the same for other notes. -/
theorem unwrapTail_map (f : α → β) (x : Node α) :
    (x.map f).unwrapTail = (x.unwrapTail.1.map f, x.unwrapTail.2) := by
  induction x using induction_children with
  | h x ih =>
      cases x with
      | block n is =>
          rcases List.eq_nil_or_concat is with rfl | ⟨zs, z, rfl⟩
          · rfl
          · have hz := ih z (by simp [children])
            simp [map, unwrapTail, unwrapLast_concat, mapList_eq_map, hz]
      | cond n c t e =>
          have ht := ih t (by simp [children])
          cases e with
          | none => simp [map, mapOption, unwrapTail, unwrapOption, ht]
          | some e =>
              have he := ih e (by simp [children])
              simp [map, mapOption, unwrapTail, unwrapOption, ht, he]
      | _ => rfl

/-! What is not a literal is not computed with. -/

theorem foldBinary_of_not_literal {n : α} {op : BinaryOp} {l r : Node α}
    (h : ∀ i a j b, l = literal i a → r ≠ literal j b) :
    foldBinary n op l r = (binary n op l r, 0) := by
  unfold foldBinary
  split
  · exact absurd rfl (h _ _ _ _ rfl)
  · rfl

theorem foldUnary_of_not_literal {n : α} {op : UnaryOp} {x : Node α}
    (h : ∀ i v, x ≠ literal i v) : foldUnary n op x = (unary n op x, 0) := by
  unfold foldUnary
  split
  · exact absurd rfl (h _ _)
  · rfl

theorem foldCond_of_not_literal {n : α} {c t : Node α} {e : Option (Node α)}
    (h : ∀ i v, c ≠ literal i v) : foldCond n c t e = (cond n c t e, 0) := by
  unfold foldCond
  split
  · exact absurd rfl (h _ _)
  · rfl

end Node

namespace Arena

open Node (identity identities)

variable {A B C : Arena} {c : Cell} {k : Nat} {x y : Node Mark} {xs ys : List (Node Mark)}
  {kind : Kind (Node Mark)}

/-! ### A node and what is below it -/

/-- A tree that is held stays what it is. -/
theorem becomes_self (h : A.Holds x) (hnodup : x.identities.Nodup) :
    Becomes A A x.identities [x] := by
  simpa using Becomes.refl (List.forall_mem_singleton.2 h) (by simpa using hnodup)

theorem nodup_children (h : x.identities.Nodup) : (x.children.flatMap identities).Nodup := by
  rw [Node.identities_eq] at h
  exact (List.nodup_cons.1 h).2

theorem nodup_of_mem_children (h : x.identities.Nodup) (hy : y ∈ x.children) :
    y.identities.Nodup :=
  (nodup_children h).sublist (Node.sublist_of_mem_children hy)

/-- A tree below the root takes the place of a tree. -/
theorem becomes_below (h : A.Holds x) (hnodup : x.identities.Nodup) (hy : y ∈ x.children) :
    Becomes A A x.identities [y] := by
  refine (becomes_self h hnodup).of_sublist ?_ ?_
  · exact List.forall_mem_singleton.2 ((holds_iff.1 h).2 y hy)
  · rw [List.flatMap_singleton, List.flatMap_singleton, Node.identities_eq x]
    exact (Node.sublist_of_mem_children hy).cons _

/-- A new node takes the place of a tree. -/
theorem becomes_leaf (h : A.Holds x) (hkind : kind.children = []) (hnodup : x.identities.Nodup) :
    Becomes A (A.push ⟨kind.map identity, x.note.span, .empty⟩) x.identities
      [.ofKind ⟨A.size, x.note.span⟩ kind] :=
  ((becomes_self h hnodup).of_sublist (fun _ hz => (List.not_mem_nil hz).elim)
    (List.nil_sublist _)).made hkind _

/-- A tree becomes another one when the trees below it do, and the root is changed. -/
theorem becomes_root (h : A.Shows x) (hnodup : x.identities.Nodup)
    (hys : Becomes A B (x.children.flatMap identities) ys) (hkind : kind.children = ys) :
    ∃ c, B.cells[x.identity]? = some c ∧ c.kind = x.kind.map identity ∧ c.span = x.note.span ∧
      Becomes A (B.set x.identity (c.withKind (kind.map identity))) x.identities
        [.ofKind x.note kind] := by
  obtain ⟨c, hc, hxkind, hspan⟩ := h
  rw [Node.identities_eq, List.nodup_cons] at hnodup
  refine ⟨c, (hys.frame _ (lt_size_of_getElem? hc) hnodup.1).trans hc, hxkind, hspan, ?_⟩
  have hstored := hys.stored hc hnodup.1 hkind
  rw [hspan, ← Node.identities_eq] at hstored
  exact hstored

theorem nodup_of_append (h : ((xs ++ ys).flatMap identities).Nodup) :
    (xs.flatMap identities).Nodup := by
  rw [List.flatMap_append] at h
  exact h.of_append_left

/-- Some trees become others, and then one more does. -/
theorem Becomes.append_single {xs' : List (Node Mark)} {y' : Node Mark}
    (h : Becomes A B (xs.flatMap identities) xs') (h' : Becomes B C y.identities [y'])
    (hy : A.Holds y) (hnodup : ((xs ++ [y]).flatMap identities).Nodup) :
    Becomes A C ((xs ++ [y]).flatMap identities) (xs' ++ [y']) := by
  rw [List.flatMap_append, List.flatMap_singleton] at hnodup ⊢
  exact h.append h' hy.lt_size (List.disjoint_of_nodup_append hnodup)

/-- What is held elsewhere is held after some trees became others. -/
theorem Becomes.holds_behind {xs' : List (Node Mark)}
    (h : Becomes A B (xs.flatMap identities) xs') (hy : A.Holds y) (hmem : y ∈ ys)
    (hnodup : ((xs ++ ys).flatMap identities).Nodup) : B.Holds y := by
  rw [List.flatMap_append] at hnodup
  exact h.keeps hy fun k hk hky =>
    List.disjoint_of_nodup_append hnodup hk (List.mem_flatMap.2 ⟨y, hmem, hky⟩)

/-! ### Function bodies -/

/-- The `return` at the end of a body is taken away by writing to the body only. -/
def Unwraps (n : Nat) (A : Arena) (x : Node Mark) : Prop :=
  ∃ B, unwrapTailWithin n x.identity A = some ((x.unwrapTail.1.identity, x.unwrapTail.2), B) ∧
    Becomes A B x.identities [x.unwrapTail.1]

section Unwraps

variable {i : Nat} {n : Mark} {p q z : Node Mark} {e : Option (Node Mark)} {zs : List (Node Mark)}

/-- Where there is no `return` at the end, nothing is done. -/
theorem unwraps_self (h : A.Holds x) (hnodup : x.identities.Nodup)
    (hrun : unwrapTailWithin i x.identity A = some ((x.identity, 0), A))
    (hx : x.unwrapTail = (x, 0)) : Unwraps i A x :=
  ⟨A, by rw [hrun, hx], by rw [hx]; exact becomes_self h hnodup⟩

/-- The last statement of a block is changed. -/
theorem unwraps_block (h : A.Holds (.block n (zs ++ [z])))
    (hnodup : (Node.block n (zs ++ [z])).identities.Nodup) (hz : Unwraps i A z) :
    Unwraps (i + 1) A (.block n (zs ++ [z])) := by
  obtain ⟨hroot, hbelow⟩ := holds_iff.1 h
  obtain ⟨r, hr, hkind, -⟩ := id hroot
  have hdisj : ((zs ++ [z]).flatMap identities).Nodup := nodup_children hnodup
  obtain ⟨B, hrun, hb⟩ := hz
  have hzs := Becomes.refl (fun y hy => hbelow y (List.mem_append_left _ hy))
    (nodup_of_append hdisj)
  have hall := hzs.append_single hb (hbelow z (by simp [Node.children])) hdisj
  obtain ⟨d, hd, hdkind, -, hroot'⟩ :=
    @becomes_root _ _ _ _ (.block (zs ++ [z.unwrapTail.1])) hroot hnodup hall rfl
  have htail : (Node.block n (zs ++ [z])).unwrapTail =
      (.block n (zs ++ [z.unwrapTail.1]), z.unwrapTail.2) := by
    simp [Node.unwrapTail, Node.unwrapLast_concat]
  have hlast : ((zs ++ [z]).map identity).getLast? = some z.identity := by simp
  have hstored : withLast z.unwrapTail.1.identity d.kind =
      Kind.map identity (.block (zs ++ [z.unwrapTail.1])) := by
    simp [hdkind, withLast, Node.kind, Kind.map]
  rw [Unwraps, htail]
  refine ⟨_, ?_, hroot'⟩
  rw [unwrapTailWithin, bind_of_eq_some (cell_eq hr), hkind]
  simp only [Node.kind, Kind.map, hlast]
  rw [bind_of_eq_some hrun, bind_of_eq_some (modifyCell_eq hd), hstored]
  rfl

/-- The branches of a condition are changed, one after the other. -/
theorem unwraps_cond (h : A.Holds (.cond n p q e)) (hnodup : (Node.cond n p q e).identities.Nodup)
    (hq : Unwraps i A q) (he : ∀ y ∈ e, ∀ B, Holds B y → Unwraps i B y) :
    Unwraps (i + 1) A (.cond n p q e) := by
  obtain ⟨hroot, hbelow⟩ := holds_iff.1 h
  obtain ⟨r, hr, hkind, -⟩ := id hroot
  have hp := hbelow p (by simp [Node.children])
  have hq' := hbelow q (by simp [Node.children])
  have hdisj : (([p, q] ++ e.toList).flatMap identities).Nodup := nodup_children hnodup
  have hdisj' : (([p] ++ [q]).flatMap identities).Nodup := nodup_of_append hdisj
  obtain ⟨B, hrun, hb⟩ := hq
  have hpq : Becomes A B ([p, q].flatMap identities) [p, q.unwrapTail.1] :=
    (Becomes.refl (List.forall_mem_singleton.2 hp) (nodup_of_append hdisj')).append_single hb hq'
      hdisj'
  cases e with
  | none =>
      obtain ⟨d, hd, hdkind, -, hroot'⟩ :=
        @becomes_root _ _ _ _ (.cond p q.unwrapTail.1 none) hroot hnodup hpq rfl
      refine ⟨_, ?_, hroot'⟩
      rw [unwrapTailWithin, bind_of_eq_some (cell_eq hr), hkind]
      simp only [Node.kind, Kind.map, Option.map_none]
      rw [bind_of_eq_some hrun, bind_of_eq_some (modifyCell_eq hd), hdkind]
      rfl
  | some e =>
      have he' := hbelow e (by simp [Node.children])
      have hheld := hpq.holds_behind he' List.mem_cons_self hdisj
      obtain ⟨C, hrun', hb'⟩ := he e rfl B hheld
      have hall := hpq.append_single hb' he' hdisj
      obtain ⟨d, hd, hdkind, -, hroot'⟩ :=
        @becomes_root _ _ _ _ (.cond p q.unwrapTail.1 (some e.unwrapTail.1)) hroot hnodup hall rfl
      refine ⟨_, ?_, hroot'⟩
      rw [unwrapTailWithin, bind_of_eq_some (cell_eq hr), hkind]
      simp only [Node.kind, Kind.map, Option.map_some]
      rw [bind_of_eq_some hrun, bind_of_eq_some hrun', bind_of_eq_some (modifyCell_eq hd), hdkind]
      rfl

theorem unwrapTailWithin_eq (h : A.Holds x) (hnodup : x.identities.Nodup)
    (hi : x.identities.length ≤ i) : Unwraps i A x := by
  induction x using Node.induction_children generalizing A i with
  | h x ih =>
      obtain ⟨i, rfl, hfew⟩ := Node.exists_succ_of_length_le hi
      obtain ⟨hroot, hbelow⟩ := holds_iff.1 h
      obtain ⟨r, hr, hkind, -⟩ := id hroot
      have hchild : ∀ y ∈ x.children, ∀ B, Holds B y → Unwraps i B y := fun y hy B hB =>
        ih y hy hB (nodup_of_mem_children hnodup hy) (hfew y hy)
      cases x with
      | returnValue n v =>
          refine ⟨A, ?_, becomes_below h hnodup (by simp [Node.children, Node.unwrapTail])⟩
          rw [unwrapTailWithin, bind_of_eq_some (cell_eq hr), hkind]
          rfl
      | block n is =>
          rcases List.eq_nil_or_concat' is with rfl | ⟨zs, z, rfl⟩
          · refine unwraps_self h hnodup ?_ rfl
            rw [unwrapTailWithin, bind_of_eq_some (cell_eq hr), hkind]
            rfl
          · have hz : z ∈ (Node.block n (zs ++ [z])).children := by simp [Node.children]
            exact unwraps_block h hnodup (hchild z hz A (hbelow z hz))
      | cond n p q e =>
          have hq : q ∈ (Node.cond n p q e).children := by simp [Node.children]
          refine unwraps_cond h hnodup (hchild q hq A (hbelow q hq)) fun y hy => hchild y ?_
          simp [Node.children, Option.mem_def.1 hy]
      | _ =>
          refine unwraps_self h hnodup ?_ rfl
          rw [unwrapTailWithin, bind_of_eq_some (cell_eq hr), hkind]
          rfl

/-- **The `return` at the end of a body is taken away.** -/
theorem unwrapTail_eq (h : A.Holds x) (hnodup : x.identities.Nodup) :
    ∃ B, unwrapTail x.identity A = some ((x.unwrapTail.1.identity, x.unwrapTail.2), B) ∧
      Becomes A B x.identities [x.unwrapTail.1] :=
  unwrapTailWithin_eq h hnodup (h.length_le hnodup)

end Unwraps

/-! ### Single nodes -/

/-- A pass that gives a place and a count turns the tree `x` into the tree `t`. -/
def Turns (m : Pass (Nat × Nat)) (A : Arena) (x : Node Mark) (t : Node Span × Nat) : Prop :=
  ∃ y B, m A = some ((y.identity, t.2), B) ∧ y.map Mark.span = t.1 ∧ Becomes A B x.identities [y]

section Turns

variable {m m' : Pass (Nat × Nat)} {t t' : Node Span × Nat}

theorem Turns.congr (h : Turns m A x t) (hm : m' A = m A) (ht : t' = t) : Turns m' A x t' := by
  obtain ⟨y, B, hrun, hy⟩ := h
  exact ⟨y, B, by rw [hm, hrun, ht], by rwa [ht]⟩

/-- Nothing is done. -/
theorem turns_self (h : A.Holds x) (hnodup : x.identities.Nodup) :
    Turns (pure (x.identity, 0)) A x (x.map Mark.span, 0) :=
  ⟨x, A, rfl, rfl, becomes_self h hnodup⟩

/-- A tree below the root takes the place of the tree. -/
theorem turns_below (h : A.Holds x) (hnodup : x.identities.Nodup) (hy : y ∈ x.children) :
    Turns (pure (y.identity, 1)) A x (y.map Mark.span, 1) :=
  ⟨y, A, rfl, rfl, becomes_below h hnodup hy⟩

/-- A new node takes the place of the tree. -/
theorem turns_replace (h : A.Holds x) (hnodup : x.identities.Nodup) (hkind : kind.children = []) :
    Turns (replace x.identity (kind.map identity)) A x
      (.ofKind x.note.span (kind.map (Node.map Mark.span)), 1) := by
  obtain ⟨c, hc, -, hspan⟩ := h.self
  refine ⟨.ofKind ⟨A.size, x.note.span⟩ kind, _, ?_, Node.map_ofKind _,
    becomes_leaf h hkind hnodup⟩
  rw [replace, bind_of_eq_some (cell_eq hc), hspan, bind_of_eq_some alloc_eq,
    Node.identity_ofKind]
  rfl

end Turns

theorem kind_eq_literal_iff {v : Literal} :
    .literal v = x.kind.map identity ↔ ∃ n, x = .literal n v := by
  cases x <;> simp [Node.kind, Kind.map, eq_comm]

theorem map_eq_literal_iff {s : Span} {v : Literal} :
    x.map Mark.span = .literal s v ↔ ∃ n, x = .literal n v ∧ n.span = s := by
  cases x <;> simp [Node.map, and_comm]

section Nodes

variable {n : Mark} {l r b t : Node Mark} {e : Option (Node Mark)} {op : BinaryOp} {sign : UnaryOp}

theorem foldBinary_turns (h : A.Holds (.binary n op l r))
    (hnodup : (Node.binary n op l r).identities.Nodup) :
    Turns (foldBinary (Node.binary n op l r).identity op) A (.binary n op l r)
      (Node.foldBinary n.span op (l.map Mark.span) (r.map Mark.span)) := by
  obtain ⟨⟨c, hc, hkind, -⟩, hbelow⟩ := holds_iff.1 h
  obtain ⟨cl, hcl, hl, -⟩ := (hbelow l (by simp [Node.children])).self
  obtain ⟨cr, hcr, hr, -⟩ := (hbelow r (by simp [Node.children])).self
  by_cases hlit : ∃ i a j b, l = .literal i a ∧ r = .literal j b
  case pos =>
    obtain ⟨i, a, j, b, rfl, rfl⟩ := hlit
    cases hv : op.eval? a b with
    | none =>
        refine (turns_self h hnodup).congr ?_ (by simp [Node.foldBinary, Node.map, hv])
        rw [foldBinary, bind_of_eq_some (cell_eq hc), hkind]
        simp only [Node.kind, Kind.map]
        rw [bind_of_eq_some (cell_eq hcl), bind_of_eq_some (cell_eq hcr), hl, hr]
        simp only [Node.kind, Kind.map, hv]
    | some v =>
        refine (@turns_replace _ _ (.literal v) h hnodup rfl).congr ?_
          (by simp [Node.foldBinary, Node.map, hv]; rfl)
        rw [foldBinary, bind_of_eq_some (cell_eq hc), hkind]
        simp only [Node.kind, Kind.map]
        rw [bind_of_eq_some (cell_eq hcl), bind_of_eq_some (cell_eq hcr), hl, hr]
        simp only [Node.kind, Kind.map, hv]
  case neg =>
    refine (turns_self h hnodup).congr ?_ ?_
    · rw [foldBinary, bind_of_eq_some (cell_eq hc), hkind]
      simp only [Node.kind, Kind.map]
      rw [bind_of_eq_some (cell_eq hcl), bind_of_eq_some (cell_eq hcr)]
      generalize cl.kind = kl at hl
      generalize cr.kind = kr at hr
      split
      case h_1 a b =>
        obtain ⟨i, rfl⟩ := kind_eq_literal_iff.1 hl
        obtain ⟨j, rfl⟩ := kind_eq_literal_iff.1 hr
        exact absurd ⟨i, a, j, b, rfl, rfl⟩ hlit
      case h_2 => rfl
    · refine Node.foldBinary_of_not_literal fun i a j b hi hj => ?_
      obtain ⟨i, rfl, -⟩ := map_eq_literal_iff.1 hi
      obtain ⟨j, rfl, -⟩ := map_eq_literal_iff.1 hj
      exact hlit ⟨i, a, j, b, rfl, rfl⟩

theorem foldUnary_turns (h : A.Holds (.unary n sign b))
    (hnodup : (Node.unary n sign b).identities.Nodup) :
    Turns (foldUnary (Node.unary n sign b).identity sign) A (.unary n sign b)
      (Node.foldUnary n.span sign (b.map Mark.span)) := by
  obtain ⟨⟨c, hc, hkind, -⟩, hbelow⟩ := holds_iff.1 h
  obtain ⟨d, hd, hb, -⟩ := (hbelow b (by simp [Node.children])).self
  by_cases hlit : ∃ i v, b = .literal i v
  case pos =>
    obtain ⟨i, v, rfl⟩ := hlit
    refine (@turns_replace _ _ (.literal (sign.eval v)) h hnodup rfl).congr ?_ rfl
    rw [foldUnary, bind_of_eq_some (cell_eq hc), hkind]
    simp only [Node.kind, Kind.map]
    rw [bind_of_eq_some (cell_eq hd), hb]
    simp only [Node.kind, Kind.map]
  case neg =>
    refine (turns_self h hnodup).congr ?_ ?_
    · rw [foldUnary, bind_of_eq_some (cell_eq hc), hkind]
      simp only [Node.kind, Kind.map]
      rw [bind_of_eq_some (cell_eq hd)]
      generalize d.kind = kb at hb
      split
      case h_1 v =>
        obtain ⟨i, rfl⟩ := kind_eq_literal_iff.1 hb
        exact absurd ⟨i, v, rfl⟩ hlit
      case h_2 => rfl
    · refine Node.foldUnary_of_not_literal fun i v hi => ?_
      obtain ⟨i, rfl, -⟩ := map_eq_literal_iff.1 hi
      exact hlit ⟨i, v, rfl⟩

theorem foldCond_turns (h : A.Holds (.cond n b t e))
    (hnodup : (Node.cond n b t e).identities.Nodup) :
    Turns (foldCond (Node.cond n b t e).identity) A (.cond n b t e)
      (Node.foldCond n.span (b.map Mark.span) (t.map Mark.span) (e.map (Node.map Mark.span))) := by
  obtain ⟨⟨c, hc, hkind, -⟩, hbelow⟩ := holds_iff.1 h
  obtain ⟨d, hd, hb, -⟩ := (hbelow b (by simp [Node.children])).self
  by_cases hlit : ∃ i v, b = .literal i v
  case pos =>
    obtain ⟨i, v, rfl⟩ := hlit
    cases hv : v.isTrue with
    | true =>
        refine (@turns_below _ _ t h hnodup (by simp [Node.children])).congr ?_
          (by simp [Node.foldCond, Node.map, hv])
        rw [foldCond, bind_of_eq_some (cell_eq hc), hkind]
        simp only [Node.kind, Kind.map]
        rw [bind_of_eq_some (cell_eq hd), hb]
        simp only [Node.kind, Kind.map, hv, if_true]
    | false =>
        cases e with
        | some e =>
            refine (@turns_below _ _ e h hnodup (by simp [Node.children])).congr ?_
              (by simp [Node.foldCond, Node.map, hv])
            rw [foldCond, bind_of_eq_some (cell_eq hc), hkind]
            simp only [Node.kind, Kind.map]
            rw [bind_of_eq_some (cell_eq hd), hb]
            simp only [Node.kind, Kind.map, hv, Bool.false_eq_true, if_false, Option.map_some]
        | none =>
            refine (@turns_replace _ _ .nop h hnodup rfl).congr ?_
              (by simp [Node.foldCond, Node.map, Node.ofKind, Kind.map, Node.note, hv])
            rw [foldCond, bind_of_eq_some (cell_eq hc), hkind]
            simp only [Node.kind, Kind.map]
            rw [bind_of_eq_some (cell_eq hd), hb]
            simp only [Node.kind, Kind.map, hv, Bool.false_eq_true, if_false, Option.map_none]
  case neg =>
    refine (turns_self h hnodup).congr ?_ ?_
    · rw [foldCond, bind_of_eq_some (cell_eq hc), hkind]
      simp only [Node.kind, Kind.map]
      rw [bind_of_eq_some (cell_eq hd)]
      generalize d.kind = kb at hb
      split
      case h_1 v =>
        obtain ⟨i, rfl⟩ := kind_eq_literal_iff.1 hb
        exact absurd ⟨i, v, rfl⟩ hlit
      case h_2 => rfl
    · rw [Node.map, Node.mapOption_eq_map]
      refine Node.foldCond_of_not_literal fun i v hi => ?_
      obtain ⟨i, rfl, -⟩ := map_eq_literal_iff.1 hi
      exact hlit ⟨i, v, rfl⟩

theorem foldBody_turns {p : Node Mark} (h : A.Holds (.define n p b))
    (hnodup : (Node.define n p b).identities.Nodup) :
    Turns (foldBody (Node.define n p b).identity) A (.define n p b)
      (.define n.span (p.map Mark.span) (b.map Mark.span).unwrapTail.1,
        (b.map Mark.span).unwrapTail.2) := by
  obtain ⟨hroot, hbelow⟩ := holds_iff.1 h
  obtain ⟨c, hc, hkind, -⟩ := id hroot
  have hp := hbelow p (by simp [Node.children])
  have hb := hbelow b (by simp [Node.children])
  have hdisj : (([p] ++ [b]).flatMap identities).Nodup := nodup_children hnodup
  obtain ⟨B, hrun, hbecomes⟩ :=
    unwrapTail_eq hb (nodup_of_mem_children hnodup (by simp [Node.children]))
  have hkept := Becomes.refl (List.forall_mem_singleton.2 hp) (nodup_of_append hdisj)
  have hall := hkept.append_single hbecomes hb hdisj
  obtain ⟨d, hd, hdkind, -, hroot'⟩ :=
    @becomes_root _ _ _ _ (.define p b.unwrapTail.1) hroot hnodup hall rfl
  refine ⟨_, _, ?_, ?_, hroot'⟩
  · rw [foldBody, bind_of_eq_some (cell_eq hc), hkind]
    simp only [Node.kind, Kind.map]
    rw [bind_of_eq_some hrun, bind_of_eq_some (modifyCell_eq hd), hdkind, Node.unwrapTail_map]
    rfl
  · rw [Node.unwrapTail_map]
    rfl

/-- **What becomes of a node** whose children were folded. -/
theorem foldRoot_turns (h : A.Holds x) (hnodup : x.identities.Nodup) :
    Turns (foldRoot (x.kind.map identity) x.identity) A x (x.map Mark.span).foldRoot := by
  cases x with
  | binary n op l r =>
      by_cases hop : op = .assign
      case pos =>
        subst hop
        refine (turns_self h hnodup).congr (by simp [foldRoot, Node.kind, Kind.map]) ?_
        exact Node.foldRoot_of_eq_zero
          (Node.foldBinary_eq_zero_iff.2 fun _ _ _ _ _ _ => .inl rfl)
      case neg =>
        exact (foldBinary_turns h hnodup).congr (by simp [foldRoot, Node.kind, Kind.map, hop]) rfl
  | unary n op b => exact foldUnary_turns h hnodup
  | cond n c t e =>
      refine (foldCond_turns h hnodup).congr rfl ?_
      rw [Node.map, Node.mapOption_eq_map]
      rfl
  | define n p b => exact foldBody_turns h hnodup
  | _ => exact turns_self h hnodup

/-- Which node is folded depends on what it was before what is below it was folded, but not on
that. -/
theorem foldRoot_map_refill {β : Type} {k : Kind β} {bs : List β} {f g : β → Nat} {j : Nat} :
    foldRoot (k.map f) j = foldRoot ((k.refill bs).map g) j := by
  cases k <;> rfl

end Nodes

/-! ### Trees -/

theorem set_self (h : A.cells[k]? = some c) : A.set k c = A := by
  obtain ⟨hk, rfl⟩ := List.getElem?_eq_some_iff.1 h
  rw [set, List.set_getElem_self]

theorem storeChildren_eq {js : List Nat} (h : A.cells[k]? = some c) :
    storeChildren k js A = some ((), A.set k (c.withKind (c.kind.refill js))) := by
  unfold storeChildren
  split
  case isTrue hnil =>
    rw [hnil, Kind.refill_nil, Cell.withKind, set_self h]
    rfl
  case isFalse => exact modifyCell_eq h

/-- **Folding some trees**, one after the other. -/
theorem mapM_rewriteWithin {n : Nat} (hxs : ∀ x ∈ xs, A.Holds x)
    (hnodup : (xs.flatMap identities).Nodup)
    (hturns : ∀ x ∈ xs, ∀ A, A.Holds x →
      Turns (rewriteWithin n x.identity) A x (x.map Mark.span).fold) :
    ∃ folded ys B, (xs.map identity).mapM (rewriteWithin n) A = some (folded, B) ∧
      folded.map Prod.fst = ys.map identity ∧
      folded.map Prod.snd = xs.map (fun x => (x.map Mark.span).fold.2) ∧
      ys.map (Node.map Mark.span) = xs.map (fun x => (x.map Mark.span).fold.1) ∧
      Becomes A B (xs.flatMap identities) ys := by
  obtain ⟨ys, B, hrun, hspans, hbecomes⟩ := @exists_mapM A xs _ (rewriteWithin n) identities
    (fun x y => (y.identity, (x.map Mark.span).fold.2)) (fun x => (x.map Mark.span).fold.1) hxs
    (fun _ _ => List.Subset.refl _) (List.nodup_flatMap.1 hnodup).2 hturns
  have hlength : ys.length = xs.length := by simpa using congrArg List.length hspans
  refine ⟨_, ys, B, hrun, ?_, ?_, hspans, hbecomes⟩
  · have hsnd := congrArg (List.map identity) (List.map_snd_zip hlength.le)
    rw [List.map_map] at hsnd ⊢
    exact hsnd
  · have hfst := congrArg (List.map fun x => (x.map Mark.span).fold.2)
      (List.map_fst_zip hlength.ge)
    rw [List.map_map] at hfst ⊢
    exact hfst

theorem rewriteWithin_turns {n : Nat} (h : A.Holds x) (hnodup : x.identities.Nodup)
    (hn : x.identities.length ≤ n) :
    Turns (rewriteWithin n x.identity) A x (x.map Mark.span).fold := by
  induction x using Node.induction_children generalizing A n with
  | h x ih =>
      obtain ⟨n, rfl, hfew⟩ := Node.exists_succ_of_length_le hn
      obtain ⟨hroot, hbelow⟩ := holds_iff.1 h
      obtain ⟨c, hc, hkind, -⟩ := id hroot
      obtain ⟨folded, ys, B, hrun, hplaces, hcounts, hspans, hbecomes⟩ :=
        mapM_rewriteWithin hbelow (nodup_children hnodup) fun z hz A hA =>
          ih z hz hA (nodup_of_mem_children hnodup hz) (hfew z hz)
      have hlength : ys.length = x.kind.children.length := by
        simpa using congrArg List.length hspans
      obtain ⟨d, hd, hdkind, -, hstored⟩ :=
        becomes_root hroot hnodup hbecomes (Kind.children_refill hlength)
      change Becomes A _ _ [x.withChildren ys] at hstored
      obtain ⟨z, C, hrun', hz, hb⟩ := foldRoot_turns (hstored.holds _ List.mem_cons_self)
        (by simpa using hstored.nodup)
      have hfold : (x.map Mark.span).fold = (((x.withChildren ys).map Mark.span).foldRoot.1,
          (folded.map Prod.snd).sum + ((x.withChildren ys).map Mark.span).foldRoot.2) := by
        rw [Node.fold_eq_withChildren, Node.children_map, List.map_map, List.map_map, hcounts,
          Node.map_withChildren, hspans]
        rfl
      have hshape : foldRoot (x.kind.map identity) x.identity =
          foldRoot ((x.withChildren ys).kind.map identity) (x.withChildren ys).identity := by
        rw [Node.kind_withChildren, Node.identity_withChildren]
        exact foldRoot_map_refill
      rw [← List.flatMap_singleton identities (x.withChildren ys)] at hb
      refine ⟨z, C, ?_, by rw [hz, hfold], hstored.trans hb⟩
      rw [rewriteWithin, bind_of_eq_some (cell_eq hc), hkind, Kind.children_map, Node.children_kind,
        bind_of_eq_some hrun, hplaces, bind_of_eq_some (storeChildren_eq hd), hdkind,
        ← Kind.map_refill, hshape, bind_of_eq_some hrun', hfold]
      rfl

/-- **Folding a tree in an arena** gives the folded tree. -/
theorem rewrite_turns (h : A.Holds x) (hnodup : x.identities.Nodup) :
    Turns (rewrite x.identity) A x (x.map Mark.span).fold :=
  rewriteWithin_turns h hnodup (h.length_le hnodup)

/-- **Folding in an arena** folds the tree that it holds. -/
theorem fold_eq (h : A.IsTree x) : ∃ y B, fold A = some ((x.map Mark.span).fold.2, B) ∧
    B.IsTree y ∧ y.map Mark.span = (x.map Mark.span).fold.1 := by
  obtain ⟨y, B, hrun, hy, hb⟩ := rewrite_turns h.holds h.nodup
  refine ⟨y, { B with root := some y.identity }, ?_, ⟨rfl, ?_, by simpa using hb.nodup⟩, hy⟩
  · have hget : (get : Pass Arena) A = some (A, A) := rfl
    rw [fold, bind_of_eq_some hget, h.root]
    simp only
    rw [bind_of_eq_some hrun]
    rfl
  · exact (hb.holds y List.mem_cons_self).congr fun _ _ => rfl

end Arena

end StackLang
