/-
**Replacing nodes, and other names for them.**

What stands at a node can be replaced by a tree that has no node in common with the one around it.
The identities of the nodes say only which node is which: trees that differ in them alone are equal
after the nodes are given other names, and nodes are replaced in both alike.

Main definitions:

* `Mark.rename` — a mark with another name for the node;
* `Node.Rising` — every node has a smaller identity than those below it.

Main results:

* `Node.nodup_replaceAt` — replacing a node keeps the nodes apart;
* `Node.exists_rename` — trees that differ in identities only are equal up to names;
* `Node.replaceAt_rename` — nodes are replaced alike whatever their names are.
-/

import StackLang.Proofs.Tree.Kind

set_option relaxedAutoImplicit false
set_option autoImplicit false

namespace StackLang

namespace Node

/-! ### Replacing a node -/

theorem replaceAtList_eq_map (k : Nat) (y : Node Mark) (xs : List (Node Mark)) :
    replaceAtList k y xs = xs.map (replaceAt k y) := by
  induction xs with
  | nil => rfl
  | cons x xs ih => rw [replaceAtList, ih, List.map_cons]

theorem replaceAtOption_eq_map (k : Nat) (y : Node Mark) (o : Option (Node Mark)) :
    replaceAtOption k y o = o.map (replaceAt k y) := by
  cases o <;> rfl

@[simp] theorem children_withNote {α : Type} {n : α} {x : Node α} :
    (x.withNote n).children = x.children := by
  cases x <;> rfl

section ReplaceAt

variable {x z : Node Mark} {j : Nat}

theorem replaceAt_of_eq (h : x.identity = j) :
    replaceAt j z x = z.withNote x.note := by
  cases x <;> rw [replaceAt] <;> exact if_pos h

/-- **Replacing a node** that is not the root is replacing it below the root. -/
theorem replaceAt_of_ne (h : x.identity ≠ j) :
    replaceAt j z x = x.withChildren (x.children.map (replaceAt j z)) := by
  cases x <;> rw [replaceAt] <;> refine (if_neg h).trans ?_ <;>
    simp [withChildren, kind, children, note, ofKind, Kind.refill,
      Kind.refillList_of_length, replaceAtList_eq_map, replaceAtOption_eq_map]
  case cond e => cases e <;> rfl

@[simp] theorem note_replaceAt : (replaceAt j z x).note = x.note := by
  by_cases h : x.identity = j
  · rw [replaceAt_of_eq h, note_withNote]
  · rw [replaceAt_of_ne h, note_withChildren]

@[simp] theorem identity_replaceAt : (replaceAt j z x).identity = x.identity :=
  congrArg Mark.id note_replaceAt

theorem children_replaceAt (h : x.identity ≠ j) :
    (replaceAt j z x).children = x.children.map (replaceAt j z) := by
  rw [replaceAt_of_ne h, children_withChildren (List.length_map _)]

/-- A place occurs in a tree where a node was replaced at most as often as before, and once more for
each time that it occurs below what replaces the node. -/
theorem count_identities_replaceAt (i : Nat) : (replaceAt j z x).identities.count i ≤
    x.identities.count i + x.identities.count j * (z.children.flatMap identities).count i := by
  induction x using induction_children with
  | h x ih =>
      rw [identities_eq, identity_replaceAt, identities_eq x]
      by_cases h : x.identity = j
      case pos =>
        rw [replaceAt_of_eq h, children_withNote, h, List.count_cons, List.count_cons,
          List.count_cons_self, Nat.succ_mul]
        omega
      case neg =>
        have hbelow : ∀ ys ⊆ x.children,
            ((ys.map (replaceAt j z)).flatMap identities).count i ≤
              (ys.flatMap identities).count i +
                (ys.flatMap identities).count j * (z.children.flatMap identities).count i := by
          intro ys hys
          induction ys with
          | nil => simp
          | cons y ys ihys =>
              have hy := ih y (hys List.mem_cons_self)
              have hrest := ihys fun w hw => hys (List.mem_cons_of_mem _ hw)
              simp only [List.map_cons, List.flatMap_cons, List.count_append, Nat.add_mul]
              omega
        have hall := hbelow x.children (List.Subset.refl _)
        rw [children_replaceAt h, List.count_cons, List.count_cons, List.count_cons_of_ne h]
        omega

theorem nodup_replaceAt (hx : x.identities.Nodup) (hz : z.identities.Nodup)
    (hdisj : x.identities.Disjoint z.identities) (hj : j ∈ x.identities) :
    (replaceAt j z x).identities.Nodup := by
  rw [List.nodup_iff_count_le_one]
  intro i
  have hcount := @count_identities_replaceAt x z j i
  have hxi := List.nodup_iff_count_le_one.1 hx i
  have hzi := List.nodup_iff_count_le_one.1 hz i
  have hbelow : (z.children.flatMap identities).count i ≤ z.identities.count i := by
    rw [identities_eq z]
    exact List.count_le_count_cons
  rw [List.count_eq_one_of_mem hx hj, Nat.one_mul] at hcount
  by_cases hi : i ∈ x.identities
  · have hzero := List.count_eq_zero.2 (hdisj hi)
    omega
  · have hzero := List.count_eq_zero.2 hi
    omega

/-- What is left of a tree where a node was replaced, and what came into it. -/
theorem mem_of_mem_replaceAt {i : Nat} (h : i ∈ (replaceAt j z x).identities) :
    i ∈ x.identities ∨ i ∈ z.identities := by
  have hcount := @count_identities_replaceAt x z j i
  have hpos := List.count_pos_iff.2 h
  by_cases hi : i ∈ x.identities
  · exact .inl hi
  · refine .inr (identities_eq z ▸ List.mem_cons_of_mem _ (List.count_pos_iff.1 ?_))
    rw [List.count_eq_zero.2 hi, Nat.zero_add] at hcount
    exact Nat.pos_of_mul_pos_left (Nat.lt_of_lt_of_le hpos hcount)

end ReplaceAt

/-! ### Identities that rise -/

/-- **Every node has a smaller identity than the nodes below it.** -/
def Rising (x : Node Mark) : Prop := x.Every fun y => ∀ z ∈ y.children, y.identity < z.identity

section Rising

variable {x z : Node Mark} {j : Nat}

theorem rising_iff :
    x.Rising ↔ (∀ y ∈ x.children, x.identity < y.identity) ∧ ∀ y ∈ x.children, y.Rising :=
  every_iff_children

/-- Identities that are handed out in order rise. -/
theorem rising_of_pairwise (h : x.identities.Pairwise (· < ·)) : x.Rising := by
  induction x using induction_children with
  | h x ih =>
      rw [identities_eq, List.pairwise_cons] at h
      obtain ⟨hroot, hbelow⟩ := h
      refine rising_iff.2 ⟨fun y hy => hroot _ (List.mem_flatMap.2 ⟨y, hy, ?_⟩), fun y hy => ?_⟩
      · exact mem_identities y.self_mem_subtrees
      · exact ih y hy (hbelow.sublist (sublist_of_mem_children hy))

/-- Identities rise where a node is replaced by nodes with larger ones. -/
theorem Rising.replaceAt (h : x.Rising) (hz : z.Rising) (hlt : ∀ i ∈ z.identities, j < i) :
    (replaceAt j z x).Rising := by
  induction x using induction_children with
  | h x ih =>
      obtain ⟨hroot, hbelow⟩ := rising_iff.1 h
      rw [rising_iff, identity_replaceAt]
      by_cases hx : x.identity = j
      case pos =>
        rw [replaceAt_of_eq hx, children_withNote, hx]
        refine ⟨fun y hy => hlt _ ?_, (rising_iff.1 hz).2⟩
        exact mem_identities (mem_subtrees_of_mem_children z.self_mem_subtrees hy)
      case neg =>
        rw [children_replaceAt hx, List.forall_mem_map, List.forall_mem_map]
        refine ⟨fun y hy => ?_, fun y hy => ih y hy (hbelow y hy)⟩
        rw [identity_replaceAt]
        exact hroot y hy

end Rising

end Node

/-! ### Other names -/

/-- The mark with another name for the node. -/
def Mark.rename (f : Nat → Nat) (m : Mark) : Mark := { m with id := f m.id }

namespace Node

section Rename

variable {x y z : Node Mark} {f g : Nat → Nat} {j : Nat}

@[simp] theorem identity_rename : (x.map (Mark.rename f)).identity = f x.identity :=
  congrArg Mark.id (note_map _ x)

@[simp] theorem identities_rename :
    (x.map (Mark.rename f)).identities = x.identities.map f := by
  rw [identities, identities, notes_map, List.map_map, List.map_map]
  rfl

@[simp] theorem map_span_rename : (x.map (Mark.rename f)).map Mark.span = x.map Mark.span :=
  map_map _ _ x

/-- The nodes of a copy have the same spans. -/
@[simp] theorem map_span_copy {k : Nat} : (x.copy k).1.map Mark.span = x.map Mark.span := by
  refine map_number ?_ k x
  exact fun _ _ => rfl

theorem rename_congr (h : ∀ i ∈ x.identities, f i = g i) :
    x.map (Mark.rename f) = x.map (Mark.rename g) := by
  refine eq_of_shape_notes (by simp) ?_
  rw [notes_map, notes_map]
  refine List.map_congr_left fun m hm => ?_
  rw [Mark.rename, h m.id (List.mem_map_of_mem hm)]
  rfl

/-- **Trees that differ in identities only are equal up to names.** -/
theorem exists_rename (hspans : y.map Mark.span = x.map Mark.span) (hnodup : x.identities.Nodup) :
    ∃ f, y = x.map (Mark.rename f) := by
  have hshape : y.shape = x.shape := by simpa using congrArg shape hspans
  have hlength := length_notes_of_shape hshape
  have hnotes : y.notes.map Mark.span = x.notes.map Mark.span := by
    simpa [notes_map] using congrArg notes hspans
  -- a node gets the name of the node with the same number
  refine ⟨fun i => y.identities.getD (x.identities.idxOf i) 0, eq_of_shape_notes (by simpa) ?_⟩
  refine List.ext_getElem (by simpa [notes_map]) fun i hi hi' => ?_
  have hx : i < x.identities.length := by simpa [identities, hlength] using hi
  have hspan := List.getElem_of_eq hnotes (by simpa using hi)
  rw [List.getElem_map, List.getElem_map] at hspan
  have hindex := hnodup.idxOf_getElem i hx
  simp only [notes_map, List.getElem_map, Mark.rename]
  simp only [identities, List.getElem_map] at hindex ⊢
  rw [hindex, ← hspan]
  simp [hi]

/-- **Nodes are replaced alike whatever their names are.** -/
theorem replaceAt_rename (h : ∀ i ∈ x.identities, f i = f j → i = j) :
    (replaceAt j z x).map (Mark.rename f) =
      replaceAt (f j) (z.map (Mark.rename f)) (x.map (Mark.rename f)) := by
  induction x using induction_children with
  | h x ih =>
      have hroot := h x.identity (mem_identities x.self_mem_subtrees)
      by_cases hx : x.identity = j
      case pos =>
        rw [replaceAt_of_eq hx, replaceAt_of_eq (by rw [identity_rename, hx]), note_map]
        cases z <;> rfl
      case neg =>
        have hx' : (x.map (Mark.rename f)).identity ≠ f j := fun heq =>
          hx (hroot (identity_rename.symm.trans heq))
        rw [replaceAt_of_ne hx, replaceAt_of_ne hx', map_withChildren, children_map, List.map_map,
          List.map_map]
        refine congrArg (withChildren · _) (List.map_congr_left fun y hy => ih y hy fun i hi => ?_)
        rw [identities_eq] at h
        exact h i (List.mem_cons_of_mem _ (List.mem_flatMap.2 ⟨y, hy, hi⟩))

end Rename

end Node

end StackLang
