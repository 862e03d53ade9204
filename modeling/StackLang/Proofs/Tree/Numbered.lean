/-
**Documents under change.**

A document hands out identities in order.  So whatever is done to it, its nodes have different
identities, smaller ones than those below them, and none that is free; and nothing is recorded at an
identity that is free.  That is why the walk to the root over the record of parents ends: every step
leads to a smaller identity.

Main definitions:

* `Document.Numbered` — the identities of a document are as they are handed out;
* `Document.Changes` — one of the things that are done to a document.

Main results:

* `Document.numbered_ofTree`, `Document.Changes.numbered` — every document is numbered;
* `Document.Numbered.parent?_link` — **the record of parents** is right when it is made;
* `Document.ancestors_of_some` — the walk to the root goes from parent to parent.
-/

import StackLang.Proofs.Step
import StackLang.Proofs.Tree.Replace

set_option relaxedAutoImplicit false
set_option autoImplicit false

namespace StackLang

namespace Document

open Node (identity identities)

variable {d e : Document} {x y z : Node Mark} {k p : Nat}

/-! ### Identities -/

/-- **The identities of a document are as they are handed out.** -/
structure Numbered (d : Document) : Prop where
  nodup : d.root.identities.Nodup
  lt : ∀ k ∈ d.root.identities, k < d.fresh
  rising : d.root.Rising
  /-- A parent is recorded for nodes that were made only. -/
  known : ∀ p ∈ d.parents, p.1 < d.fresh

/-- **A change**: the parents are recorded; or a node is copied, and the copy is left aside or put
in the place of what stands at a node. -/
inductive Changes : Document → Document → Prop where
  | link (d : Document) : Changes d d.link
  | clone {d : Document} {x : Node Mark} (hx : x ∈ d.nodes) : Changes d (d.clone x).2
  | graft {d : Document} {x : Node Mark} {k : Nat} (hk : k ∈ d.root.identities)
      (hx : x ∈ d.nodes) : Changes d (d.graft k x).2

theorem numbered_ofTree (t : Node Span) : (ofTree t).Numbered where
  nodup := (identities_ofTree t).nodup
  lt k hk := ((identities_ofTree t).mem_iff.1 hk).2
  rising := by
    refine Node.rising_of_pairwise ?_
    rw [identities, (identities_ofTree t).numbers]
    exact List.pairwise_lt_range'
  known := nofun

namespace Numbered

/-- The identities of a copy. -/
theorem copy (d : Document) (x : Node Mark) :
    (x.copy d.fresh).1.identities.Nodup ∧ (x.copy d.fresh).1.Rising ∧
      (∀ i ∈ (x.copy d.fresh).1.identities, d.fresh ≤ i ∧ i < (x.copy d.fresh).2) ∧
      d.fresh ≤ (x.copy d.fresh).2 := by
  have hrun := x.identities_copy d.fresh
  refine ⟨hrun.nodup, Node.rising_of_pairwise ?_, fun i hi => hrun.mem_iff.1 hi, hrun.le⟩
  rw [identities, hrun.numbers]
  exact List.pairwise_lt_range'

theorem clone (h : d.Numbered) (x : Node Mark) : (d.clone x).2.Numbered := by
  obtain ⟨-, -, -, hle⟩ := copy d x
  exact { h with
    lt := fun k hk => (h.lt k hk).trans_le hle
    known := fun p hp => (h.known p hp).trans_le hle }

theorem graft (h : d.Numbered) (hk : k ∈ d.root.identities) (x : Node Mark) :
    (d.graft k x).2.Numbered := by
  obtain ⟨hnodup, hrising, hfresh, hle⟩ := copy d x
  constructor
  case nodup =>
    exact Node.nodup_replaceAt h.nodup hnodup
      (fun i hi hx => absurd (h.lt i hi) (Nat.not_lt.2 (hfresh i hx).1)) hk
  case lt =>
    intro i hi
    rcases Node.mem_of_mem_replaceAt hi with hi | hi
    · exact (h.lt i hi).trans_le hle
    · exact (hfresh i hi).2
  case rising => exact h.rising.replaceAt hrising fun i hi => (h.lt k hk).trans_le (hfresh i hi).1
  case known => exact fun p hp => (h.known p hp).trans_le hle

/-! ### The record of parents -/

theorem map_fst_links (x : Node Mark) :
    x.links.map Prod.fst = x.subtrees.flatMap fun y => y.children.map identity := by
  rw [Node.links, List.map_flatMap]
  exact List.flatMap_congr fun y _ => List.map_map

theorem link (h : d.Numbered) : d.link.Numbered where
  nodup := h.nodup
  lt := h.lt
  rising := h.rising
  known p hp := by
    have hfst : p.1 ∈ d.root.links.map Prod.fst := List.mem_map_of_mem hp
    rw [map_fst_links] at hfst
    exact h.lt _ (d.root.perm_references.subset (List.mem_cons_of_mem _ hfst))

/-- **The record of parents is right when it is made.** -/
theorem parent?_link (h : d.Numbered) (hy : y ∈ d.nodes) (hz : z ∈ y.children) :
    d.link.parent? z.identity = some y.identity := by
  have hnodup := (List.nodup_cons.1 (d.root.perm_references.nodup_iff.2 h.nodup)).2
  rw [← map_fst_links] at hnodup
  exact lookup_of_mem hnodup (List.mem_flatMap.2 ⟨y, hy, List.mem_map_of_mem hz⟩)

theorem parent?_link_root (h : d.Numbered) : d.link.parent? d.root.identity = none := by
  have hroot := (List.nodup_cons.1 (d.root.perm_references.nodup_iff.2 h.nodup)).1
  rw [← map_fst_links] at hroot
  exact List.lookup_eq_none_iff.2 fun p hp =>
    bne_iff_ne.2 fun heq => hroot (heq ▸ List.mem_map_of_mem hp)

/-- Nothing is recorded at an identity that is free. -/
theorem parent?_of_fresh (h : d.Numbered) (hk : d.fresh ≤ k) : d.parent? k = none :=
  List.lookup_eq_none_iff.2 fun p hp =>
    bne_iff_ne.2 fun heq => absurd (h.known p hp) (Nat.not_lt.2 (heq ▸ hk))

end Numbered

/-- **A change keeps the document numbered.** -/
theorem Changes.numbered (h : Changes d e) (hd : d.Numbered) : e.Numbered := by
  cases h with
  | link => exact hd.link
  | clone hx => exact hd.clone _
  | graft hk hx => exact hd.graft hk _

/-! ### The walk to the root -/

theorem ancestors_of_none (h : d.parent? k = none) : d.ancestors k = [] := by
  rw [ancestors, h]

theorem ancestors_of_some (h : d.parent? k = some p) :
    d.ancestors k = if p < k then p :: d.ancestors p else [] := by
  rw [ancestors, h]

/-- The walk depends on the record only. -/
theorem ancestors_congr (h : e.parents = d.parents) : e.ancestors k = d.ancestors k := by
  induction k using Nat.strong_induction_on with
  | _ k ih =>
      have hparent : e.parent? k = d.parent? k := by rw [parent?, h, parent?]
      cases hp : d.parent? k with
      | none => rw [ancestors_of_none hp, ancestors_of_none (hparent.trans hp)]
      | some p =>
          rw [ancestors_of_some hp, ancestors_of_some (hparent.trans hp)]
          by_cases hlt : p < k
          case pos => rw [if_pos hlt, if_pos hlt, ih p hlt]
          case neg => rw [if_neg hlt, if_neg hlt]

end Document

end StackLang
