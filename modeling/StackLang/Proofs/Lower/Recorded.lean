/-
**Loops above a node in the record.**

While code is made, the innermost loop around an expression is known because the loops were entered
on the way.  The record of what is above each node of an arena tells the same: going up from a jump,
the first node that is a loop is the one whose head or exit the jump goes to.  This holds for any
arena that shows the typed trees and in which the record was made for them, whatever stands above
the trees themselves.

Main definitions:

* `Arena.Records` — an arena shows a tree, and what is above its nodes was recorded;
* `Arena.hasLoop`, `Arena.loopAbove` — the first loop above a node in the record.

Main results:

* `Lower.Weaves.isChain` — each construct that an instruction was made for is directly below the
  next;
* `Arena.Linked.records` — recording what is above some trees makes the record of each;
* `Lower.Controlled.loopAbove_eq` — **jumps go with the first loop above them in the record.**
-/

import StackLang.Proofs.Lower.Traces
import StackLang.Proofs.Arena.Links

set_option relaxedAutoImplicit false
set_option autoImplicit false

namespace StackLang

/-- Whether a node is a loop. -/
def Kind.isLoop {β : Type} : Kind β → Bool
  | .loop .. => true
  | _ => false

@[simp] theorem Kind.isLoop_map {β γ : Type} (f : β → γ) (k : Kind β) :
    (k.map f).isLoop = k.isLoop := by
  cases k <;> rfl

@[simp] theorem Node.isLoop_kind {α : Type} (x : Node α) : x.kind.isLoop = x.isLoop := by
  cases x <;> rfl

namespace Lower

/-! ### Constructs one below the other -/

section Weaving

variable {symbols : Symbols} {loop : Option LoopSite} {up xs : List (Node Note)} {T : List Traced}

/-- What has code inside that of a tree is directly below it. -/
theorem mem_children_of_mem_parts {x y : Node Note} (h : y ∈ parts x) : y ∈ x.children := by
  cases x with
  | binary n op l r => cases op <;> simp_all [parts, Node.children]
  | cond n c t e => cases e <;> simp_all [parts, Node.children]
  | loop n c b =>
      rw [parts] at h
      split at h <;> simp_all [Node.children]
  | _ => simp_all [parts, Node.children]

/-- Each construct that an instruction was made for is directly below the next, and the nodes of the
trees are the only ones that are added. -/
theorem Weaves.isChain (h : Weaves symbols loop up xs T)
    (hup : up.IsChain fun x y => x ∈ y.children)
    (hxs : ∀ x ∈ xs, ∀ y ∈ up.head?, x ∈ y.children) :
    ∀ p ∈ T, p.2.IsChain (fun x y => x ∈ y.children) ∧
      ∀ z ∈ p.2, z ∈ up ∨ ∃ x ∈ xs, z ∈ x.subtrees := by
  induction h with
  | made is =>
      intro p hp
      rw [eq_of_mem_made hp]
      exact ⟨hup, fun z hz => .inl hz⟩
  | @part site up xs x k k' is T T' _ hparts _ ihparts ihrest =>
      rw [List.forall_mem_cons] at hxs
      have hx : (x :: up).IsChain fun x y => x ∈ y.children := List.isChain_cons.2 ⟨hxs.1, hup⟩
      have hbelow : ∀ y ∈ parts x, ∀ z ∈ (x :: up).head?, y ∈ z.children := by
        rintro y hy z ⟨⟩
        exact mem_children_of_mem_parts hy
      intro p hp
      simp only [List.mem_append] at hp
      rcases hp with hp | hp | hp
      · rw [eq_of_mem_made hp]
        exact ⟨hup, fun z hz => .inl hz⟩
      · obtain ⟨hchain, hmem⟩ := ihparts hx hbelow p hp
        refine ⟨hchain, fun z hz => ?_⟩
        rcases hmem z hz with hz | ⟨y, hy, hz⟩
        · rcases List.mem_cons.1 hz with rfl | hz
          · exact .inr ⟨z, List.mem_cons_self, z.self_mem_subtrees⟩
          · exact .inl hz
        · exact .inr ⟨x, List.mem_cons_self,
            Node.mem_subtrees_iff.2 (.inr ⟨y, mem_children_of_mem_parts hy, hz⟩)⟩
      · obtain ⟨hchain, hmem⟩ := ihrest hup hxs.2 p hp
        exact ⟨hchain, fun z hz => (hmem z hz).imp_right fun ⟨y, hy, hz⟩ =>
          ⟨y, List.mem_cons_of_mem _ hy, hz⟩⟩

end Weaving

end Lower

/-! ### The record of a tree -/

namespace Arena

open Node (identity)

variable {A B : Arena} {x y : Node Mark} {ks : List Nat}

/-- An arena shows a tree, and what is above each node below its root was recorded. -/
structure Records (A : Arena) (x : Node Mark) : Prop where
  holds : A.Holds x
  below : ∀ y ∈ x.subtrees, ∀ z ∈ y.children, A.Above z.identity (some y.identity)

/-- Recording what is above the nodes of some trees makes the record of each. -/
theorem Linked.records {ws : List (Node Mark × Option Nat)} (h : Linked A B ws)
    {w : Node Mark × Option Nat} (hw : w ∈ ws) (hA : A.Holds w.1) : B.Records w.1 :=
  ⟨hA.of_keeps h.keeps, h.below w hw⟩

/-- Whether a loop stands at a place. -/
def hasLoop (A : Arena) (k : Nat) : Bool := A.cells[k]?.any fun c => c.kind.isLoop

/-- **The first loop above a place in the record.** -/
def loopAbove (A : Arena) (k : Nat) : Option Nat := do (← A.ancestors k).find? A.hasLoop

theorem Shows.hasLoop_eq (h : A.Shows x) : A.hasLoop x.identity = x.isLoop := by
  obtain ⟨c, hc, hkind, -⟩ := h
  simp [hasLoop, hc, hkind]

/-- Going up from a node leads along the nodes that are recorded one above the other. -/
theorem prefix_of_climbWithin {up : List (Node Mark)} {n : Nat} {p : Option Nat}
    (hp : A.Above y.identity p)
    (hup : (y :: up).IsChain fun y z => A.Above y.identity (some z.identity))
    (hks : climbWithin A n p = some ks) : up.map identity <+: ks := by
  induction up generalizing y n p ks with
  | nil => exact List.nil_prefix
  | cons z up ih =>
      obtain ⟨⟨c, hc, hz⟩, hup⟩ := List.isChain_cons_cons.1 hup
      obtain ⟨d, hd, rfl⟩ := hp
      obtain rfl : d = c := Option.some.inj (hd.symm.trans hc)
      rw [hz] at hks
      cases n with
      | zero => cases hks
      | succ n =>
          cases he : A.cells[z.identity]? with
          | none => simp [climbWithin, he] at hks
          | some e =>
              rw [climbWithin_succ he, Option.map_eq_some_iff] at hks
              obtain ⟨rest, hrest, rfl⟩ := hks
              exact (List.prefix_cons_inj _).2 (ih ⟨e, he, rfl⟩ hup hrest)

section Trees

variable {xs up : List (Node Note)}

/-- What is above constructs one below the other was recorded. -/
theorem isChain_above (hA : ∀ x ∈ xs, A.Records (x.map Note.mark))
    (hup : up.IsChain fun y z => y ∈ z.children) (hmem : ∀ z ∈ up, ∃ x ∈ xs, z ∈ x.subtrees) :
    (up.map (Node.map Note.mark)).IsChain fun y z => A.Above y.identity (some z.identity) := by
  rw [List.isChain_map]
  refine hup.imp_of_mem_imp fun y z _ hz hy => ?_
  obtain ⟨x, hx, hzx⟩ := hmem z hz
  refine (hA x hx).below _ ?_ _ ?_
  · rw [Node.subtrees_map]
    exact List.mem_map_of_mem hzx
  · rw [Node.children_map]
    exact List.mem_map_of_mem hy

/-- Whether a loop stands at the place of a node. -/
theorem hasLoop_of_mem (hA : ∀ x ∈ xs, A.Records (x.map Note.mark)) {z : Node Note}
    (hz : ∃ x ∈ xs, z ∈ x.subtrees) : A.hasLoop z.note.mark.id = z.isLoop := by
  obtain ⟨x, hx, hzx⟩ := hz
  have hshows : A.Shows (z.map Note.mark) := (hA x hx).holds _ (by
    rw [Node.subtrees_map]
    exact List.mem_map_of_mem hzx)
  have hloop := hshows.hasLoop_eq
  rwa [identity, Node.note_map, ← Node.isLoop_kind, Node.kind_map, Kind.isLoop_map,
    Node.isLoop_kind] at hloop

end Trees

end Arena

namespace Lower

variable {symbols : Symbols} {xs : List (Node Note)} {last : Nat} {T : List Traced}

/-- **Jumps go with the first loop above them in the record**: one made for a `break` or a
`continue` is in the code of that loop, and goes to its exit or to its head. -/
theorem Controlled.loopAbove_eq (hT : Controlled symbols xs last T) {A : Arena}
    (hA : ∀ x ∈ xs, A.Records (x.map Note.mark)) {p : Traced} (hp : p ∈ T) {y : Node Note}
    {up : List (Node Note)} (hup : p.2 = y :: up) {toHead : Bool} (hy : y.loopJump? = some toHead)
    (hop : p.1.op.isJump = true) {ks : List Nat} (hks : A.ancestors y.note.mark.id = some ks) :
    ∃ w outer head inside exit, LoopCode symbols w outer T head inside exit ∧ p ∈ inside ∧
      A.loopAbove y.note.mark.id = some w.note.mark.id ∧
      p.1.target = some (.instr (if toHead then head.1.id else exit.1.id)) := by
  obtain ⟨hchain, hnodes⟩ := hT.weaves.isChain .nil (by simp) p hp
  have hnodes : ∀ z ∈ p.2, ∃ x ∈ xs, z ∈ x.subtrees := fun z hz => by simpa using hnodes z hz
  have habove := Arena.isChain_above hA hchain hnodes
  have hloops := fun z hz => Arena.hasLoop_of_mem hA (hnodes z hz)
  cases hT.loopJump p hp y up toHead hup hy hop with
  | @mk i y' w inner outer inside head exit hw hinner hcode hmem htarget =>
      obtain ⟨rfl, rfl⟩ := List.cons_eq_cons.1 hup
      refine ⟨w, outer, head, inside, exit, hcode, hmem, ?_, htarget⟩
      obtain ⟨c, hc, hclimb⟩ := Option.bind_eq_some_iff.1 hks
      have hy : A.Above (y'.map Note.mark).identity c.annotations.enclosing :=
        ⟨c, by simpa [Node.identity] using hc, rfl⟩
      obtain ⟨rest, hrest⟩ := Arena.prefix_of_climbWithin hy habove hclimb
      rw [Arena.loopAbove, hks]
      refine List.find?_eq_some_iff_append.2 ⟨?_, inner.map fun z => z.note.mark.id,
        outer.map (fun z => z.note.mark.id) ++ rest, ?_, ?_⟩
      · rw [hloops w (by simp), hw]
      · rw [← hrest]
        simp [Node.identity, Function.comp_def]
      · intro k hk
        obtain ⟨z, hz, rfl⟩ := List.mem_map.1 hk
        rw [hloops z (by simp [hz]), hinner z hz]
        rfl

end Lower

end StackLang
