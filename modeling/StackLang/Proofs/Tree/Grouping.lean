/-
**Grouping a chain of operators.**

A chain is an operand with operators and operands behind it.  How tightly the operators bind, and to
which side the equally tight ones group, leaves one way to group a chain: an operator stands in the
right operand of the one before it if it binds tighter, or as tightly while that one groups to the
right, and otherwise it has the group of the one before it in its left operand.

Main definitions:

* `BinaryOp.TakesLeft`, `BinaryOp.TakesRight` — which groups an operator has as its operands;
* `Grouping` — a way to group a chain;
* `Grouping.IsByPrecedence` — every operator has such groups as its operands;
* `Grouping.add` — the grouping of a chain with one more operator and operand.

Main results:

* `Grouping.IsByPrecedence.eq_of_links_eq` — a chain has at most one grouping by precedence;
* `Grouping.isByPrecedence_add_iff` — one more operator and operand keep a grouping by precedence;
* `Grouping.existsUnique_isByPrecedence` — every chain has exactly one grouping by precedence.
-/

import StackLang.Tree.Node
import Mathlib.Data.List.Induction
import Mathlib.Logic.ExistsUnique

set_option relaxedAutoImplicit false
set_option autoImplicit false

namespace StackLang

/-! ### Two operators -/

namespace BinaryOp

/-- The operator can have a group of `o` as its left operand. -/
def TakesLeft (op o : BinaryOp) : Prop :=
  op.binding < o.binding ∨ op.binding = o.binding ∧ op.groupsRight = false

/-- The operator can have a group of `o` as its right operand. -/
def TakesRight (op o : BinaryOp) : Prop :=
  op.binding < o.binding ∨ op.binding = o.binding ∧ op.groupsRight = true

instance (op o : BinaryOp) : Decidable (op.TakesLeft o) :=
  inferInstanceAs (Decidable (_ ∨ _ ∧ _))

instance (op o : BinaryOp) : Decidable (op.TakesRight o) :=
  inferInstanceAs (Decidable (_ ∨ _ ∧ _))

variable {op o p : BinaryOp}

/-- Assignment is the loosest operator. -/
theorem eq_assign_iff : op = .assign ↔ op.binding = loosest := by
  cases op <;> decide

/-- The operators that group to the right are the loosest. -/
theorem groupsRight_iff : op.groupsRight = true ↔ op.binding = loosest := by
  cases op <;> decide

theorem takesLeft_iff : op.TakesLeft o ↔
    op.binding < o.binding ∨ op.binding = o.binding ∧ op.binding ≠ loosest := by
  rw [TakesLeft, ← Bool.not_eq_true, groupsRight_iff]

theorem takesRight_iff : op.TakesRight o ↔
    op.binding < o.binding ∨ op.binding = o.binding ∧ op.binding = loosest := by
  rw [TakesRight, groupsRight_iff]

/-- Of two operators one behind the other, the second has the group of the first in its left
operand, or it stands in the right operand of the first. -/
theorem takesLeft_iff_not_takesRight : op.TakesLeft o ↔ ¬ o.TakesRight op := by
  rw [takesLeft_iff, takesRight_iff]
  omega

theorem TakesLeft.trans (h : op.TakesLeft o) (h' : o.TakesLeft p) : op.TakesLeft p := by
  rw [takesLeft_iff] at *
  omega

theorem TakesLeft.trans_takesRight (h : op.TakesLeft o) (h' : o.TakesRight p) :
    op.TakesLeft p := by
  rw [takesLeft_iff] at *
  rw [takesRight_iff] at h'
  omega

theorem TakesRight.trans (h : op.TakesRight o) (h' : o.TakesRight p) : op.TakesRight p := by
  rw [takesRight_iff] at *
  omega

theorem TakesRight.trans_takesLeft (h : op.TakesRight o) (h' : o.TakesLeft p) :
    op.TakesRight p := by
  rw [takesRight_iff] at *
  rw [takesLeft_iff] at h'
  omega

/-- Assignment has every group as its right operand. -/
theorem takesRight_assign (o : BinaryOp) : assign.TakesRight o := by
  cases o <;> decide

end BinaryOp

/-! ### Groupings -/

/-- **A way to group a chain.** The operands are trees that are not looked into. -/
inductive Grouping where
  | operand (x : Node Span)
  | node (l : Grouping) (op : BinaryOp) (r : Grouping)

namespace Grouping

/-- The tree of a grouping. -/
def tree : Grouping → Node Span
  | operand x => x
  | node l op r => .binary (l.tree.note.merge r.tree.note) op l.tree r.tree

/-- The first operand of the chain. -/
def first : Grouping → Node Span
  | operand x => x
  | node l _ _ => l.first

/-- The operators of the chain, each with the operand behind it. -/
def links : Grouping → List (BinaryOp × Node Span)
  | operand _ => []
  | node l op r => l.links ++ (op, r.first) :: r.links

/-- The operator of the whole group. -/
def root? : Grouping → Option BinaryOp
  | operand _ => none
  | node _ op _ => some op

/-- Every operator has groups as its operands that fit: as its left one a group of an operator that
`left` allows there, and as its right one a group that it can have there. -/
inductive Fits (left : BinaryOp → BinaryOp → Prop) : Grouping → Prop where
  | operand (x : Node Span) : Fits left (operand x)
  | node {l r : Grouping} {op : BinaryOp} (hl : Fits left l) (hr : Fits left r)
      (hleft : ∀ o, l.root? = some o → left op o)
      (hright : ∀ o, r.root? = some o → op.TakesRight o) : Fits left (node l op r)

/-- **Grouped by precedence**: every operator has groups as its operands that it can have there. -/
def IsByPrecedence (g : Grouping) : Prop := g.Fits BinaryOp.TakesLeft

variable {g g' l r : Grouping} {op o : BinaryOp} {x y : Node Span}
  {ps : List (BinaryOp × Node Span)} {left : BinaryOp → BinaryOp → Prop}

theorem fits_node : (node l op r).Fits left ↔ l.Fits left ∧ r.Fits left ∧
    (∀ o, l.root? = some o → left op o) ∧ ∀ o, r.root? = some o → op.TakesRight o :=
  ⟨fun | .node hl hr hleft hright => ⟨hl, hr, hleft, hright⟩,
    fun ⟨hl, hr, hleft, hright⟩ => .node hl hr hleft hright⟩

/-! ### At most one grouping -/

namespace IsByPrecedence

/-- Every operator in a left operand is one that can be there. -/
theorem takesLeft (h : g.IsByPrecedence) (hroot : ∀ o, g.root? = some o → op.TakesLeft o) :
    ∀ p ∈ g.links, op.TakesLeft p.1 := by
  induction h with
  | operand x => simp [Grouping.links]
  | @node l r o hl hr hleft hright ihl ihr =>
      have ho := hroot o rfl
      intro p hp
      rcases List.mem_append.1 hp with hp | hp
      · exact ihl (fun _ h => ho.trans (hleft _ h)) p hp
      · rcases List.mem_cons.1 hp with rfl | hp
        · exact ho
        · exact ihr (fun _ h => ho.trans_takesRight (hright _ h)) p hp

/-- Every operator in a right operand is one that can be there. -/
theorem takesRight (h : g.IsByPrecedence) (hroot : ∀ o, g.root? = some o → op.TakesRight o) :
    ∀ p ∈ g.links, op.TakesRight p.1 := by
  induction h with
  | operand x => simp [Grouping.links]
  | @node l r o hl hr hleft hright ihl ihr =>
      have ho := hroot o rfl
      intro p hp
      rcases List.mem_append.1 hp with hp | hp
      · exact ihl (fun _ h => ho.trans_takesLeft (hleft _ h)) p hp
      · rcases List.mem_cons.1 hp with rfl | hp
        · exact ho
        · exact ihr (fun _ h => ho.trans (hright _ h)) p hp

/-- An operator in the left operand of another one does not have that one in its right operand. -/
theorem not_mem {l' r' : Grouping} (h : (node l op r).IsByPrecedence)
    (h' : (node l' o r').IsByPrecedence) (hx : (op, x) ∈ l'.links) : (o, y) ∉ r.links := by
  intro hy
  obtain ⟨-, hr, -, hright⟩ := fits_node.1 h
  obtain ⟨hl', -, hleft', -⟩ := fits_node.1 h'
  exact BinaryOp.takesLeft_iff_not_takesRight.1 (takesLeft hl' hleft' _ hx)
    (takesRight hr hright _ hy)

/-- The left operand of the one does not go on behind that of the other. -/
theorem eq_nil_of_append {l' r' : Grouping} (h : (node l op r).IsByPrecedence)
    (h' : (node l' o r').IsByPrecedence) (hl : l'.links = l.links ++ ps)
    (hr : (op, r.first) :: r.links = ps ++ (o, r'.first) :: r'.links) : ps = [] := by
  cases ps with
  | nil => rfl
  | cons p ps =>
      rw [List.cons_append, List.cons.injEq] at hr
      obtain ⟨rfl, hr⟩ := hr
      have hmem : (op, r.first) ∈ l'.links := by simp [hl]
      have hmem' : (o, r'.first) ∈ r.links := by simp [hr]
      exact absurd hmem' (h.not_mem h' hmem)

/-- The same operators have the same one outside of all others. -/
theorem links_eq {l' r' : Grouping} (h : (node l op r).IsByPrecedence)
    (h' : (node l' o r').IsByPrecedence) (hlinks : (node l op r).links = (node l' o r').links) :
    l.links = l'.links ∧ op = o ∧ r.first = r'.first ∧ r.links = r'.links := by
  have hsame : l.links = l'.links ∧
      (op, r.first) :: r.links = (o, r'.first) :: r'.links := by
    rcases List.append_eq_append_iff.1 hlinks with ⟨ps, hl, hr⟩ | ⟨ps, hl, hr⟩
    · obtain rfl := eq_nil_of_append h h' hl hr
      exact ⟨by simpa using hl.symm, hr⟩
    · obtain rfl := eq_nil_of_append h' h hl hr
      exact ⟨by simpa using hl, hr.symm⟩
  simpa [and_assoc] using hsame

/-- **A chain has at most one grouping by precedence.** -/
theorem eq_of_links_eq (h : g.IsByPrecedence) (h' : g'.IsByPrecedence)
    (hfirst : g.first = g'.first) (hlinks : g.links = g'.links) : g = g' := by
  induction h generalizing g' with
  | operand x =>
      cases g' with
      | operand y => exact congrArg operand hfirst
      | node l' o r' => simp [Grouping.links] at hlinks
  | @node l r op hl hr hleft hright ihl ihr =>
      cases g' with
      | operand y => simp [Grouping.links] at hlinks
      | node l' o r' =>
          obtain ⟨hl', hr', -, -⟩ := fits_node.1 h'
          obtain ⟨hl_links, rfl, hr_first, hr_links⟩ :=
            links_eq (.node hl hr hleft hright) h' hlinks
          rw [ihl hl' hfirst hl_links, ihr hr' hr_first hr_links]

end IsByPrecedence

/-! ### One more operator -/

/-- **One more operator and operand** behind a chain: the operator stands in the right operand of
every group that takes it there, and has the rest as its left operand. -/
def add (op : BinaryOp) (y : Node Span) : Grouping → Grouping
  | operand x => node (operand x) op (operand y)
  | node l o r =>
    if o.TakesRight op then node l o (add op y r) else node (node l o r) op (operand y)

/-- Where the group does not take the operator, it is its left operand. -/
theorem add_eq_node (h : ∀ o, g.root? = some o → ¬ o.TakesRight op) :
    g.add op y = node g op (operand y) := by
  cases g with
  | operand x => rfl
  | node l o r => rw [add, if_neg (h o rfl)]

@[simp] theorem first_add : (g.add op y).first = g.first := by
  induction g with
  | operand x => rfl
  | node l o r ihl ihr =>
      rw [add]
      split <;> rfl

@[simp] theorem links_add : (g.add op y).links = g.links ++ [(op, y)] := by
  induction g with
  | operand x => rfl
  | node l o r ihl ihr =>
      rw [add]
      split <;> simp [Grouping.links, first, ihr]

/-- The operator of the whole group stays, unless the new one takes its place. -/
theorem root?_add (h : (g.add op y).root? = some o) : o = op ∨ g.root? = some o := by
  cases g with
  | operand x =>
      cases h
      exact .inl rfl
  | node l o' r =>
      rw [add] at h
      split at h
      · cases h
        exact .inr rfl
      · cases h
        exact .inl rfl

/-- **One more operator and operand** keep what fits. -/
theorem Fits.add (hleft : ∀ op o : BinaryOp, op.TakesLeft o → left op o) (h : g.Fits left) :
    (g.add op y).Fits left := by
  induction h with
  | operand x => exact .node (.operand x) (.operand y) nofun nofun
  | @node l r o hl hr hleft' hright ihl ihr =>
      rw [Grouping.add]
      split
      · case isTrue ho =>
        refine .node hl ihr hleft' fun p hp => ?_
        rcases root?_add hp with rfl | hp
        · exact ho
        · exact hright p hp
      · case isFalse ho =>
        refine .node (.node hl hr hleft' hright) (.operand y) ?_ nofun
        rintro _ ⟨⟩
        exact hleft op o (BinaryOp.takesLeft_iff_not_takesRight.2 ho)

/-- What is by precedence with one more operator and operand was so before. -/
theorem isByPrecedence_of_add (h : (g.add op y).IsByPrecedence) : g.IsByPrecedence := by
  induction g with
  | operand x => exact .operand x
  | node l o r ihl ihr =>
      rw [Grouping.add] at h
      split at h
      · case isTrue ho =>
        obtain ⟨hl, hr, hleft, hright⟩ := fits_node.1 h
        refine .node hl (ihr hr) hleft fun p hp => ?_
        by_cases hpop : p.TakesRight op
        · refine hright p ?_
          cases r with
          | operand x => cases hp
          | node l' o' r' =>
              cases hp
              rw [Grouping.add, if_pos hpop]
              rfl
        · -- the group behind `o` is the left operand of the new operator
          have hnode : r.add op y = Grouping.node r op (operand y) := add_eq_node fun q hq => by
            cases hq.symm.trans hp
            exact hpop
          rw [hnode] at hr
          obtain ⟨-, -, hleft', -⟩ := fits_node.1 hr
          exact ho.trans_takesLeft (hleft' p hp)
      · exact (fits_node.1 h).1

theorem isByPrecedence_add_iff : (g.add op y).IsByPrecedence ↔ g.IsByPrecedence :=
  ⟨isByPrecedence_of_add, Fits.add fun _ _ => id⟩

/-- **Every chain has exactly one grouping by precedence.** -/
theorem existsUnique_isByPrecedence (x : Node Span) (links : List (BinaryOp × Node Span)) :
    ∃! g : Grouping, g.first = x ∧ g.links = links ∧ g.IsByPrecedence := by
  refine existsUnique_of_exists_of_unique ?_ fun g g' h h' =>
    h.2.2.eq_of_links_eq h'.2.2 (h.1.trans h'.1.symm) (h.2.1.trans h'.2.1.symm)
  induction links using List.reverseRecOn with
  | nil => exact ⟨operand x, rfl, rfl, .operand x⟩
  | append_singleton links p ih =>
      obtain ⟨g, hfirst, hlinks, hg⟩ := ih
      exact ⟨g.add p.1 p.2, first_add.trans hfirst, by rw [links_add, hlinks],
        isByPrecedence_add_iff.2 hg⟩

end Grouping

end StackLang
