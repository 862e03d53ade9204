/-
**How operators are read.**

The parser holds the operators that await their right operand, each on its level.  Closing all
levels groups what was read so far, and one more operator goes into that grouping where precedence
puts it, with one exception.  Behind an operator that binds tighter, an assignment does not stand in
the right operand of the assignment in front of that operator: it overtakes that assignment and has
all of it as its left operand, although assignments group to the right.

Main definitions:

* `Grouping.Level`, `Grouping.Nested` — the operators that await an operand, over groupings;
* `Grouping.Opens` — what one more operator makes of them;
* `Grouping.AssignsTogether` — no other operator stands between two assignments;
* `Grouping.IsRead` — the levels that are open behind a chain.

Main results:

* `Grouping.exists_push` — one more operator is added where precedence puts it, or overtakes an
  assignment;
* `Grouping.IsRead.exists_push` — what is read stays a grouping of the chain, and it is one by
  precedence exactly as long as the assignments stand together.
-/

import StackLang.Proofs.Tree.Grouping
import StackLang.Tree.Context
import Mathlib.Data.List.Basic

set_option relaxedAutoImplicit false
set_option autoImplicit false

namespace StackLang

namespace Grouping

/-! ### Levels -/

/-- A binary operator with its left operand, awaiting its right one. -/
structure Level where
  left : Grouping
  op : BinaryOp
  /-- The loosest binding of an operator on this level. -/
  floor : Nat

namespace Level

/-- What the parser holds of a level. -/
def pending (v : Level) : Pending := ⟨v.left.tree, v.op, v.floor⟩

/-- The operator with both operands. -/
def close (g : Grouping) (v : Level) : Grouping := node v.left v.op g

/-- The level `v` is in the right operand of `w`: it admits operators that bind tighter than the one
of `w`, and behind an assignment directly another one. -/
inductive IsInside (v w : Level) : Prop where
  | tighter (hfloor : v.floor = w.op.binding + 1) (hop : w.op.binding < v.op.binding)
  | assign (hfloor : v.floor = BinaryOp.loosest) (hv : v.op = .assign) (hw : w.op = .assign)

theorem IsInside.takesRight {v w : Level} (h : v.IsInside w) : w.op.TakesRight v.op := by
  cases h with
  | tighter _ hop => exact .inl hop
  | assign _ hv hw =>
      rw [hv, hw]
      exact BinaryOp.takesRight_assign _

end Level

/-- A group with all operators before it, the innermost first. -/
def closeAll (g : Grouping) (levels : List Level) : Grouping := levels.foldl Level.close g

/-- Every level is in the right operand of the next one. -/
inductive Nested : List Level → Prop where
  | nil : Nested []
  | outermost {v : Level} (hfloor : v.floor = BinaryOp.loosest) : Nested [v]
  | inside {v w : Level} {ws : List Level} (h : v.IsInside w) (hws : Nested (w :: ws)) :
      Nested (v :: w :: ws)

variable {g g' : Grouping} {v w : Level} {ws levels : List Level} {op : BinaryOp}
  {x y z : Node Span} {links ps : List (BinaryOp × Node Span)} {left : BinaryOp → BinaryOp → Prop}

@[simp] theorem closeAll_nil : closeAll g [] = g := rfl

@[simp] theorem closeAll_cons : closeAll g (v :: ws) = closeAll (node v.left v.op g) ws := rfl

theorem tree_closeAll : (closeAll g levels).tree
    = Chain.closeAll g.tree (levels.map Level.pending) := by
  induction levels generalizing g with
  | nil => rfl
  | cons v ws ih => exact ih

/-- What stands in the right operand of a level does so in that of every level around it. -/
theorem Nested.takesRight (h : Nested (v :: ws)) (hv : v.op.TakesRight op) :
    ∀ w ∈ v :: ws, w.op.TakesRight op := by
  induction ws generalizing v with
  | nil => simpa using hv
  | cons w ws ih =>
      cases h with
      | inside h hws =>
          rw [List.forall_mem_cons]
          exact ⟨hv, ih hws (h.takesRight.trans hv)⟩

/-- An operator that every level takes in its right operand goes behind the innermost group. -/
theorem closeAll_add (h : ∀ w ∈ ws, w.op.TakesRight op) :
    closeAll (g.add op y) ws = (closeAll g ws).add op y := by
  induction ws generalizing g with
  | nil => rfl
  | cons w ws ih =>
      rw [List.forall_mem_cons] at h
      rw [closeAll_cons, closeAll_cons, ← ih h.2, add, if_pos h.1]

/-! ### Another group inside -/

theorem first_closeAll (hfirst : g'.first = g.first) :
    (closeAll g' ws).first = (closeAll g ws).first := by
  induction ws generalizing g g' with
  | nil => exact hfirst
  | cons w ws ih => exact ih rfl

/-- What is behind a group is behind everything around it. -/
theorem links_closeAll (hfirst : g'.first = g.first) (hlinks : g'.links = g.links ++ ps) :
    (closeAll g' ws).links = (closeAll g ws).links ++ ps := by
  induction ws generalizing g g' with
  | nil => exact hlinks
  | cons w ws ih =>
      have hnode : (node w.left w.op g').links = (node w.left w.op g).links ++ ps := by
        simp [Grouping.links, hfirst, hlinks]
      exact ih rfl hnode

theorem fits_of_closeAll (h : (closeAll g ws).Fits left) : g.Fits left := by
  induction ws generalizing g with
  | nil => exact h
  | cons w ws ih => exact (fits_node.1 (ih h)).2.1

/-- A group can be put in the place of another one with the same operator. -/
theorem fits_closeAll (h : (closeAll g ws).Fits left) (hg' : g'.Fits left)
    (hroot : g'.root? = g.root?) : (closeAll g' ws).Fits left := by
  induction ws generalizing g g' with
  | nil => exact hg'
  | cons w ws ih =>
      obtain ⟨hl, -, hleft, hright⟩ := fits_node.1 (fits_of_closeAll (g := node w.left w.op g) h)
      exact ih h (.node hl hg' hleft (hroot ▸ hright)) rfl

/-! ### One more operator -/

/-- The new operator has all of an assignment as its left operand, and is an assignment itself. -/
def Overtakes (g g' : Grouping) (y : Node Span) : Prop :=
  ∃ l r ws, g = closeAll (node l .assign r) ws ∧
    g' = closeAll (node (node l .assign r) .assign (operand y)) ws

/-- **What one more operator behind the group `g` makes of the levels `ws` around it**: the operator
is added where precedence puts it, unless it `overtakes` an assignment. -/
structure Opens (op : BinaryOp) (g : Grouping) (ws : List Level) (overtakes : Prop)
    (levels : List Level) : Prop where
  nested : Nested levels
  head : levels.head?.map Level.op = some op
  assign : (∃ w ∈ levels, w.op = .assign) ↔ op = .assign ∨ ∃ w ∈ ws, w.op = .assign
  added : ¬ overtakes → ∀ y, closeAll (operand y) levels = (closeAll g ws).add op y
  overtaken : overtakes → ∀ y, Overtakes (closeAll g ws) (closeAll (operand y) levels) y

/-- A new level for the operator inside the levels around it. -/
theorem opens_cons {floor : Nat} {overtakes : Prop} (hnested : Nested (⟨g, op, floor⟩ :: ws))
    (hg : ∀ o, g.root? = some o → ¬ o.TakesRight op) (hadded : ¬ overtakes) :
    Opens op g ws overtakes (⟨g, op, floor⟩ :: ws) where
  nested := hnested
  head := rfl
  assign := by simp
  added := fun _ y => by
    have hws : ∀ w ∈ ws, w.op.TakesRight op := by
      cases hnested with
      | outermost => simp
      | inside h hws => exact hws.takesRight h.takesRight
    rw [closeAll_cons, ← closeAll_add hws, add_eq_node hg]
  overtaken := fun h => absurd h hadded

/-- A level that is no assignment can be closed before the operator is read. -/
theorem Opens.closed {overtakes : Prop} (h : Opens op (node w.left w.op g) ws overtakes levels)
    (hw : w.op ≠ .assign) : Opens op g (w :: ws) overtakes levels where
  nested := h.nested
  head := h.head
  assign := by simpa [hw] using h.assign
  added := h.added
  overtaken := h.overtaken

/-- Assignments admit every operator on their level. -/
theorem Nested.floor_eq (h : Nested (w :: ws)) (hw : w.op = .assign) :
    w.floor = BinaryOp.loosest := by
  cases h with
  | outermost hfloor => exact hfloor
  | @inside _ u _ h _ =>
      cases h with
      | assign hfloor => exact hfloor
      | tighter _ hop =>
          have hloosest := BinaryOp.loosest_le_binding u.op
          rw [hw] at hop
          exact absurd hop (Nat.not_lt.2 hloosest)

/-- Another group can be on the left of the innermost operator. -/
theorem Nested.congr_left (h : Nested (w :: ws)) (l : Grouping) :
    Nested (⟨l, w.op, w.floor⟩ :: ws) := by
  cases h with
  | outermost hfloor => exact .outermost hfloor
  | inside h hws =>
      refine .inside ?_ hws
      cases h with
      | tighter hfloor hop => exact .tighter hfloor hop
      | assign hfloor hv hw => exact .assign hfloor hv hw

/-- An assignment that overtakes the one of the level `w`. -/
theorem opens_overtaking {overtakes : Prop} (hnested : Nested (w :: ws)) (hw : w.op = .assign)
    (h : overtakes) : Opens .assign g (w :: ws) overtakes
      (⟨node w.left w.op g, .assign, w.floor⟩ :: ws) where
  nested := hw ▸ hnested.congr_left _
  head := rfl
  assign := by simp
  added := absurd h
  overtaken := fun _ y => ⟨w.left, g, ws, by rw [closeAll_cons, hw], by rw [closeAll_cons, hw]⟩

theorem settle_of_le {x : Node Span} {floor : Nat} {ps : List Pending} (h : floor ≤ op.binding) :
    Chain.settle op x floor ps = ⟨x, op, floor⟩ :: ps := by
  cases ps with
  | nil => rfl
  | cons p ps => rw [Chain.settle, if_pos h]

theorem ne_assign_of_not_takesRight {o : BinaryOp} (h : ¬ o.TakesRight op) : o ≠ .assign := by
  rintro rfl
  exact h (BinaryOp.takesRight_assign op)

/-- The levels after a level `v` was closed that does not take the operator. -/
theorem exists_settle (hnested : Nested (v :: ws)) (hv : ¬ v.op.TakesRight op)
    (hg : g.root? = some v.op) :
    ∃ levels, Chain.settle op g.tree v.floor (ws.map Level.pending) = levels.map Level.pending ∧
      Opens op g ws (op = .assign ∧ ∃ w ∈ ws, w.op = .assign) levels := by
  induction ws generalizing v g with
  | nil =>
      cases hnested with
      | outermost hfloor =>
          refine ⟨[⟨g, op, v.floor⟩], rfl, opens_cons (.outermost hfloor) ?_ (by simp)⟩
          exact fun o ho => Option.some.inj (hg.symm.trans ho) ▸ hv
  | cons w ws ih =>
      cases hnested with
      | inside h hws =>
          have hloosest := BinaryOp.loosest_le_binding op
          cases h with
          | assign _ hassign => exact absurd hassign (ne_assign_of_not_takesRight hv)
          | tighter hfloor hop =>
              by_cases hle : v.floor ≤ op.binding
              · -- the level admits the operator
                have hbinding : w.op.binding < op.binding := by omega
                refine ⟨⟨g, op, v.floor⟩ :: w :: ws, settle_of_le hle,
                  opens_cons (.inside (.tighter hfloor hbinding) hws) ?_ ?_⟩
                · exact fun o ho => Option.some.inj (hg.symm.trans ho) ▸ hv
                · rintro ⟨hassign, -⟩
                  have hw := BinaryOp.loosest_le_binding w.op
                  have hloosest := BinaryOp.eq_assign_iff.1 hassign
                  omega
              rw [List.map_cons, Chain.settle, if_neg hle]
              by_cases hw : w.op.TakesRight op
              · -- both are assignments, and the one in front is closed all the same
                rw [BinaryOp.takesRight_iff] at hw
                have hbinding : w.op.binding = BinaryOp.loosest := by omega
                have hassign : w.op = .assign := BinaryOp.eq_assign_iff.2 hbinding
                obtain rfl : op = .assign := BinaryOp.eq_assign_iff.2 (by omega)
                have hfloor : w.floor ≤ BinaryOp.assign.binding :=
                  Nat.le_of_eq (hws.floor_eq hassign)
                exact ⟨_, settle_of_le hfloor,
                  opens_overtaking hws hassign ⟨rfl, w, List.mem_cons_self, hassign⟩⟩
              · have hne := ne_assign_of_not_takesRight hw
                obtain ⟨levels, hlevels, hopens⟩ := @ih (node w.left w.op g) w hws hw rfl
                refine ⟨levels, hlevels, ?_⟩
                simpa [hne] using hopens.closed hne

/-- **The levels after one more operator** behind an operand.  It overtakes an assignment if it is
one itself and stands behind an operator that binds tighter. -/
theorem exists_push (op : BinaryOp) (z : Node Span) (hnested : Nested levels) :
    ∃ levels', Chain.push op z (levels.map Level.pending) = levels'.map Level.pending ∧
      Opens op (operand z) levels (op = .assign ∧ levels.head?.map Level.op ≠ some .assign ∧
        ∃ w ∈ levels, w.op = .assign) levels' := by
  cases levels with
  | nil =>
      exact ⟨[⟨operand z, op, BinaryOp.loosest⟩], rfl,
        opens_cons (.outermost rfl) nofun (by simp)⟩
  | cons v ws =>
      rw [List.map_cons, Chain.push]
      have hv_loosest := BinaryOp.loosest_le_binding v.op
      split
      · case isTrue hlt =>
        refine ⟨⟨operand z, op, v.op.binding + 1⟩ :: v :: ws, rfl,
          opens_cons (.inside (.tighter rfl hlt) hnested) nofun ?_⟩
        rintro ⟨rfl, -⟩
        exact absurd hlt (Nat.not_lt.2 hv_loosest)
      · case isFalse hle =>
        split
        · case isTrue hequal =>
          obtain ⟨hbinding, hright⟩ := hequal
          have hfloor : v.op.binding = BinaryOp.loosest := BinaryOp.groupsRight_iff.1 hright
          have hv : v.op = .assign := BinaryOp.eq_assign_iff.2 hfloor
          have hop : op = .assign := BinaryOp.eq_assign_iff.2 (hbinding.symm.trans hfloor)
          exact ⟨⟨operand z, op, v.op.binding⟩ :: v :: ws, rfl,
            opens_cons (.inside (.assign hfloor hop hv) hnested) nofun (by simp [hv])⟩
        · case isFalse hequal =>
          have hv : ¬ v.op.TakesRight op := not_or.2 ⟨hle, hequal⟩
          have hne := ne_assign_of_not_takesRight hv
          obtain ⟨levels', hlevels, hopens⟩ :=
            @exists_settle (node v.left v.op (operand z)) v ws op hnested hv rfl
          refine ⟨levels', hlevels, ?_⟩
          simpa [hne] using hopens.closed hne

/-! ### Assignments that stand together -/

/-- No other operator stands between two assignments. -/
def AssignsTogether (ops : List BinaryOp) : Prop :=
  ∀ o, [.assign, o, .assign].Sublist ops → o = .assign

/-- A list with an end is part of another one without the end of that, or has the same end. -/
theorem concat_sublist_concat {α : Type} (as : List α) (a : α) {bs : List α} {b : α}
    (h : (as ++ [a]).Sublist (bs ++ [b])) : (as ++ [a]).Sublist bs ∨ a = b ∧ as.Sublist bs := by
  have hreverse : (a :: as.reverse).Sublist (b :: bs.reverse) := by simpa using h.reverse
  rcases List.cons_sublist_cons'.1 hreverse with hrest | ⟨rfl, hrest⟩
  · exact .inl (by simpa using hrest.reverse)
  · exact .inr ⟨rfl, by simpa using hrest.reverse⟩

/-- One more operator keeps the assignments together, unless it is one and does not stand directly
behind the others. -/
theorem assignsTogether_concat {ops : List BinaryOp} : AssignsTogether (ops ++ [op]) ↔
    AssignsTogether ops ∧ ¬ (op = .assign ∧ ops.getLast? ≠ some .assign ∧ .assign ∈ ops) := by
  constructor
  · refine fun h => ⟨fun o ho => h o (ho.trans (List.sublist_append_left _ _)), ?_⟩
    rintro ⟨rfl, hlast, hmem⟩
    obtain ⟨o, ho⟩ := Option.ne_none_iff_exists'.1
      (mt List.getLast?_eq_none_iff.1 (List.ne_nil_of_mem hmem))
    obtain ⟨before, rfl⟩ := List.getLast?_eq_some_iff.1 ho
    have hne : o ≠ .assign := by
      rintro rfl
      exact hlast ho
    have hbefore : .assign ∈ before := by
      simpa [hne.symm] using hmem
    exact hne (h o (((List.singleton_sublist.2 hbefore).append (.refl [o])).append (.refl _)))
  · rintro ⟨h, hop⟩ o ho
    rcases concat_sublist_concat [BinaryOp.assign, o] .assign ho with hrest | ⟨rfl, hrest⟩
    · exact h o hrest
    · by_contra hne
      refine hop ⟨rfl, fun hlast => ?_, hrest.subset List.mem_cons_self⟩
      obtain ⟨before, rfl⟩ := List.getLast?_eq_some_iff.1 hlast
      rcases concat_sublist_concat [BinaryOp.assign] o hrest with hbefore | ⟨rfl, -⟩
      · exact hne (h o (hbefore.append (.refl [BinaryOp.assign])))
      · exact hne rfl

/-! ### The grouping that is read -/

/-- The left operands of operators as the parser reads them: as precedence has it, except that an
assignment can have another one there. -/
def ReadsLeft (op o : BinaryOp) : Prop := op.TakesLeft o ∨ op = .assign ∧ o = .assign

/-- **The levels that are open behind a chain** whose last operand is `z`. -/
structure IsRead (x : Node Span) (links : List (BinaryOp × Node Span)) (z : Node Span)
    (levels : List Level) : Prop where
  nested : Nested levels
  last : levels.head?.map Level.op = (links.map Prod.fst).getLast?
  assign : (∃ w ∈ levels, w.op = .assign) ↔ .assign ∈ links.map Prod.fst
  first_eq : (closeAll (operand z) levels).first = x
  links_eq : (closeAll (operand z) levels).links = links
  fits : (closeAll (operand z) levels).Fits ReadsLeft
  isByPrecedence : (closeAll (operand z) levels).IsByPrecedence ↔
    AssignsTogether (links.map Prod.fst)

theorem isRead_operand (x : Node Span) : IsRead x [] x [] where
  nested := .nil
  last := rfl
  assign := by simp
  first_eq := rfl
  links_eq := rfl
  fits := .operand x
  isByPrecedence := ⟨fun _ o ho => absurd ho (by simp), fun _ => .operand x⟩

namespace Overtakes

theorem first_eq (h : Overtakes g g' y) : g'.first = g.first := by
  obtain ⟨l, r, ws, rfl, rfl⟩ := h
  exact first_closeAll rfl

theorem links_eq (h : Overtakes g g' y) : g'.links = g.links ++ [(.assign, y)] := by
  obtain ⟨l, r, ws, rfl, rfl⟩ := h
  exact links_closeAll rfl rfl

theorem fits (h : Overtakes g g' y) (hg : g.Fits ReadsLeft) : g'.Fits ReadsLeft := by
  obtain ⟨l, r, ws, rfl, rfl⟩ := h
  refine fits_closeAll hg (.node (fits_of_closeAll hg) (.operand y) ?_ nofun) rfl
  rintro _ ⟨⟩
  exact .inr ⟨rfl, rfl⟩

/-- An assignment does not have another one as its left operand. -/
theorem not_isByPrecedence (h : Overtakes g g' y) : ¬ g'.IsByPrecedence := by
  obtain ⟨l, r, ws, rfl, rfl⟩ := h
  intro hg
  obtain ⟨-, -, hleft, -⟩ := fits_node.1 (fits_of_closeAll hg)
  exact absurd (hleft .assign rfl) (by decide)

end Overtakes

/-- **One more operator and operand are read.** -/
theorem IsRead.exists_push (h : IsRead x links z levels) (op : BinaryOp) :
    ∃ levels', Chain.push op z (levels.map Level.pending) = levels'.map Level.pending ∧
      ∀ y, IsRead x (links ++ [(op, y)]) y levels' := by
  obtain ⟨levels', hlevels, hopens⟩ := Grouping.exists_push op z h.nested
  refine ⟨levels', hlevels, fun y => ?_⟩
  have hops : (links ++ [(op, y)]).map Prod.fst = links.map Prod.fst ++ [op] := by simp
  have hlast : levels'.head?.map Level.op = ((links ++ [(op, y)]).map Prod.fst).getLast? := by
    rw [hopens.head, hops, List.getLast?_concat]
  have hassign : (∃ w ∈ levels', w.op = .assign) ↔ .assign ∈ (links ++ [(op, y)]).map Prod.fst := by
    rw [hopens.assign, h.assign, hops, List.mem_append, List.mem_singleton, or_comm, eq_comm]
  by_cases hover : op = .assign ∧ levels.head?.map Level.op ≠ some .assign ∧
      ∃ w ∈ levels, w.op = .assign
  · have hovertakes := hopens.overtaken hover y
    rw [h.last, h.assign] at hover
    obtain rfl := hover.1
    refine ⟨hopens.nested, hlast, hassign, hovertakes.first_eq.trans h.first_eq,
      hovertakes.links_eq.trans (by rw [h.links_eq]), hovertakes.fits h.fits, ?_⟩
    rw [hops, assignsTogether_concat]
    exact iff_of_false hovertakes.not_isByPrecedence fun htogether => htogether.2 hover
  · have hadded := hopens.added hover y
    rw [h.last, h.assign] at hover
    refine ⟨hopens.nested, hlast, hassign, ?_, ?_, ?_, ?_⟩
    · rw [hadded, first_add, h.first_eq]
    · rw [hadded, links_add, h.links_eq]
    · rw [hadded]
      exact h.fits.add fun _ _ => .inl
    · rw [hadded, isByPrecedence_add_iff, h.isByPrecedence, hops, assignsTogether_concat,
        and_iff_left hover]

end Grouping

end StackLang
