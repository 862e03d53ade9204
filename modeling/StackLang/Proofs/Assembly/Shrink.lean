/-
**Jumps made short one by one.**

A layout comes about in steps: one wide jump whose target is near enough becomes short, and every
label behind it comes one byte nearer.  A pass from the left goes through such steps, because the
places that it carries along are at any moment those of the labels.  So what one step preserves
holds of the layout, and a pass that makes no step finds no jump that could make one.

Main definitions:

* `Shrinks` — one jump is made short;
* `IsLastPass` — how often passes make jumps short.

Main results:

* `reflTransGen_relax` — a layout comes about by making jumps short one by one;
* `relax_induction` — what a step preserves holds of the layout;
* `exists_isLastPass` — there is at most one pass more than there are wide jumps;
* `not_reaches_of_relax` — no wide jump of a layout can be made short.
-/

import StackLang.Proofs.Assembly.Places

set_option relaxedAutoImplicit false
set_option autoImplicit false

namespace StackLang

namespace Assembly

/-! ### Steps -/

/-- **One jump is made short** whose target is near enough. -/
inductive Shrinks : List Item → List Item → Prop
  | intro (condition : Condition) (name : String) (line : Nat) (xs ys : List Item) (target : Nat)
      (htarget : (labelTable (xs ++ .jump condition name line .wide :: ys)).lookup name
        = some target)
      (hreaches : Reaches (totalSize xs + 1) target) :
      Shrinks (xs ++ .jump condition name line .wide :: ys)
        (xs ++ .jump condition name line .short :: ys)

/-- **The places that a pass carries along** are those of the labels, so it makes steps. -/
theorem reflTransGen_passFrom (xs ys : List Item) :
    Relation.ReflTransGen Shrinks (xs ++ ys)
      (xs ++ passFrom (labelTable (xs ++ ys)) (totalSize xs) ys) := by
  generalize htable : labelTable (xs ++ ys) = table
  generalize hhere : totalSize xs = here
  fun_induction passFrom table here ys generalizing xs with
  | case1 => exact .refl
  | case2 table here condition name line ys hshrink ih =>
      subst htable hhere
      obtain ⟨target, htarget, hreaches⟩ := canShrink_iff.1 hshrink
      have hrest := ih (xs ++ [.jump condition name line .short])
        (by simpa using labelTable_short condition name line xs ys) (by simp [totalSize, Item.size])
      simp only [List.append_assoc, List.singleton_append] at hrest
      exact .head (.intro condition name line xs ys target htarget hreaches) hrest
  | case3 table here condition name line ys hshrink ih =>
      subst htable hhere
      have hrest := ih (xs ++ [.jump condition name line .wide]) (by simp)
        (by simp [totalSize, Item.size])
      simp only [List.append_assoc, List.singleton_append] at hrest
      exact hrest
  | case4 table here item ys hitem ih =>
      subst htable hhere
      have hrest := ih (xs ++ [item]) (by simp) (by simp [totalSize])
      simp only [List.append_assoc, List.singleton_append] at hrest
      exact hrest

/-- **A layout comes about by making jumps short one by one.** -/
theorem reflTransGen_relax (items : List Item) :
    Relation.ReflTransGen Shrinks items (relax items) := by
  induction items using relax.induct with
  | case1 items next hless ih =>
      rw [relax, if_pos hless]
      exact (reflTransGen_passFrom [] items).trans ih
  | case2 items next hless =>
      rw [relax, if_neg hless]

/-- **What a step preserves** holds of the layout. -/
theorem relax_induction {P : List Item → Prop} {items : List Item}
    (hstep : ∀ xs ys, Shrinks xs ys → P xs → P ys) (h : P items) : P (relax items) := by
  have hrun := reflTransGen_relax items
  generalize relax items = final at hrun
  induction hrun with
  | refl => exact h
  | tail _ hshrinks ih => exact hstep _ _ hshrinks ih

/-! ### Passes -/

theorem wideJumps_cons (item : Item) (items : List Item) :
    wideJumps (item :: items) = wideJumps items + if item.isWideJump then 1 else 0 :=
  List.countP_cons

/-- A pass makes a jump short or changes nothing. -/
theorem wideJumps_passFrom (table : List (String × Nat)) (here : Nat) (items : List Item) :
    wideJumps (passFrom table here items) < wideJumps items ∨
      passFrom table here items = items := by
  fun_induction passFrom table here items with
  | case1 => exact .inr rfl
  | case2 table here condition name line items hshrink ih =>
      rw [wideJumps_cons, wideJumps_cons]
      refine .inl ?_
      rcases ih with hless | hsame
      · exact hless.trans (Nat.lt_succ_self _)
      · rw [hsame]
        exact Nat.lt_succ_self _
  | case3 table here condition name line items hshrink ih =>
      rw [wideJumps_cons, wideJumps_cons]
      exact ih.imp (Nat.add_lt_add_right · _) (congrArg _)
  | case4 table here item items hitem ih =>
      rw [wideJumps_cons, wideJumps_cons]
      exact ih.imp (Nat.add_lt_add_right · _) (congrArg _)

theorem wideJumps_passFrom_le (table : List (String × Nat)) (here : Nat) (items : List Item) :
    wideJumps (passFrom table here items) ≤ wideJumps items := by
  rcases wideJumps_passFrom table here items with hless | hsame
  · exact hless.le
  · rw [hsame]

/-- A pass that changes nothing met no jump that could be made short. -/
theorem canShrink_of_passFrom_eq {table : List (String × Nat)} {here : Nat}
    {items xs ys : List Item} {condition : Condition} {name : String} {line : Nat}
    (hitems : items = xs ++ .jump condition name line .wide :: ys)
    (h : passFrom table here items = items) :
    canShrink table (here + totalSize xs) name = false := by
  fun_induction passFrom table here items generalizing xs with
  | case1 => simp at hitems
  | case2 => cases (List.cons.inj h).1
  | case3 table here condition name line items hshrink ih =>
      cases xs with
      | nil =>
          cases (List.cons.inj hitems).1
          simpa [totalSize] using hshrink
      | cons x xs =>
          obtain ⟨rfl, hrest⟩ := List.cons.inj hitems
          rw [totalSize, ← Nat.add_assoc]
          exact ih hrest (List.cons.inj h).2
  | case4 table here item items hitem ih =>
      cases xs with
      | nil => exact absurd (List.cons.inj hitems).1 (hitem _ _ _)
      | cons x xs =>
          obtain ⟨rfl, hrest⟩ := List.cons.inj hitems
          rw [totalSize, ← Nat.add_assoc]
          exact ih hrest (List.cons.inj h).2

/-- **`n` passes make jumps short**, and the one behind them finds none. -/
structure IsLastPass (items : List Item) (n : Nat) : Prop where
  decreases : ∀ k < n, wideJumps (pass^[k + 1] items) < wideJumps (pass^[k] items)
  stops : pass (pass^[n] items) = pass^[n] items

/-- **Passes end**: there is at most one more than there are wide jumps. -/
theorem exists_isLastPass (items : List Item) :
    ∃ n ≤ wideJumps items, IsLastPass items n ∧ relax items = pass^[n] items := by
  induction items using relax.induct with
  | case1 items next hless ih =>
      obtain ⟨n, hn, hlast, hrelax⟩ := ih
      refine ⟨n + 1, by omega, ⟨fun k hk => ?_, ?_⟩, ?_⟩
      · cases k with
        | zero => exact hless
        | succ k => exact hlast.decreases k (by omega)
      · exact hlast.stops
      · rw [relax, if_pos hless]
        exact hrelax
  | case2 items next hless =>
      refine ⟨0, Nat.zero_le _, ⟨nofun, ?_⟩, ?_⟩
      · exact (wideJumps_passFrom _ _ _).resolve_left hless
      · rw [relax, if_neg hless]
        rfl

theorem pass_relax (items : List Item) : pass (relax items) = relax items := by
  obtain ⟨n, -, hlast, hrelax⟩ := exists_isLastPass items
  rw [hrelax]
  exact hlast.stops

/-- **No wide jump of a layout can be made short.** -/
theorem not_reaches_of_relax {items xs ys : List Item} {condition : Condition} {name : String}
    {line target : Nat} (h : relax items = xs ++ .jump condition name line .wide :: ys)
    (htarget : (labelTable (relax items)).lookup name = some target) :
    ¬ Reaches (totalSize xs + 1) target := by
  intro hreaches
  have hshrink := canShrink_iff.2 ⟨target, htarget, hreaches⟩
  rw [← Nat.zero_add (totalSize xs), canShrink_of_passFrom_eq h (pass_relax items)] at hshrink
  cases hshrink

end Assembly

end StackLang
