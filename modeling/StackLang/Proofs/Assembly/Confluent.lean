/-
**The order in which jumps are made short does not matter.**

A jump that can be made short goes on to be one that can when another is made short before it: the
places of its operand and of its target come nearer or keep their distance.  And the byte that one
of them loses moves the labels and the lines behind it wherever the other one has lost its byte.  So
two jumps can be made short in either order with the same outcome, and as every step uses up a wide
jump, all sequences of steps that cannot be continued end alike, in the layout that passes from the
left come to.

Main definitions:

* `Buffer` — items with the tables of their labels and lines, as they are carried along;
* `Buffer.Shrinks` — one jump is made short, and the tables are shifted;
* `Buffer.IsOnlyEnd` — where every sequence of such steps ends.

Main results:

* `Shrinks.diamond` — two jumps can be made short in either order;
* `isOnlyEnd_relax` — every sequence of steps ends in the layout.
-/

import StackLang.Proofs.Assembly.Near

set_option relaxedAutoImplicit false
set_option autoImplicit false

namespace StackLang

namespace Assembly

/-! ### Two jumps -/

/-- **A jump that can be made short goes on to be one that can** when the byte behind the place
`place` is taken out. -/
theorem Reaches.shifted {here target : Nat} (h : Reaches here target) (place : Nat) :
    Reaches (if place < here then here - 1 else here)
      (if place < target then target - 1 else target) := by
  unfold Reaches shortDistance at h ⊢
  split <;> split <;> split at h <;> split <;> omega

section Two

variable {condition condition' : Condition} {name name' : String} {line line' target target' : Nat}
  {xs ys zs : List Item}

/-- Two jumps that can be made short can be so one behind the other, in either order. -/
theorem shrinks_both
    (htarget : (labelTable (xs ++ .jump condition name line .wide ::
      (zs ++ .jump condition' name' line' .wide :: ys))).lookup name = some target)
    (hreaches : Reaches (totalSize xs + 1) target)
    (htarget' : (labelTable (xs ++ .jump condition name line .wide ::
      (zs ++ .jump condition' name' line' .wide :: ys))).lookup name' = some target')
    (hreaches' : Reaches (totalSize (xs ++ .jump condition name line .wide :: zs) + 1) target') :
    Shrinks (xs ++ .jump condition name line .short ::
        (zs ++ .jump condition' name' line' .wide :: ys))
      (xs ++ .jump condition name line .short ::
        (zs ++ .jump condition' name' line' .short :: ys)) ∧
    Shrinks (xs ++ .jump condition name line .wide ::
        (zs ++ .jump condition' name' line' .short :: ys))
      (xs ++ .jump condition name line .short ::
        (zs ++ .jump condition' name' line' .short :: ys)) := by
  constructor
  · -- the second jump, when the first one is short
    have hlookup : (labelTable ((xs ++ .jump condition name line .short :: zs)
        ++ .jump condition' name' line' .wide :: ys)).lookup name'
          = some (if totalSize xs + 1 < target' then target' - 1 else target') := by
      rw [List.append_assoc, List.cons_append, labelTable_short, lookup_shiftDown, htarget']
      rfl
    have hnear := hreaches'.shifted (totalSize xs + 1)
    rw [if_pos (by simp only [totalSize_append, totalSize, Item.size]; omega)] at hnear
    have hplace : totalSize (xs ++ .jump condition name line .short :: zs) + 1
        = totalSize (xs ++ .jump condition name line .wide :: zs) + 1 - 1 := by
      simp only [totalSize_append, totalSize, Item.size]
      omega
    simpa using Shrinks.intro _ _ _ _ _ _ hlookup (hplace ▸ hnear)
  · -- the first jump, when the second one is short
    have hlookup : (labelTable (xs ++ .jump condition name line .wide ::
        (zs ++ .jump condition' name' line' .short :: ys))).lookup name
          = some (if totalSize (xs ++ .jump condition name line .wide :: zs) + 1 < target
              then target - 1 else target) := by
      have hshift := labelTable_short condition' name' line'
        (xs ++ .jump condition name line .wide :: zs) ys
      rw [List.append_assoc, List.append_assoc, List.cons_append, List.cons_append] at hshift
      rw [hshift, lookup_shiftDown, htarget]
      rfl
    have hlt : totalSize xs + 1 < totalSize (xs ++ .jump condition name line .wide :: zs) + 1 := by
      simp only [totalSize_append, totalSize, Item.size]
      omega
    have hnear := hreaches.shifted (totalSize (xs ++ .jump condition name line .wide :: zs) + 1)
    rw [if_neg (by omega)] at hnear
    exact .intro _ _ _ _ _ _ hlookup hnear

end Two

/-- **Two jumps can be made short in either order.** -/
theorem Shrinks.diamond {items items₁ items₂ : List Item} (h₁ : Shrinks items items₁)
    (h₂ : Shrinks items items₂) :
    items₁ = items₂ ∨ ∃ both, Shrinks items₁ both ∧ Shrinks items₂ both := by
  obtain ⟨condition, name, line, xs, ys, target, htarget, hreaches⟩ := h₁
  generalize hitems : xs ++ Item.jump condition name line .wide :: ys = items at h₂ htarget
  obtain ⟨condition', name', line', xs', ys', target', htarget', hreaches'⟩ := h₂
  rcases append_cons_cases hitems with ⟨rfl, hjump, rfl⟩ | ⟨zs, rfl, rfl⟩ | ⟨zs, rfl, rfl⟩
  · cases hjump
    exact .inl rfl
  · rw [← hitems] at htarget htarget'
    obtain ⟨hsecond, hfirst⟩ := shrinks_both htarget hreaches htarget' hreaches'
    exact .inr ⟨_, hsecond, by simpa using hfirst⟩
  · obtain ⟨hsecond, hfirst⟩ := shrinks_both htarget' hreaches' (by simpa using htarget)
      (by simpa using hreaches)
    exact .inr ⟨_, by simpa using hfirst, hsecond⟩

/-! ### Sequences of steps -/

/-- A step uses up a wide jump. -/
theorem Shrinks.wideJumps_eq {items items' : List Item} (h : Shrinks items items') :
    wideJumps items = wideJumps items' + 1 := by
  obtain ⟨condition, name, line, xs, ys, target, -, -⟩ := h
  simp only [wideJumps, List.countP_append, List.countP_cons, Item.isWideJump, if_true,
    Bool.false_eq_true, if_false]
  omega

/-- No jump of a layout can be made short. -/
theorem not_shrinks_relax (items items' : List Item) : ¬ Shrinks (relax items) items' := by
  intro h
  generalize hrelax : relax items = final at h
  obtain ⟨condition, name, line, xs, ys, target, htarget, hreaches⟩ := h
  exact not_reaches_of_relax hrelax (hrelax ▸ htarget) hreaches

/-- Every sequence of steps goes on to the layout. -/
theorem reflTransGen_relax_of_shrinks {items items' : List Item}
    (h : Relation.ReflTransGen Shrinks items items') :
    Relation.ReflTransGen Shrinks items' (relax items) := by
  have hdiamond : ∀ xs ys zs, Shrinks xs ys → Shrinks xs zs →
      ∃ ws, Relation.ReflGen Shrinks ys ws ∧ Relation.ReflTransGen Shrinks zs ws := by
    intro xs ys zs hys hzs
    rcases hys.diamond hzs with rfl | ⟨ws, hyws, hzws⟩
    · exact ⟨ys, .refl, .refl⟩
    · exact ⟨ws, .single hyws, .single hzws⟩
  obtain ⟨both, hboth, hrelax⟩ :=
    Relation.church_rosser hdiamond h (reflTransGen_relax items)
  -- the layout has no step, so it is where both sequences meet
  rcases hrelax.cases_head with rfl | ⟨next, hnext, -⟩
  · exact hboth
  · exact absurd hnext (not_shrinks_relax items next)

/-! ### Tables that are carried along -/

/-- Items with the tables of their labels and their lines. -/
structure Buffer where
  items : List Item
  labels : List (String × Nat)
  lines : List (Nat × Nat)

namespace Buffer

/-- Some items with their tables. -/
def ofItems (items : List Item) : Buffer := ⟨items, labelTable items, lineTable items⟩

/-- **One jump is made short** whose target is near enough, and the labels and lines behind it come
nearer. -/
inductive Shrinks : Buffer → Buffer → Prop
  | intro (condition : Condition) (name : String) (line : Nat) (xs ys : List Item)
      (labels : List (String × Nat)) (lines : List (Nat × Nat)) (target : Nat)
      (htarget : labels.lookup name = some target) (hreaches : Reaches (totalSize xs + 1) target) :
      Shrinks ⟨xs ++ .jump condition name line .wide :: ys, labels, lines⟩
        ⟨xs ++ .jump condition name line .short :: ys, shiftDown (totalSize xs + 1) labels,
          shiftLines (totalSize xs + 1) lines⟩

variable {items items' : List Item} {b : Buffer}

/-- Shifted tables are those of the items. -/
theorem shrinks_ofItems_iff :
    Shrinks (ofItems items) b ↔ ∃ items', Assembly.Shrinks items items' ∧ b = ofItems items' := by
  constructor
  · intro h
    generalize hstart : ofItems items = start at h
    obtain ⟨condition, name, line, xs, ys, labels, lines, target, htarget, hreaches⟩ := h
    cases hstart
    refine ⟨_, .intro condition name line xs ys target htarget hreaches, ?_⟩
    rw [ofItems, labelTable_short, lineTable_short]
  · rintro ⟨items', ⟨condition, name, line, xs, ys, target, htarget, hreaches⟩, rfl⟩
    rw [ofItems, ofItems, labelTable_short, lineTable_short]
    exact .intro _ _ _ _ _ _ _ _ htarget hreaches

theorem reflTransGen_ofItems_iff :
    Relation.ReflTransGen Shrinks (ofItems items) b ↔
      ∃ items', Relation.ReflTransGen Assembly.Shrinks items items' ∧ b = ofItems items' := by
  constructor
  · intro h
    induction h with
    | refl => exact ⟨items, .refl, rfl⟩
    | tail _ hstep ih =>
        obtain ⟨items', hitems', rfl⟩ := ih
        obtain ⟨items'', hitems'', rfl⟩ := shrinks_ofItems_iff.1 hstep
        exact ⟨items'', hitems'.tail hitems'', rfl⟩
  · rintro ⟨items', h, rfl⟩
    exact h.lift ofItems fun _ _ hstep => shrinks_ofItems_iff.2 ⟨_, hstep, rfl⟩

/-- **Every sequence of steps from `start` ends in `final`.** -/
structure IsOnlyEnd (start final : Buffer) : Prop where
  /-- Some sequence ends there. -/
  reached : Relation.ReflTransGen Shrinks start final
  /-- A sequence can be continued unless it has come there. -/
  ended : ∀ b, Relation.ReflTransGen Shrinks start b → ((∀ b', ¬ Shrinks b b') ↔ b = final)
  /-- Every sequence can be continued up to there. -/
  joined : ∀ b, Relation.ReflTransGen Shrinks start b → Relation.ReflTransGen Shrinks b final
  /-- No sequence can be continued forever. -/
  finite : ∀ bs : Nat → Buffer, bs 0 = start → ¬ ∀ n, Shrinks (bs n) (bs (n + 1))

theorem isOnlyEnd_ofItems (items : List Item) :
    IsOnlyEnd (ofItems items) (ofItems (relax items)) where
  reached := reflTransGen_ofItems_iff.2 ⟨_, reflTransGen_relax items, rfl⟩
  ended b hb := by
    obtain ⟨items', hitems', rfl⟩ := reflTransGen_ofItems_iff.1 hb
    constructor
    · intro hstuck
      rcases (reflTransGen_relax_of_shrinks hitems').cases_head with rfl | ⟨next, hnext, -⟩
      · rfl
      · exact absurd (shrinks_ofItems_iff.2 ⟨next, hnext, rfl⟩) (hstuck _)
    · intro hfinal b' hb'
      rw [hfinal] at hb'
      obtain ⟨next, hnext, -⟩ := shrinks_ofItems_iff.1 hb'
      exact not_shrinks_relax items next hnext
  joined b hb := by
    obtain ⟨items', hitems', rfl⟩ := reflTransGen_ofItems_iff.1 hb
    exact reflTransGen_ofItems_iff.2 ⟨_, reflTransGen_relax_of_shrinks hitems', rfl⟩
  finite bs hstart hbs := by
    -- after `n` steps there are `n` wide jumps less
    have hcount : ∀ n, ∃ items', bs n = ofItems items' ∧
        wideJumps items' + n = wideJumps items := by
      intro n
      induction n with
      | zero => exact ⟨items, hstart, rfl⟩
      | succ n ih =>
          obtain ⟨items', hitems', hwide⟩ := ih
          obtain ⟨next, hnext, heq⟩ := shrinks_ofItems_iff.1 (hitems' ▸ hbs n)
          have := hnext.wideJumps_eq
          exact ⟨next, heq, by omega⟩
    obtain ⟨items', -, hwide⟩ := hcount (wideJumps items + 1)
    omega

end Buffer

/-! ### Layouts -/

/-- **The order in which jumps are made short does not matter**: from what was assembled, every
sequence of steps ends in the layout that passes from the left come to, with its labels and lines,
and that layout is what the draft comes to and what is finished. -/
theorem isOnlyEnd_relax (a : Assembler)
    (h : undefinedJump? (labelTable a.items.toList) a.items.toList = none) :
    Buffer.IsOnlyEnd (.ofItems a.items.toList) (.ofItems (relax a.items.toList)) ∧
      a.draft.relax = .ok (.ofItems a.origin (relax a.items.toList)) ∧
      a.finish = Image.ofItems a.origin (relax a.items.toList) := by
  refine ⟨Buffer.isOnlyEnd_ofItems a.items.toList, ?_, ?_⟩
  · exact Draft.relax_ofItems (undefinedWide?_eq_none h) a.origin
  · rw [Assembler.finish_eq, undefinedWide?_eq_none h]

/-- Three jumps over each other; the one over all of them can be short when the others are. -/
theorem isOnlyEnd_relax_three : ∃ a,
    (Assembler.empty 256).assembleLines 0
      (Text.lines "start: JMP end\n JNE start\n RESB 122\n JEQ end\nend: HLT".toList) = .ok a ∧
      wideJumps a.items.toList = 3 ∧ wideJumps (relax a.items.toList) = 0 ∧
      undefinedJump? (labelTable a.items.toList) a.items.toList = none ∧
      Buffer.IsOnlyEnd (.ofItems a.items.toList) (.ofItems (relax a.items.toList)) ∧
      a.draft.relax = .ok (.ofItems a.origin (relax a.items.toList)) ∧
      a.finish = Image.ofItems a.origin (relax a.items.toList) := by
  have hrun : ((Assembler.empty 256).assembleLines 0
      (Text.lines "start: JMP end\n JNE start\n RESB 122\n JEQ end\nend: HLT".toList)).toOption.map
      (fun a => (wideJumps a.items.toList, wideJumps (relax a.items.toList),
        (undefinedJump? (labelTable a.items.toList) a.items.toList).isNone))
      = some (3, 0, true) := by decide +kernel
  obtain ⟨a, ha, hfacts⟩ := Option.map_eq_some_iff.1 hrun
  simp only [Prod.mk.injEq, Option.isNone_iff_eq_none] at hfacts
  obtain ⟨hwide, hshort, hdefined⟩ := hfacts
  exact ⟨a, Step.eq_ok_of_toOption ha, hwide, hshort, hdefined, isOnlyEnd_relax a hdefined⟩

end Assembly

end StackLang
