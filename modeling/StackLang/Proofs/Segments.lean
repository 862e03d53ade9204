/-
**Code in segments.**

The code of a unit is that of its statements with a halt behind it, and that of one function after
another, from the entry to the return.  Each of these segments keeps its jumps to itself.  The rules
of the optimizer leave halts, returns and entries alone, so a change lies inside one segment, and a
splice takes out instructions of each segment as if it stood alone.  The segments that lowering
makes are therefore still there when the code is written.

Main definitions:

* `Op.isBorder` — the instructions at which segments start and end;
* `IsSegment` — the code of the statements or of a function, with the jumps inside it;
* `Segments` — code in segments, one behind the other.

Main results:

* `Segments.of_change`, `Segments.spliced` — a change and a splice keep the segments;
* `Lower.EmitsUnit.segments` — the code of a unit consists of segments;
* `Segments.isNop_eq_false` — nothing is left in spliced segments that does nothing.
-/

import StackLang.Proofs.Peephole.Kept
import StackLang.Proofs.Splice.Links

set_option relaxedAutoImplicit false
set_option autoImplicit false

namespace StackLang

/-! ### Segments -/

/-- Whether a segment starts or ends at such an instruction. -/
def Op.isBorder : Op → Bool
  | .halt | .ret | .entry _ => true
  | _ => false

/-- Whether an instruction is the start of a function. -/
def Op.isEntry : Op → Bool
  | .entry _ => true
  | _ => false

/-- No segment starts or ends among some instructions. -/
def Borderless (is : List Instr) : Prop := ∀ i ∈ is, i.op.isBorder = false

@[simp] theorem borderless_nil : Borderless [] := List.forall_mem_nil _

@[simp] theorem borderless_cons {i : Instr} {is : List Instr} :
    Borderless (i :: is) ↔ i.op.isBorder = false ∧ Borderless is :=
  List.forall_mem_cons

@[simp] theorem borderless_append {is js : List Instr} :
    Borderless (is ++ js) ↔ Borderless is ∧ Borderless js :=
  List.forall_mem_append

/-- The targets of some instructions are instructions among them, and no starts of functions. -/
def KeepsInside (is : List Instr) : Prop :=
  ∀ i ∈ is, ∀ t, i.target = some t → ∃ j ∈ is, t = .instr j.id ∧ j.op.isEntry = false

/-- **A segment**: the code of the statements of a unit, or that of the function with a name. -/
inductive IsSegment : Option String → List Instr → Prop where
  | main {body : List Instr} {last : Instr} (hlast : last.op = .halt)
      (hbody : Borderless body) (hinside : KeepsInside (body ++ [last])) :
      IsSegment none (body ++ [last])
  | function {name : String} {first last : Instr} {body : List Instr}
      (hfirst : first.op = .entry name) (hlast : last.op = .ret)
      (hbody : Borderless body)
      (hinside : KeepsInside (first :: body ++ [last])) :
      IsSegment (some name) (first :: body ++ [last])

/-- Code in segments, one behind the other. -/
inductive Segments : List (Option String) → List Instr → Prop where
  | nil : Segments [] []
  | cons {o : Option String} {os : List (Option String)} {is js : List Instr}
      (his : IsSegment o is) (hjs : Segments os js) : Segments (o :: os) (is ++ js)

section Segment

variable {o : Option String} {os : List (Option String)} {is js pre post seg seg' : List Instr}

namespace IsSegment

theorem keepsInside (h : IsSegment o is) : KeepsInside is := by
  cases h <;> assumption

/-- A segment ends in a halt or a return. -/
theorem exists_last (h : IsSegment o is) :
    ∃ body last, is = body ++ [last] ∧ last.op.isBorder = true ∧ last.op.isEntry = false := by
  cases h with
  | @main body last hlast => exact ⟨body, last, rfl, by rw [hlast]; rfl, by rw [hlast]; rfl⟩
  | @function _ first last body _ hlast =>
      exact ⟨first :: body, last, rfl, by rw [hlast]; rfl, by rw [hlast]; rfl⟩

theorem isEntry_of_isBorder {op : Op} (h : op.isBorder = false) : op.isEntry = false := by
  cases op <;> first | rfl | cases h

/-- In a segment only the first instruction can be the start of a function. -/
theorem isEntry_of_mem_tail {i j : Instr} (h : IsSegment o (i :: is)) (hj : j ∈ is) :
    j.op.isEntry = false := by
  generalize his : i :: is = s at h
  cases h with
  | @main body last hlast hbody =>
      have hmem : j ∈ body ++ [last] := his ▸ List.mem_cons_of_mem i hj
      rcases List.mem_append.1 hmem with hj | hj
      · exact isEntry_of_isBorder (hbody j hj)
      · rw [List.mem_singleton.1 hj, hlast]
        rfl
  | @function _ first last body _ hlast hbody =>
      obtain ⟨-, rfl⟩ := List.cons.inj his
      rcases List.mem_append.1 hj with hj | hj
      · exact isEntry_of_isBorder (hbody j hj)
      · rw [List.mem_singleton.1 hj, hlast]
        rfl

/-- **What a segment needs is kept** when instructions inside it are replaced: a stretch without
borders by another one, between the same instructions, if the jumps stay inside. -/
theorem replace (h : IsSegment o (pre ++ (seg ++ post))) (hne : seg ≠ [])
    (hseg : Borderless seg) (hseg' : Borderless seg')
    (hinside : KeepsInside (pre ++ (seg' ++ post))) : IsSegment o (pre ++ (seg' ++ post)) := by
  -- what ends the segment is behind the stretch
  obtain ⟨body, last, heq, hborder, -⟩ := h.exists_last
  obtain ⟨post, rfl⟩ : ∃ p, post = p ++ [last] := by
    rcases List.eq_nil_or_concat post with rfl | ⟨p, z, rfl⟩
    · obtain ⟨s, z, rfl⟩ := (List.eq_nil_or_concat seg).resolve_left hne
      have hz : z = last := by
        rw [List.append_nil, List.concat_eq_append, ← List.append_assoc] at heq
        exact List.singleton_inj.1 (List.append_inj_right' heq rfl)
      rw [← hz, hseg z (by simp)] at hborder
      cases hborder
    · rw [List.concat_eq_append, ← List.append_assoc, ← List.append_assoc] at heq
      rw [List.concat_eq_append, List.singleton_inj.1 (List.append_inj_right' heq rfl)]
      exact ⟨p, rfl⟩
  have hassoc : ∀ s, pre ++ (s ++ (post ++ [last])) = (pre ++ (s ++ post)) ++ [last] := by
    simp
  rw [hassoc] at h hinside ⊢
  generalize hs : (pre ++ (seg ++ post)) ++ [last] = s at h
  cases h with
  | @main body' last' hlast hbody =>
      obtain ⟨rfl, hz⟩ := List.append_inj' hs rfl
      obtain rfl := List.singleton_inj.1 hz
      simp only [borderless_append] at hbody
      exact .main hlast (by simp [hbody, hseg']) hinside
  | @function name first last' body' hfirst hlast hbody =>
      obtain ⟨hfront, hz⟩ := List.append_inj' hs rfl
      obtain rfl := List.singleton_inj.1 hz
      cases pre with
      | nil =>
          -- the entry is no part of the stretch
          obtain ⟨a, as, rfl⟩ := List.exists_cons_of_ne_nil hne
          obtain ⟨rfl, -⟩ := List.cons.inj hfront
          have ha := hseg a List.mem_cons_self
          rw [hfirst] at ha
          cases ha
      | cons a pre =>
          rw [List.cons_append] at hfront
          obtain ⟨rfl, rfl⟩ := List.cons.inj hfront
          simp only [borderless_append] at hbody
          exact .function hfirst hlast (by simp [hbody, hseg']) hinside

end IsSegment

namespace Segments

theorem append {os' : List (Option String)} (his : Segments os is) (hjs : Segments os' js) :
    Segments (os ++ os') (is ++ js) := by
  induction his with
  | nil => exact hjs
  | cons his _ ih =>
      rw [List.append_assoc]
      exact .cons his ih

/-- **A stretch without borders lies inside one segment.** -/
theorem exists_split (h : Segments os (pre ++ (seg ++ post))) (hne : seg ≠ [])
    (hseg : Borderless seg) :
    ∃ os₁ o os₂ c₁ p q c₂, os = os₁ ++ o :: os₂ ∧ pre = c₁ ++ p ∧ post = q ++ c₂ ∧
      Segments os₁ c₁ ∧ IsSegment o (p ++ (seg ++ q)) ∧ Segments os₂ c₂ := by
  generalize hcode : pre ++ (seg ++ post) = code at h
  induction h generalizing pre with
  | nil => simp [hne] at hcode
  | @cons o os is js his hjs ih =>
      rcases List.append_eq_append_iff.1 hcode with ⟨q, rfl, hrest⟩ | ⟨p, rfl, hrest⟩
      · -- the stretch starts in the first segment, and what ends that is behind it
        obtain ⟨body, last, hlast, hborder, -⟩ := his.exists_last
        rcases List.append_eq_append_iff.1 hrest with ⟨q', rfl, rfl⟩ | ⟨s, rfl, rfl⟩
        · exact ⟨[], o, os, [], pre, q', js, rfl, rfl, rfl, .nil, his, hjs⟩
        · rcases List.eq_nil_or_concat q with rfl | ⟨q, z, rfl⟩
          · -- the stretch starts with the second segment
            obtain ⟨os₁, o', os₂, c₁, p, q, c₂, rfl, hpre, rfl, h₁, h₂, h₃⟩ :=
              @ih [] (by simp)
            obtain ⟨rfl, rfl⟩ := List.append_eq_nil_iff.1 hpre.symm
            exact ⟨o :: os₁, o', os₂, pre ++ [], [], q, c₂, rfl, by simp, rfl,
              by simpa using Segments.cons his h₁, h₂, h₃⟩
          · rw [List.concat_eq_append, ← List.append_assoc] at hlast
            obtain rfl := List.singleton_inj.1 (List.append_inj_right' hlast rfl)
            rw [hseg z (by simp)] at hborder
            cases hborder
      · obtain ⟨os₁, o', os₂, c₁, p', q, c₂, rfl, rfl, rfl, h₁, h₂, h₃⟩ := ih hrest.symm
        exact ⟨o :: os₁, o', os₂, is ++ c₁, p', q, c₂, rfl, by simp, rfl, .cons his h₁, h₂, h₃⟩

/-- **A change of a rule keeps the segments.** -/
theorem of_change (h : Segments os (pre ++ (seg ++ post)))
    (hchange : Peephole.Rewrites pre post seg seg') : Segments os (pre ++ (seg' ++ post)) := by
  have hfixed := hchange.isFixed
  have hborder : ∀ i : Instr, i.op.isFixed = false → i.op.isBorder = false := by
    intro i hi
    cases hop : i.op <;> simp_all [Op.isFixed, Op.isBorder]
  have hne : seg ≠ [] := by
    obtain ⟨i, is, -, -, rfl, -⟩ := hchange.exists_cons
    exact List.cons_ne_nil i is
  obtain ⟨os₁, o, os₂, c₁, p, q, c₂, rfl, rfl, rfl, h₁, hsegment, h₂⟩ :=
    h.exists_split hne fun i hi => hborder i (hfixed.1 i hi)
  have hinside : KeepsInside (p ++ (seg' ++ q)) := by
    intro j hj t ht
    -- a target that was there before the change is there behind it
    have hkept : ∀ t : Target,
        (∃ a ∈ p ++ (seg ++ q), t = .instr a.id ∧ a.op.isEntry = false) →
        ∃ a ∈ p ++ (seg' ++ q), t = .instr a.id ∧ a.op.isEntry = false := by
      rintro t ⟨a, ha, rfl, hentry⟩
      simp only [List.mem_append] at ha ⊢
      rcases ha with ha | ha | ha
      · exact ⟨a, .inl ha, rfl, hentry⟩
      · obtain ⟨b, hb, hid⟩ : ∃ b ∈ seg', b.id = a.id := by
          have hmem : a.id ∈ seg'.map Instr.id := hchange.map_id ▸ List.mem_map_of_mem ha
          exact List.mem_map.1 hmem
        exact ⟨b, .inr (.inl hb), by rw [hid],
          IsSegment.isEntry_of_isBorder (hborder b (hfixed.2 b hb))⟩
      · exact ⟨a, .inr (.inr ha), rfl, hentry⟩
    refine hkept t ?_
    simp only [List.mem_append] at hj
    rcases hj with hj | hj | hj
    · exact hsegment.keepsInside j (by simp [hj]) t ht
    · obtain ⟨i, hi, hit⟩ := hchange.target_mem hj (by simp [ht])
      exact hsegment.keepsInside i (by simp [hi]) t (hit.trans ht)
    · exact hsegment.keepsInside j (by simp [hj]) t ht
  have hnew := hsegment.replace hne (fun i hi => hborder i (hfixed.1 i hi))
    (fun i hi => hborder i (hfixed.2 i hi)) hinside
  simpa using h₁.append (Segments.cons hnew h₂)

end Segments

end Segment

/-! ### Splices of segments -/

namespace Code

variable {is body rest : List Instr} {i last : Instr} {gone : List (Nat × Nat)}

theorem target_redirect_instr {k : Nat} (h : i.target = some (.instr k)) :
    (redirect gone i).target = some (.instr (stands gone k)) := by
  have hk : i.targetId? = some k := by rw [Instr.targetId?, h]
  unfold redirect
  cases hl : gone.lookup k <;> simp [hk, hl, stands, h]

theorem target_redirect_none (h : i.target = none) : (redirect gone i).target = none := by
  simp [redirect, Instr.targetId?, h]

/-- What stays of some instructions, and what takes the place of the others, does not depend on
what is behind one that does something. -/
theorem thin_append (hlast : last.isNop = false) :
    (thin (body ++ [last] ++ rest)).1 = (thin (body ++ [last])).1 ++ (thin rest).1 ∧
      (thin (body ++ [last] ++ rest)).2 = (thin (body ++ [last])).2 ++ (thin rest).2 := by
  have hne : ∀ is, ¬ Goes last is := fun is h => by simpa [hlast] using h.1
  induction body with
  | nil => simp [thin_of_not_goes (hne rest), thin_of_not_goes (hne [])]
  | cons i body ih =>
      rw [List.cons_append, List.cons_append]
      have hgoes : Goes i (body ++ [last] ++ rest) ↔ Goes i (body ++ [last]) := by simp [Goes]
      by_cases h : Goes i (body ++ [last])
      · obtain ⟨j, kept, hkept, heq, hgone⟩ := exists_thin_of_goes h
        obtain ⟨j', kept', hkept', heq', hgone'⟩ := exists_thin_of_goes (hgoes.2 h)
        obtain ⟨rfl, rfl⟩ : j' = j ∧ kept' = kept ++ (thin rest).1 := by
          have hboth := hkept'.symm.trans ih.1
          rw [hkept] at hboth
          exact List.cons.inj hboth
        rw [heq', heq, hgone', hgone, ih.2]
        exact ⟨rfl, rfl⟩
      · obtain ⟨heq, hgone⟩ := thin_of_not_goes h
        obtain ⟨heq', hgone'⟩ := thin_of_not_goes (mt hgoes.1 h)
        rw [heq', heq, hgone', hgone, ih.1, ih.2]
        exact ⟨rfl, rfl⟩

/-- In code behind an instruction that does something, only that stays of the last one. -/
theorem thin_fst_concat (body : List Instr) (last : Instr) :
    (thin (body ++ [last])).1 = body.filter (fun i => !i.isNop) ++ [last] := by
  rw [thin_fst_eq_stays, stays, List.dropLast_concat, List.getLast?_concat, Option.toList_some]

end Code

section Splices

variable {o : Option String} {os : List (Option String)} {is : List Instr}
  {gone : List (Nat × Nat)}

namespace IsSegment

/-- The jumps of a segment stay inside when it is spliced. -/
theorem keepsInside_spliced (h : IsSegment o is) (hnodup : (is.map Instr.id).Nodup)
    (hgone : ∀ i ∈ is, gone.lookup i.id = (Code.thin is).2.lookup i.id) :
    KeepsInside ((Code.thin is).1.map (Code.redirect gone)) := by
  intro i hi t ht
  obtain ⟨i, hmem, rfl⟩ := List.mem_map.1 hi
  cases htarget : i.target with
  | none => rw [Code.target_redirect_none htarget] at ht; cases ht
  | some t' =>
      obtain ⟨a, ha, rfl, hentry⟩ :=
        h.keepsInside i ((Code.thin_sublist is).subset hmem) t' htarget
      rw [Code.target_redirect_instr htarget, Code.stands, hgone a ha, ← Code.stands] at ht
      -- what stands for the target is at or behind it
      obtain ⟨l, hl⟩ := Option.ne_none_iff_exists'.1 fun hnone =>
        Machine.goto?_eq_none.1 hnone (List.mem_map_of_mem (f := Instr.id) ha)
      obtain ⟨u, b, v, hu, rfl, hb, -⟩ := Machine.exists_of_goto? hl
      obtain ⟨u', j, v', hu', hv', hj, -⟩ := Machine.exists_of_goto? (Code.goto?_thin hnodup hl)
      refine ⟨Code.redirect gone j, List.mem_map_of_mem (hu' ▸ by simp), ?_, ?_⟩
      · rw [Code.id_redirect, hj]
        exact (Option.some.inj ht).symm
      · rw [Code.op_redirect]
        have hjmem : j ∈ b :: v := (Code.thin_sublist (b :: v)).subset (hv' ▸ by simp)
        have hba : b = a :=
          List.inj_on_of_nodup_map hnodup (hu ▸ by simp) ha hb
        rcases List.mem_cons.1 hjmem with hjb | hjv
        · rwa [hjb, hba]
        · subst hu
          cases u with
          | nil => exact h.isEntry_of_mem_tail hjv
          | cons c u => exact h.isEntry_of_mem_tail (List.mem_append_right u (.tail b hjv))

/-- **What a splice leaves of a segment is one.** -/
theorem spliced (h : IsSegment o is) (hnodup : (is.map Instr.id).Nodup)
    (hgone : ∀ i ∈ is, gone.lookup i.id = (Code.thin is).2.lookup i.id) :
    IsSegment o ((Code.thin is).1.map (Code.redirect gone)) := by
  have hinside := h.keepsInside_spliced hnodup hgone
  have hbody : ∀ body : List Instr, Borderless body →
      Borderless ((body.filter fun i => !i.isNop).map (Code.redirect gone)) := by
    intro body hbody i hi
    obtain ⟨j, hj, rfl⟩ := List.mem_map.1 hi
    rw [Code.op_redirect]
    exact hbody j (List.mem_filter.1 hj).1
  cases h with
  | @main body last hlast hborder =>
      rw [Code.thin_fst_concat, List.map_append] at hinside ⊢
      exact .main ((Code.op_redirect _ _).trans hlast) (hbody body hborder) hinside
  | @function name first last body hfirst hlast hborder =>
      have hkept : first.isNop = false := by simp [Instr.isNop, hfirst]
      rw [Code.thin_fst_concat, List.map_append, List.filter_cons_of_pos (by simp [hkept]),
        List.map_cons] at hinside ⊢
      exact .function ((Code.op_redirect _ _).trans hfirst) ((Code.op_redirect _ _).trans hlast)
        (hbody body hborder) hinside

theorem isNop_of_isBorder {i : Instr} (h : i.op.isBorder = true) : i.isNop = false := by
  cases hop : i.op <;> simp_all [Op.isBorder, Instr.isNop]

end IsSegment

namespace Segments

/-- What is left of code in segments, with jumps moved as a splice does. -/
theorem map_redirect (h : Segments os is) (hnodup : (is.map Instr.id).Nodup)
    (hgone : ∀ i ∈ is, gone.lookup i.id = (Code.thin is).2.lookup i.id) :
    Segments os ((Code.thin is).1.map (Code.redirect gone)) := by
  induction h with
  | nil => exact .nil
  | @cons o os is js his _ ih =>
      obtain ⟨body, last, rfl, hborder, -⟩ := his.exists_last
      obtain ⟨hkept, hpairs⟩ :=
        @Code.thin_append body js last (IsSegment.isNop_of_isBorder hborder)
      rw [List.map_append, List.nodup_append] at hnodup
      obtain ⟨hfirst, hrest, hdisjoint⟩ := hnodup
      -- what is replaced in one segment has no place in another one
      have hnone : ∀ {a b : List Instr}, (∀ i ∈ a, ∀ j ∈ b, i.id ≠ j.id) →
          ∀ i ∈ a, (Code.thin b).2.lookup i.id = none := by
        intro a b hab i hi
        rw [List.lookup_eq_none_iff]
        intro p hp
        obtain ⟨j, hj, hid⟩ := List.mem_map.1 (Code.mem_of_mem_gone hp).1
        simpa [← hid] using hab i hi j hj
      have hids : ∀ i ∈ body ++ [last], ∀ j ∈ js, i.id ≠ j.id := fun i hi j hj =>
        hdisjoint _ (List.mem_map_of_mem hi) _ (List.mem_map_of_mem hj)
      rw [hkept, List.map_append]
      refine .cons (his.spliced hfirst fun i hi => ?_) (ih hrest fun i hi => ?_)
      · rw [hgone i (List.mem_append_left _ hi), hpairs, List.lookup_append,
          hnone hids i hi, Option.or_none]
      · rw [hgone i (List.mem_append_right _ hi), hpairs, List.lookup_append,
          hnone (fun i hi j hj => (hids j hj i hi).symm) i hi, Option.none_or]

/-- **A splice keeps the segments.** -/
theorem spliced (h : Segments os is) (hreg : Machine.Regular is) : Segments os (Code.spliced is) :=
  h.map_redirect hreg.nodup fun _ _ => rfl

/-- **Changes and splices keep the segments.** -/
theorem of_improved {is' : List Instr} (hsteps : Relation.ReflTransGen Peephole.Improves is is')
    (hreg : Machine.Regular is) (h : Segments os is) : Segments os is' := by
  induction hsteps with
  | refl => exact h
  | tail hsteps hstep ih =>
      cases hstep with
      | change hchange => exact ih.of_change hchange
      | splice => exact ih.spliced (Peephole.regular_of_improved hsteps hreg)

/-- Code in segments ends in an instruction that does something. -/
theorem isNop_getLast (h : Segments os is) : ∀ i ∈ is.getLast?, i.isNop = false := by
  induction h with
  | nil => simp
  | @cons o os is js his hjs ih =>
      obtain ⟨body, last, rfl, hborder, -⟩ := his.exists_last
      intro i hi
      rw [List.getLast?_append, Option.mem_def, Option.or_eq_some_iff] at hi
      rcases hi with hi | ⟨-, hi⟩
      · exact ih i hi
      · rw [List.getLast?_concat, Option.some.injEq] at hi
        exact hi ▸ IsSegment.isNop_of_isBorder hborder

/-- **Nothing is left in spliced segments that does nothing.** -/
theorem isNop_eq_false (h : Segments os is) : ∀ i ∈ Code.spliced is, i.isNop = false := by
  intro i hi
  obtain ⟨j, hj, rfl⟩ := Code.mem_spliced hi
  have hop : (Code.redirect (Code.thin is).2 j).isNop = j.isNop := by simp [Instr.isNop]
  rw [Code.thin_fst_eq_stays, Code.stays, List.mem_append, List.mem_filter,
    Option.mem_toList] at hj
  rw [hop]
  rcases hj with ⟨-, hj⟩ | hj
  · simpa using hj
  · exact h.isNop_getLast j hj

end Segments

end Splices

/-! ### Lowered code -/

namespace Lower

variable {symbols : Symbols} {t : Typing} {r : Round} {f : Inferred} {is : List Instance}
  {k k' : Nat} {code : List Instr}

theorem borderless_copies (k n : Nat) {op : Op} {operand : Operand} (hop : op.isBorder = false) :
    Borderless (copies k n op operand) := by
  intro i hi
  obtain ⟨j, -, rfl⟩ := List.mem_map.1 hi
  exact hop

@[simp] theorem borderless_conversion (k : Nat) (s t : Scalar) :
    Borderless (conversion k s t) := by
  cases s <;> cases t <;> simp [conversion, Instr.plain, Op.isBorder]

@[simp] theorem borderless_verdict (k : Nat) (c : Condition) : Borderless (verdict k c) := by
  simp [verdict, Instr.plain, Instr.jump, Op.isBorder]

theorem borderless_resolved {a : List Instr} (h : Borderless a) : Borderless (resolved k a) := by
  intro i hi
  obtain ⟨j, hj, rfl⟩ := List.mem_map.1 hi
  rw [op_resolveInstr]
  exact h j hj

/-- The code of an expression has no borders. -/
theorem Emits.borderless {site : Site} {piece : Piece} (h : Emits symbols site piece k code k') :
    Borderless code := by
  have hpop : Op.pop.isBorder = false := rfl
  induction h with
  | _ => simp [borderless_copies _ _ hpop, Op.isBorder, Instr.plain, Instr.jump, *]

/-- The jumps of code whose end is known stay inside if those of its body go nowhere else. -/
theorem keepsInside_resolved {pre a post : List Instr} (hpre : ∀ i ∈ pre, i.target = none)
    (hpost : ∀ i ∈ post, i.target = none) (ha : Tidy nowhere a) (hborder : Borderless a)
    (hk : ∃ i ∈ post, i.id = k ∧ i.op.isEntry = false) :
    KeepsInside (resolved k (pre ++ a ++ post)) := by
  intro i hi t ht
  obtain ⟨i, hmem, rfl⟩ := List.mem_map.1 hi
  rw [target_resolveInstr] at ht
  split at ht
  · obtain ⟨j, hj, rfl, hop⟩ := hk
    exact ⟨Code.resolveInstr j.id j, List.mem_map_of_mem (List.mem_append_right _ hj),
      by simpa using ht.symm, by simpa using hop⟩
  · rename_i hne
    have hbody : i ∈ a := by
      simp only [List.mem_append] at hmem
      rcases hmem with (h | h) | h
      · rw [hpre i h] at ht
        cases ht
      · exact h
      · rw [hpost i h] at ht
        cases ht
    cases t with
    | epilogue => exact absurd ht hne
    | instr m =>
        obtain ⟨j, hj, rfl, -⟩ := (ha.targets i hbody m ht).resolve_left id
        exact ⟨Code.resolveInstr k j, List.mem_map_of_mem (by simp [hj]), by simp,
          by simpa using IsSegment.isEntry_of_isBorder (hborder j hj)⟩

theorem target_copies (k n : Nat) (op : Op) (operand : Operand) :
    ∀ i ∈ copies k n op operand, i.target = none := by
  intro i hi
  obtain ⟨j, -, rfl⟩ := List.mem_map.1 hi
  rfl

/-- **The code of a function is a segment.** -/
theorem EmitsFunction.isSegment (h : EmitsFunction symbols f k code k') :
    IsSegment (some f.name) code := by
  cases h with
  | @mk a k₁ comment hbody =>
      have htidy : Tidy nowhere a := hbody.tidy.mono (outs_top (by simp))
      have hinside := @keepsInside_resolved k₁
        (.plain k (.entry f.name) .none :: copies (k + 1) f.scope.locals .load (.int 0)) a
        (⟨k₁, .store, .frame (4 + 4 * f.params.length), none, comment⟩
            :: copies (k₁ + 1) f.scope.locals .pop .none
          ++ [.plain (k₁ + 1 + f.scope.locals) .ret .none])
        (List.forall_mem_cons.2 ⟨rfl, target_copies _ _ _ _⟩)
        (List.forall_mem_append.2 ⟨List.forall_mem_cons.2 ⟨rfl, target_copies _ _ _ _⟩,
          List.forall_mem_singleton.2 rfl⟩)
        htidy hbody.borderless ⟨_, List.mem_cons_self, rfl, rfl⟩
      have hinner : Borderless (copies (k + 1) f.scope.locals .load (.int 0) ++ a ++
          ⟨k₁, .store, .frame (4 + 4 * f.params.length), none, comment⟩
            :: copies (k₁ + 1) f.scope.locals .pop .none) := by
        have hload : Op.load.isBorder = false := rfl
        have hpop : Op.pop.isBorder = false := rfl
        simp only [borderless_append, borderless_cons]
        exact ⟨⟨borderless_copies _ _ hload, hbody.borderless⟩, rfl, borderless_copies _ _ hpop⟩
      rw [← List.append_assoc] at hinside
      rw [List.cons_append, List.cons_append, resolved, List.map_append, List.map_cons]
        at hinside ⊢
      exact .function rfl rfl (borderless_resolved hinner) hinside

/-- **The code of functions consists of their segments.** -/
theorem EmitsFunctions.segments (h : EmitsFunctions r is k code k') :
    Segments (is.map fun i => some i.name) code := by
  induction h with
  | nil => exact .nil
  | @cons i is f k k₁ k₂ a b hfound hf _ ih =>
      have hname : f.name = i.name := by simpa using List.find?_some hfound
      have hsegment := hf.isSegment
      rw [hname] at hsegment
      exact .cons hsegment ih

/-- **The code of a unit consists of segments**: that of its statements, and those of its
functions. -/
theorem EmitsUnit.segments (h : EmitsUnit t code k) :
    Segments (none :: (reached t.round).map fun i => some i.name) code := by
  cases h with
  | @mk n items k₁ k' a b _ hbody hfunctions =>
      have htidy : Tidy nowhere a := hbody.tidy.mono (outs_top (by simp))
      have hinside := @keepsInside_resolved k₁ [] a [.plain k₁ .halt .none] (List.forall_mem_nil _)
        (List.forall_mem_singleton.2 rfl) htidy hbody.borderless ⟨_, List.mem_cons_self, rfl, rfl⟩
      rw [List.nil_append, resolved, List.map_append] at hinside
      rw [resolved, List.map_append]
      exact .cons (.main rfl (borderless_resolved hbody.borderless) hinside) hfunctions.segments

end Lower

end StackLang
