/-
**Taking out instructions keeps the result.**

Before and after a splice code is compared through the places of the old code: what is ahead there
becomes what stays of it.  An instruction that is taken out is a step of the old code alone.  A jump
to it goes to the instruction that takes its place, which is where the old code comes to anyway.

Main results:

* `Code.goto?_thin`, `Code.callee?_thin` — jumps and calls go to what stays of their targets;
* `Code.regular_spliced`, `Code.guarded_spliced` — a splice keeps code regular, and its conditional
  jumps behind the pops whose cells they test;
* `Code.halts_spliced` — a splice keeps what a run to a halt shows.
-/

import StackLang.Code.Splice
import StackLang.Proofs.Machine.Simulation
import StackLang.Proofs.Step

set_option relaxedAutoImplicit false
set_option autoImplicit false

namespace StackLang

namespace Code

open Machine

variable {is : List Instr} {i : Instr}

/-- Whether an instruction is taken out, with the given ones behind it. -/
def Goes (i : Instr) (is : List Instr) : Prop := i.isNop = true ∧ is ≠ []

/-- The instructions that are left when code is spliced. -/
def spliced (is : List Instr) : List Instr := (thin is).1.map (redirect (thin is).2)

@[simp] theorem thin_nil : thin [] = ([], []) := rfl

theorem thin_fst_eq_nil : (thin is).1 = [] ↔ is = [] := by
  cases is with
  | nil => simp
  | cons i is =>
      rw [thin]
      split <;> simp

/-- An instruction that goes leaves what stays behind it. -/
theorem exists_thin_of_goes (h : Goes i is) :
    ∃ j kept, (thin is).1 = j :: kept ∧ (thin (i :: is)).1 = j :: kept ∧
      (thin (i :: is)).2 = (i.id, j.id) :: (thin is).2 := by
  cases hk : (thin is).1 with
  | nil => exact absurd (thin_fst_eq_nil.1 hk) h.2
  | cons j kept =>
      have ht : thin is = (j :: kept, (thin is).2) := by rw [← hk]
      refine ⟨j, kept, rfl, ?_, ?_⟩
      · rw [thin, h.1, ht]
      · rw [thin, h.1, ht]

/-- An instruction that does not go stays. -/
theorem thin_of_not_goes (h : ¬ Goes i is) :
    (thin (i :: is)).1 = i :: (thin is).1 ∧ (thin (i :: is)).2 = (thin is).2 := by
  rw [thin]
  by_cases hi : i.isNop = true
  · obtain rfl : is = [] := by
      by_contra hne
      exact h ⟨hi, hne⟩
    simp
  · simp [hi]

/-- What stays was there before. -/
theorem thin_sublist (is : List Instr) : (thin is).1.Sublist is := by
  induction is with
  | nil => exact .slnil
  | cons i is ih =>
      by_cases h : Goes i is
      · obtain ⟨j, kept, hkept, heq, -⟩ := exists_thin_of_goes h
        rw [heq, ← hkept]
        exact ih.cons i
      · rw [(thin_of_not_goes h).1]
        exact ih.cons_cons i

/-- A replaced instruction has its place in the code, and the one that replaces it stays. -/
theorem mem_of_mem_gone {p : Nat × Nat} (h : p ∈ (thin is).2) :
    p.1 ∈ is.map Instr.id ∧ p.2 ∈ (thin is).1.map Instr.id := by
  induction is with
  | nil => cases h
  | cons i is ih =>
      by_cases hi : Goes i is
      · obtain ⟨j, kept, hkept, heq, hgone⟩ := exists_thin_of_goes hi
        rw [hgone] at h
        rw [heq]
        rcases List.mem_cons.1 h with rfl | h
        · simp
        · exact ⟨List.mem_cons_of_mem _ (ih h).1, hkept ▸ (ih h).2⟩
      · rw [(thin_of_not_goes hi).2] at h
        rw [(thin_of_not_goes hi).1]
        exact ⟨List.mem_cons_of_mem _ (ih h).1, List.mem_cons_of_mem _ (ih h).2⟩

/-! ### Targets -/

/-- The instruction that takes the place of `k`, or `k` itself. -/
def stands (gone : List (Nat × Nat)) (k : Nat) : Nat := (gone.lookup k).getD k

@[simp] theorem id_redirect (gone : List (Nat × Nat)) (i : Instr) :
    (redirect gone i).id = i.id := by
  unfold redirect
  split <;> rfl

@[simp] theorem op_redirect (gone : List (Nat × Nat)) (i : Instr) :
    (redirect gone i).op = i.op := by
  unfold redirect
  split <;> rfl

@[simp] theorem operand_redirect (gone : List (Nat × Nat)) (i : Instr) :
    (redirect gone i).operand = i.operand := by
  unfold redirect
  split <;> rfl

theorem targetId?_redirect (gone : List (Nat × Nat)) (i : Instr) :
    (redirect gone i).targetId? = i.targetId?.map (stands gone) := by
  unfold redirect
  cases hk : i.targetId? with
  | none => simp [hk]
  | some k =>
      cases hl : gone.lookup k with
      | none => simpa [hl, stands] using hk
      | some j => simp [hl, stands, Instr.targetId?]

theorem map_id_redirect (gone : List (Nat × Nat)) (is : List Instr) :
    (is.map (redirect gone)).map Instr.id = is.map Instr.id := by
  simp

theorem goto?_map {f : Instr → Instr} (hf : ∀ i, (f i).id = i.id) (k : Nat) (is : List Instr) :
    goto? k (is.map f) = (goto? k is).map (List.map f) := by
  induction is with
  | nil => rfl
  | cons i is ih =>
      rw [List.map_cons, goto?, goto?, hf]
      split
      · rfl
      · exact ih

theorem callee?_map {f : Instr → Instr} (hf : ∀ i, (f i).op = i.op) (name : String)
    (is : List Instr) : callee? name (is.map f) = (callee? name is).map (List.map f) := by
  induction is with
  | nil => rfl
  | cons i is ih =>
      rw [List.map_cons, callee?, callee?, hf, ih]
      cases callee? name is with
      | some r => rfl
      | none =>
          simp only [Option.map_none]
          split <;> rfl

/-- **A jump goes to what stays of its target.** -/
theorem goto?_thin (hnodup : (is.map Instr.id).Nodup) {k : Nat} {l : List Instr}
    (h : goto? k is = some l) : goto? (stands (thin is).2 k) (thin is).1 = some (thin l).1 := by
  induction is with
  | nil => cases h
  | cons i is ih =>
      rw [List.map_cons, List.nodup_cons] at hnodup
      rw [goto?] at h
      by_cases hi : Goes i is
      · obtain ⟨j, kept, hkept, heq, hgone⟩ := exists_thin_of_goes hi
        by_cases hk : i.id = k
        · rw [if_pos hk, Option.some.injEq] at h
          rw [← h, hgone, heq]
          simp [stands, goto?, hk]
        · rw [if_neg hk] at h
          have hlookup : stands ((i.id, j.id) :: (thin is).2) k = stands (thin is).2 k := by
            have : (k == i.id) = false := by simpa using fun h => hk h.symm
            simp [stands, List.lookup_cons, this]
          rw [heq, hgone, hlookup, ← hkept]
          exact ih hnodup.2 h
      · obtain ⟨heq, hgone⟩ := thin_of_not_goes hi
        rw [heq, hgone, goto?]
        by_cases hk : i.id = k
        · rw [if_pos hk, Option.some.injEq] at h
          have hlookup : (thin is).2.lookup k = none := by
            rw [List.lookup_eq_none_iff]
            intro p hp
            rw [bne_iff_ne]
            rintro rfl
            exact hnodup.1 (hk ▸ (mem_of_mem_gone hp).1)
          rw [← h, heq, stands, hlookup, Option.getD_none, if_pos hk]
        · rw [if_neg hk] at h
          have hgoto := ih hnodup.2 h
          have hne : i.id ≠ stands (thin is).2 k := by
            intro hid
            obtain ⟨u, a, v, hu, -, ha, -⟩ := exists_of_goto? hgoto
            refine hnodup.1 ?_
            rw [hid, ← ha]
            exact List.mem_map_of_mem ((thin_sublist is).subset (by rw [hu]; simp))
          rw [if_neg hne]
          exact hgoto

/-- **A call goes to what stays of the function.** -/
theorem callee?_thin (name : String) (is : List Instr) :
    callee? name (thin is).1 = (callee? name is).map fun l => (thin l).1 := by
  induction is with
  | nil => rfl
  | cons i is ih =>
      rw [callee?]
      by_cases hi : Goes i is
      · obtain ⟨j, kept, hkept, heq, -⟩ := exists_thin_of_goes hi
        have hop : i.op = .nop := by simpa [Instr.isNop] using hi.1
        rw [heq, ← hkept, ih]
        cases callee? name is <;> simp [hop]
      · rw [(thin_of_not_goes hi).1, callee?, ih]
        cases callee? name is with
        | some l => rfl
        | none =>
            simp only [Option.map_none]
            split
            · simp [(thin_of_not_goes hi).1]
            · rfl

/-! ### What a splice keeps -/

theorem mem_spliced {a : Instr} (h : a ∈ spliced is) :
    ∃ b ∈ (thin is).1, a = redirect (thin is).2 b := by
  obtain ⟨b, hb, rfl⟩ := List.mem_map.1 h
  exact ⟨b, hb, rfl⟩

/-- **A splice keeps code regular.** -/
theorem regular_spliced (h : Regular is) : Regular (spliced is) := by
  refine ⟨?_, ?_⟩
  · rw [spliced, map_id_redirect]
    exact h.nodup.sublist ((thin_sublist is).map _)
  · intro a ha hop
    obtain ⟨b, hb, rfl⟩ := mem_spliced ha
    have htarget := h.onlyJumps b ((thin_sublist is).subset hb) (by simpa using hop)
    simp [redirect, Instr.targetId?, htarget]

theorem quiet_of_isNop {j : Instr} {js : List Instr} (hchain : (i :: j :: js).IsChain Follower)
    (hi : i.isNop = true) : Quiet (j :: js) := by
  rw [quiet_cons]
  by_contra hj
  have hop : i.op = .pop := (List.isChain_cons_cons.1 hchain).1 (by simpa using hj)
  simp [Instr.isNop, hop] at hi

/-- Code that starts quietly does so when it is spliced. -/
theorem quiet_thin (hchain : is.IsChain Follower) (h : Quiet is) : Quiet (thin is).1 := by
  induction is with
  | nil => exact h
  | cons i is ih =>
      by_cases hi : Goes i is
      · obtain ⟨j, kept, hkept, heq, -⟩ := exists_thin_of_goes hi
        rw [heq, ← hkept]
        cases is with
        | nil => exact absurd rfl hi.2
        | cons j js => exact ih (List.isChain_cons_cons.1 hchain).2 (quiet_of_isNop hchain hi.1)
      · rw [(thin_of_not_goes hi).1]
        exact quiet_cons.2 (quiet_cons.1 h)

theorem isChain_thin (hchain : is.IsChain Follower) : (thin is).1.IsChain Follower := by
  induction is with
  | nil => exact hchain
  | cons i is ih =>
      have htail : is.IsChain Follower := hchain.tail
      by_cases hi : Goes i is
      · obtain ⟨j, kept, hkept, heq, -⟩ := exists_thin_of_goes hi
        rw [heq, ← hkept]
        exact ih htail
      · rw [(thin_of_not_goes hi).1]
        refine (ih htail).cons fun b hb hop => ?_
        cases is with
        | nil => simp at hb
        | cons j js =>
            by_cases hj : j.op.isConditionalJump = true
            · exact (List.isChain_cons_cons.1 hchain).1 hj
            · -- quiet code stays so, and then no conditional jump comes first
              have hquiet := quiet_thin htail (quiet_cons.2 (by simpa using hj))
              simp [hquiet b hb] at hop

/-- What takes the place of an instruction is no conditional jump. -/
theorem quiet_of_mem_gone (hnodup : (is.map Instr.id).Nodup) (hchain : is.IsChain Follower)
    {p : Nat × Nat} (hp : p ∈ (thin is).2) {b : Instr} (hb : b ∈ (thin is).1) (hid : b.id = p.2) :
    b.op.isConditionalJump = false := by
  induction is with
  | nil => cases hp
  | cons i is ih =>
      rw [List.map_cons, List.nodup_cons] at hnodup
      by_cases hi : Goes i is
      · obtain ⟨j, kept, hkept, heq, hgone⟩ := exists_thin_of_goes hi
        rw [heq, ← hkept] at hb
        rw [hgone] at hp
        rcases List.mem_cons.1 hp with rfl | hp
        · -- the instruction that comes next is quiet, and no other one has its identity
          have hquiet : Quiet (thin is).1 := by
            cases is with
            | nil => exact absurd rfl hi.2
            | cons a as => exact quiet_thin hchain.tail (quiet_of_isNop hchain hi.1)
          have hkeptNodup : ((j :: kept).map Instr.id).Nodup :=
            hkept ▸ hnodup.2.sublist ((thin_sublist is).map _)
          rw [hkept] at hb hquiet
          rcases List.mem_cons.1 hb with rfl | hb
          · exact quiet_cons.1 hquiet
          · rw [List.map_cons, List.nodup_cons] at hkeptNodup
            have hmem : b.id ∈ kept.map Instr.id := List.mem_map_of_mem hb
            rw [hid] at hmem
            exact absurd hmem hkeptNodup.1
        · exact ih hnodup.2 hchain.tail hp hb
      · rw [(thin_of_not_goes hi).1] at hb
        rw [(thin_of_not_goes hi).2] at hp
        rcases List.mem_cons.1 hb with rfl | hb
        · have hmem := ((thin_sublist is).map Instr.id).subset (mem_of_mem_gone hp).2
          rw [← hid] at hmem
          exact absurd hmem hnodup.1
        · exact ih hnodup.2 hchain.tail hp hb

/-- **A splice keeps conditional jumps behind the pops whose cells they test.** -/
theorem guarded_spliced (hreg : Regular is) (h : Guarded is) : Guarded (spliced is) := by
  refine ⟨?_, ?_, ?_⟩
  · have hquiet := quiet_thin h.chain h.quiet
    rw [spliced]
    cases hk : (thin is).1 with
    | nil => simp
    | cons j kept =>
        rw [hk] at hquiet
        simpa using hquiet
  · refine List.isChain_map_of_isChain _ (fun a b hab => ?_) (isChain_thin h.chain)
    simpa [Follower] using hab
  · intro a ha k hk b hb hbk
    obtain ⟨a, ha', rfl⟩ := mem_spliced ha
    obtain ⟨b, hb', rfl⟩ := mem_spliced hb
    rw [targetId?_redirect, Option.map_eq_some_iff] at hk
    obtain ⟨k', hk', rfl⟩ := hk
    rw [id_redirect] at hbk
    rw [op_redirect]
    cases hl : (thin is).2.lookup k' with
    | none =>
        rw [stands, hl, Option.getD_none] at hbk
        exact h.untargeted a ((thin_sublist is).subset ha') k' hk' b ((thin_sublist is).subset hb')
          hbk
    | some m =>
        rw [stands, hl, Option.getD_some] at hbk
        exact quiet_of_mem_gone hreg.nodup h.chain (mem_of_lookup hl) hb' hbk

/-- **A splice keeps what a run to a halt shows.** -/
theorem halts_spliced (hreg : Regular is) (h : Guarded is) {o : Outcome} (ho : Halts is o) :
    Halts (spliced is) o := by
  let left (r : List Instr) : List Instr := (thin r).1.map (redirect (thin is).2)
  refine @halts_of_follows (fun r r' => r <:+ is ∧ r' = left r) is (spliced is)
    (fun s t hst => ?_) ⟨List.suffix_rfl, rfl⟩ h.quiet o ho
  obtain ⟨hsuffix, hrest⟩ := hst.rest
  cases hs : s.rest with
  | nil =>
      intro n o hn
      cases n with
      | zero => cases hn
      | succ n => simp [run_succ, step, hs] at hn
  | cons i r =>
      rw [hs] at hsuffix hrest
      obtain ⟨pre, hpre⟩ := hsuffix
      have hr : r <:+ is := ⟨pre ++ [i], by simp [hpre]⟩
      have hquiet : i.op ≠ .pop → Quiet r := by
        rw [← hpre] at h
        exact h.quiet_tail
      by_cases hi : Goes i r
      · -- the old code passes what was taken out
        have hop : i.op = .nop := by simpa [Instr.isNop] using hi.1
        refine .of_execute hs (by simp [hop]) fun s₁ h₁ => ?_
        cases (execute_still (.inl hop)).1 h₁
        obtain ⟨j, kept, hkept, heq, -⟩ := exists_thin_of_goes hi
        refine .of_alike ⟨⟨hr, ?_⟩, hst.stack, hst.base, hst.frames, hst.globals,
          .inl (hquiet (by simp [hop]))⟩
        simp only [hrest, left, heq, hkept]
      · have hrest' : t.rest = redirect (thin is).2 i :: left r := by
          simp only [hrest, left, (thin_of_not_goes hi).1, List.map_cons]
        refine follows_of_lockstep hst hs hrest' (op_redirect _ _) (operand_redirect _ _)
          ⟨hr, rfl⟩ hquiet (fun l hl => ?_) (fun name l hl => ?_)
        · obtain ⟨k, hk, hgoto⟩ := Option.bind_eq_some_iff.1 hl
          obtain ⟨u, j, v, hu, rfl, -⟩ := exists_of_goto? hgoto
          refine ⟨left (j :: v), ?_, ⟨⟨u, hu.symm⟩, rfl⟩,
            h.quiet_landing (by rw [← hpre]; simp) hl⟩
          rw [landing?, targetId?_redirect, hk, Option.map_some, Option.bind_some, spliced,
            goto?_map (id_redirect _), goto?_thin hreg.nodup hgoto]
          rfl
        · obtain ⟨u, j, v, hu, rfl, -⟩ := exists_of_callee? hl
          refine ⟨left (j :: v), ?_, ⟨⟨u, hu.symm⟩, rfl⟩, quiet_callee hl⟩
          rw [spliced, callee?_map (op_redirect _), callee?_thin, hl]
          rfl

end Code

end StackLang
