/-
**What the optimizer leaves alone.**

The rules change jumps, pushes and pops.  Calls, stores, returns, the halt and the entries of
functions stay as they are and in order, and so the optimizer keeps which functions are called and
which have code.  What it puts in the place of other instructions refers to nothing new, and its
splices move jumps only to instructions that stay.

Main definitions:

* `Op.isFixed` — the instructions that no rule changes;
* `fixedPart` — these of some code, in order.

Main results:

* `Peephole.fixedPart_of_improved` — the optimizer keeps these instructions;
* `Peephole.allPlaced_of_improved` — what optimized code refers to exists;
* `Peephole.linked_of_improved` — its jumps go to instructions.
-/

import StackLang.Proofs.Lower.Calls
import StackLang.Proofs.Peephole.Optimize

set_option relaxedAutoImplicit false
set_option autoImplicit false

namespace StackLang

/-! ### Instructions that stay -/

/-- Whether no rule of the optimizer changes such an instruction. -/
def Op.isFixed : Op → Bool
  | .store | .call | .ret | .halt | .assembly _ | .entry _ => true
  | _ => false

/-- The instructions that no rule changes, in order. -/
def fixedPart (is : List Instr) : List (Op × Operand) :=
  is.filterMap fun i => if i.op.isFixed then some (i.op, i.operand) else none

section FixedPart

variable {is js : List Instr} {i : Instr}

@[simp] theorem fixedPart_append : fixedPart (is ++ js) = fixedPart is ++ fixedPart js :=
  List.filterMap_append

theorem fixedPart_cons_of_fixed (h : i.op.isFixed = true) :
    fixedPart (i :: is) = (i.op, i.operand) :: fixedPart is :=
  List.filterMap_cons_some (if_pos h)

theorem fixedPart_cons_of_not_fixed (h : i.op.isFixed = false) :
    fixedPart (i :: is) = fixedPart is := List.filterMap_cons_none (by simp [h])

theorem fixedPart_eq_nil (h : ∀ i ∈ is, i.op.isFixed = false) : fixedPart is = [] := by
  simpa [fixedPart, List.filterMap_eq_nil_iff] using h

theorem mem_fixedPart {p : Op × Operand} :
    p ∈ fixedPart is ↔ p.1.isFixed = true ∧ ∃ i ∈ is, (i.op, i.operand) = p := by
  simp only [fixedPart, List.mem_filterMap, Option.ite_none_right_eq_some, Option.some.injEq]
  constructor
  · rintro ⟨i, hi, hop, rfl⟩
    exact ⟨hop, i, hi, rfl⟩
  · rintro ⟨hop, i, hi, rfl⟩
    exact ⟨i, hi, hop, rfl⟩

/-- The calls are among the instructions that stay. -/
theorem callees_eq_fixedPart (is : List Instr) :
    callees is = (fixedPart is).filterMap fun p => p.1.callee? p.2 := by
  induction is with
  | nil => rfl
  | cons i is ih =>
      cases h : i.op.isFixed with
      | true =>
          rw [fixedPart_cons_of_fixed h, List.filterMap_cons, ← ih]
          exact List.filterMap_cons
      | false =>
          have hfree : i.op.isFree = true := by
            cases hop : i.op <;> simp_all [Op.isFree, Op.isFixed]
          rw [fixedPart_cons_of_not_fixed h, callees_cons_of_isFree hfree, ih]

/-- The entries of functions are among the instructions that stay. -/
theorem entries_eq_fixedPart (is : List Instr) :
    entries is = (fixedPart is).filterMap fun p => p.1.starts? := by
  induction is with
  | nil => rfl
  | cons i is ih =>
      cases h : i.op.isFixed with
      | true =>
          rw [fixedPart_cons_of_fixed h, List.filterMap_cons, ← ih]
          exact List.filterMap_cons
      | false =>
          have hentry : i.op.starts? = none := by
            cases hop : i.op <;> simp_all [Op.starts?, Op.isFixed]
          rw [fixedPart_cons_of_not_fixed h, entries_cons, hentry, Option.toList_none,
            List.nil_append, ih]

end FixedPart

namespace Peephole

open Machine Relation

variable {code code' : List Instr}

/-! ### Changes of rules -/

namespace Rewrites

variable {pre post seg seg' : List Instr}

/-- What is changed is none of the instructions that stay, before or after. -/
theorem isFixed (h : Rewrites pre post seg seg') :
    (∀ i ∈ seg, i.op.isFixed = false) ∧ ∀ i ∈ seg', i.op.isFixed = false := by
  cases h with
  | comparison hfirst _ _ hzero hskip _ hpush hdrop htest =>
      simp [hfirst, (op_of_pushed? hzero).1, hskip, (op_of_pushed? hpush).1, hdrop, htest,
        Instr.erase, Op.isFixed]
  | idleJump hop => simp [hop, Instr.erase, Op.isFixed]
  | sureJump hfirst hdrop htest | neverJump hfirst hdrop htest =>
      simp [(op_of_pushed? hfirst).1, hdrop, htest, Instr.erase, Op.isFixed]
  | deadPair hfirst hdrop => rcases hfirst with h | h <;> simp [h, hdrop, Instr.erase, Op.isFixed]
  | floatLiteral hfirst hchange =>
      simp [(op_of_pushed? hfirst).1, hchange, Instr.erase, Op.isFixed]
  | duplicateLoad hfirst hsecond => simp [hfirst, hsecond, Op.isFixed]

/-- What an instruction refers to after a change, one referred to before; and so for remarks. -/
theorem operand_or_comment (h : Rewrites pre post seg seg') {j : Instr} (hj : j ∈ seg') :
    (j.operand.isValue = true ∨ ∃ i ∈ seg, i.operand = j.operand) ∧
      (j.comment = none ∨ ∃ i ∈ seg, i.comment = j.comment) := by
  -- what is erased keeps nothing, and no rule makes an operand up but a value
  have herase : ∀ i : Instr, i.erase.operand.isValue = true ∧ i.erase.comment = none :=
    fun _ => ⟨rfl, rfl⟩
  cases h with
  | comparison =>
      rcases List.mem_cons.1 hj with rfl | hj
      · exact ⟨.inr ⟨_, List.mem_cons_self, rfl⟩, .inr ⟨_, List.mem_cons_self, rfl⟩⟩
      · simp only [List.mem_cons, List.not_mem_nil, or_false] at hj
        rcases hj with rfl | rfl | rfl | rfl | rfl <;>
          exact ⟨.inl (herase _).1, .inl (herase _).2⟩
  | idleJump =>
      rw [List.mem_singleton.1 hj]
      exact ⟨.inl (herase _).1, .inl (herase _).2⟩
  | sureJump =>
      simp only [List.mem_cons, List.not_mem_nil, or_false] at hj
      rcases hj with rfl | rfl | rfl
      · exact ⟨.inl rfl, .inl rfl⟩
      all_goals exact ⟨.inl (herase _).1, .inl (herase _).2⟩
  | neverJump =>
      simp only [List.mem_cons, List.not_mem_nil, or_false] at hj
      rcases hj with rfl | rfl | rfl <;> exact ⟨.inl (herase _).1, .inl (herase _).2⟩
  | deadPair =>
      simp only [List.mem_cons, List.not_mem_nil, or_false] at hj
      rcases hj with rfl | rfl <;> exact ⟨.inl (herase _).1, .inl (herase _).2⟩
  | floatLiteral =>
      simp only [List.mem_cons, List.not_mem_nil, or_false] at hj
      rcases hj with rfl | rfl
      · exact ⟨.inl rfl, .inl rfl⟩
      · exact ⟨.inl (herase _).1, .inl (herase _).2⟩
  | duplicateLoad =>
      simp only [List.mem_cons, List.not_mem_nil, or_false] at hj
      rcases hj with rfl | rfl
      · exact ⟨.inr ⟨_, List.mem_cons_self, rfl⟩, .inr ⟨_, List.mem_cons_self, rfl⟩⟩
      · exact ⟨.inl rfl, .inl rfl⟩

/-- **What changed instructions refer to exists.** -/
theorem allPlaced {w : Nat} {ss : Symbols} (h : Rewrites pre post seg seg')
    (hseg : Lower.AllPlaced w ss seg) : Lower.AllPlaced w ss seg' := by
  intro j hj
  obtain ⟨hoperand, hcomment⟩ := h.operand_or_comment hj
  have hfixed := h.isFixed.2 j hj
  have hcall : j.op ≠ .call := by
    intro hop
    rw [hop] at hfixed
    cases hfixed
  constructor
  case noAssembly =>
    intro text hop
    rw [hop] at hfixed
    cases hfixed
  case callee => exact fun hop => absurd hop hcall
  case label =>
    -- a label is the operand of a call, which no rule changes
    intro name hname
    rcases hoperand with hvalue | ⟨i, hi, hsame⟩
    · rw [hname] at hvalue
      cases hvalue
    · have hop := h.isFixed.1 i hi
      rw [(hseg i hi).label name (hsame.trans hname)] at hop
      cases hop
  case cell =>
    intro l hl
    rcases hoperand with hvalue | ⟨i, hi, hsame⟩
    · rw [hl] at hvalue
      cases hvalue
    · exact (hseg i hi).cell l (hsame.trans hl)
  case place =>
    intro offset ho
    rcases hoperand with hvalue | ⟨i, hi, hsame⟩
    · rw [ho] at hvalue
      cases hvalue
    · exact (hseg i hi).place offset (hsame.trans ho)
  case remark =>
    intro text htext
    rcases hcomment with hnone | ⟨i, hi, hsame⟩
    · rw [hnone] at htext
      cases htext
    · exact (hseg i hi).remark text (hsame.trans htext)

/-- The jumps that a change makes have targets. -/
theorem targeted (h : Rewrites pre post seg seg') (hseg : Targeted seg) : Targeted seg' := by
  have herase : ∀ i : Instr, i.erase.op.isJump = false := fun _ => rfl
  cases h with
  | @comparison _ _ _ _ _ test _ _ _ _ _ _ _ _ _ _ htest =>
      have htarget : test.target ≠ none := hseg test (by simp) (by rw [htest]; rfl)
      simp [herase, htarget]
  | @sureJump _ _ test _ _ _ _ htest =>
      have htarget : test.target ≠ none := hseg test (by simp) (by rw [htest]; rfl)
      simp [herase, htarget]
  | floatLiteral =>
      simp only [targeted_cons] at hseg
      simpa [herase] using hseg.1
  | duplicateLoad =>
      simp only [targeted_cons] at hseg
      simpa [Op.isJump] using hseg.1
  | _ => simp [herase]

end Rewrites

/-! ### Splices -/

theorem comment_redirect (gone : List (Nat × Nat)) (i : Instr) :
    (Code.redirect gone i).comment = i.comment := by
  unfold Code.redirect
  split <;> rfl

theorem fixedPart_thin (is : List Instr) : fixedPart (Code.thin is).1 = fixedPart is := by
  induction is with
  | nil => rfl
  | cons i is ih =>
      by_cases h : Code.Goes i is
      · obtain ⟨j, kept, hkept, heq, -⟩ := Code.exists_thin_of_goes h
        have hop : i.op = .nop := by simpa [Instr.isNop] using h.1
        rw [heq, ← hkept, ih, fixedPart_cons_of_not_fixed (by rw [hop]; rfl)]
      · rw [(Code.thin_of_not_goes h).1]
        cases hi : i.op.isFixed with
        | true => rw [fixedPart_cons_of_fixed hi, fixedPart_cons_of_fixed hi, ih]
        | false => rw [fixedPart_cons_of_not_fixed hi, fixedPart_cons_of_not_fixed hi, ih]

/-- A splice keeps the instructions that no rule changes. -/
theorem fixedPart_spliced (is : List Instr) : fixedPart (Code.spliced is) = fixedPart is := by
  rw [← fixedPart_thin is, Code.spliced, fixedPart, List.filterMap_map]
  simp [fixedPart]

/-- **A splice moves jumps to instructions that stay.** -/
theorem linked_spliced {is : List Instr} (hreg : Regular is) (h : Linked is) :
    Linked (Code.spliced is) := by
  have hmap : (Code.spliced is).map Instr.id = (Code.thin is).1.map Instr.id :=
    Code.map_id_redirect _ _
  have hnone : ∀ b : Instr, (Code.redirect (Code.thin is).2 b).target = none ↔ b.target = none := by
    intro b
    unfold Code.redirect
    split
    · rename_i k hk
      obtain ⟨j, hj, -⟩ := Option.bind_eq_some_iff.1 hk
      refine iff_of_false (Option.some_ne_none _) fun hb => ?_
      simp [Instr.targetId?, hb] at hj
    · rfl
  constructor
  case targeted =>
    intro a ha hop
    obtain ⟨b, hb, rfl⟩ := Code.mem_spliced ha
    rw [Ne, hnone]
    exact h.targeted b ((Code.thin_sublist is).subset hb) (by simpa using hop)
  intro a ha target htarget
  obtain ⟨b, hb, rfl⟩ := Code.mem_spliced ha
  cases hbt : b.target with
  | none =>
      rw [(hnone b).2 hbt] at htarget
      cases htarget
  | some t =>
      obtain ⟨k, rfl, hk⟩ := h.target b ((Code.thin_sublist is).subset hb) t hbt
      -- the target is in the code, so what stands for it stays
      obtain ⟨l, hl⟩ := Option.ne_none_iff_exists'.1 fun hnone => Machine.goto?_eq_none.1 hnone hk
      obtain ⟨u, j, v, hu, -, hj, -⟩ := Machine.exists_of_goto? (Code.goto?_thin hreg.nodup hl)
      have htargetId : (Code.redirect (Code.thin is).2 b).targetId?
          = some (Code.stands (Code.thin is).2 k) := by
        rw [Code.targetId?_redirect, Instr.targetId?, hbt, Option.map_some]
      refine ⟨Code.stands (Code.thin is).2 k, ?_, ?_⟩
      · cases target with
        | instr m => simpa [Instr.targetId?, htarget] using htargetId
        | epilogue => simp [Instr.targetId?, htarget] at htargetId
      · rw [hmap, hu, ← hj]
        simp

/-! ### The optimizer -/

theorem Improves.fixedPart_eq (h : Improves code code') : fixedPart code' = fixedPart code := by
  cases h with
  | change h =>
      rw [fixedPart_append, fixedPart_append, fixedPart_append, fixedPart_append,
        fixedPart_eq_nil h.isFixed.1, fixedPart_eq_nil h.isFixed.2]
  | splice => exact fixedPart_spliced code

/-- **The optimizer keeps the instructions that no rule changes**, in order. -/
theorem fixedPart_of_improved (h : ReflTransGen Improves code code') :
    fixedPart code' = fixedPart code := by
  induction h with
  | refl => rfl
  | tail _ h ih => rw [h.fixedPart_eq, ih]

theorem Improves.allPlaced {w : Nat} {ss : Symbols} (h : Improves code code')
    (hcode : Lower.AllPlaced w ss code) : Lower.AllPlaced w ss code' := by
  cases h with
  | change h =>
      obtain ⟨hpre, hrest⟩ := List.forall_mem_append.1 hcode
      obtain ⟨hseg, hpost⟩ := List.forall_mem_append.1 hrest
      exact Lower.AllPlaced.append hpre ((h.allPlaced hseg).append hpost)
  | splice =>
      intro a ha
      obtain ⟨b, hb, rfl⟩ := Code.mem_spliced ha
      exact (hcode b ((Code.thin_sublist code).subset hb)).congr (Code.op_redirect _ _)
        (Code.operand_redirect _ _) (comment_redirect _ _)

/-- **What optimized code refers to exists.** -/
theorem allPlaced_of_improved {w : Nat} {ss : Symbols} (h : ReflTransGen Improves code code')
    (hcode : Lower.AllPlaced w ss code) : Lower.AllPlaced w ss code' := by
  induction h with
  | refl => exact hcode
  | tail _ h ih => exact h.allPlaced ih

theorem Improves.linked (h : Improves code code') (hreg : Regular code) (hcode : Linked code) :
    Linked code' := by
  cases h with
  | @change pre post seg seg' h =>
      obtain ⟨hpre, hrest⟩ := targeted_append.1 hcode.targeted
      obtain ⟨hseg, hpost⟩ := targeted_append.1 hrest
      have hids : (pre ++ (seg' ++ post)).map Instr.id = (pre ++ (seg ++ post)).map Instr.id := by
        simp [h.map_id]
      refine ⟨targeted_append.2 ⟨hpre, targeted_append.2 ⟨h.targeted hseg, hpost⟩⟩,
        fun j hj t ht => ?_⟩
      -- each jump has the target of one that was there before
      obtain ⟨i, hi, hit⟩ : ∃ i ∈ pre ++ (seg ++ post), i.target = some t := by
        rcases List.mem_append.1 hj with hj | hj
        · exact ⟨j, by simp [hj], ht⟩
        · rcases List.mem_append.1 hj with hj | hj
          · obtain ⟨i, hi, hit⟩ := h.target_mem hj (by simp [ht])
            exact ⟨i, by simp [hi], hit.trans ht⟩
          · exact ⟨j, by simp [hj], ht⟩
      rw [hids]
      exact hcode.target i hi t hit
  | splice => exact linked_spliced hreg hcode

/-- **The jumps of optimized code go to its instructions.** -/
theorem linked_of_improved (h : ReflTransGen Improves code code') (hreg : Regular code)
    (hcode : Linked code) : Linked code' := by
  induction h with
  | refl => exact hcode
  | tail hs h ih => exact h.linked (regular_of_improved hs hreg) ih

end Peephole

end StackLang
