/-
**What the rules of the optimizer do.**

A rule changes a few instructions in the middle of code.  Here each rule is described by what it
finds and what it leaves, in terms of the whole code: which instructions no jump goes to.  The count
of jumps that a pass carries along is left behind once it is shown to be exact.

Main definitions:

* `Peephole.jumpsTo` — the number of jumps to an instruction;
* `Peephole.Exact` — a count of jumps that is right for a code;
* `Peephole.Rewrites` — the changes that the rules make.

Main results:

* `Peephole.count_ofInstrs` — the count at the start of a pass is exact;
* `Peephole.exists_of_comparisonJump` and its like — what each rule finds where it applies, and what
  it leaves;
* `Peephole.changed_of_firstRule` — a rule that applies makes one of the changes, and the count
  stays exact;
* `Peephole.Rewrites.regular`, `Peephole.Rewrites.guarded` — a change keeps the code regular, and
  its conditional jumps behind the pops whose cells they test.
-/

import StackLang.Code.Peephole
import StackLang.Proofs.Machine.Simulation

set_option relaxedAutoImplicit false
set_option autoImplicit false

namespace StackLang

namespace Peephole

open Machine

/-! ### Counting jumps -/

/-- One for an instruction that jumps to `k`, zero for any other. -/
def hits (k : Nat) (target : Option Nat) : Nat := if target = some k then 1 else 0

@[simp] theorem hits_none (k : Nat) : hits k none = 0 := rfl

theorem hits_some (k j : Nat) : hits k (some j) = if j = k then 1 else 0 := by
  simp [hits]

/-- The number of jumps to an instruction. -/
def jumpsTo (k : Nat) (is : List Instr) : Nat := is.countP fun i => i.targetId? = some k

@[simp] theorem jumpsTo_nil (k : Nat) : jumpsTo k [] = 0 := rfl

theorem jumpsTo_cons (k : Nat) (i : Instr) (is : List Instr) :
    jumpsTo k (i :: is) = jumpsTo k is + hits k i.targetId? := by
  simp [jumpsTo, List.countP_cons, hits]

@[simp] theorem jumpsTo_append (k : Nat) (is js : List Instr) :
    jumpsTo k (is ++ js) = jumpsTo k is + jumpsTo k js := by
  simp [jumpsTo]

theorem jumpsTo_eq_zero {k : Nat} {is : List Instr} :
    jumpsTo k is = 0 ↔ ∀ i ∈ is, i.targetId? ≠ some k := by
  simp [jumpsTo]

@[simp] theorem targetId?_erase (i : Instr) : i.erase.targetId? = none := rfl

/-- The target of an instruction does not depend on its other parts. -/
@[simp] theorem targetId?_mk (i : Instr) (id : Nat) (op : Op) (operand : Operand)
    (comment : Option String) :
    Instr.targetId? ⟨id, op, operand, i.target, comment⟩ = i.targetId? :=
  rfl

/-- The count is right for the code. -/
def Exact (refs : References) (code : List Instr) : Prop := ∀ k, refs.count k = jumpsTo k code

theorem count_add (refs : References) (j k : Nat) :
    (refs.add j).count k = refs.count k + if j = k then 1 else 0 := by
  by_cases h : j = k
  · subst h
    simp [References.add, References.count]
  · simp [References.add, References.count, Std.HashMap.getD_insert, h]

theorem count_release (refs : References) (j k : Nat) :
    (refs.release j).count k = refs.count k - if j = k then 1 else 0 := by
  by_cases h : j = k
  · subst h
    simp [References.release, References.count]
  · simp [References.release, References.count, Std.HashMap.getD_insert, h]

/-- The count at the start of a pass is exact. -/
theorem count_ofInstrs (code : List Instr) : Exact (.ofInstrs code) code := by
  intro k
  induction code using List.reverseRecOn with
  | nil => simp [References.ofInstrs, References.count]
  | append_singleton is i ih =>
      rw [References.ofInstrs] at ih ⊢
      rw [List.foldl_append, jumpsTo_append, jumpsTo_cons, List.foldl_cons, List.foldl_nil, ← ih]
      cases ht : i.targetId? with
      | none => simp
      | some j =>
          rw [hits_some, jumpsTo_nil, count_add]
          omega

/-! ### Changes -/

/-- No jump of some instructions goes to one of some identities. -/
def Avoids (is : List Instr) (ks : List Nat) : Prop :=
  ∀ i ∈ is, ∀ k ∈ ks, i.targetId? ≠ some k

/-- The changes that the rules make to the instructions between `pre` and `post`. -/
inductive Rewrites (pre post : List Instr) : List Instr → List Instr → Prop where
  /-- A comparison whose truth value is tested at once. -/
  | comparison {first zero skip one drop test : Instr} {cc c : Condition}
      (hfirst : first.op = .jump cc) (hcc : cc.isConditional = true)
      (hone : first.targetId? = some one.id) (hzero : zero.pushed? = some 0)
      (hskip : skip.op = .jump .always) (hend : skip.targetId? = some drop.id)
      (hpush : one.pushed? = some 1) (hdrop : drop.op = .pop) (htest : test.op = .jump c)
      (hc : c = .equal ∨ c = .notEqual)
      (havoid : Avoids (pre ++ zero :: one :: drop :: test :: post)
        [zero.id, skip.id, one.id, drop.id, test.id]) :
      Rewrites pre post [first, zero, skip, one, drop, test]
        [{ first with op := .jump (if c = .equal then cc.negate else cc), target := test.target },
          zero.erase, skip.erase, one.erase, drop.erase, test.erase]
  /-- A jump to what comes next anyway. -/
  | idleJump {i : Instr} {c : Condition} {k : Nat} (hop : i.op = .jump c)
      (htarget : i.targetId? = some k) (hreach : reaches k post = true) :
      Rewrites pre post [i] [i.erase]
  /-- A test of a known integer that succeeds. -/
  | sureJump {first drop test : Instr} {n : Int32} {c : Condition}
      (hfirst : first.pushed? = some n) (hdrop : drop.op = .pop) (htest : test.op = .jump c)
      (hc : c.isConditional = true) (hholds : c.holds n = true)
      (havoid : Avoids (pre ++ first :: drop :: test :: post) [drop.id, test.id]) :
      Rewrites pre post [first, drop, test]
        [⟨first.id, .jump .always, .none, test.target, none⟩, drop.erase, test.erase]
  /-- A test of a known integer that fails. -/
  | neverJump {first drop test : Instr} {n : Int32} {c : Condition}
      (hfirst : first.pushed? = some n) (hdrop : drop.op = .pop) (htest : test.op = .jump c)
      (hc : c.isConditional = true) (hholds : c.holds n = false)
      (havoid : Avoids (pre ++ first :: drop :: test :: post) [drop.id, test.id]) :
      Rewrites pre post [first, drop, test] [first.erase, drop.erase, test.erase]
  /-- A cell that is pushed and dropped at once, and not tested. -/
  | deadPair {first drop : Instr} (hfirst : first.op = .load ∨ first.op = .dup)
      (hdrop : drop.op = .pop) (hnext : testsNext post = false)
      (havoid : Avoids (pre ++ first :: drop :: post) [drop.id]) :
      Rewrites pre post [first, drop] [first.erase, drop.erase]
  /-- A known integer that is turned into a float. -/
  | floatLiteral {first change : Instr} {n : Int32} (hfirst : first.pushed? = some n)
      (hchange : change.op = .toFloat)
      (havoid : Avoids (pre ++ first :: change :: post) [change.id]) :
      Rewrites pre post [first, change]
        [{ first with operand := .float (.ofInt32 n), comment := none }, change.erase]
  /-- A cell that is pushed twice. -/
  | duplicateLoad {first second : Instr} (hfirst : first.op = .load) (hsecond : second.op = .load)
      (hoperand : first.operand = second.operand)
      (havoid : Avoids (pre ++ first :: second :: post) [second.id]) :
      Rewrites pre post [first, second]
        [first, { second with op := .dup, operand := .none, comment := none }]

theorem op_of_pushed? {i : Instr} {n : Int32} (h : i.pushed? = some n) :
    i.op = .load ∧ i.operand.int? = some n := by
  cases hop : i.op <;> simp [Instr.pushed?, hop] at h
  exact ⟨rfl, h⟩

/-! ### Where a rule applies -/

section Outcomes

variable {refs refs' : References} {is js : List Instr}

theorem exists_of_comparisonJump (h : comparisonJump refs is = some (js, refs')) :
    ∃ first zero skip one drop test post cc c,
      is = first :: zero :: skip :: one :: drop :: test :: post ∧
      js = { first with op := .jump (if c = .equal then cc.negate else cc), target := test.target }
        :: zero.erase :: skip.erase :: one.erase :: drop.erase :: test.erase :: post ∧
      refs' = (refs.release one.id).release drop.id ∧
      first.op = .jump cc ∧ cc.isConditional = true ∧ zero.pushed? = some 0 ∧
      skip.op = .jump .always ∧ one.pushed? = some 1 ∧ drop.op = .pop ∧ test.op = .jump c ∧
      (c = .equal ∨ c = .notEqual) ∧
      (refs.isPlain zero = true ∧ refs.isPlain skip = true ∧ refs.isPlain test = true) ∧
      (first.targetId? = some one.id ∧ refs.count one.id = 1) ∧
      skip.targetId? = some drop.id ∧ refs.count drop.id = 1 := by
  unfold comparisonJump at h
  split at h
  case h_1 first zero skip one drop test post =>
    split at h
    case h_1 cc c hfirst htest =>
      simp only [Option.ite_none_right_eq_some, Option.some.injEq, Prod.mk.injEq] at h
      obtain ⟨⟨hcc, hc, hzero', hskip', htest', hzero, hskip, hpush, hdrop, hone, hcount, hend⟩,
        rfl, rfl⟩ := h
      exact ⟨first, zero, skip, one, drop, test, post, cc, c, rfl, rfl, rfl, hfirst, hcc, hzero,
        hskip, hpush, hdrop, htest, hc, ⟨hzero', hskip', htest'⟩, ⟨hone, hcount⟩, hend⟩
    case h_2 => cases h
  case h_2 => cases h

theorem exists_of_jumpToNext (h : jumpToNext refs is = some (js, refs')) :
    ∃ i post c k, is = i :: post ∧ js = i.erase :: post ∧ refs' = refs.release k ∧
      i.op = .jump c ∧ i.targetId? = some k ∧ reaches k post = true := by
  unfold jumpToNext at h
  split at h
  case h_1 i post =>
    split at h
    case h_1 k hop hk =>
      simp only [Option.ite_none_right_eq_some, Option.some.injEq, Prod.mk.injEq] at h
      obtain ⟨hreach, rfl, rfl⟩ := h
      obtain ⟨c, hc⟩ : ∃ c, i.op = .jump c := by
        cases hi : i.op <;> simp [hi, Op.isJump] at hop
        exact ⟨_, rfl⟩
      exact ⟨i, post, c, k, rfl, rfl, rfl, hc, hk, hreach⟩
    case h_2 => cases h
  case h_2 => cases h

theorem exists_of_constantJump (h : constantJump refs is = some (js, refs')) :
    ∃ first drop test post n c, is = first :: drop :: test :: post ∧
      first.pushed? = some n ∧ drop.op = .pop ∧ test.op = .jump c ∧ c.isConditional = true ∧
      (refs.isPlain drop = true ∧ refs.isPlain test = true) ∧
      (c.holds n = true ∧
          js = ⟨first.id, .jump .always, .none, test.target, none⟩ :: drop.erase :: test.erase
            :: post ∧ refs' = refs ∨
        c.holds n = false ∧ js = first.erase :: drop.erase :: test.erase :: post ∧
          refs' = refs.releaseTarget test) := by
  unfold constantJump at h
  split at h
  case h_1 first drop test post =>
    split at h
    case h_1 n c hn htest =>
      simp only [Option.ite_none_right_eq_some] at h
      obtain ⟨⟨hplain, hplain', hdrop, hc⟩, h⟩ := h
      refine ⟨first, drop, test, post, n, c, rfl, hn, hdrop, htest, hc, ⟨hplain, hplain'⟩, ?_⟩
      split at h
      case isTrue hholds =>
        cases h
        exact .inl ⟨hholds, rfl, rfl⟩
      case isFalse hholds =>
        cases h
        exact .inr ⟨by simpa using hholds, rfl, rfl⟩
    case h_2 => cases h
  case h_2 => cases h

theorem exists_of_deadPair (h : deadPair refs is = some (js, refs')) :
    ∃ first drop post, is = first :: drop :: post ∧ js = first.erase :: drop.erase :: post ∧
      refs' = refs ∧ (first.op = .load ∨ first.op = .dup) ∧ refs.isPlain drop = true ∧
      drop.op = .pop ∧ testsNext post = false := by
  unfold deadPair at h
  split at h
  case h_1 first drop post =>
    simp only [Option.ite_none_right_eq_some, Option.some.injEq, Prod.mk.injEq] at h
    obtain ⟨hmatch, rfl, rfl⟩ := h
    exact ⟨first, drop, post, rfl, rfl, rfl, hmatch⟩
  case h_2 => cases h

theorem exists_of_floatLiteral (h : floatLiteral refs is = some (js, refs')) :
    ∃ first change post n, is = first :: change :: post ∧
      js = { first with operand := .float (.ofInt32 n), comment := none } :: change.erase :: post ∧
      refs' = refs ∧ first.pushed? = some n ∧ refs.isPlain change = true ∧
      change.op = .toFloat := by
  unfold floatLiteral at h
  split at h
  case h_1 first change post =>
    split at h
    case h_1 n hn =>
      simp only [Option.ite_none_right_eq_some, Option.some.injEq, Prod.mk.injEq] at h
      obtain ⟨hmatch, rfl, rfl⟩ := h
      exact ⟨first, change, post, n, rfl, rfl, rfl, hn, hmatch⟩
    case h_2 => cases h
  case h_2 => cases h

theorem exists_of_duplicateLoad (h : duplicateLoad refs is = some (js, refs')) :
    ∃ first second post, is = first :: second :: post ∧
      js = first :: { second with op := .dup, operand := .none, comment := none } :: post ∧
      refs' = refs ∧ first.op = .load ∧ second.op = .load ∧ first.operand = second.operand ∧
      refs.isPlain second = true := by
  unfold duplicateLoad at h
  split at h
  case h_1 first second post =>
    simp only [Option.ite_none_right_eq_some, Option.some.injEq, Prod.mk.injEq] at h
    obtain ⟨hmatch, rfl, rfl⟩ := h
    exact ⟨first, second, post, rfl, rfl, rfl, hmatch⟩
  case h_2 => cases h

end Outcomes

/-! ### The rules make these changes -/

section Rules

variable {refs refs' : References} {pre is js : List Instr}

/-- What a rule has done: a change of the instructions from where it was tried, with an exact
count. -/
def Changed (pre is js : List Instr) (refs' : References) : Prop :=
  Exact refs' (pre ++ js) ∧
    ∃ seg seg' post, is = seg ++ post ∧ js = seg' ++ post ∧ Rewrites pre post seg seg'

/-- What the first rule that applies does, one of the rules does. -/
theorem exists_of_firstRule? {name : RuleName} (h : firstRule? refs is = some (name, js, refs')) :
    ∃ rule, (name, rule) ∈ rules ∧ rule refs is = some (js, refs') := by
  obtain ⟨⟨_, rule⟩, hmem, hrule⟩ := List.exists_of_findSome?_eq_some h
  obtain ⟨out, hout, heq⟩ := Option.map_eq_some_iff.1 hrule
  cases heq
  exact ⟨rule, hmem, hout⟩

/-- Neighbours have different identities. -/
theorem id_ne_of_neighbours {pre post : List Instr} {i j : Instr}
    (h : Regular (pre ++ i :: j :: post)) : i.id ≠ j.id := by
  have hnodup : ((i :: j :: post).map Instr.id).Nodup :=
    h.nodup.sublist ((List.sublist_append_right pre _).map _)
  simp only [List.map_cons, List.nodup_cons, List.mem_cons, not_or] at hnodup
  exact hnodup.1.1

/-- No jump goes to an instruction whose count is zero. -/
theorem ne_of_isPlain {code : List Instr} (hrefs : Exact refs code) {i : Instr}
    (h : refs.isPlain i = true) : ∀ j ∈ code, j.targetId? ≠ some i.id := by
  refine jumpsTo_eq_zero.1 ?_
  rw [← hrefs]
  simpa [References.isPlain] using h

/-- No jump goes to the one instruction whose count is zero. -/
theorem avoids_of_isPlain {code : List Instr} (hrefs : Exact refs code) {i : Instr}
    (h : refs.isPlain i = true) : Avoids code [i.id] := by
  intro j hj k hk
  rw [List.mem_singleton.1 hk]
  exact ne_of_isPlain hrefs h j hj

theorem changed_of_floatLiteral (hcode : Regular (pre ++ is)) (hrefs : Exact refs (pre ++ is))
    (h : floatLiteral refs is = some (js, refs')) : Changed pre is js refs' := by
  obtain ⟨first, change, post, n, rfl, rfl, rfl, hn, hplain, hchange⟩ := exists_of_floatLiteral h
  have hnone : change.targetId? = none :=
    hcode.targetId? (by simp) (by simp [hchange, Op.isJump])
  refine ⟨fun k => ?_, [first, change], _, post, rfl, rfl,
    .floatLiteral hn hchange (avoids_of_isPlain hrefs hplain)⟩
  rw [hrefs]
  simp [jumpsTo_cons, hnone]

theorem changed_of_duplicateLoad (hrefs : Exact refs (pre ++ is))
    (h : duplicateLoad refs is = some (js, refs')) : Changed pre is js refs' := by
  obtain ⟨first, second, post, rfl, rfl, rfl, hfirst, hsecond, hoperand, hplain⟩ :=
    exists_of_duplicateLoad h
  refine ⟨fun k => ?_, [first, second], _, post, rfl, rfl,
    .duplicateLoad hfirst hsecond hoperand (avoids_of_isPlain hrefs hplain)⟩
  rw [hrefs]
  simp [jumpsTo_cons]

theorem changed_of_deadPair (hcode : Regular (pre ++ is)) (hrefs : Exact refs (pre ++ is))
    (h : deadPair refs is = some (js, refs')) : Changed pre is js refs' := by
  obtain ⟨first, drop, post, rfl, rfl, rfl, hfirst, hplain, hdrop, hnext⟩ := exists_of_deadPair h
  have hnone : first.targetId? = none :=
    hcode.targetId? (by simp) (by rcases hfirst with h | h <;> simp [h, Op.isJump])
  have hnone' : drop.targetId? = none :=
    hcode.targetId? (by simp) (by simp [hdrop, Op.isJump])
  refine ⟨fun k => ?_, [first, drop], _, post, rfl, rfl,
    .deadPair hfirst hdrop hnext (avoids_of_isPlain hrefs hplain)⟩
  rw [hrefs]
  simp [jumpsTo_cons, hnone, hnone']

theorem changed_of_jumpToNext (hrefs : Exact refs (pre ++ is))
    (h : jumpToNext refs is = some (js, refs')) : Changed pre is js refs' := by
  obtain ⟨i, post, c, k, rfl, rfl, rfl, hc, hk, hreach⟩ := exists_of_jumpToNext h
  refine ⟨fun m => ?_, [i], _, post, rfl, rfl, .idleJump hc hk hreach⟩
  rw [count_release, hrefs]
  simp only [jumpsTo_append, jumpsTo_cons, hk, targetId?_erase, hits_none, hits_some]
  omega

theorem changed_of_constantJump (hcode : Regular (pre ++ is)) (hrefs : Exact refs (pre ++ is))
    (h : constantJump refs is = some (js, refs')) : Changed pre is js refs' := by
  obtain ⟨first, drop, test, post, n, c, rfl, hn, hdrop, htest, hc, ⟨hplain, hplain'⟩, hout⟩ :=
    exists_of_constantJump h
  have hnone : first.targetId? = none :=
    hcode.targetId? (by simp) (by simp [(op_of_pushed? hn).1, Op.isJump])
  have hnone' : drop.targetId? = none :=
    hcode.targetId? (by simp) (by simp [hdrop, Op.isJump])
  have havoid : Avoids (pre ++ first :: drop :: test :: post) [drop.id, test.id] := by
    intro j hj k hk
    rcases List.mem_cons.1 hk with rfl | hk
    · exact ne_of_isPlain hrefs hplain j hj
    · exact avoids_of_isPlain hrefs hplain' j hj k hk
  rcases hout with ⟨hholds, rfl, rfl⟩ | ⟨hholds, rfl, rfl⟩
  · refine ⟨fun k => ?_, [first, drop, test], _, post, rfl, rfl,
      .sureJump hn hdrop htest hc hholds havoid⟩
    rw [hrefs]
    simp [jumpsTo_cons, hnone, hnone']
  · refine ⟨fun k => ?_, [first, drop, test], _, post, rfl, rfl,
      .neverJump hn hdrop htest hc hholds havoid⟩
    cases hk : test.targetId? with
    | none =>
        rw [References.releaseTarget, hk]
        simp [hrefs k, jumpsTo_cons, hnone, hnone', hk]
    | some m =>
        simp only [References.releaseTarget, hk, count_release, hrefs k, jumpsTo_append,
          jumpsTo_cons, hnone, hnone', targetId?_erase, hits_none, hits_some]
        omega

theorem changed_of_comparisonJump (hcode : Regular (pre ++ is)) (hrefs : Exact refs (pre ++ is))
    (h : comparisonJump refs is = some (js, refs')) : Changed pre is js refs' := by
  obtain ⟨first, zero, skip, one, drop, test, post, cc, c, rfl, rfl, rfl, hfirst, hcc, hzero, hskip,
    hpush, hdrop, htest, hc, ⟨hzero', hskip', htest'⟩, ⟨hone, hcount⟩, hend, hcount'⟩ :=
    exists_of_comparisonJump h
  have hnone : zero.targetId? = none :=
    hcode.targetId? (by simp) (by simp [(op_of_pushed? hzero).1, Op.isJump])
  have hnone' : one.targetId? = none :=
    hcode.targetId? (by simp) (by simp [(op_of_pushed? hpush).1, Op.isJump])
  have hnone'' : drop.targetId? = none :=
    hcode.targetId? (by simp) (by simp [hdrop, Op.isJump])
  -- the one jump to `one` is `first`, and the one to `drop` is `skip`
  have hne : one.id ≠ drop.id :=
    @id_ne_of_neighbours (pre ++ [first, zero, skip]) _ _ _ (by simpa using hcode)
  rw [hrefs] at hcount hcount'
  simp only [jumpsTo_append, jumpsTo_cons, hone, hend, hnone, hnone', hnone'', hits_none, hits_some,
    if_pos, hne, hne.symm, if_false] at hcount hcount'
  refine ⟨fun k => ?_, [first, zero, skip, one, drop, test], _, post, rfl, rfl,
    .comparison hfirst hcc hone hzero hskip hend hpush hdrop htest hc ?_⟩
  · simp only [count_release, hrefs k, jumpsTo_append, jumpsTo_cons, hone, hend, hnone, hnone',
      hnone'', targetId?_erase, targetId?_mk, hits_none, hits_some]
    omega
  · have hrest : ∀ k, jumpsTo k (pre ++ zero :: one :: drop :: test :: post) = 0 →
        ∀ j ∈ pre ++ zero :: one :: drop :: test :: post, j.targetId? ≠ some k :=
      fun k => jumpsTo_eq_zero.1
    have hsub : ∀ j ∈ pre ++ zero :: one :: drop :: test :: post,
        j ∈ pre ++ first :: zero :: skip :: one :: drop :: test :: post := by
      intro j hj
      simp only [List.mem_append, List.mem_cons] at hj ⊢
      tauto
    intro j hj k hk
    simp only [List.mem_cons, List.not_mem_nil, or_false] at hk
    rcases hk with rfl | rfl | rfl | rfl | rfl
    · exact ne_of_isPlain hrefs hzero' j (hsub j hj)
    · exact ne_of_isPlain hrefs hskip' j (hsub j hj)
    · refine hrest _ ?_ j hj
      simp only [jumpsTo_append, jumpsTo_cons, hnone, hnone', hnone'', hits_none]
      omega
    · refine hrest _ ?_ j hj
      simp only [jumpsTo_append, jumpsTo_cons, hnone, hnone', hnone'', hits_none]
      omega
    · exact ne_of_isPlain hrefs htest' j (hsub j hj)

/-- **A rule that applies makes one of the changes**, and the count of jumps stays exact. -/
theorem changed_of_firstRule {name : RuleName} (hcode : Regular (pre ++ is))
    (hrefs : Exact refs (pre ++ is)) (h : firstRule? refs is = some (name, js, refs')) :
    Changed pre is js refs' := by
  obtain ⟨rule, hmem, hout⟩ := exists_of_firstRule? h
  simp only [rules, List.mem_cons, Prod.mk.injEq, List.not_mem_nil, or_false] at hmem
  rcases hmem with ⟨-, rfl⟩ | ⟨-, rfl⟩ | ⟨-, rfl⟩ | ⟨-, rfl⟩ | ⟨-, rfl⟩ | ⟨-, rfl⟩
  · exact changed_of_comparisonJump hcode hrefs hout
  · exact changed_of_jumpToNext hrefs hout
  · exact changed_of_constantJump hcode hrefs hout
  · exact changed_of_deadPair hcode hrefs hout
  · exact changed_of_floatLiteral hcode hrefs hout
  · exact changed_of_duplicateLoad hrefs hout

end Rules

/-! ### What every change has in common -/

namespace Rewrites

variable {pre post seg seg' : List Instr}

/-- A change keeps the identities, and only its first instruction may stay a conditional jump. -/
theorem exists_cons (h : Rewrites pre post seg seg') :
    ∃ i is j js, seg = i :: is ∧ seg' = j :: js ∧ j.id = i.id ∧
      js.map Instr.id = is.map Instr.id ∧
      (j.op.isConditionalJump = true → i.op.isConditionalJump = true) ∧
      ∀ k ∈ js, k.op.isConditionalJump = false := by
  cases h with
  | comparison hfirst hcc =>
      exact ⟨_, _, _, _, rfl, rfl, rfl, rfl, fun _ => by simp [hfirst, Op.isConditionalJump, hcc],
        by simp [Instr.erase, Op.isConditionalJump]⟩
  | idleJump =>
      exact ⟨_, _, _, _, rfl, rfl, rfl, rfl, by simp [Instr.erase, Op.isConditionalJump], by simp⟩
  | sureJump =>
      exact ⟨_, _, _, _, rfl, rfl, rfl, rfl,
        by simp [Op.isConditionalJump, Condition.isConditional],
        by simp [Instr.erase, Op.isConditionalJump]⟩
  | neverJump =>
      exact ⟨_, _, _, _, rfl, rfl, rfl, rfl, by simp [Instr.erase, Op.isConditionalJump],
        by simp [Instr.erase, Op.isConditionalJump]⟩
  | deadPair =>
      exact ⟨_, _, _, _, rfl, rfl, rfl, rfl, by simp [Instr.erase, Op.isConditionalJump],
        by simp [Instr.erase, Op.isConditionalJump]⟩
  | floatLiteral =>
      exact ⟨_, _, _, _, rfl, rfl, rfl, rfl, id, by simp [Instr.erase, Op.isConditionalJump]⟩
  | duplicateLoad =>
      exact ⟨_, _, _, _, rfl, rfl, rfl, rfl, id, by simp [Op.isConditionalJump]⟩

/-- The identities stay. -/
theorem map_id (h : Rewrites pre post seg seg') : seg'.map Instr.id = seg.map Instr.id := by
  obtain ⟨i, is, j, js, rfl, rfl, hid, hids, -, -⟩ := h.exists_cons
  rw [List.map_cons, List.map_cons, hid, hids]

/-- A change makes no new targets. -/
theorem target_mem (h : Rewrites pre post seg seg') {j : Instr} (hj : j ∈ seg')
    (hjt : j.target ≠ none) : ∃ i ∈ seg, i.target = j.target := by
  cases h with
  | comparison =>
      rcases List.mem_cons.1 hj with rfl | hj
      · exact ⟨_, List.mem_cons_of_mem _ (List.mem_cons_of_mem _ (List.mem_cons_of_mem _
          (List.mem_cons_of_mem _ (List.mem_cons_of_mem _ List.mem_cons_self)))), rfl⟩
      · simp only [List.mem_cons, List.not_mem_nil, or_false] at hj
        rcases hj with rfl | rfl | rfl | rfl | rfl <;> exact absurd rfl hjt
  | idleJump =>
      rw [List.mem_singleton.1 hj] at hjt
      exact absurd rfl hjt
  | sureJump =>
      simp only [List.mem_cons, List.not_mem_nil, or_false] at hj
      rcases hj with rfl | rfl | rfl
      · exact ⟨_, List.mem_cons_of_mem _ (List.mem_cons_of_mem _ List.mem_cons_self), rfl⟩
      · exact absurd rfl hjt
      · exact absurd rfl hjt
  | neverJump =>
      simp only [List.mem_cons, List.not_mem_nil, or_false] at hj
      rcases hj with rfl | rfl | rfl <;> exact absurd rfl hjt
  | deadPair =>
      simp only [List.mem_cons, List.not_mem_nil, or_false] at hj
      rcases hj with rfl | rfl <;> exact absurd rfl hjt
  | floatLiteral =>
      simp only [List.mem_cons, List.not_mem_nil, or_false] at hj
      rcases hj with rfl | rfl
      · exact ⟨_, List.mem_cons_self, rfl⟩
      · exact absurd rfl hjt
  | duplicateLoad =>
      simp only [List.mem_cons, List.not_mem_nil, or_false] at hj
      rcases hj with rfl | rfl
      · exact ⟨_, List.mem_cons_self, rfl⟩
      · exact ⟨_, List.mem_cons_of_mem _ List.mem_cons_self, rfl⟩

/-- Only jumps keep or get a target. -/
theorem onlyJumps (h : Rewrites pre post seg seg')
    (hseg : ∀ i ∈ seg, i.op.isJump = false → i.target = none) :
    ∀ j ∈ seg', j.op.isJump = false → j.target = none := by
  intro j hj hop
  cases h with
  | comparison =>
      simp only [List.mem_cons, List.not_mem_nil, or_false] at hj
      rcases hj with rfl | rfl | rfl | rfl | rfl | rfl
      · simp [Op.isJump] at hop
      all_goals rfl
  | idleJump =>
      rw [List.mem_singleton.1 hj]
      rfl
  | sureJump =>
      simp only [List.mem_cons, List.not_mem_nil, or_false] at hj
      rcases hj with rfl | rfl | rfl
      · simp [Op.isJump] at hop
      all_goals rfl
  | neverJump =>
      simp only [List.mem_cons, List.not_mem_nil, or_false] at hj
      rcases hj with rfl | rfl | rfl <;> rfl
  | deadPair =>
      simp only [List.mem_cons, List.not_mem_nil, or_false] at hj
      rcases hj with rfl | rfl <;> rfl
  | @floatLiteral first =>
      simp only [List.mem_cons, List.not_mem_nil, or_false] at hj
      rcases hj with rfl | rfl
      · exact hseg first List.mem_cons_self hop
      · rfl
  | @duplicateLoad first second hfirst hsecond =>
      simp only [List.mem_cons, List.not_mem_nil, or_false] at hj
      rcases hj with rfl | rfl
      · exact hseg _ List.mem_cons_self hop
      · exact hseg second (by simp) (by simp [hsecond, Op.isJump])

/-- No function starts inside of a change. -/
theorem not_entry (h : Rewrites pre post seg seg') {name : String} :
    (∀ i ∈ seg, i.op ≠ .entry name) ∧ ∀ i ∈ seg', i.op ≠ .entry name := by
  cases h with
  | comparison hfirst _ _ hzero hskip _ hpush hdrop htest =>
      simp [hfirst, (op_of_pushed? hzero).1, hskip, (op_of_pushed? hpush).1, hdrop, htest,
        Instr.erase]
  | idleJump hop => simp [hop, Instr.erase]
  | sureJump hfirst hdrop htest =>
      simp [(op_of_pushed? hfirst).1, hdrop, htest, Instr.erase]
  | neverJump hfirst hdrop htest =>
      simp [(op_of_pushed? hfirst).1, hdrop, htest, Instr.erase]
  | deadPair hfirst hdrop => rcases hfirst with h | h <;> simp [h, hdrop, Instr.erase]
  | floatLiteral hfirst hchange => simp [(op_of_pushed? hfirst).1, hchange, Instr.erase]
  | duplicateLoad hfirst hsecond => simp [hfirst, hsecond]

theorem quiet_of_testsNext {is : List Instr} (h : testsNext is = false) : Quiet is := by
  cases is with
  | nil => simp
  | cons i is =>
      rw [quiet_cons]
      by_cases hi : i.isNop = true
      · have hop : i.op = .nop := by simpa [Instr.isNop] using hi
        simp [hop, Op.isConditionalJump]
      · simpa [testsNext, hi] using h

/-- What follows a change is quiet: it ends in no pop, or in one whose cell is not tested. -/
theorem quiet_post (h : Rewrites pre post seg seg') (hcode : Guarded (pre ++ (seg ++ post))) :
    Quiet post := by
  -- the last instruction of most changes is no pop
  have hlast : ∀ is i, seg = is ++ [i] → i.op ≠ .pop → Quiet post := by
    rintro is i rfl hi
    have hcode' : Guarded ((pre ++ is) ++ i :: post) := by simpa using hcode
    exact hcode'.quiet_tail hi
  cases h with
  | @comparison first zero skip one drop test cc c _ _ _ _ _ _ _ _ htest =>
      exact hlast [first, zero, skip, one, drop] test rfl (by simp [htest])
  | @idleJump i c k hop => exact hlast [] i rfl (by simp [hop])
  | @sureJump first drop test n c _ _ htest => exact hlast [first, drop] test rfl (by simp [htest])
  | @neverJump first drop test n c _ _ htest =>
      exact hlast [first, drop] test rfl (by simp [htest])
  | deadPair _ _ hnext => exact quiet_of_testsNext hnext
  | @floatLiteral first change n _ hchange => exact hlast [first] change rfl (by simp [hchange])
  | @duplicateLoad first second _ hsecond => exact hlast [first] second rfl (by simp [hsecond])

/-- **A change keeps code regular.** -/
theorem regular (h : Rewrites pre post seg seg') (hcode : Regular (pre ++ (seg ++ post))) :
    Regular (pre ++ (seg' ++ post)) := by
  refine ⟨?_, ?_⟩
  · have := hcode.nodup
    simpa [h.map_id] using this
  · have hseg := h.onlyJumps fun i hi => hcode.onlyJumps i (by simp [hi])
    intro i hi
    simp only [List.mem_append] at hi
    rcases hi with hi | hi | hi
    · exact hcode.onlyJumps i (by simp [hi])
    · exact hseg i hi
    · exact hcode.onlyJumps i (by simp [hi])

/-- No jump from outside of a change goes into it. -/
theorem avoids (h : Rewrites pre post seg seg') :
    Avoids (pre ++ post) (seg.tail.map Instr.id) := by
  intro i hi k hk
  have hi := List.mem_append.1 hi
  cases h with
  | comparison _ _ _ _ _ _ _ _ _ _ havoid => exact havoid i (by simp; tauto) k hk
  | idleJump => cases hk
  | sureJump _ _ _ _ _ havoid => exact havoid i (by simp; tauto) k hk
  | neverJump _ _ _ _ _ havoid => exact havoid i (by simp; tauto) k hk
  | deadPair _ _ _ havoid => exact havoid i (by simp; tauto) k hk
  | floatLiteral _ _ havoid => exact havoid i (by simp; tauto) k hk
  | duplicateLoad _ _ _ havoid => exact havoid i (by simp; tauto) k hk

/-- Instructions that are no conditional jumps keep what follows guarded. -/
theorem isChain_follower {j : Instr} {js rest : List Instr}
    (hjs : ∀ k ∈ js, k.op.isConditionalJump = false) (hquiet : Quiet rest)
    (hrest : rest.IsChain Follower) : (j :: (js ++ rest)).IsChain Follower := by
  induction js generalizing j with
  | nil =>
      cases rest with
      | nil => exact .singleton j
      | cons k rest =>
          exact .cons_cons (fun hk => by simp [quiet_cons.1 hquiet] at hk) hrest
  | cons k js ih =>
      refine .cons_cons (fun hk => ?_) (ih fun l hl => hjs l (List.mem_cons_of_mem _ hl))
      simp [hjs k List.mem_cons_self] at hk

/-- **A change keeps conditional jumps behind the pops whose cells they test.** -/
theorem guarded (h : Rewrites pre post seg seg') (hcode : Guarded (pre ++ (seg ++ post))) :
    Guarded (pre ++ (seg' ++ post)) := by
  have hpost := h.quiet_post hcode
  have htarget := fun j hj => @target_mem _ _ _ _ h j hj
  obtain ⟨i, is, j, js, rfl, rfl, hid, hids, hcond, hjs⟩ := h.exists_cons
  -- a conditional jump of the new code was there before
  have hold : ∀ b ∈ pre ++ (j :: js ++ post), b.op.isConditionalJump = true →
      ∃ a ∈ pre ++ (i :: is ++ post), a.id = b.id ∧ a.op.isConditionalJump = true := by
    intro b hb hop
    simp only [List.mem_append, List.mem_cons] at hb
    rcases hb with hb | (rfl | hb) | hb
    · exact ⟨b, by simp [hb], rfl, hop⟩
    · exact ⟨i, by simp, hid.symm, hcond hop⟩
    · simp [hjs b hb] at hop
    · exact ⟨b, by simp [hb], rfl, hop⟩
  have hchain := List.isChain_append.1 hcode.chain
  refine ⟨?_, ?_, ?_⟩
  · cases pre with
    | nil =>
        have hi : i.op.isConditionalJump = false := quiet_cons.1 hcode.quiet
        exact quiet_cons.2 (by by_contra hj; simp [hcond (by simpa using hj)] at hi)
    | cons a pre => exact quiet_cons.2 (quiet_cons.1 hcode.quiet)
  · refine List.isChain_append.2 ⟨hchain.1, ?_, ?_⟩
    · exact isChain_follower hjs hpost hchain.2.1.right_of_append
    · intro a ha b hb hop
      simp only [List.cons_append, List.head?_cons, Option.mem_def, Option.some.injEq] at hb
      subst hb
      exact hchain.2.2 a ha i (by simp) (hcond hop)
  · intro a ha k hk b hb hbk
    by_contra hop
    obtain ⟨b', hb', hid', hop'⟩ := hold b hb (by simpa using hop)
    have ha' : ∃ a' ∈ pre ++ (i :: is ++ post), a'.targetId? = some k := by
      simp only [List.mem_append] at ha
      rcases ha with ha | ha | ha
      · exact ⟨a, by simp [ha], hk⟩
      · obtain ⟨a', ha', heq⟩ := htarget a ha (by rintro hn; simp [Instr.targetId?, hn] at hk)
        exact ⟨a', List.mem_append_right _ (List.mem_append_left _ ha'),
          by simpa [Instr.targetId?, heq] using hk⟩
      · exact ⟨a, by simp [ha], hk⟩
    obtain ⟨a', ha', hk'⟩ := ha'
    have := hcode.untargeted a' ha' k hk' b' hb' (hid'.trans hbk)
    simp [hop'] at this

end Rewrites

end Peephole

end StackLang
