/-
**A change keeps the result.**

Code before and after a change is compared place by place.  Before the changed instructions and
behind them both codes have the same instructions ahead, and no jump lands inside of them, so the
two runs can only part where both are about to enter the change.  From there each of the changes is
run through once, and the runs meet again behind it or at the target of its jump.

Main definitions:

* `Peephole.Moved` — corresponding places before and after a change.

Main results:

* `Peephole.Rewrites.follows` — from the first changed instruction the new code follows the old one;
* `Peephole.Rewrites.halts` — a change keeps what a run to a halt shows.
-/

import StackLang.Proofs.Peephole.Rewrite

set_option relaxedAutoImplicit false
set_option autoImplicit false

namespace StackLang

namespace Peephole

open Machine

/-! ### Corresponding places -/

/-- Corresponding places: before the changed instructions or at the first of them, and behind them.
-/
inductive Moved (pre post seg seg' : List Instr) : List Instr → List Instr → Prop where
  | before (u : List Instr) (h : u <:+ pre) :
      Moved pre post seg seg' (u ++ (seg ++ post)) (u ++ (seg' ++ post))
  | behind (v : List Instr) (h : v <:+ post) : Moved pre post seg seg' v v

namespace Rewrites

variable {pre post seg seg' : List Instr}

/-- A jump that does not go into the change goes to corresponding places. -/
theorem goto? (h : Rewrites pre post seg seg') {k : Nat} (hk : k ∉ seg.tail.map Instr.id)
    {l : List Instr} (hl : Machine.goto? k (pre ++ (seg ++ post)) = some l) :
    ∃ l', Machine.goto? k (pre ++ (seg' ++ post)) = some l' ∧ Moved pre post seg seg' l l' := by
  obtain ⟨i, is, j, js, rfl, rfl, hid, hids, -, -⟩ := h.exists_cons
  rw [goto?_append] at hl ⊢
  cases hpre : Machine.goto? k pre with
  | some u =>
      obtain ⟨pre', a, u, rfl, rfl, -⟩ := exists_of_goto? hpre
      rw [hpre] at hl
      cases hl
      exact ⟨_, rfl, .before (a :: u) (List.suffix_append _ _)⟩
  | none =>
      rw [hpre] at hl
      simp only [Option.map_none, Option.none_or, List.cons_append, Machine.goto?, hid] at hl ⊢
      by_cases hi : i.id = k
      · rw [if_pos hi] at hl ⊢
        cases hl
        exact ⟨_, rfl, .before [] (List.nil_suffix)⟩
      · have his : Machine.goto? k is = none := goto?_eq_none.2 hk
        have hjs : Machine.goto? k js = none := goto?_eq_none.2 (hids ▸ hk)
        rw [if_neg hi, goto?_append, his] at hl
        rw [if_neg hi, goto?_append, hjs]
        obtain ⟨post', a, v, rfl, rfl, -⟩ := exists_of_goto? hl
        exact ⟨_, hl, .behind (a :: v) (List.suffix_append _ _)⟩

/-- A call goes to corresponding places. -/
theorem callee? (h : Rewrites pre post seg seg') {name : String} {l : List Instr}
    (hl : Machine.callee? name (pre ++ (seg ++ post)) = some l) :
    ∃ l', Machine.callee? name (pre ++ (seg' ++ post)) = some l' ∧
      Moved pre post seg seg' l l' := by
  have hseg : Machine.callee? name seg = none := callee?_eq_none h.not_entry.1
  have hseg' : Machine.callee? name seg' = none := callee?_eq_none h.not_entry.2
  rw [callee?_append, callee?_append name seg, hseg] at hl
  rw [callee?_append, callee?_append name seg', hseg']
  cases hpost : Machine.callee? name post with
  | some v =>
      obtain ⟨post', a, v, rfl, rfl, -⟩ := exists_of_callee? hpost
      simp only [hpost, Option.some_or, Option.some.injEq] at hl ⊢
      subst hl
      exact ⟨_, rfl, .behind (a :: v) (List.suffix_append _ _)⟩
  | none =>
      simp only [hpost, Option.map_none, Option.or_none, Option.none_or] at hl ⊢
      obtain ⟨u, hu, rfl⟩ := Option.map_eq_some_iff.1 hl
      obtain ⟨pre', a, u, rfl, rfl, -⟩ := exists_of_callee? hu
      exact ⟨_, by rw [hu]; rfl, .before (a :: u) (List.suffix_append _ _)⟩

end Rewrites

/-! ### Through the change -/

section Through

variable {pre post seg seg' : List Instr} {s t : State}

/-- The jumps outside of a change go to corresponding places that are quiet. -/
theorem Rewrites.landing? (h : Rewrites pre post seg seg')
    (hcode : Guarded (pre ++ (seg ++ post))) {i i' : Instr} (hi : i ∈ pre ++ (seg ++ post))
    (hi' : i'.targetId? = i.targetId?) (havoid : ∀ k ∈ seg.tail.map Instr.id, i.targetId? ≠ some k)
    {l : List Instr} (hl : Machine.landing? (pre ++ (seg ++ post)) i = some l) :
    ∃ l', Machine.landing? (pre ++ (seg' ++ post)) i' = some l' ∧
      Moved pre post seg seg' l l' ∧ Quiet l := by
  obtain ⟨k, hk, hgoto⟩ := Option.bind_eq_some_iff.1 hl
  obtain ⟨l', hl', hmoved⟩ := h.goto? (fun hmem => havoid k hmem hk) hgoto
  refine ⟨l', ?_, hmoved, hcode.quiet_landing hi hl⟩
  rw [Machine.landing?, hi', hk]
  exact hl'

/-- Behind the change the runs meet. -/
theorem Moved.joins_behind {code code' : List Instr} (hpost : Quiet post) (hs : s.rest = post)
    (ht : t.rest = post) (hstack : s.stack = t.stack) (hbase : s.base = t.base)
    (hframes : List.Forall₂ (fun f g => Moved pre post seg seg' f.1 g.1 ∧ Quiet f.1 ∧ f.2 = g.2)
      s.frames t.frames) (hglobals : s.globals = t.globals) :
    Joins (Moved pre post seg seg') code code' s t := by
  refine .of_alike ⟨?_, hstack, hbase, hframes, hglobals, .inl (hs ▸ hpost)⟩
  rw [hs, ht]
  exact .behind post List.suffix_rfl

/-- A cell is dropped and tested.  The new code follows if it goes to the target of the test, or
behind the change, as the test decides. -/
theorem Moved.joins_test {code code' : List Instr} {drop test : Instr} {c : Condition}
    {x : UInt32} {u : State} {flag : Int32}
    (hst : Alike (Moved pre post seg seg') s t) (hpost : Quiet post)
    (hdrop : drop.op = .pop) (htest : test.op = .jump c)
    (hu : u = { s with rest := drop :: test :: post, stack := x :: s.stack, flag := flag })
    (hyes : c.holds x.toInt32 = true → ∀ l, Machine.landing? code test = some l →
      ∃ l', Reaches code' t { t with rest := l' } ∧ Moved pre post seg seg' l l' ∧ Quiet l)
    (hno : c.holds x.toInt32 = false → Reaches code' t { t with rest := post }) :
    Joins (Moved pre post seg seg') code code' u t := by
  subst hu
  refine .of_execute rfl (by simp [hdrop]) fun u₁ hu₁ => ?_
  obtain ⟨y, stack, hy, rfl⟩ := (execute_pop hdrop).1 hu₁
  cases hy
  refine .of_execute rfl (by simp [htest]) fun u₂ hu₂ => ?_
  rcases (execute_jump htest).1 hu₂ with ⟨hc, l, hl, rfl⟩ | ⟨hc, rfl⟩
  · obtain ⟨l', hreach, hmoved, hquiet⟩ := hyes hc l hl
    exact .of_reaches hreach (.of_alike
      ⟨hmoved, hst.stack, hst.base, hst.frames, hst.globals, .inl hquiet⟩)
  · exact .of_reaches (hno hc)
      (joins_behind hpost rfl rfl hst.stack hst.base hst.frames hst.globals)

/-- An instruction that pushes a known integer pushes it. -/
theorem read_of_pushed? {i : Instr} {n : Int32} (h : i.pushed? = some n) :
    s.read i.operand = .ok n.toUInt32 := by
  have hint := (op_of_pushed? h).2
  cases ho : i.operand with
  | immediate bits type =>
      cases type with
      | int =>
          rw [ho] at hint
          cases hint
          simp [State.read]
      | float => simp [ho, Operand.int?] at hint
  | none => simp [ho, Operand.int?] at hint
  | frame offset => simp [ho, Operand.int?] at hint
  | global name => simp [ho, Operand.int?] at hint
  | label name => simp [ho, Operand.int?] at hint

/-- What is behind a place that is reached without an effect is found again from there. -/
theorem exists_of_reaches {k : Nat} {is : List Instr} (h : reaches k is = true) :
    ∃ nops i rest, is = nops ++ i :: rest ∧ i.id = k ∧ ∀ j ∈ nops, j.op = .nop := by
  induction is with
  | nil => cases h
  | cons i is ih =>
      by_cases hi : i.id = k
      · exact ⟨[], i, is, rfl, hi, by simp⟩
      · simp only [reaches, hi, decide_false, Bool.false_or, Bool.and_eq_true] at h
        obtain ⟨nops, j, rest, rfl, hj, hnops⟩ := ih h.2
        refine ⟨i :: nops, j, rest, rfl, hj, ?_⟩
        intro a ha
        rcases List.mem_cons.1 ha with rfl | ha
        · simpa [Instr.isNop] using h.1
        · exact hnops a ha

end Through

/-! ### Each change -/

section Changes

variable {pre post : List Instr} {s t : State}

/-- What a jump to an instruction of the code finds. -/
theorem landing?_of_nodup {u v : List Instr} {i j : Instr} (h : ((u ++ j :: v).map Instr.id).Nodup)
    (hi : i.targetId? = some j.id) : landing? (u ++ j :: v) i = some (j :: v) := by
  rw [landing?, hi, Option.bind_some]
  refine goto?_append_cons fun hmem => ?_
  rw [List.map_append, List.map_cons] at h
  exact (List.nodup_append.1 h).2.2 _ hmem _ List.mem_cons_self rfl

theorem follows_of_comparison {first zero skip one drop test : Instr} {cc c : Condition}
    {seg seg' code code' : List Instr} (hseg : seg = [first, zero, skip, one, drop, test])
    (hcode : code = pre ++ (seg ++ post)) (hnodup : (code.map Instr.id).Nodup)
    (hfirst : first.op = .jump cc) (hcc : cc.isConditional = true)
    (hone : first.targetId? = some one.id) (hzero : zero.pushed? = some 0)
    (hskip : skip.op = .jump .always) (hend : skip.targetId? = some drop.id)
    (hpush : one.pushed? = some 1) (hdrop : drop.op = .pop) (htest : test.op = .jump c)
    (hc : c = .equal ∨ c = .notEqual) (hpost : Quiet post)
    (hst : Alike (Moved pre post seg seg') s t) (hs : s.rest = seg ++ post)
    {first' : Instr} (hfirst' : first'.op = .jump (if c = .equal then cc.negate else cc))
    (ht : t.rest = first'
      :: zero.erase :: skip.erase :: one.erase :: drop.erase :: test.erase :: post)
    (hland : ∀ l, landing? code test = some l →
      ∃ l', landing? code' first' = some l' ∧ Moved pre post seg seg' l l' ∧ Quiet l) :
    Follows (Moved pre post seg seg') code code' s t := by
  subst hseg hcode
  have hflag : s.flag = t.flag := by
    rcases hst.flag with hq | hq
    · simp [hs, hfirst, Op.isConditionalJump, hcc] at hq
    · exact hq
  have hlandOne : landing? (pre ++ ([first, zero, skip, one, drop, test] ++ post)) first
      = some (one :: drop :: test :: post) := by
    have : pre ++ ([first, zero, skip, one, drop, test] ++ post)
        = (pre ++ [first, zero, skip]) ++ one :: drop :: test :: post := by simp
    rw [this] at hnodup ⊢
    exact landing?_of_nodup hnodup hone
  have hlandDrop : landing? (pre ++ ([first, zero, skip, one, drop, test] ++ post)) skip
      = some (drop :: test :: post) := by
    have : pre ++ ([first, zero, skip, one, drop, test] ++ post)
        = (pre ++ [first, zero, skip, one]) ++ drop :: test :: post := by simp
    rw [this] at hnodup ⊢
    exact landing?_of_nodup hnodup hend
  -- once the truth value is pushed, the new jump decides as the test of that value
  have htail : ∀ (n : Int32) u,
      c.holds n = Condition.holds (if c = .equal then cc.negate else cc) t.flag →
      u = { s with rest := drop :: test :: post, stack := n.toUInt32 :: s.stack } →
      Joins (Moved pre post [first, zero, skip, one, drop, test] seg')
        (pre ++ ([first, zero, skip, one, drop, test] ++ post)) code' u t := by
    intro n u hn hu
    refine Moved.joins_test hst hpost hdrop htest hu (fun hx l hl => ?_) (fun hx => ?_)
    · obtain ⟨l', hl', hmoved, hquiet⟩ := hland l hl
      rw [Int32.toInt32_toUInt32, hn] at hx
      exact ⟨l', reaches_of_holds ht hfirst' hx hl', hmoved, hquiet⟩
    · rw [Int32.toInt32_toUInt32, hn] at hx
      refine (reaches_of_not_holds ht hfirst' hx).trans ?_
      exact @reaches_of_nops _ _ [zero.erase, skip.erase, one.erase, drop.erase, test.erase] _
        rfl (by simp [Instr.erase])
  refine .of_execute hs (by simp [hfirst]) fun s₁ h₁ => ?_
  rcases (execute_jump hfirst).1 h₁ with ⟨hholds, l, hl, rfl⟩ | ⟨hholds, rfl⟩
  · cases hlandOne.symm.trans hl
    have hload := (op_of_pushed? hpush).1
    refine .of_execute rfl (by simp [hload]) fun s₂ h₂ => ?_
    obtain ⟨v, hv, rfl⟩ := (execute_load hload).1 h₂
    cases (read_of_pushed? hpush).symm.trans hv
    refine htail 1 _ ?_ rfl
    rw [← hflag]
    rcases hc with rfl | rfl
    · rw [if_pos rfl, Condition.holds_negate hcc]
      exact (congrArg not hholds).symm
    · exact hholds.symm
  · have hload := (op_of_pushed? hzero).1
    refine .of_execute rfl (by simp [hload]) fun s₂ h₂ => ?_
    obtain ⟨v, hv, rfl⟩ := (execute_load hload).1 h₂
    cases (read_of_pushed? hzero).symm.trans hv
    refine .of_execute rfl (by simp [hskip]) fun s₃ h₃ => ?_
    rcases (execute_jump hskip).1 h₃ with ⟨-, l, hl, rfl⟩ | ⟨hfalse, -⟩
    · cases hlandDrop.symm.trans hl
      refine htail 0 _ ?_ rfl
      rw [← hflag]
      rcases hc with rfl | rfl
      · rw [if_pos rfl, Condition.holds_negate hcc]
        exact (congrArg not hholds).symm
      · exact hholds.symm
    · cases hfalse

theorem follows_of_idleJump {i : Instr} {c : Condition} {k : Nat} {seg seg' code code' : List Instr}
    (hseg : seg = [i]) (hcode : code = pre ++ (seg ++ post)) (hnodup : (code.map Instr.id).Nodup)
    (hop : i.op = .jump c) (htarget : i.targetId? = some k) (hreach : reaches k post = true)
    (hpost : Quiet post) (hst : Alike (Moved pre post seg seg') s t) (hs : s.rest = seg ++ post)
    (ht : t.rest = i.erase :: post) (hquiet : ∀ l, landing? code i = some l → Quiet l) :
    Follows (Moved pre post seg seg') code code' s t := by
  subst hseg hcode
  have hbehind : Reaches code' t { t with rest := post } :=
    @reaches_of_nops _ _ [i.erase] _ ht (by simp [Instr.erase])
  refine .of_execute hs (by simp [hop]) fun s₁ h₁ => ?_
  rcases (execute_jump hop).1 h₁ with ⟨-, l, hl, rfl⟩ | ⟨-, rfl⟩
  · -- what stands between the jump and its target does nothing
    obtain ⟨nops, j, rest, rfl, rfl, hnops⟩ := exists_of_reaches hreach
    have hland : landing? (pre ++ ([i] ++ (nops ++ j :: rest))) i = some (j :: rest) := by
      have : pre ++ ([i] ++ (nops ++ j :: rest)) = (pre ++ [i] ++ nops) ++ j :: rest := by simp
      rw [this] at hnodup ⊢
      exact landing?_of_nodup hnodup htarget
    cases hland.symm.trans hl
    refine .of_reaches (hbehind.trans (reaches_of_nops rfl hnops)) (.of_alike ?_)
    exact ⟨.behind _ (List.suffix_append _ _), hst.stack, hst.base, hst.frames, hst.globals,
      .inl (hquiet _ hland)⟩
  · exact .of_reaches hbehind
      (Moved.joins_behind hpost rfl rfl hst.stack hst.base hst.frames hst.globals)

theorem follows_of_sureJump {first drop test : Instr} {n : Int32} {c : Condition}
    {seg seg' code code' : List Instr} (hseg : seg = [first, drop, test])
    (hfirst : first.pushed? = some n) (hdrop : drop.op = .pop) (htest : test.op = .jump c)
    (hholds : c.holds n = true) (hpost : Quiet post)
    (hst : Alike (Moved pre post seg seg') s t) (hs : s.rest = seg ++ post)
    {first' : Instr} (hfirst' : first'.op = .jump .always)
    (ht : t.rest = first' :: drop.erase :: test.erase :: post)
    (hland : ∀ l, landing? code test = some l →
      ∃ l', landing? code' first' = some l' ∧ Moved pre post seg seg' l l' ∧ Quiet l) :
    Follows (Moved pre post seg seg') code code' s t := by
  subst hseg
  have hload := (op_of_pushed? hfirst).1
  refine .of_execute hs (by simp [hload]) fun s₁ h₁ => ?_
  obtain ⟨v, hv, rfl⟩ := (execute_load hload).1 h₁
  cases (read_of_pushed? hfirst).symm.trans hv
  refine Moved.joins_test hst hpost hdrop htest rfl (fun _ l hl => ?_) (fun hx => ?_)
  · obtain ⟨l', hl', hmoved, hquiet⟩ := hland l hl
    exact ⟨l', reaches_of_holds ht hfirst' rfl hl', hmoved, hquiet⟩
  · rw [Int32.toInt32_toUInt32, hholds] at hx
    cases hx

theorem follows_of_neverJump {first drop test : Instr} {n : Int32} {c : Condition}
    {seg seg' code code' : List Instr} (hseg : seg = [first, drop, test])
    (hfirst : first.pushed? = some n) (hdrop : drop.op = .pop) (htest : test.op = .jump c)
    (hholds : c.holds n = false) (hpost : Quiet post)
    (hst : Alike (Moved pre post seg seg') s t) (hs : s.rest = seg ++ post)
    (ht : t.rest = first.erase :: drop.erase :: test.erase :: post) :
    Follows (Moved pre post seg seg') code code' s t := by
  subst hseg
  have hload := (op_of_pushed? hfirst).1
  refine .of_execute hs (by simp [hload]) fun s₁ h₁ => ?_
  obtain ⟨v, hv, rfl⟩ := (execute_load hload).1 h₁
  cases (read_of_pushed? hfirst).symm.trans hv
  refine Moved.joins_test hst hpost hdrop htest rfl (fun hx => ?_) (fun _ => ?_)
  · rw [Int32.toInt32_toUInt32, hholds] at hx
    cases hx
  · exact @reaches_of_nops _ _ [first.erase, drop.erase, test.erase] _ ht (by simp [Instr.erase])

theorem follows_of_deadPair {first drop : Instr} {seg seg' code code' : List Instr}
    (hseg : seg = [first, drop]) (hfirst : first.op = .load ∨ first.op = .dup)
    (hdrop : drop.op = .pop) (hpost : Quiet post)
    (hst : Alike (Moved pre post seg seg') s t) (hs : s.rest = seg ++ post)
    (ht : t.rest = first.erase :: drop.erase :: post) :
    Follows (Moved pre post seg seg') code code' s t := by
  subst hseg
  have hbehind : Reaches code' t { t with rest := post } :=
    @reaches_of_nops _ _ [first.erase, drop.erase] _ ht (by simp [Instr.erase])
  refine .of_execute hs (by rcases hfirst with h | h <;> simp [h]) fun s₁ h₁ => ?_
  obtain ⟨v, rfl⟩ : ∃ v, s₁ = State.push v { s with rest := drop :: post } := by
    rcases hfirst with hop | hop
    · obtain ⟨v, -, hv⟩ := (execute_load hop).1 h₁
      exact ⟨v, hv⟩
    · obtain ⟨v, stack, -, hv⟩ := (execute_dup hop).1 h₁
      exact ⟨v, hv⟩
  refine .of_execute rfl (by simp [hdrop]) fun s₂ h₂ => ?_
  obtain ⟨w, stack, hw, rfl⟩ := (execute_pop hdrop).1 h₂
  cases hw
  exact .of_reaches hbehind
    (Moved.joins_behind hpost rfl rfl hst.stack hst.base hst.frames hst.globals)

theorem follows_of_floatLiteral {first change : Instr} {n : Int32}
    {seg seg' code code' : List Instr}
    (hseg : seg = [first, change]) (hfirst : first.pushed? = some n)
    (hchange : change.op = .toFloat) (hpost : Quiet post)
    (hst : Alike (Moved pre post seg seg') s t) (hs : s.rest = seg ++ post)
    {first' : Instr} (ht : t.rest = first' :: change.erase :: post) (hfirst' : first'.op = .load)
    (hoperand : first'.operand = .float (.ofInt32 n)) :
    Follows (Moved pre post seg seg') code code' s t := by
  subst hseg
  have hload := (op_of_pushed? hfirst).1
  refine .of_execute hs (by simp [hload]) fun s₁ h₁ => ?_
  obtain ⟨v, hv, rfl⟩ := (execute_load hload).1 h₁
  cases (read_of_pushed? hfirst).symm.trans hv
  refine .of_execute rfl (by simp [hchange]) fun s₂ h₂ => ?_
  obtain ⟨w, stack, hw, rfl⟩ := (execute_toFloat hchange).1 h₂
  cases hw
  have hpush : Reaches code' t
      (State.push (Binary32.ofInt32 n).bits { t with rest := change.erase :: post }) :=
    .step (step_eq_next ht (by simp [hfirst'])
      ((execute_load hfirst').2 ⟨_, by rw [hoperand]; rfl, rfl⟩))
  have hbehind := hpush.trans
    (@reaches_of_nops _ _ [change.erase] post rfl (by simp [Instr.erase]))
  refine .of_reaches hbehind
    (Moved.joins_behind hpost rfl rfl ?_ hst.base hst.frames hst.globals)
  simp [State.push, hst.stack]

theorem follows_of_duplicateLoad {first second : Instr} {seg seg' code code' : List Instr}
    (hseg : seg = [first, second]) (hfirst : first.op = .load) (hsecond : second.op = .load)
    (hoperand : first.operand = second.operand) (hpost : Quiet post)
    (hst : Alike (Moved pre post seg seg') s t) (hs : s.rest = seg ++ post)
    {second' : Instr} (hsecond' : second'.op = .dup) (ht : t.rest = first :: second' :: post) :
    Follows (Moved pre post seg seg') code code' s t := by
  subst hseg
  refine .of_execute hs (by simp [hfirst]) fun s₁ h₁ => ?_
  obtain ⟨v, hv, rfl⟩ := (execute_load hfirst).1 h₁
  refine .of_execute rfl (by simp [hsecond]) fun s₂ h₂ => ?_
  obtain ⟨w, hw, rfl⟩ := (execute_load hsecond).1 h₂
  -- the second load reads what the first one read
  have hread : State.read second.operand (State.push v { s with rest := post }) = .ok v :=
    State.read_push (by rw [← hoperand]; exact hv)
  cases hread.symm.trans hw
  have hload : Reaches code' t (State.push v { t with rest := second' :: post }) := by
    refine .step (step_eq_next ht (by simp [hfirst]) ((execute_load hfirst).2 ⟨v, ?_, rfl⟩))
    rw [← hv]
    exact State.read_congr hst.stack.symm hst.base.symm hst.globals.symm
  have hdup : Reaches code' (State.push v { t with rest := second' :: post })
      (State.push v (State.push v { t with rest := post })) :=
    .step (step_eq_next rfl (by simp [hsecond']) ((execute_dup hsecond').2 ⟨v, _, rfl, rfl⟩))
  refine .of_reaches (hload.trans hdup)
    (Moved.joins_behind hpost rfl rfl ?_ hst.base hst.frames hst.globals)
  simp [State.push, hst.stack]

end Changes

/-! ### The whole code -/

namespace Rewrites

variable {pre post seg seg' : List Instr} {s t : State}

/-- **From the first changed instruction the new code follows the old one.** -/
theorem follows (h : Rewrites pre post seg seg') (hreg : Regular (pre ++ (seg ++ post)))
    (hcode : Guarded (pre ++ (seg ++ post))) (hst : Alike (Moved pre post seg seg') s t)
    (hs : s.rest = seg ++ post) (ht : t.rest = seg' ++ post) :
    Follows (Moved pre post seg seg') (pre ++ (seg ++ post)) (pre ++ (seg' ++ post)) s t := by
  have hpost := h.quiet_post hcode
  -- the test of a change may only jump out of it
  have hland : ∀ test first', test ∈ seg → first'.targetId? = test.targetId? →
      (∀ k ∈ seg.tail.map Instr.id, test.targetId? ≠ some k) →
      ∀ l, Machine.landing? (pre ++ (seg ++ post)) test = some l →
        ∃ l', Machine.landing? (pre ++ (seg' ++ post)) first' = some l' ∧
          Moved pre post seg seg' l l' ∧ Quiet l := fun test first' hmem htarget havoid l hl =>
    h.landing? hcode (List.mem_append_right _ (List.mem_append_left _ hmem)) htarget havoid hl
  cases h with
  | comparison hfirst hcc hone hzero hskip hend hpush hdrop htest hc havoid =>
      exact follows_of_comparison rfl rfl hreg.nodup hfirst hcc hone hzero hskip hend hpush hdrop
        htest hc hpost hst hs rfl ht (hland _ _ (by simp) rfl (havoid _ (by simp)))
  | idleJump hop htarget hreach =>
      exact follows_of_idleJump rfl rfl hreg.nodup hop htarget hreach hpost hst hs ht
        fun l hl => hcode.quiet_landing (by simp) hl
  | sureJump hfirst hdrop htest hc hholds havoid =>
      exact follows_of_sureJump rfl hfirst hdrop htest hholds hpost hst hs rfl ht
        (hland _ _ (by simp) rfl (havoid _ (by simp)))
  | neverJump hfirst hdrop htest hc hholds havoid =>
      exact follows_of_neverJump rfl hfirst hdrop htest hholds hpost hst hs ht
  | deadPair hfirst hdrop hnext havoid =>
      exact follows_of_deadPair rfl hfirst hdrop hpost hst hs ht
  | floatLiteral hfirst hchange havoid =>
      exact follows_of_floatLiteral rfl hfirst hchange hpost hst hs ht (op_of_pushed? hfirst).1 rfl
  | duplicateLoad hfirst hsecond hoperand havoid =>
      exact follows_of_duplicateLoad rfl hfirst hsecond hoperand hpost hst hs rfl ht

/-- Outside of the change both codes do the same. -/
theorem follows_outside (h : Rewrites pre post seg seg')
    (hcode : Guarded (pre ++ (seg ++ post))) (hst : Alike (Moved pre post seg seg') s t)
    {i : Instr} {r r' : List Instr} (hi : i ∈ pre ++ post) (hs : s.rest = i :: r)
    (ht : t.rest = i :: r') (hnext : Moved pre post seg seg' r r')
    (hquiet : i.op ≠ .pop → Quiet r) :
    Follows (Moved pre post seg seg') (pre ++ (seg ++ post)) (pre ++ (seg' ++ post)) s t := by
  have hmem : i ∈ pre ++ (seg ++ post) := by
    simp only [List.mem_append] at hi ⊢
    tauto
  refine follows_of_lockstep hst hs ht rfl rfl hnext hquiet (fun l hl => ?_) (fun name l hl => ?_)
  · exact h.landing? hcode hmem rfl (h.avoids i hi) hl
  · obtain ⟨l', hl', hmoved⟩ := h.callee? hl
    exact ⟨l', hl', hmoved, quiet_callee hl⟩

/-- **A change keeps what a run to a halt shows.** -/
theorem halts (h : Rewrites pre post seg seg') (hreg : Regular (pre ++ (seg ++ post)))
    (hcode : Guarded (pre ++ (seg ++ post))) {o : Outcome}
    (ho : Halts (pre ++ (seg ++ post)) o) : Halts (pre ++ (seg' ++ post)) o := by
  refine @halts_of_follows (Moved pre post seg seg') _ _ (fun s t hst => ?_)
    (.before pre List.suffix_rfl) hcode.quiet o ho
  have hrest := hst.rest
  generalize hr : s.rest = r, hr' : t.rest = r' at hrest
  cases hrest with
  | before u hu =>
      cases u with
      | nil => exact h.follows hreg hcode hst hr hr'
      | cons i u =>
          obtain ⟨pre', rfl⟩ := hu
          refine h.follows_outside hcode hst (by simp) hr hr'
            (.before u ((List.suffix_cons i u).trans (List.suffix_append _ _))) fun hi => ?_
          have hcode' : Guarded (pre' ++ i :: (u ++ (seg ++ post))) := by simpa using hcode
          exact hcode'.quiet_tail hi
  | behind _ hv =>
      cases r with
      | nil =>
          intro n o hn
          cases n with
          | zero => cases hn
          | succ n => simp [run_succ, step, hr] at hn
      | cons i v =>
          obtain ⟨post', rfl⟩ := hv
          refine h.follows_outside hcode hst (by simp) hr hr'
            (.behind v ((List.suffix_cons i v).trans (List.suffix_append _ _))) fun hi => ?_
          have hcode' : Guarded ((pre ++ (seg ++ post')) ++ i :: v) := by simpa using hcode
          exact hcode'.quiet_tail hi

end Rewrites

end Peephole

end StackLang
