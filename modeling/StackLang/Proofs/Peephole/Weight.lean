/-
**How much the optimizer can do.**

Each use of a rule takes away an instruction that does something, or turns a push of an operand into
a copy.  So a code that counts what does something, and its pushes twice, gets lighter with every
use of a rule, and no heavier when it is spliced.  The weight of the code bounds the uses of rules
and with them the passes: the optimizer ends by itself.

Main definitions:

* `Peephole.totalWeight` — the weight of code;
* `Peephole.Changes` — a number of changes, one after another;
* `Code.afterRound`, `Code.usedInRound` — one splice with the pass behind it.

Main results:

* `Peephole.changes_passAll` — a pass makes a change for each rule that it uses;
* `Code.stats_optimizeFrom` — what the statistics say of the code;
* `Code.optimizeFrom_eq` — a bound on passes that exceeds the weight does not matter.
-/

import StackLang.Proofs.Peephole.Optimize

set_option relaxedAutoImplicit false
set_option autoImplicit false

namespace StackLang

namespace Peephole

open Machine

/-! ### The weight of code -/

/-- What an instruction weighs: nothing if it does nothing, and a push of an operand twice as much
as any other. -/
def weight : Op → Nat
  | .nop => 0
  | .load => 2
  | _ => 1

/-- What some instructions weigh together. -/
def totalWeight (is : List Instr) : Nat := (is.map fun i => weight i.op).sum

@[simp] theorem totalWeight_nil : totalWeight [] = 0 := rfl

@[simp] theorem totalWeight_cons (i : Instr) (is : List Instr) :
    totalWeight (i :: is) = weight i.op + totalWeight is := rfl

@[simp] theorem totalWeight_append (is js : List Instr) :
    totalWeight (is ++ js) = totalWeight is + totalWeight js := by
  simp [totalWeight]

theorem totalWeight_le (is : List Instr) : totalWeight is ≤ 2 * is.length := by
  induction is with
  | nil => simp
  | cons i is ih =>
      have hi : weight i.op ≤ 2 := by
        unfold weight
        split <;> omega
      simp only [totalWeight_cons, List.length_cons]
      omega

/-- **A change makes code lighter.** -/
theorem Rewrites.totalWeight_lt {pre post seg seg' : List Instr} (h : Rewrites pre post seg seg') :
    totalWeight seg' < totalWeight seg := by
  have herase : ∀ i : Instr, i.erase.op = .nop := fun _ => rfl
  cases h with
  | comparison hfirst _ _ hzero hskip _ hpush hdrop htest =>
      simp [herase, hfirst, (op_of_pushed? hzero).1, hskip, (op_of_pushed? hpush).1, hdrop, htest,
        weight]
  | idleJump hop => simp [herase, hop, weight]
  | sureJump hfirst hdrop htest | neverJump hfirst hdrop htest =>
      simp [herase, (op_of_pushed? hfirst).1, hdrop, htest, weight]
  | deadPair hfirst hdrop => rcases hfirst with h | h <;> simp [herase, h, hdrop, weight]
  | floatLiteral hfirst hchange =>
      simp [herase, (op_of_pushed? hfirst).1, hchange, weight]
  | duplicateLoad hfirst hsecond => simp [hfirst, hsecond, weight]

/-! ### Changes one after another -/

/-- Some number of changes, one after another. -/
inductive Changes : Nat → List Instr → List Instr → Prop where
  | nil (code : List Instr) : Changes 0 code code
  | cons {n : Nat} {pre post seg seg' code : List Instr} (h : Rewrites pre post seg seg')
      (hrest : Changes n (pre ++ (seg' ++ post)) code) :
      Changes (n + 1) (pre ++ (seg ++ post)) code

namespace Changes

variable {n : Nat} {code code' : List Instr}

theorem eq_of_zero (h : Changes 0 code code') : code' = code := by
  cases h
  rfl

/-- Each change makes the code lighter. -/
theorem totalWeight_le (h : Changes n code code') :
    totalWeight code' + n ≤ totalWeight code := by
  induction h with
  | nil => simp
  | cons h _ ih =>
      have := h.totalWeight_lt
      simp only [totalWeight_append] at ih ⊢
      omega

/-- Changes keep the identities. -/
theorem map_id (h : Changes n code code') : code'.map Instr.id = code.map Instr.id := by
  induction h with
  | nil => rfl
  | cons h _ ih => rw [ih, List.map_append, List.map_append, h.map_id, List.map_append,
      List.map_append]

theorem length (h : Changes n code code') : code'.length = code.length := by
  simpa using congrArg List.length h.map_id

theorem regular (h : Changes n code code') (hreg : Regular code) : Regular code' := by
  induction h with
  | nil => exact hreg
  | cons h _ ih => exact ih (h.regular hreg)

end Changes

/-- A walk makes a change for each rule that it uses. -/
theorem changes_iterate (n : Nat) {w : Walk} (h : w.IsSound) :
    ∃ k, (Walk.step^[n] w).used.length = w.used.length + k ∧
      Changes k w.code (Walk.step^[n] w).code := by
  induction n generalizing w with
  | zero => exact ⟨0, rfl, .nil _⟩
  | succ n ih =>
      rw [Function.iterate_succ_apply]
      obtain ⟨k, hk, hchanges⟩ := ih h.step
      rcases h.code_step with ⟨hcode, hused⟩ | ⟨_, _, _, _, hchange, hold, hnew, hused⟩
      · exact ⟨k, hused ▸ hk, hcode ▸ hchanges⟩
      · refine ⟨k + 1, ?_, hold ▸ .cons hchange (hnew ▸ hchanges)⟩
        rw [hk, hused, List.length_append, List.length_singleton]
        omega

/-- **A pass makes a change for each rule that it uses.** -/
theorem changes_passAll {code : List Instr} (hreg : Regular code) :
    Changes (passAll code).2.length code (passAll code).1 := by
  obtain ⟨k, hk, hchanges⟩ := changes_iterate code.length (Walk.isSound_start hreg)
  -- no rule was used before the start
  have hused : (Walk.start code).used.length + k = k := Nat.zero_add k
  rw [Walk.passAll_eq, hk, hused]
  exact hchanges

end Peephole

namespace Code

open Machine Peephole

variable {is : List Instr} {c : Code}

/-! ### Splices -/

theorem length_thin (is : List Instr) : (thin is).1.length + (thin is).2.length = is.length := by
  induction is with
  | nil => rfl
  | cons i is ih =>
      by_cases h : Goes i is
      · obtain ⟨j, kept, hkept, heq, hgone⟩ := exists_thin_of_goes h
        rw [hkept] at ih
        rw [heq, hgone]
        simp only [List.length_cons] at ih ⊢
        omega
      · obtain ⟨hkept, hgone⟩ := thin_of_not_goes h
        rw [hkept, hgone, List.length_cons, List.length_cons]
        omega

/-- **A splice counts the instructions that it takes out.** -/
theorem length_splice (c : Code) : c.splice.2.length + c.splice.1 = c.length := by
  have := length_thin c.instrs
  simpa [splice, length] using this

theorem totalWeight_splice (c : Code) : totalWeight c.splice.2.instrs ≤ totalWeight c.instrs := by
  have hsame : totalWeight c.splice.2.instrs = totalWeight (thin c.instrs).1 := by
    simp [totalWeight, splice, Function.comp_def]
  rw [hsame]
  exact ((thin_sublist c.instrs).map _).sum_le_sum fun _ _ => Nat.zero_le _

/-! ### Rounds of the optimizer -/

theorem total_addPass (removed : Nat) (used : List RuleName) (s : Stats) :
    (s.addPass removed used).total = s.total + used.length := by
  have hadd : ∀ (s : Stats) (name : RuleName), (s.add name).total = s.total + 1 := by
    intro s name
    cases name <;> simp only [Stats.add, Stats.total] <;> omega
  have hused : ∀ s : Stats, (used.foldl Stats.add s).total = s.total + used.length := by
    induction used with
    | nil => exact fun s => rfl
    | cons name used ih =>
        intro s
        rw [List.foldl_cons, ih, hadd, List.length_cons]
        omega
  exact hused _

theorem nopsRemoved_addPass (removed : Nat) (used : List RuleName) (s : Stats) :
    (s.addPass removed used).nopsRemoved = s.nopsRemoved + removed := by
  have hused : ∀ s : Stats, (used.foldl Stats.add s).nopsRemoved = s.nopsRemoved := by
    induction used with
    | nil => exact fun s => rfl
    | cons name used ih =>
        intro s
        rw [List.foldl_cons, ih]
        cases name <;> rfl
  exact hused _

/-- The code after a splice and a pass. -/
def afterRound (c : Code) : Code :=
  { c.splice.2 with instrs := (passAll c.splice.2.instrs).1 }

/-- The rules that the pass after a splice uses. -/
def usedInRound (c : Code) : List RuleName := (passAll c.splice.2.instrs).2

theorem optimizeFrom_succ (fuel : Nat) (c : Code) (s : Stats) :
    c.optimizeFrom (fuel + 1) s =
      if c.usedInRound = [] then (c.afterRound, s.addPass c.splice.1 c.usedInRound)
      else c.afterRound.optimizeFrom fuel (s.addPass c.splice.1 c.usedInRound) := rfl

theorem changes_afterRound (h : Regular c.instrs) :
    Changes c.usedInRound.length c.splice.2.instrs c.afterRound.instrs :=
  changes_passAll (regular_spliced h)

theorem regular_afterRound (h : Regular c.instrs) : Regular c.afterRound.instrs :=
  (changes_afterRound h).regular (regular_spliced h)

/-- **A round makes the code lighter** by each rule that it uses. -/
theorem totalWeight_afterRound (h : Regular c.instrs) :
    totalWeight c.afterRound.instrs + c.usedInRound.length ≤ totalWeight c.instrs :=
  (changes_afterRound h).totalWeight_le.trans (totalWeight_splice c)

/-- A round that uses no rule only splices. -/
theorem afterRound_of_usedInRound (hreg : Regular c.instrs) (h : c.usedInRound = []) :
    c.afterRound = c.splice.2 := by
  have hchanges := changes_afterRound hreg
  rw [h, List.length_nil] at hchanges
  have hinstrs : (passAll c.splice.2.instrs).1 = c.splice.2.instrs := hchanges.eq_of_zero
  rw [afterRound, hinstrs]

/-- How many more passes the optimizer may make does not matter. -/
theorem optimizeFrom_eq {fuel fuel' : Nat} (hreg : Regular c.instrs) (s : Stats)
    (h : totalWeight c.instrs < fuel) (h' : totalWeight c.instrs < fuel') :
    c.optimizeFrom fuel s = c.optimizeFrom fuel' s := by
  induction fuel generalizing fuel' c s with
  | zero => cases h
  | succ fuel ih =>
      obtain ⟨fuel', rfl⟩ := Nat.exists_eq_succ_of_ne_zero (Nat.ne_zero_of_lt h')
      rw [optimizeFrom_succ, Nat.succ_eq_add_one, optimizeFrom_succ]
      split
      case isTrue => rfl
      case isFalse hused =>
        have hlight := totalWeight_afterRound hreg
        have hpos := List.length_pos_iff.2 hused
        exact ih (regular_afterRound hreg) _ (by omega) (by omega)

theorem totalWeight_lt_fuel (c : Code) : totalWeight c.instrs < 2 * c.length + 1 :=
  Nat.lt_succ_of_le (totalWeight_le c.instrs)

/-- **Each use of a rule makes the code lighter, and each instruction taken out is counted.** -/
theorem stats_optimizeFrom (fuel : Nat) (hreg : Regular c.instrs) (s : Stats) :
    (c.optimizeFrom fuel s).2.total + totalWeight (c.optimizeFrom fuel s).1.instrs
        ≤ s.total + totalWeight c.instrs ∧
      (c.optimizeFrom fuel s).1.length + (c.optimizeFrom fuel s).2.nopsRemoved
        = c.length + s.nopsRemoved := by
  induction fuel generalizing c s with
  | zero => exact ⟨le_rfl, rfl⟩
  | succ fuel ih =>
      have hlight := totalWeight_afterRound hreg
      have htotal := total_addPass c.splice.1 c.usedInRound s
      have hlength : c.afterRound.length = c.splice.2.length := (changes_afterRound hreg).length
      have hsplice := length_splice c
      have hremoved := nopsRemoved_addPass c.splice.1 c.usedInRound s
      rw [optimizeFrom_succ]
      split
      case isTrue => constructor <;> simp only <;> omega
      case isFalse =>
        obtain ⟨htotal', hlength'⟩ := ih (regular_afterRound hreg)
          (s.addPass c.splice.1 c.usedInRound)
        constructor <;> omega

end Code

end StackLang
