/-
**The optimizer ends in a normal form.**

When the optimizer stops, its last pass has used no rule, so the last splice is the last change: no
rule applies anywhere, and nothing is left that does nothing, except at the end of the code, where a
jump to it would have nowhere else to go.  Writing the code adds labels only, which no rule looks
at; optimized and written again it is the same.

Main definitions:

* `Peephole.IsNormal` — no rule applies anywhere in some code;
* `Code.IsThin` — only the last instruction may do nothing;
* `Code.IsSettled` — code in which the optimizer finds nothing to do.

Main results:

* `Peephole.firstRule?_of_rewrites` — where a change can be made, a rule applies;
* `Code.settled_optimizeFrom` — the optimizer stops where nothing is left to do;
* `Code.isNormal_optimize` — how long the optimizer takes, what it takes out, and what it leaves.
-/

import StackLang.Proofs.Peephole.Weight
import StackLang.Proofs.Text.Closed

set_option relaxedAutoImplicit false
set_option autoImplicit false

namespace StackLang

namespace Peephole

open Machine

/-! ### Where no rule applies -/

/-- A change starts at an instruction that does something. -/
theorem Rewrites.isNop_head {pre post is seg' : List Instr} {i : Instr}
    (h : Rewrites pre post (i :: is) seg') : i.isNop = false := by
  cases h with
  | comparison hop | idleJump hop => simp [Instr.isNop, hop]
  | sureJump hfirst | neverJump hfirst | floatLiteral hfirst =>
      simp [Instr.isNop, (op_of_pushed? hfirst).1]
  | deadPair hop => rcases hop with h | h <;> simp [Instr.isNop, h]
  | duplicateLoad hop => simp [Instr.isNop, hop]

/-- **No rule applies anywhere in some code.** -/
def IsNormal (code : List Instr) : Prop :=
  ∀ pre seg seg' post, code = pre ++ (seg ++ post) → ¬ Rewrites pre post seg seg'

section Rules

variable {refs : References} {pre post seg seg' code : List Instr}

/-- An instruction that no jump goes to has the count zero. -/
theorem isPlain_of_jumpsTo (hrefs : Exact refs code) {i : Instr} (h : jumpsTo i.id code = 0) :
    refs.isPlain i = true := by
  simpa [References.isPlain, hrefs i.id] using h

theorem isPlain_of_avoids (hrefs : Exact refs code) {ks : List Nat} (h : Avoids code ks)
    {i : Instr} (hi : i.id ∈ ks) : refs.isPlain i = true :=
  isPlain_of_jumpsTo hrefs (jumpsTo_eq_zero.2 fun j hj => h j hj i.id hi)

/-- If a rule has an outcome, then the first rule that applies has one. -/
theorem firstRule?_ne_none {is : List Instr} {name : RuleName} {rule : Rule}
    (hmem : (name, rule) ∈ rules) (h : (rule refs is).isSome = true) :
    firstRule? refs is ≠ none := by
  rw [firstRule?, Ne, List.findSome?_eq_none_iff]
  intro hnone
  have hrule : rule refs is = none := Option.map_eq_none_iff.1 (hnone _ hmem)
  simp [hrule] at h

/-- **Where a change can be made, a rule applies.** -/
theorem firstRule?_of_rewrites (h : Rewrites pre post seg seg')
    (hreg : Regular (pre ++ (seg ++ post))) (hrefs : Exact refs (pre ++ (seg ++ post))) :
    firstRule? refs (seg ++ post) ≠ none := by
  cases h with
  | @comparison first zero skip one drop test cc c hfirst hcc hone hzero hskip hend hpush hdrop
      htest hc havoid =>
      refine firstRule?_ne_none (show (RuleName.comparisonJump, comparisonJump) ∈ rules by
        simp [rules]) ?_
      -- apart from `first` and `skip`, no jump goes into the idiom
      have hcount : ∀ k ∈ [zero.id, skip.id, one.id, drop.id, test.id],
          refs.count k = hits k (some one.id) + hits k (some drop.id) := by
        intro k hk
        have hothers := jumpsTo_eq_zero.2 fun j hj => havoid j hj k hk
        rw [hrefs]
        simp only [List.cons_append, List.nil_append, jumpsTo_append, jumpsTo_cons, hone, hend]
          at hothers ⊢
        omega
      simp only [List.forall_mem_cons, hits_some] at hcount
      obtain ⟨hczero, hcskip, hcone, hcdrop, hctest, -⟩ := hcount
      have hnodup := hreg.nodup
      simp only [List.map_append, List.map_cons, List.cons_append, List.nil_append] at hnodup
      have hnodup := (List.nodup_append.1 hnodup).2.1
      simp only [List.nodup_cons, List.mem_cons, not_or] at hnodup
      obtain ⟨-, ⟨-, hzo, hzd, -⟩, ⟨hso, hsd, -⟩, ⟨hod, hot, -⟩, ⟨hdt, -⟩, -⟩ := hnodup
      rw [if_neg (Ne.symm hzo), if_neg (Ne.symm hzd)] at hczero
      rw [if_neg (Ne.symm hso), if_neg (Ne.symm hsd)] at hcskip
      rw [if_true, if_neg (Ne.symm hod)] at hcone
      rw [if_neg hod, if_true] at hcdrop
      rw [if_neg hot, if_neg hdt] at hctest
      simp [comparisonJump, hfirst, htest, hcc, hc, References.isPlain, hczero, hcskip, hctest,
        hzero, hskip, hpush, hdrop, hone, hcone, hend, hcdrop]
  | idleJump hop htarget hreach =>
      refine firstRule?_ne_none (show (RuleName.jumpToNext, jumpToNext) ∈ rules by
        simp [rules]) ?_
      simp [jumpToNext, hop, Op.isJump, htarget, hreach]
  | sureJump hfirst hdrop htest hc hholds havoid | neverJump hfirst hdrop htest hc hholds havoid =>
      refine firstRule?_ne_none (show (RuleName.constantJump, constantJump) ∈ rules by
        simp [rules]) ?_
      have hplain := fun i => @isPlain_of_avoids _ _ hrefs _ havoid i
      simp [constantJump, hfirst, hdrop, htest, hc, hholds, hplain]
  | deadPair hfirst hdrop hnext havoid =>
      refine firstRule?_ne_none (show (RuleName.deadPair, Peephole.deadPair) ∈ rules by
        simp [rules]) ?_
      have hplain := isPlain_of_avoids hrefs havoid List.mem_cons_self
      simp [Peephole.deadPair, hfirst, hdrop, hnext, hplain]
  | floatLiteral hfirst hchange havoid =>
      refine firstRule?_ne_none (show (RuleName.floatLiteral, Peephole.floatLiteral) ∈ rules by
        simp [rules]) ?_
      have hplain := isPlain_of_avoids hrefs havoid List.mem_cons_self
      simp [Peephole.floatLiteral, hfirst, hchange, hplain]
  | duplicateLoad hfirst hsecond hoperand havoid =>
      refine firstRule?_ne_none (show (RuleName.duplicateLoad, Peephole.duplicateLoad) ∈ rules by
        simp [rules]) ?_
      have hplain := isPlain_of_avoids hrefs havoid List.mem_cons_self
      simp [Peephole.duplicateLoad, hfirst, hsecond, hoperand, hplain]

/-- A pass that uses no rule has found none to apply at any instruction that does something. -/
theorem firstRule?_of_used_nil {n : Nat} {i : Instr} {is : List Instr}
    (hused : (pass n refs (pre ++ i :: is)).2 = []) (hn : pre.length < n) (hi : i.isNop = false)
    (hout : ∀ name refs', firstRule? refs (i :: is) ≠ some (name, [], refs')) :
    firstRule? refs (i :: is) = none := by
  induction n generalizing pre with
  | zero => cases hn
  | succ n ih =>
      cases pre with
      | nil =>
          rw [List.nil_append, pass, if_neg (by simp [hi])] at hused
          cases hrule : firstRule? refs (i :: is) with
          | none => rfl
          | some out =>
              obtain ⟨name, _ | ⟨j, js⟩, refs'⟩ := out
              · exact absurd hrule (hout name refs')
              · rw [hrule] at hused
                cases hused
      | cons p pre =>
          have hn : pre.length < n := by simpa using hn
          rw [List.cons_append, pass] at hused
          split at hused
          case isTrue => exact ih hused hn
          case isFalse =>
            split at hused
            case h_1 => cases hused
            case h_2 => exact ih hused hn

/-- **Code that a pass leaves alone is normal.** -/
theorem isNormal_of_passAll (hreg : Regular code) (h : (passAll code).2 = []) : IsNormal code := by
  rintro pre seg seg' post rfl hrewrites
  have hrefs := count_ofInstrs (pre ++ (seg ++ post))
  refine firstRule?_of_rewrites hrewrites hreg hrefs ?_
  obtain ⟨i, is, j, js, rfl, -⟩ := hrewrites.exists_cons
  refine firstRule?_of_used_nil h (by simp) hrewrites.isNop_head fun name refs' hrule => ?_
  · obtain ⟨-, seg, seg', post', -, hout, hchange⟩ := changed_of_firstRule hreg hrefs hrule
    obtain ⟨_, _, j, js, -, rfl, -⟩ := hchange.exists_cons
    cases hout

end Rules

end Peephole

namespace Code

open Machine Peephole

/-! ### Splices -/

section Splices

variable {is : List Instr} {i : Instr} {c : Code}

/-- Only the last one of some instructions may do nothing. -/
def IsThin (is : List Instr) : Prop := ∀ i ∈ is.dropLast, i.isNop = false

theorem isThin_cons (h : ¬ Goes i is) (his : IsThin is) : IsThin (i :: is) := by
  cases is with
  | nil => simp [IsThin]
  | cons j js =>
      have hi : i.isNop = false := by simpa [Goes] using h
      simpa [IsThin, hi] using his

theorem isThin_thin (is : List Instr) : IsThin (thin is).1 := by
  induction is with
  | nil => simp [IsThin]
  | cons i is ih =>
      by_cases h : Goes i is
      · obtain ⟨j, kept, hkept, heq, -⟩ := exists_thin_of_goes h
        rw [heq, ← hkept]
        exact ih
      · rw [(thin_of_not_goes h).1]
        refine isThin_cons (fun hgoes => h ⟨hgoes.1, ?_⟩) ih
        exact fun hnil => hgoes.2 (thin_fst_eq_nil.2 hnil)

/-- **A splice leaves no instruction that does nothing**, except at the end. -/
theorem isThin_spliced (is : List Instr) : IsThin (spliced is) := by
  intro i hi
  rw [spliced, ← List.map_dropLast] at hi
  obtain ⟨j, hj, rfl⟩ := List.mem_map.1 hi
  simpa [Instr.isNop] using isThin_thin is j hj

theorem thin_of_isThin (h : IsThin is) : thin is = (is, []) := by
  induction is with
  | nil => rfl
  | cons i is ih =>
      have hi : ¬ Goes i is := by
        rintro ⟨hnop, hne⟩
        obtain ⟨j, js, rfl⟩ := List.exists_cons_of_ne_nil hne
        simp [IsThin, hnop] at h
      have his : IsThin is := by
        cases is with
        | nil => simp [IsThin]
        | cons j js => exact fun k hk => h k (List.mem_cons_of_mem _ hk)
      obtain ⟨hkept, hgone⟩ := thin_of_not_goes hi
      rw [← Prod.mk.eta (p := thin (i :: is)), hkept, hgone, ih his]

/-- **A splice where there is nothing to take out changes nothing.** -/
theorem splice_of_isThin (h : IsThin c.instrs) : c.splice = (0, c) := by
  have hredirect : redirect [] = id := by
    funext i
    cases hi : i.targetId? <;> simp [redirect, hi]
  simp [splice, thin_of_isThin h, hredirect]

end Splices

/-! ### The end of the optimizer -/

section Settled

variable {c : Code}

/-- There is nothing left to do: nothing to take out, and a pass uses no rule. -/
structure IsSettled (c : Code) : Prop where
  thin : IsThin c.instrs
  idle : (passAll c.instrs).2 = []

/-- **The optimizer ends by itself** if it may make more passes than the code weighs. -/
theorem settled_optimizeFrom {fuel : Nat} (hreg : Regular c.instrs) (s : Stats)
    (h : totalWeight c.instrs < fuel) : IsSettled (c.optimizeFrom fuel s).1 := by
  induction fuel generalizing c s with
  | zero => cases h
  | succ fuel ih =>
      rw [optimizeFrom_succ]
      split
      case isTrue hused =>
        rw [afterRound_of_usedInRound hreg hused]
        exact ⟨isThin_spliced c.instrs, hused⟩
      case isFalse hused =>
        have hlight := totalWeight_afterRound hreg
        have hpos := List.length_pos_iff.2 hused
        exact ih (regular_afterRound hreg) _ (by omega)

/-- **The optimizer changes nothing where there is nothing to do.** -/
theorem optimize_of_isSettled (h : IsSettled c) (hreg : Regular c.instrs) (s : Stats) :
    (c.optimize s).1 = c := by
  have hsplice := splice_of_isThin h.thin
  have hused : c.usedInRound = [] := by rw [usedInRound, hsplice, h.idle]
  rw [optimize, optimizeFrom_succ, if_pos hused, afterRound_of_usedInRound hreg hused, hsplice]

end Settled

/-! ### Labels -/

section Labels

variable {labels : List (Nat × String)} {counters : Counters} {is : List Instr}

/-- Where every target has a label none is given. -/
theorem labelTargets_of_labelled
    (h : ∀ i ∈ is, ∀ k, i.targetId? = some k → ∃ l, labels.lookup k = some l) :
    labelTargets labels counters is = (labels, counters) := by
  induction is with
  | nil => rfl
  | cons i is ih =>
      rw [List.forall_mem_cons] at h
      rw [labelTargets]
      cases hk : i.targetId? with
      | none => exact ih h.2
      | some k =>
          obtain ⟨l, hl⟩ := h.1 k hk
          simp only [hl]
          exact ih h.2

/-- **Code that is written is written the same way again.** -/
theorem finalize_finalize (c : Code) (counters : Counters) :
    (c.finalize counters).1.finalize (c.finalize counters).2 = c.finalize counters := by
  have hthin : IsThin (c.finalize counters).1.instrs := isThin_spliced c.instrs
  have hlabels : labelTargets (c.finalize counters).1.labels (c.finalize counters).2
      (c.finalize counters).1.instrs
        = ((c.finalize counters).1.labels, (c.finalize counters).2) :=
    labelTargets_of_labelled fun i hi k hk => exists_lookup_labelTargets hi hk
  rw [finalize, splice_of_isThin hthin]
  simp only [assignLabels, hlabels]

end Labels

/-! ### The normal form -/

/-- **The optimizer ends in a normal form.** -/
theorem isNormal_optimize {c : Code} (hreg : Regular c.instrs) (s : Stats) (counters : Counters) :
    (∀ fuel, 2 * c.length < fuel → c.optimizeFrom fuel s = c.optimize s) ∧
      (c.optimize s).2.total ≤ s.total + 3 * c.length ∧
      (c.optimize s).1.length + (c.optimize s).2.nopsRemoved = c.length + s.nopsRemoved ∧
      IsNormal (c.optimize s).1.instrs ∧ IsThin (c.optimize s).1.instrs ∧
      ∀ s', (((c.optimize s).1.finalize counters).1.optimize s').1.finalize
          ((c.optimize s).1.finalize counters).2 = (c.optimize s).1.finalize counters := by
  have hreg' : Regular (c.optimize s).1.instrs :=
    regular_of_improved (improved_optimize hreg s) hreg
  have hsettled : IsSettled (c.optimize s).1 :=
    settled_optimizeFrom hreg s (totalWeight_lt_fuel c)
  obtain ⟨htotal, hlength⟩ := stats_optimizeFrom (2 * c.length + 1) hreg s
  rw [← optimize] at htotal hlength
  refine ⟨fun fuel hfuel => ?_, ?_, hlength, isNormal_of_passAll hreg' hsettled.idle,
    hsettled.thin, fun s' => ?_⟩
  · have := totalWeight_lt_fuel c
    exact optimizeFrom_eq hreg s (by omega) this
  · have := totalWeight_lt_fuel c
    omega
  · -- what is written differs from the optimized code in its labels only
    have hwritten : IsSettled ((c.optimize s).1.finalize counters).1 := by
      have hinstrs : ((c.optimize s).1.finalize counters).1.instrs = (c.optimize s).1.instrs := by
        rw [finalize, splice_of_isThin hsettled.thin]
        rfl
      exact ⟨hinstrs ▸ hsettled.thin, hinstrs ▸ hsettled.idle⟩
    rw [optimize_of_isSettled hwritten (regular_spliced hreg'), finalize_finalize]

/-- A copy that is dropped again, and a test of a known integer that becomes a jump to what comes
next. -/
theorem isNormal_optimize_test : ∃ c : Code, Regular c.instrs ∧ c.length = 8 ∧
    (c.optimize .zero).1.instrs.map Instr.op = [.load, .nop] ∧
    (c.optimize .zero).2 = ⟨3, 1, 1, 1, 0, 0, 1, 6⟩ ∧
    (∀ fuel, 16 < fuel → c.optimizeFrom fuel .zero = c.optimize .zero) ∧
    IsNormal (c.optimize .zero).1.instrs ∧ IsThin (c.optimize .zero).1.instrs ∧
    ∀ s', (((c.optimize .zero).1.finalize .zero).1.optimize s').1.finalize
      ((c.optimize .zero).1.finalize .zero).2 = (c.optimize .zero).1.finalize .zero := by
  have hreg : Regular (ofInstrs 8 [.plain 0 .load (.int 7), .plain 1 .load (.int 7),
      .plain 2 .pop .none, .plain 3 .load (.int 0), .plain 4 .pop .none,
      .jump 5 .equal (some (.instr 7)), .plain 6 .nop .none, .plain 7 .nop .none]).instrs :=
    ⟨by decide, by decide⟩
  obtain ⟨hends, -, -, hnormal, hthin, hagain⟩ := isNormal_optimize hreg .zero .zero
  exact ⟨_, hreg, rfl, by cbv, by cbv, hends, hnormal, hthin, hagain⟩

end Code

end StackLang
