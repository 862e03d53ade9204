/-
**The optimizer keeps the levels of the stack.**

A change of the optimizer leaves its first instruction where it was, with the cells that were there,
and what is behind it as well.  The instructions that it erases do nothing any more and get the mark
of the first.

Main definitions:

* `Peephole.Remarked` — what a change makes has marks that fit where it is made.

Main results:

* `Peephole.Rewrites.remarked` — each change of the optimizer can be marked so;
* `Peephole.Rewrites.leveled`, `Code.leveled_spliced` — changes and splices keep marks right;
* `Peephole.leveled_of_improved` — so does the optimizer.
-/

import StackLang.Proofs.Levels
import StackLang.Proofs.Peephole.Optimize

set_option relaxedAutoImplicit false
set_option autoImplicit false

namespace StackLang

/-! ### What a mark says -/

namespace Legal

variable {layout : String → Layout} {i : Instr} {σ : Spot} {next : Option Spot}

theorem of_load (h : Legal layout i σ next) (hop : i.op = .load) :
    σ.leaving = false ∧ next = some ⟨σ.owner, σ.level + 1, false⟩ ∧
      Readable layout σ.owner σ.level i.operand := by
  cases h with
  | load _ hread => exact ⟨rfl, rfl, hread⟩
  | convert hop' => rcases hop' with hop' | hop' <;> simp [hop] at hop'
  | _ => simp_all

theorem of_push (h : Legal layout i σ next) (hop : i.op = .load ∨ i.op = .dup) :
    σ.leaving = false ∧ next = some ⟨σ.owner, σ.level + 1, false⟩ := by
  cases h with
  | load => exact ⟨rfl, rfl⟩
  | dup => exact ⟨rfl, rfl⟩
  | convert hop' =>
      rcases hop with hop | hop <;> rcases hop' with hop' | hop' <;> simp [hop] at hop'
  | _ => rcases hop with hop | hop <;> simp_all

theorem of_pop (h : Legal layout i σ next) (hop : i.op = .pop) :
    ∃ n, σ.level = n + 1 ∧ next = some ⟨σ.owner, n, σ.leaving⟩ := by
  cases h with
  | pop => exact ⟨_, rfl, rfl⟩
  | drop => exact ⟨_, rfl, rfl⟩
  | convert hop' => rcases hop' with hop' | hop' <;> simp [hop] at hop'
  | _ => simp_all

/-- A push and a pop behind it lead back to where they started. -/
theorem push_pop {j : Instr} {τ : Spot} (h : Legal layout i σ (some τ))
    (hop : i.op = .load ∨ i.op = .dup) (h' : Legal layout j τ next) (hop' : j.op = .pop) :
    next = some σ := by
  obtain ⟨hσ, hτ⟩ := h.of_push hop
  obtain ⟨n, hlevel, hnext⟩ := h'.of_pop hop'
  obtain ⟨o, m, b⟩ := σ
  cases hτ
  cases hσ
  rw [hnext, ← Nat.succ_injective hlevel]

theorem of_jump {c : Condition} (h : Legal layout i σ next) (hop : i.op = .jump c) :
    σ.leaving = false ∧ (c.isConditional = true → next = some σ) := by
  cases h with
  | goto hop' =>
      refine ⟨rfl, fun hc => ?_⟩
      cases hop.symm.trans hop'
      cases hc
  | branch => exact ⟨rfl, fun _ => rfl⟩
  | convert hop' => rcases hop' with hop' | hop' <;> simp [hop] at hop'
  | _ => simp_all

/-- A jump may go on where it stands. -/
theorem jump {c : Condition} (hop : i.op = .jump c) (hσ : σ.leaving = false) :
    Legal layout i σ (some σ) := by
  obtain ⟨o, n, b⟩ := σ
  cases hσ
  exact .branch hop

theorem of_nop (h : Legal layout i σ next) (hop : i.op = .nop) : next = some σ := by
  cases h with
  | nop => rfl
  | convert hop' => rcases hop' with hop' | hop' <;> simp [hop] at hop'
  | _ => simp_all

theorem of_toFloat (h : Legal layout i σ next) (hop : i.op = .toFloat) : next = some σ := by
  cases h with
  | convert => rfl
  | _ => simp_all

end Legal

namespace Peephole

open Machine

variable {layout : String → Layout}

/-! ### Changes -/

/-- Erased instructions with a mark. -/
def erased (σ : Spot) (is : List Instr) : List Marked := is.map fun i => (i.erase, σ)

theorem chained_erased {o : Option String} {σ : Spot} (hσ : σ.owner = o) (is : List Instr) :
    Chained layout o (erased σ is) (some σ) := by
  induction is with
  | nil => trivial
  | cons i is ih =>
      refine ⟨hσ, ?_, ih⟩
      have hnext : headSpot (erased σ is) (some σ) = some σ := by cases is <;> rfl
      change Legal layout i.erase σ (headSpot (erased σ is) (some σ))
      rw [hnext]
      exact .nop rfl

/-- Behind an instruction others are erased. -/
theorem chained_cons_erased {o : Option String} {i : Instr} {σ τ : Spot} (hi : σ.owner = o)
    (hentry : ∀ name, i.op ≠ .entry name) (hlegal : Legal layout i σ (some τ)) (hτ : τ.owner = o)
    (is : List Instr) : Chained layout o ((i, σ) :: erased τ is) (some τ) := by
  have hnext : headSpot (erased τ is) (some τ) = some τ := by cases is <;> rfl
  refine ⟨?_, ?_, ?_⟩
  · rw [home_eq hentry]
    exact hi
  · rw [hnext]
    exact hlegal
  · rw [home_eq hentry]
    exact chained_erased hτ is

/-- An erased instruction is no jump. -/
theorem not_isJump_erased {σ : Spot} {is : List Instr} {q : Marked} (hq : q ∈ erased σ is) :
    q.1.op.isJump = false := by
  obtain ⟨i, -, rfl⟩ := List.mem_map.1 hq
  rfl

/-- Marks of one identity in one program are the same. -/
theorem spot_eq {ann : List Marked} (hreg : Regular (ann.map Prod.fst)) {p q : Marked}
    (hp : p ∈ ann) (hq : q ∈ ann) (hid : p.1.id = q.1.id) : p = q := by
  have hnodup := hreg.nodup
  rw [List.map_map] at hnodup
  exact List.inj_on_of_nodup_map hnodup hp hq hid

/-- Instructions that do nothing have the mark of what they lead to. -/
theorem headSpot_of_nops {o : Option String} {nops ys : List Marked} {last : Option Spot}
    (h : Chained layout o (nops ++ ys) last) (hnops : ∀ p ∈ nops, p.1.op = .nop) :
    headSpot (nops ++ ys) last = headSpot ys last := by
  induction nops generalizing o with
  | nil => rfl
  | cons p nops ih =>
      obtain ⟨-, hlegal, hrest⟩ := h
      have hnext := ih hrest fun q hq => hnops q (List.mem_cons_of_mem _ hq)
      exact (hlegal.of_nop (hnops p List.mem_cons_self)).symm.trans hnext

/-- Each instruction has its mark. -/
theorem exists_mark {as : List Marked} {i : Instr} {is : List Instr}
    (h : as.map Prod.fst = i :: is) : ∃ σ as', as = (i, σ) :: as' ∧ as'.map Prod.fst = is := by
  obtain ⟨⟨_, σ⟩, as', rfl, rfl, hrest⟩ := List.map_eq_cons_iff.1 h
  exact ⟨σ, as', rfl, hrest⟩

/-- A jump and its target have one mark. -/
theorem spot_of_target {ann : List Marked} (hl : Leveled layout ann)
    (hreg : Regular (ann.map Prod.fst)) {p q : Marked} (hp : p ∈ ann) (hq : q ∈ ann)
    (hop : p.1.op.isJump = true) (htarget : p.1.targetId? = some q.1.id) : q.2 = p.2 := by
  obtain ⟨r, hr, htarget', hspot⟩ := hl.targets p hp hop
  have hid : r.1.id = q.1.id := Option.some.inj (htarget'.symm.trans htarget)
  rw [← spot_eq hreg hr hq hid]
  exact hspot

/-- What a jump reaches behind it has the mark of the jump. -/
theorem headSpot_of_reaches {ap aq : List Marked} {i : Instr} {σ : Spot} {k : Nat}
    (hl : Leveled layout (ap ++ (i, σ) :: aq)) (hreg : Regular ((ap ++ (i, σ) :: aq).map Prod.fst))
    (hop : i.op.isJump = true) (htarget : i.targetId? = some k)
    (hreach : reaches k (aq.map Prod.fst) = true) : headSpot aq none = some σ := by
  obtain ⟨nops, j, rest, haq, rfl, hnops⟩ := exists_of_reaches hreach
  obtain ⟨bs, cs, rfl, rfl, hcs⟩ := List.map_eq_append_iff.1 haq
  obtain ⟨τ, cs, rfl, -⟩ := exists_mark hcs
  obtain ⟨-, -, -, hbehind⟩ := chained_append.1 hl.chained
  rw [headSpot_of_nops hbehind fun p hp => hnops _ (List.mem_map_of_mem hp), headSpot_cons]
  exact congrArg some
    (spot_of_target hl hreg (p := (i, σ)) (q := (j, τ)) (by simp) (by simp) hop htarget)

/-! ### Marks for what a change makes -/

/-- Marks for what a change makes, in front of code with the mark `last`.  The first instruction
keeps its identity and its mark, and each jump has the target and the mark of one that was there. -/
inductive Remarked (layout : String → Layout) (o : Option String) (last : Option Spot) :
    List Marked → List Instr → Prop where
  | mk {p : Marked} {qs : List Marked} {seg' : List Instr} (p' : Marked) (qs' : List Marked)
      (hmap : (p' :: qs').map Prod.fst = seg') (hspot : p'.2 = p.2) (hid : p'.1.id = p.1.id)
      (hchain : Chained layout o (p' :: qs') last) (hcall : ∀ i ∈ seg', i.op ≠ .call)
      (hjumps : ∀ q ∈ p' :: qs', q.1.op.isJump = true → ∃ i, (i, q.2) ∈ p :: qs ∧
        i.op.isJump = true ∧ q.1.targetId? = i.targetId? ∧
        ∀ k ∈ qs.map (fun q => q.1.id), i.targetId? ≠ some k) :
      Remarked layout o last (p :: qs) seg'

namespace Remarked

variable {o : Option String} {last : Option Spot} {p : Marked} {as qs : List Marked}

theorem owner_eq (h : Chained layout o (p :: qs) last) (hp : ∀ name, p.1.op ≠ .entry name) :
    p.2.owner = o :=
  h.1.trans (home_eq hp)

/-- All is erased where the code goes on as it starts. -/
theorem erase (howner : p.2.owner = o) :
    Remarked layout o (some p.2) (p :: qs) ((p :: qs).map fun q => q.1.erase) := by
  refine .mk (p.1.erase, p.2) (erased p.2 (qs.map Prod.fst)) ?_ rfl rfl
    (chained_erased howner (p.1 :: qs.map Prod.fst)) (fun i hi => ?_) fun q hq hjump => ?_
  · simp [erased]
  · obtain ⟨q, -, rfl⟩ := List.mem_map.1 hi
    simp [Instr.erase]
  · have hq' : q ∈ erased p.2 (p.1 :: qs.map Prod.fst) := hq
    simp [not_isJump_erased hq'] at hjump

/-- The first instruction becomes a jump that was there, and the others are erased. -/
theorem jump {i : Instr} {c : Condition} (howner : p.2.owner = o) (hstays : p.2.leaving = false)
    (hid : i.id = p.1.id) (hi : i.op = .jump c) (test : Instr)
    (htarget : i.targetId? = test.targetId?) (hmem : (test, p.2) ∈ p :: qs)
    (htest : test.op.isJump = true)
    (havoid : ∀ k ∈ qs.map (fun q => q.1.id), test.targetId? ≠ some k) :
    Remarked layout o (some p.2) (p :: qs) (i :: qs.map fun q => q.1.erase) := by
  refine .mk (i, p.2) (erased p.2 (qs.map Prod.fst)) ?_ rfl hid
    (chained_cons_erased howner (by simp [hi]) (.jump hi hstays) howner _) (fun j hj => ?_)
    fun q hq hjump => ?_
  · simp [erased]
  · rcases List.mem_cons.1 hj with rfl | hj
    · simp [hi]
    · obtain ⟨q, -, rfl⟩ := List.mem_map.1 hj
      simp [Instr.erase]
  · rcases List.mem_cons.1 hq with rfl | hq
    · exact ⟨test, hmem, htest, htarget, havoid⟩
    · simp [not_isJump_erased hq] at hjump

theorem comparison {first zero skip one drop test : Instr} {cc c : Condition}
    (hseg : as.map Prod.fst = [first, zero, skip, one, drop, test]) (h : Chained layout o as last)
    (hlands : ∀ q ∈ as, ∀ q' ∈ as, q.1.op.isJump = true → q.1.targetId? = some q'.1.id →
      q'.2 = q.2)
    (hfirst : first.op = .jump cc) (hone : first.targetId? = some one.id)
    (hpush : one.pushed? = some 1) (hdrop : drop.op = .pop) (htest : test.op = .jump c)
    (hc : c.isConditional = true)
    (havoid : ∀ k ∈ [zero.id, skip.id, one.id, drop.id, test.id], test.targetId? ≠ some k) :
    Remarked layout o last as
      [{ first with op := .jump (if c = .equal then cc.negate else cc), target := test.target },
        zero.erase, skip.erase, one.erase, drop.erase, test.erase] := by
  obtain ⟨σ, as₁, rfl, h₁⟩ := exists_mark hseg
  obtain ⟨σ₁, as₂, rfl, h₂⟩ := exists_mark h₁
  obtain ⟨σ₂, as₃, rfl, h₃⟩ := exists_mark h₂
  obtain ⟨σ₃, as₄, rfl, h₄⟩ := exists_mark h₃
  obtain ⟨σ₄, as₅, rfl, h₅⟩ := exists_mark h₄
  obtain ⟨σ₅, as₆, rfl, h₆⟩ := exists_mark h₅
  obtain rfl := List.map_eq_nil_iff.1 h₆
  have howner := owner_eq h (by simp [hfirst])
  obtain ⟨-, -, -, -, -, -, -, hlegal₃, -, hlegal₄, -, hlegal₅, -⟩ := h
  -- the jump at the start goes to the second push, so the level is the same there
  have hσ₃ : σ₃ = σ :=
    hlands (first, σ) (by simp) (one, σ₃) (by simp) (by simp [hfirst, Op.isJump]) hone
  have hσ₅ : some σ₅ = some σ₃ :=
    Legal.push_pop hlegal₃ (.inl (op_of_pushed? hpush).1) hlegal₄ hdrop
  obtain ⟨hstays, hlast⟩ := hlegal₅.of_jump htest
  obtain rfl : σ₅ = σ := (Option.some.inj hσ₅).trans hσ₃
  obtain rfl : last = some σ₅ := hlast hc
  exact jump howner hstays rfl rfl test rfl (by simp) (by simp [htest, Op.isJump]) havoid

theorem sureJump {first drop test : Instr} {n : Int32} {c : Condition}
    (hseg : as.map Prod.fst = [first, drop, test]) (h : Chained layout o as last)
    (hfirst : first.pushed? = some n) (hdrop : drop.op = .pop) (htest : test.op = .jump c)
    (hc : c.isConditional = true)
    (havoid : ∀ k ∈ [drop.id, test.id], test.targetId? ≠ some k) :
    Remarked layout o last as
      [⟨first.id, .jump .always, .none, test.target, none⟩, drop.erase, test.erase] := by
  obtain ⟨σ, as₁, rfl, h₁⟩ := exists_mark hseg
  obtain ⟨σ₁, as₂, rfl, h₂⟩ := exists_mark h₁
  obtain ⟨σ₂, as₃, rfl, h₃⟩ := exists_mark h₂
  obtain rfl := List.map_eq_nil_iff.1 h₃
  have howner := owner_eq h (by simp [(op_of_pushed? hfirst).1])
  obtain ⟨-, hlegal, -, hlegal₁, -, hlegal₂, -⟩ := h
  obtain rfl : σ₂ = σ := Option.some.inj
    (Legal.push_pop hlegal (.inl (op_of_pushed? hfirst).1) hlegal₁ hdrop)
  obtain ⟨hstays, hlast⟩ := hlegal₂.of_jump htest
  obtain rfl : last = some σ₂ := hlast hc
  exact jump howner hstays rfl rfl test rfl (by simp) (by simp [htest, Op.isJump]) havoid

theorem neverJump {first drop test : Instr} {n : Int32} {c : Condition}
    (hseg : as.map Prod.fst = [first, drop, test]) (h : Chained layout o as last)
    (hfirst : first.pushed? = some n) (hdrop : drop.op = .pop) (htest : test.op = .jump c)
    (hc : c.isConditional = true) :
    Remarked layout o last as [first.erase, drop.erase, test.erase] := by
  obtain ⟨σ, as₁, rfl, h₁⟩ := exists_mark hseg
  obtain ⟨σ₁, as₂, rfl, h₂⟩ := exists_mark h₁
  obtain ⟨σ₂, as₃, rfl, h₃⟩ := exists_mark h₂
  obtain rfl := List.map_eq_nil_iff.1 h₃
  have howner := owner_eq h (by simp [(op_of_pushed? hfirst).1])
  obtain ⟨-, hlegal, -, hlegal₁, -, hlegal₂, -⟩ := h
  obtain rfl : σ₂ = σ := Option.some.inj
    (Legal.push_pop hlegal (.inl (op_of_pushed? hfirst).1) hlegal₁ hdrop)
  obtain rfl : last = some σ₂ := (hlegal₂.of_jump htest).2 hc
  exact erase howner

theorem deadPair {first drop : Instr} (hseg : as.map Prod.fst = [first, drop])
    (h : Chained layout o as last) (hfirst : first.op = .load ∨ first.op = .dup)
    (hdrop : drop.op = .pop) : Remarked layout o last as [first.erase, drop.erase] := by
  obtain ⟨σ, as₁, rfl, h₁⟩ := exists_mark hseg
  obtain ⟨σ₁, as₂, rfl, h₂⟩ := exists_mark h₁
  obtain rfl := List.map_eq_nil_iff.1 h₂
  have howner := owner_eq h (by rcases hfirst with hop | hop <;> simp [hop])
  obtain ⟨-, hlegal, -, hlegal₁, -⟩ := h
  obtain rfl : last = some σ := Legal.push_pop hlegal hfirst hlegal₁ hdrop
  exact erase howner

theorem floatLiteral {first change : Instr} {n : Int32}
    (hseg : as.map Prod.fst = [first, change]) (h : Chained layout o as last)
    (hfirst : first.pushed? = some n) (hchange : change.op = .toFloat) :
    Remarked layout o last as
      [{ first with operand := .float (.ofInt32 n), comment := none }, change.erase] := by
  obtain ⟨σ, as₁, rfl, h₁⟩ := exists_mark hseg
  obtain ⟨σ₁, as₂, rfl, h₂⟩ := exists_mark h₁
  obtain rfl := List.map_eq_nil_iff.1 h₂
  have hop := (op_of_pushed? hfirst).1
  have howner : σ.owner = o := owner_eq h (by simp [hop])
  obtain ⟨-, hlegal, -, hlegal₁, -⟩ := h
  obtain ⟨hstays, hnext, -⟩ := hlegal.of_load hop
  obtain rfl : last = some σ₁ := hlegal₁.of_toFloat hchange
  obtain rfl := Option.some.inj hnext
  refine .mk ({ first with operand := .float (.ofInt32 n), comment := none }, σ)
    (erased ⟨σ.owner, σ.level + 1, false⟩ [change]) rfl rfl rfl
    (chained_cons_erased howner (by simp [hop]) ?_
      (show (⟨σ.owner, σ.level + 1, false⟩ : Spot).owner = o from howner) _) ?_ ?_
  · obtain ⟨_, m, b⟩ := σ
    cases hstays
    exact .load hop .immediate
  · simp [Instr.erase, hop]
  · simp [erased, Instr.erase, Op.isJump, hop]

theorem duplicateLoad {first second : Instr} (hseg : as.map Prod.fst = [first, second])
    (h : Chained layout o as last) (hfirst : first.op = .load) (hsecond : second.op = .load) :
    Remarked layout o last as
      [first, { second with op := .dup, operand := .none, comment := none }] := by
  obtain ⟨σ, as₁, rfl, h₁⟩ := exists_mark hseg
  obtain ⟨σ₁, as₂, rfl, h₂⟩ := exists_mark h₁
  obtain rfl := List.map_eq_nil_iff.1 h₂
  have howner := owner_eq h (by simp [hfirst])
  obtain ⟨howner', hlegal, -, hlegal₁, -⟩ := h
  obtain ⟨-, hnext, -⟩ := hlegal.of_load hfirst
  obtain ⟨-, rfl, -⟩ := hlegal₁.of_load hsecond
  obtain rfl := Option.some.inj hnext
  refine .mk (first, σ) [({ second with op := .dup, operand := .none, comment := none }, _)] rfl rfl
    rfl ⟨howner', hlegal, ?_, .dup rfl, trivial⟩ ?_ ?_
  · rw [home_eq (by simp), home_eq (by simp [hfirst])]
    exact howner
  · simp [hfirst]
  · simp [Op.isJump, hfirst]

end Remarked

/-! ### Changes in the middle of a program -/

section Replace

variable {ap aq as qs qs' : List Marked} {p p' : Marked}

/-- A stretch without entries stays in its function. -/
theorem homes_eq {o : Option String} {is : List Instr}
    (h : ∀ name, ∀ i ∈ is, i.op ≠ .entry name) : homes o is = o := by
  induction is with
  | nil => rfl
  | cons i is ih =>
      rw [homes_cons, home_eq fun name => h name i List.mem_cons_self]
      exact ih fun name j hj => h name j (List.mem_cons_of_mem _ hj)

/-- A jump that does not go into a change goes to the same place after it. -/
theorem target_of_mem (hl : Leveled layout (ap ++ (p :: qs ++ aq))) (hspot : p'.2 = p.2)
    (hid : p'.1.id = p.1.id) {i : Instr} {σ : Spot} (hi : (i, σ) ∈ ap ++ (p :: qs ++ aq))
    (hop : i.op.isJump = true) (havoid : ∀ k ∈ qs.map (fun q => q.1.id), i.targetId? ≠ some k) :
    ∃ q ∈ ap ++ (p' :: qs' ++ aq), i.targetId? = some q.1.id ∧ q.2 = σ := by
  obtain ⟨q, hq, htarget, hσ⟩ := hl.targets (i, σ) hi hop
  simp only [List.mem_append, List.mem_cons] at hq
  rcases hq with hq | (rfl | hq) | hq
  · exact ⟨q, by simp [hq], htarget, hσ⟩
  · exact ⟨p', by simp, hid ▸ htarget, hspot.trans hσ⟩
  · exact absurd htarget (havoid _ (List.mem_map_of_mem hq))
  · exact ⟨q, by simp [hq], htarget, hσ⟩

/-- The first mark of a program stays where the first mark of a change does. -/
theorem start_replace (hspot : p'.2 = p.2)
    (h : ∃ i rest, ap ++ (p :: qs ++ aq) = (i, (⟨none, 0, false⟩ : Spot)) :: rest) :
    ∃ i rest, ap ++ (p' :: qs' ++ aq) = (i, (⟨none, 0, false⟩ : Spot)) :: rest := by
  obtain ⟨i, rest, hstart⟩ := h
  cases ap with
  | nil =>
      obtain ⟨rfl, -⟩ := List.cons.inj hstart
      have hspot' : p'.2 = ⟨none, 0, false⟩ := hspot
      exact ⟨p'.1, qs' ++ aq, by rw [← hspot']; rfl⟩
  | cons b ap =>
      obtain ⟨rfl, -⟩ := List.cons.inj hstart
      exact ⟨i, _, rfl⟩

/-- **A change in the middle keeps marks right**, where no function starts in it and no jump from
outside goes into it. -/
theorem Remarked.leveled {seg' : List Instr}
    (h : Remarked layout (homes none (ap.map Prod.fst)) (headSpot aq none) as seg')
    (hl : Leveled layout (ap ++ (as ++ aq)))
    (hentry : ∀ name, ∀ i ∈ as.map Prod.fst, i.op ≠ .entry name)
    (hentry' : ∀ name, ∀ i ∈ seg', i.op ≠ .entry name)
    (havoid : Avoids (ap.map Prod.fst ++ aq.map Prod.fst)
      ((as.map Prod.fst).tail.map Instr.id)) :
    ∃ as', as'.map Prod.fst = seg' ∧ Leveled layout (ap ++ (as' ++ aq)) := by
  obtain ⟨p', qs', rfl, hspot, hid, hchain, hcall, hjumps⟩ := h
  rename_i p qs
  obtain ⟨hap, hrest⟩ := chained_append.1 hl.chained
  obtain ⟨-, haq⟩ := chained_append.1 hrest
  rw [homes_eq hentry] at haq
  have houtside : ∀ q ∈ ap ++ (p' :: qs' ++ aq), q ∈ p' :: qs' ∨ q ∈ ap ∨ q ∈ aq := by
    intro q hq
    simp only [List.mem_append] at hq
    tauto
  have hstays : ∀ q, q ∈ ap ∨ q ∈ aq → q ∈ ap ++ (p :: qs ++ aq) := by
    intro q hq
    simp only [List.mem_append]
    tauto
  refine ⟨p' :: qs', rfl, chained_append.2 ⟨?_, chained_append.2 ⟨hchain, ?_⟩⟩,
    start_replace hspot hl.start, fun q hq hop => ?_, fun q hq hop name hname => ?_⟩
  · have hhead : headSpot (p' :: qs' ++ aq) none = headSpot (p :: qs ++ aq) none := by
      simp [hspot]
    rw [hhead]
    exact hap
  · rw [homes_eq hentry']
    exact haq
  · rcases houtside q hq with hin | hout
    · obtain ⟨i, hi, hop', htarget, havoid'⟩ := hjumps q hin hop
      rw [htarget]
      exact target_of_mem hl hspot hid (by simp only [List.mem_append]; tauto) hop' havoid'
    · refine target_of_mem hl hspot hid (hstays q hout) hop fun k hk => ?_
      refine havoid q.1 ?_ k (by simpa using hk)
      rw [← List.map_append]
      exact List.mem_map_of_mem (List.mem_append.2 hout)
  · rcases houtside q hq with hin | hout
    · exact absurd hop (hcall q.1 (List.mem_map_of_mem hin))
    · obtain ⟨r, hr, hentry₁⟩ := hl.callees q (hstays q hout) hop name hname
      refine ⟨r, ?_, hentry₁⟩
      simp only [List.mem_append] at hr ⊢
      rcases hr with hr | hr | hr
      · exact .inl hr
      · exact absurd hentry₁ (hentry name r.1 (List.mem_map_of_mem hr))
      · exact .inr (.inr hr)

end Replace

namespace Rewrites

variable {pre post seg seg' : List Instr} {ap as aq : List Marked}

/-- What a change makes can be marked. -/
theorem remarked (h : Rewrites (ap.map Prod.fst) (aq.map Prod.fst) (as.map Prod.fst) seg')
    (hl : Leveled layout (ap ++ (as ++ aq))) (hreg : Regular ((ap ++ (as ++ aq)).map Prod.fst)) :
    Remarked layout (homes none (ap.map Prod.fst)) (headSpot aq none) as seg' := by
  obtain ⟨hchain, -⟩ := chained_append.1 (chained_append.1 hl.chained).2
  generalize hseg : as.map Prod.fst = seg at h
  cases h with
  | comparison hfirst _ hone _ _ _ hpush hdrop htest hc havoid =>
      refine .comparison hseg hchain (fun q hq q' hq' => ?_) hfirst hone hpush hdrop htest
        (by rcases hc with rfl | rfl <;> rfl) (havoid _ (by simp))
      exact spot_of_target hl hreg (by simp [hq]) (by simp [hq'])
  | idleJump hop htarget hreach =>
      obtain ⟨σ, as₁, rfl, h₁⟩ := exists_mark hseg
      obtain rfl := List.map_eq_nil_iff.1 h₁
      have hlast : headSpot aq none = some σ :=
        headSpot_of_reaches hl hreg (by simp [hop, Op.isJump]) htarget hreach
      rw [hlast]
      exact .erase (Remarked.owner_eq hchain (by simp [hop]))
  | sureJump hfirst hdrop htest hc _ havoid =>
      exact .sureJump hseg hchain hfirst hdrop htest hc (havoid _ (by simp))
  | neverJump hfirst hdrop htest hc => exact .neverJump hseg hchain hfirst hdrop htest hc
  | deadPair hfirst hdrop => exact .deadPair hseg hchain hfirst hdrop
  | floatLiteral hfirst hchange => exact .floatLiteral hseg hchain hfirst hchange
  | duplicateLoad hfirst hsecond => exact .duplicateLoad hseg hchain hfirst hsecond

/-- **A change keeps marks right.** -/
theorem leveled (h : Rewrites pre post seg seg') {ann : List Marked}
    (hann : ann.map Prod.fst = pre ++ (seg ++ post)) (hl : Leveled layout ann)
    (hreg : Regular (pre ++ (seg ++ post))) :
    ∃ ann', ann'.map Prod.fst = pre ++ (seg' ++ post) ∧ Leveled layout ann' := by
  obtain ⟨ap, rest, rfl, rfl, hrest⟩ := List.map_eq_append_iff.1 hann
  obtain ⟨as, aq, rfl, rfl, rfl⟩ := List.map_eq_append_iff.1 hrest
  rw [← hann] at hreg
  obtain ⟨as', rfl, hl'⟩ := (h.remarked hl hreg).leveled hl (fun _ => h.not_entry.1)
    (fun _ => h.not_entry.2) h.avoids
  exact ⟨ap ++ (as' ++ aq), by simp, hl'⟩

end Rewrites

end Peephole

/-! ### Splices -/

namespace Code

open Machine

variable {layout : String → Layout} {ann : List Marked} {o : Option String} {last : Option Spot}

/-- The marked instructions that stay. -/
def thinMarked : List Marked → List Marked
  | [] => []
  | p :: ps => if p.1.isNop ∧ ps ≠ [] then thinMarked ps else p :: thinMarked ps

theorem goes_iff {p : Marked} {ps : List Marked} :
    Goes p.1 (ps.map Prod.fst) ↔ p.1.isNop = true ∧ ps ≠ [] := by
  simp [Goes]

theorem map_thinMarked (ann : List Marked) :
    (thinMarked ann).map Prod.fst = (thin (ann.map Prod.fst)).1 := by
  induction ann with
  | nil => rfl
  | cons p ps ih =>
      rw [thinMarked, List.map_cons]
      by_cases h : Goes p.1 (ps.map Prod.fst)
      · obtain ⟨j, kept, hkept, heq, -⟩ := exists_thin_of_goes h
        rw [if_pos (goes_iff.1 h), ih, heq, hkept]
      · rw [if_neg (goes_iff.not.1 h), (thin_of_not_goes h).1, List.map_cons, ih]

theorem mem_of_mem_thinMarked {p : Marked} (h : p ∈ thinMarked ann) : p ∈ ann := by
  induction ann with
  | nil => cases h
  | cons q qs ih =>
      rw [thinMarked] at h
      split at h
      · exact List.mem_cons_of_mem _ (ih h)
      · rcases List.mem_cons.1 h with rfl | h
        · exact List.mem_cons_self
        · exact List.mem_cons_of_mem _ (ih h)

theorem mem_thinMarked {p : Marked} (h : p ∈ ann) (hp : p.1.isNop = false) :
    p ∈ thinMarked ann := by
  induction ann with
  | nil => cases h
  | cons q qs ih =>
      rw [thinMarked]
      rcases List.mem_cons.1 h with rfl | h
      · rw [if_neg (by simp [hp])]
        exact List.mem_cons_self
      · split
        · exact ih h
        · exact List.mem_cons_of_mem _ (ih h)

/-- What stays starts with the mark with which the code started. -/
theorem headSpot_thinMarked (h : Chained layout o ann last) :
    headSpot (thinMarked ann) last = headSpot ann last := by
  induction ann generalizing o with
  | nil => rfl
  | cons p ps ih =>
      obtain ⟨-, hlegal, hrest⟩ := h
      rw [thinMarked]
      split
      · rename_i hgoes
        rw [ih hrest, hlegal.of_nop (by simpa [Instr.isNop] using hgoes.1), headSpot_cons]
      · rfl

theorem chained_thinMarked (h : Chained layout o ann last) :
    Chained layout o (thinMarked ann) last := by
  induction ann generalizing o with
  | nil => trivial
  | cons p ps ih =>
      obtain ⟨howner, hlegal, hrest⟩ := h
      have hthin := ih hrest
      rw [thinMarked]
      split
      · rename_i hgoes
        have hop : p.1.op = .nop := by simpa [Instr.isNop] using hgoes.1
        rwa [home_eq (by simp [hop])] at hthin
      · refine ⟨howner, ?_, hthin⟩
        rw [headSpot_thinMarked hrest]
        exact hlegal

/-- What takes the place of an instruction has its mark. -/
theorem exists_stands (hnodup : ((ann.map Prod.fst).map Instr.id).Nodup)
    (h : Chained layout o ann last) {p : Marked} (hp : p ∈ ann) :
    ∃ q ∈ thinMarked ann, q.1.id = stands (thin (ann.map Prod.fst)).2 p.1.id ∧ q.2 = p.2 := by
  induction ann generalizing o with
  | nil => cases hp
  | cons r rs ih =>
      obtain ⟨-, hlegal, hrest⟩ := h
      rw [List.map_cons, List.map_cons, List.nodup_cons] at hnodup
      have hbehind : p ∈ rs → r.1.id ≠ p.1.id := by
        intro hp heq
        exact hnodup.1 (heq ▸ List.mem_map_of_mem (List.mem_map_of_mem hp))
      by_cases hgoes : Goes r.1 (rs.map Prod.fst)
      · obtain ⟨j, kept, hkept, -, hgone⟩ := exists_thin_of_goes hgoes
        rw [thinMarked, if_pos (goes_iff.1 hgoes), List.map_cons, hgone]
        rcases List.mem_cons.1 hp with rfl | hp
        · -- the next instruction that stays has the mark of the one that goes
          rw [← map_thinMarked] at hkept
          obtain ⟨τ, qs, hqs, -⟩ := Peephole.exists_mark hkept
          refine ⟨(j, τ), by rw [hqs]; exact List.mem_cons_self, by simp [stands], ?_⟩
          have hspot := headSpot_thinMarked hrest
          rw [hlegal.of_nop (by simpa [Instr.isNop] using hgoes.1), hqs, headSpot_cons] at hspot
          exact Option.some.inj hspot
        · obtain ⟨q, hq, hid, hspot⟩ := ih hnodup.2 hrest hp
          refine ⟨q, hq, ?_, hspot⟩
          have hne : (p.1.id == r.1.id) = false := by simpa using (hbehind hp).symm
          rw [hid]
          simp [stands, List.lookup_cons, hne]
      · rw [thinMarked, if_neg (goes_iff.not.1 hgoes), List.map_cons, (thin_of_not_goes hgoes).2]
        rcases List.mem_cons.1 hp with rfl | hp
        · refine ⟨p, List.mem_cons_self, ?_, rfl⟩
          have hlookup : (thin (rs.map Prod.fst)).2.lookup p.1.id = none := by
            rw [List.lookup_eq_none_iff]
            intro q hq
            rw [bne_iff_ne]
            intro heq
            exact hnodup.1 (heq ▸ (mem_of_mem_gone hq).1)
          simp [stands, hlookup]
        · obtain ⟨q, hq, hid, hspot⟩ := ih hnodup.2 hrest hp
          exact ⟨q, List.mem_cons_of_mem _ hq, hid, hspot⟩

/-- Marks are right for instructions that do the same. -/
theorem legal_congr {i j : Instr} {σ : Spot} {next : Option Spot} (h : Legal layout i σ next)
    (hop : j.op = i.op) (hoperand : j.operand = i.operand) : Legal layout j σ next := by
  cases h with
  | load h hread => exact .load (hop.trans h) (hoperand ▸ hread)
  | store h hsize hwrite => exact .store (hop.trans h) hsize (hoperand ▸ hwrite)
  | pop h hsize => exact .pop (hop.trans h) hsize
  | drop h hn => exact .drop (hop.trans h) hn
  | dup h => exact .dup (hop.trans h)
  | arith h hsize => exact .arith (hop.trans h) hsize
  | convert h hsize => exact .convert (h.imp hop.trans hop.trans) hsize
  | goto h => exact .goto (hop.trans h)
  | branch h => exact .branch (hop.trans h)
  | call h hname hsize => exact .call (hop.trans h) (hoperand.trans hname) hsize
  | ret h => exact .ret (hop.trans h)
  | halt h => exact .halt (hop.trans h)
  | nop h => exact .nop (hop.trans h)
  | entry h => exact .entry (hop.trans h)

theorem chained_map {f : Instr → Instr} (hop : ∀ i, (f i).op = i.op)
    (hoperand : ∀ i, (f i).operand = i.operand) (h : Chained layout o ann last) :
    Chained layout o (ann.map fun p => (f p.1, p.2)) last := by
  induction ann generalizing o with
  | nil => trivial
  | cons p ps ih =>
      obtain ⟨howner, hlegal, hrest⟩ := h
      have hhome : (f p.1).home o = p.1.home o := by simp only [Instr.home, hop]
      have hnext : headSpot (ps.map fun p => (f p.1, p.2)) last = headSpot ps last := by
        cases ps <;> rfl
      refine ⟨howner.trans hhome.symm, ?_, ?_⟩
      · rw [hnext]
        exact legal_congr hlegal (hop _) (hoperand _)
      · rw [hhome]
        exact ih hrest

/-- **A splice keeps marks right.** -/
theorem leveled_spliced (hl : Leveled layout ann) (hreg : Regular (ann.map Prod.fst)) :
    ∃ ann', ann'.map Prod.fst = spliced (ann.map Prod.fst) ∧ Leveled layout ann' := by
  refine ⟨(thinMarked ann).map fun p => (redirect (thin (ann.map Prod.fst)).2 p.1, p.2), ?_, ?_⟩
  · rw [spliced, ← map_thinMarked, List.map_map, List.map_map]
    rfl
  · refine ⟨chained_map (op_redirect _) (operand_redirect _) (chained_thinMarked hl.chained), ?_,
      fun p hp hop => ?_, fun p hp hop name hname => ?_⟩
    · obtain ⟨i, rest, hann⟩ := hl.start
      have hspot := headSpot_thinMarked hl.chained
      cases hthin : thinMarked ann with
      | nil =>
          rw [hthin, hann] at hspot
          cases hspot
      | cons q qs =>
          rw [hthin, hann] at hspot
          exact ⟨redirect (thin (ann.map Prod.fst)).2 q.1, _,
            by rw [List.map_cons, show q.2 = ⟨none, 0, false⟩ from Option.some.inj hspot]⟩
    · obtain ⟨p, hp', rfl⟩ := List.mem_map.1 hp
      rw [op_redirect] at hop
      obtain ⟨q, hq, htarget, hspot⟩ := hl.targets p (mem_of_mem_thinMarked hp') hop
      obtain ⟨q', hq', hid, hspot'⟩ := exists_stands hreg.nodup hl.chained hq
      refine ⟨_, List.mem_map_of_mem hq', ?_, hspot'.trans hspot⟩
      rw [targetId?_redirect, htarget, id_redirect, hid]
      rfl
    · obtain ⟨p, hp', rfl⟩ := List.mem_map.1 hp
      rw [op_redirect] at hop
      rw [operand_redirect] at hname
      obtain ⟨q, hq, hentry⟩ := hl.callees p (mem_of_mem_thinMarked hp') hop name hname
      refine ⟨_, List.mem_map_of_mem (mem_thinMarked hq (by simp [Instr.isNop, hentry])), ?_⟩
      rw [op_redirect]
      exact hentry

end Code

namespace Peephole

open Machine Relation

variable {layout : String → Layout} {code code' : List Instr}

/-- **Changes and splices keep marks right.** -/
theorem leveled_of_improved (h : ReflTransGen Improves code code') (hreg : Regular code)
    (hl : ∃ ann, ann.map Prod.fst = code ∧ Leveled layout ann) :
    ∃ ann, ann.map Prod.fst = code' ∧ Leveled layout ann := by
  induction h with
  | refl => exact hl
  | tail hs h ih =>
      have hreg' := regular_of_improved hs hreg
      obtain ⟨ann, hann, hl⟩ := ih
      cases h with
      | change h => exact h.leveled hann hl hreg'
      | splice =>
          subst hann
          exact Code.leveled_spliced hl hreg'

end Peephole

end StackLang
