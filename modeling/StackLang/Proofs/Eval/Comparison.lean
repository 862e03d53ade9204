/-
**Comparisons of variables.**

The code of a comparison looks at the sign of a wrapped difference, while folding looks at the two
integers themselves.  Whether two integers are equal is read off the wrapped difference without
fail.  Their order is read off it as long as the difference is an integer of thirty-two bits; where
it is not, wrapping turns the sign over, and the code gives the answer that is wrong.

Main definitions:

* `BinaryOp.Relates` — the relation of integers that a comparison names;
* `BinaryOp.IsExact` — the wrapped difference of two integers shows whether they are in relation;
* `Machine.IsVariable` — a name stands for a variable with a value.

Main results:

* `BinaryOp.holdsInt_iff` — folding compares integers in signed order;
* `BinaryOp.holdsInt_sub_of_isExact`, `BinaryOp.holdsInt_sub_of_not_isExact` — what the sign of the
  wrapped difference says;
* `Lower.compares_variables` — what the code of a comparison leaves, and what folding makes of it.
-/

import StackLang.Proofs.Eval.Computed
import StackLang.Proofs.Lower.Total

set_option relaxedAutoImplicit false
set_option autoImplicit false

namespace StackLang

/-! ### Signed order -/

namespace BinaryOp

/-- The relation of two integers that the operator names. -/
def Relates (op : BinaryOp) (i j : Int) : Prop :=
  match op with
  | equal => i = j
  | notEqual => i ≠ j
  | less => i < j
  | lessEqual => i ≤ j
  | greater => j < i
  | greaterEqual => j ≤ i
  | _ => False

instance (op : BinaryOp) (i j : Int) : Decidable (op.Relates i j) :=
  match op with
  | equal => inferInstanceAs (Decidable (i = j))
  | notEqual => inferInstanceAs (Decidable (i ≠ j))
  | less => inferInstanceAs (Decidable (i < j))
  | lessEqual => inferInstanceAs (Decidable (i ≤ j))
  | greater => inferInstanceAs (Decidable (j < i))
  | greaterEqual => inferInstanceAs (Decidable (j ≤ i))
  | assign | add | subtract | multiply | divide => inferInstanceAs (Decidable False)

/-- The wrapped difference of the integers shows whether they stand in the relation of the
comparison: for equality it always does, for the order when the difference does not wrap. -/
def IsExact (op : BinaryOp) (a b : Int32) : Prop :=
  op = .equal ∨ op = .notEqual ∨ (-2 ^ 31 ≤ a.toInt - b.toInt ∧ a.toInt - b.toInt < 2 ^ 31)

instance (op : BinaryOp) (a b : Int32) : Decidable (op.IsExact a b) :=
  inferInstanceAs (Decidable (_ ∨ _ ∨ (_ ∧ _)))

variable {op : BinaryOp} {a b : Int32}

/-- **Folding compares integers in signed order.** -/
theorem holdsInt_iff : op.holdsInt a b = true ↔ op.Relates a.toInt b.toInt := by
  cases op <;> simp [holdsInt, Relates, Int32.lt_iff_toInt_lt, Int32.le_iff_toInt_le,
    ← Int32.toInt_inj]

theorem eval?_int (hop : op.isComparison = true) :
    op.eval? (.int a) (.int b) = some (.int (if op.Relates a.toInt b.toInt then 1 else 0)) := by
  simp only [eval?, hop, if_true, Literal.ofBool, holdsInt_iff]

/-- The wrapped difference, as an integer. -/
theorem toInt_sub_cases (a b : Int32) :
    (-2 ^ 31 ≤ a.toInt - b.toInt ∧ a.toInt - b.toInt < 2 ^ 31 ∧ (a - b).toInt = a.toInt - b.toInt) ∨
    (a.toInt - b.toInt < -2 ^ 31 ∧ 0 < (a - b).toInt) ∨
    (2 ^ 31 ≤ a.toInt - b.toInt ∧ (a - b).toInt < 0) := by
  have hla := a.le_toInt
  have hlb := b.le_toInt
  have hua := a.toInt_lt
  have hub := b.toInt_lt
  rw [Int32.toInt_sub, Int.bmod]
  split <;> omega

/-- Where it is exact, the sign of the wrapped difference is that of the comparison. -/
theorem holdsInt_sub_of_isExact (h : op.IsExact a b) :
    op.holdsInt (a - b) 0 = op.holdsInt a b := by
  have hzero : (0 : Int32).toInt = 0 := rfl
  have hla := a.le_toInt
  have hlb := b.le_toInt
  have hua := a.toInt_lt
  have hub := b.toInt_lt
  rw [Bool.eq_iff_iff, holdsInt_iff, holdsInt_iff, hzero]
  have hcases := toInt_sub_cases a b
  cases op <;> simp only [IsExact, Relates, reduceCtorEq, false_or, true_or] at h ⊢
  all_goals omega

/-- Where it is not, the sign is the opposite one. -/
theorem holdsInt_sub_of_not_isExact (hop : op.isComparison = true) (h : ¬ op.IsExact a b) :
    op.holdsInt (a - b) 0 = !op.holdsInt a b := by
  have hzero : (0 : Int32).toInt = 0 := rfl
  rw [Bool.eq_iff_iff, Bool.not_eq_true', ← Bool.not_eq_true, holdsInt_iff, holdsInt_iff, hzero]
  have hcases := toInt_sub_cases a b
  cases op <;> simp only [IsExact, Relates, reduceCtorEq, false_or, true_or, not_true] at h ⊢
  case less | lessEqual | greater | greaterEqual => omega
  case assign | add | subtract | multiply | divide => cases hop

end BinaryOp

/-! ### Variables -/

namespace Machine

/-- **A name stands for an integer variable** with the value `a`. -/
inductive IsVariable (host : Host) (e : Env) : Node Note → Int32 → Prop where
  | mk {n : Note} {name : String} {k : Nat} {a : Int32} (htype : n.type = some .int)
      (hsymbol : n.symbol = some k) (hk : IsVisible host.symbols host.scope k)
      (ha : e.read host.symbols k = some a) : IsVariable host e (.identifier n name) a

variable {host : Host} {prog : List Instr} {e e' e'' : Env} {us : List Int32} {a b : Int32}
  {x y : Node Note} {is js : List Instr} {site : Lower.Site} {k k' : Nat}

/-- What has a value has a cell. -/
theorem hasCell_of_read {ss : Symbols} (h : e.read ss k = some a) : Lower.HasCell ss k := by
  cases hs : ss[k]? with
  | none => simp [Env.read, hs] at h
  | some s =>
      cases hstorage : s.storage with
      | nowhere => simp [Env.read, hs, hstorage] at h
      | frame offset => exact ⟨s, .frame offset, hs, by rw [hstorage]; rfl⟩
      | global l => exact ⟨s, .global l, hs, by rw [hstorage]; rfl⟩

namespace IsVariable

theorem resolved (h : IsVariable host e x a) :
    Resolved (Lower.HasCell host.symbols) (fun _ _ => False) x := by
  cases h with
  | mk htype hsymbol _ ha => exact .identifier (by simp [htype]) hsymbol (hasCell_of_read ha)

theorem type_eq (h : IsVariable host e x a) : x.note.type = some .int := by
  cases h with
  | mk htype => exact htype

/-- **The code of a variable** pushes its value. -/
theorem runs (h : IsVariable host e x a)
    (hcode : Lower.Emits host.symbols site (.converted x .int) k is k') (us : List Int32) :
    Runs prog host is e us e (a :: us) := by
  cases h with
  | mk htype hsymbol hk ha =>
      cases hcode with
      | converted hs hcode =>
          cases htype.symm.trans hs
          cases hcode with
          | padded hyields => cases hyields
          | whole _ hcode =>
              cases hcode with
              | idleJump hx => cases hx
              | loopJump hx => cases hx
              | silent hx => cases hx
              | @identifier _ _ _ _ s cell hs hcell =>
                  rw [Node.symbol?, Node.note, hsymbol, Option.bind_some] at hs
                  have hread : Runs prog host [⟨k, .load, cell, none, s.loadRemark⟩] e us e
                      (a :: us) := .read rfl rfl hk hs hcell ha
                  exact hread.of_eq (List.append_nil _).symm

end IsVariable

end Machine

/-! ### The code of a comparison -/

namespace Lower

open Machine

variable {host : Host} {site : Site} {e : Env} {a b : Int32} {n : Note} {op : BinaryOp}
  {l r : Node Note}

/-- The note of a comparison does not show in its code. -/
theorem expression_comparison (ss : Symbols) (site : Site) (n m : Note)
    (hop : op.isComparison = true) :
    expression ss site (.binary n op l r) = expression ss site (.binary m op l r) := by
  rw [expression, expression]
  simp only [hop, if_true]

/-- A comparison of two variables is lowered. -/
theorem exists_comparison (site : Site) (n : Note) (hop : op.isComparison = true)
    (hl : IsVariable host e l a) (hr : IsVariable host e r b) (k : Nat) :
    ∃ code k', expression host.symbols site (.binary n op l r) k = .ok (code, k') := by
  have hassign : op ≠ .assign := by
    rintro rfl
    cases hop
  have hknows : Knows host.symbols (HasCell host.symbols) fun _ _ => False :=
    ⟨fun _ => id, fun _ _ => False.elim⟩
  obtain ⟨⟨code, k'⟩, hcode⟩ := succeeds_expression hknows site
    (.binary { n with type := some .int } op l r)
    (.binary (by simp) hassign hl.resolved hr.resolved) k
  exact ⟨code, k', by rw [expression_comparison _ _ n _ hop, hcode]⟩

/-- The code of a comparison of two variables tests the wrapped difference of their values. -/
theorem runs_comparison {prog code : List Instr} {k k' : Nat} (hop : op.isComparison = true)
    (hl : IsVariable host e l a) (hr : IsVariable host e r b)
    (hcode : expression host.symbols site (.binary n op l r) k = .ok (code, k'))
    (hnodup : (prog.map Instr.id).Nodup) (us : List Int32) :
    Runs prog host code e us e ((if op.holdsInt (a - b) 0 then 1 else 0) :: us) := by
  cases emits_expression _ _ _ hcode with
  | assign => cases hop
  | arith harith => cases op <;> simp [BinaryOp.isComparison, ArithOp.ofBinary?] at hop harith
  | idleJump hx => cases hx
  | loopJump hx => cases hx
  | silent hx => cases hx
  | comparison hc hs ht hcl hcr =>
      cases hl.type_eq.symm.trans hs
      cases hr.type_eq.symm.trans ht
      rw [← Eval.holds_eq hc]
      exact Eval.runs_verdict_sub hnodup (hl.runs hcl us) (hr.runs hcr (a :: us))

/-- **Comparisons of integer variables.** The code of a comparison is made, and wherever it stands
it leaves the variables as they are and pushes one or zero.  It pushes one exactly if the integers
are in the relation of the comparison, as long as their wrapped difference shows that, and it pushes
the opposite where the difference does not.  Folding the comparison of the two integers gives one
exactly if they are in that relation, in every case. -/
theorem compares_variables (site : Site) (n : Note) (k : Nat) (hop : op.isComparison = true)
    (hl : IsVariable host e l a) (hr : IsVariable host e r b) :
    ∃ code k', expression host.symbols site (.binary n op l r) k = .ok (code, k') ∧
      (∀ prog us, (prog.map Instr.id).Nodup →
        (op.IsExact a b → Runs prog host code e us e
          ((if op.Relates a.toInt b.toInt then 1 else 0) :: us)) ∧
        (¬ op.IsExact a b → Runs prog host code e us e
          ((if op.Relates a.toInt b.toInt then 0 else 1) :: us))) ∧
      op.eval? (.int a) (.int b) = some (.int (if op.Relates a.toInt b.toInt then 1 else 0)) := by
  obtain ⟨code, k', hcode⟩ := exists_comparison site n hop hl hr k
  refine ⟨code, k', hcode, fun prog us hnodup => ?_, BinaryOp.eval?_int hop⟩
  have hruns := runs_comparison hop hl hr hcode hnodup us
  constructor
  · intro hexact
    simpa only [BinaryOp.holdsInt_sub_of_isExact hexact, BinaryOp.holdsInt_iff] using hruns
  · intro hinexact
    simpa only [BinaryOp.holdsInt_sub_of_not_isExact hop hinexact, Bool.not_eq_true',
      ← Bool.not_eq_true, BinaryOp.holdsInt_iff, ite_not] using hruns

/-- A variable of the unit with the value three is less than a local one with the value four. -/
theorem compares_variables_less : ∃ host e l r code k', IsVariable host e l 3 ∧
    IsVariable host e r 4 ∧ BinaryOp.less.isComparison = true ∧ BinaryOp.less.IsExact 3 4 ∧
    expression host.symbols .top (.binary default .less l r) 0 = .ok (code, k') ∧
    (∀ prog us, (prog.map Instr.id).Nodup → Runs prog host code e us e (1 :: us)) ∧
    BinaryOp.less.eval? (.int 3) (.int 4) = some (.int 1) := by
  let host : Host := ⟨#[.ofVariable "a" "a" .int (.global "a"),
    .ofVariable "b" "b" .int (.frame (-4))], some (Scope.function.bind "b" 1), 0⟩
  let e : Env := ⟨fun _ => 3, fun _ => 4⟩
  have hl : IsVariable host e (.identifier ⟨default, some .int, some 0⟩ "a") 3 :=
    .mk rfl rfl (.inl ⟨_, _, rfl, rfl⟩) rfl
  have hr : IsVariable host e (.identifier ⟨default, some .int, some 1⟩ "b") 4 :=
    .mk rfl rfl (.inr ⟨_, rfl, "b", List.mem_singleton.2 rfl⟩) rfl
  have hless : BinaryOp.less.isComparison = true := rfl
  obtain ⟨code, k', hcode, hruns, hfold⟩ := compares_variables .top default 0 hless hl hr
  exact ⟨host, e, _, _, code, k', hl, hr, hless, by decide, hcode,
    fun prog us hnodup => (hruns prog us hnodup).1 (by decide), hfold⟩

end Lower

namespace Compile

open Machine

/-- The difference of the ends of the range wraps: with `2147483647` in `a` and `-1` in `b`, running
`a < b` leaves one, while folding `2147483647 < -1` gives zero. -/
theorem halts_of_wrapped_less : ∃ t typing c o,
    tree "a = 2147483647\nb = -1\na < b" = .ok t ∧ lowered (prepare false t) = .ok (typing, c) ∧
    Halts (finish false c).1.instrs o ∧ o.globals "a@g0" = (2147483647 : Int32).toUInt32 ∧
    o.globals "b@g1" = (-1 : Int32).toUInt32 ∧ o.top = 1 ∧
    ¬ BinaryOp.less.Relates (Int32.toInt 2147483647) (Int32.toInt (-1)) ∧
    BinaryOp.less.eval? (.int 2147483647) (.int (-1)) = some (.int 0) := by
  have hrun : (tree "a = 2147483647\nb = -1\na < b").toOption.any (fun t =>
      (lowered (prepare false t)).toOption.any fun p => (outcome? 100 p.2.instrs).any fun o =>
        o.globals "a@g0" == (2147483647 : Int32).toUInt32 &&
          o.globals "b@g1" == (-1 : Int32).toUInt32 && o.top == 1) = true := by
    decide +kernel
  simp only [Option.any_eq_true, Bool.and_eq_true, beq_iff_eq, Prod.exists] at hrun
  obtain ⟨t, ht, typing, c, hc, o, ho, ⟨ha, hb⟩, htop⟩ := hrun
  have hc := Step.eq_ok_of_toOption hc
  exact ⟨t, typing, c, o, Step.eq_ok_of_toOption ht, hc,
    halts_finish hc (halts_of_outcome? ho) false, ha, hb, htop, by decide, by decide⟩

end Compile

end StackLang
