/-
**Optimization keeps results.**

A tree and the tree with some of its integers computed have the same value, in rounds that stand
side by side.  So where folding only computes, the code of a text and the optimized code of the
folded text end with the same cell on the stack and with the same variables.

Main results:

* `Eval.agrees` — a tree and the tree with integers computed have the same value;
* `Compile.halts_of_folded` — the optimized program shows what the program shows.
-/

import StackLang.Proofs.Eval.Program
import StackLang.Proofs.Tree.Folded
import StackLang.Proofs.Typing.Twins

set_option relaxedAutoImplicit false
set_option autoImplicit false

namespace StackLang

namespace Eval

open Node

variable {r r' : Round} {n : Nat} {e e' : Env} {v : Int32}

/-! ### Variables and instances -/

theorem storage_twin (hr : Round.Twin r r') (k : Nat) :
    r'.symbols[k]?.map Symbol.storage = r.symbols[k]?.map Symbol.storage := by
  have hk := hr.symbols.get k
  generalize r.symbols[k]? = o, r'.symbols[k]? = o' at hk
  cases hk with
  | none => rfl
  | some hs => exact congrArg some hs.storage

theorem read_twin (hr : Round.Twin r r') (k : Nat) (e : Env) :
    e.read r'.symbols k = e.read r.symbols k := by
  rw [Env.read, storage_twin hr, Env.read]

theorem write_twin (hr : Round.Twin r r') (k : Nat) (v : Int32) (e : Env) :
    e.write r'.symbols k v = e.write r.symbols k v := by
  rw [Env.write, storage_twin hr, Env.write]

/-- The instance that a call goes to is there on either side. -/
theorem find?_twin {fs fs' : List Inferred} (h : List.Forall₂ Inferred.Twin fs fs') {name : String}
    {f : Inferred} (hf : fs.find? (fun f => f.name = name) = some f) :
    ∃ f', fs'.find? (fun f => f.name = name) = some f' ∧ Inferred.Twin f f' := by
  induction h with
  | nil => cases hf
  | @cons g g' _ _ hg _ ih =>
      rw [List.find?_cons] at hf
      rw [List.find?_cons, hg.name]
      split at hf
      · cases hf
        exact ⟨g', rfl, hg⟩
      · exact ih hf

/-! ### Values -/

/-- A tree and the tree with integers computed have the same value, if that of the first is found
within `n` levels. -/
structure Agrees (r r' : Round) (n : Nat) : Prop where
  expression : ∀ {var : Nat → Prop} {fn : Nat → Nat → Prop} {x x' : Node Note} {e e' : Env}
    {v : Int32} {m : Nat}, Resolved var fn x → Computed SameNote x x' → n ≤ m →
    expression r n x e = some (v, e') → expression r' m x' e = some (v, e')
  statements : ∀ {var : Nat → Prop} {fn : Nat → Nat → Prop} {xs xs' : List (Node Note)}
    {e e' : Env} {v : Int32} {m : Nat}, (∀ x ∈ xs, Resolved var fn x) →
    ComputedList SameNote xs xs' → n ≤ m →
    statements r n xs e = some (v, e') → statements r' m xs' e = some (v, e')
  arguments : ∀ {var : Nat → Prop} {fn : Nat → Nat → Prop} {xs xs' : List (Node Note)}
    {e e' : Env} {vs : List Int32} {m : Nat}, (∀ x ∈ xs, Resolved var fn x) →
    ComputedList SameNote xs xs' → n ≤ m →
    arguments r n xs e = some (vs, e') → arguments r' m xs' e = some (vs, e')

theorem value_literal {k : Note} {a : Int32}
    (h : expression r n (.literal k (.int a)) e = some (v, e')) : v = a ∧ e' = e := by
  cases n with
  | zero => cases h
  | succ n =>
      cases h
      exact ⟨rfl, rfl⟩

/-- What folding computes of a sign is what evaluation does. -/
theorem eval_eq_int {op : UnaryOp} {a v : Int32} (h : op.eval (.int a) = .int v) {k : Note}
    {x : Node Note} {w : Int32} (hx : expression r n x e = some (a, e))
    (hv : expression r (n + 1) (.unary k op x) e = some (w, e')) : w = v ∧ e' = e := by
  cases op with
  | plus =>
      cases h
      cases hx.symm.trans hv
      exact ⟨rfl, rfl⟩
  | minus =>
      cases h
      simp only [expression, hx, Option.bind_eq_bind, Option.bind_some, Option.pure_def,
        Option.some.injEq, Prod.mk.injEq] at hv
      obtain ⟨rfl, rfl⟩ := hv
      exact ⟨Int32.zero_sub a, rfl⟩
  | not =>
      simp only [expression, hx, Option.bind_eq_bind, Option.bind_some, Option.pure_def,
        Option.some.injEq, Prod.mk.injEq] at hv
      obtain ⟨rfl, rfl⟩ := hv
      simp only [UnaryOp.eval, Literal.isTrue, Literal.ofBool, Literal.int.injEq] at h
      refine ⟨?_, rfl⟩
      rw [← h]
      by_cases ha : a = 0 <;> simp [ha]

/-- An operand has a value where its sign has one. -/
theorem exists_operand {op : UnaryOp} {k : Note} {x : Node Note}
    (h : expression r (n + 1) (.unary k op x) e = some (v, e')) :
    ∃ a e₁, expression r n x e = some (a, e₁) := by
  cases op
  case plus => exact ⟨v, e', h⟩
  all_goals
    simp only [expression, Option.bind_eq_bind, Option.bind_eq_some_iff, Prod.exists] at h
    obtain ⟨a, e₁, hx, -⟩ := h
    exact ⟨a, e₁, hx⟩

section Step

variable (hr : Round.Twin r r') (hbodies : ∀ f ∈ r.inferred, ∃ var fn, Resolved var fn f.body)
  (ih : Agrees r r' n)

include hr hbodies ih

theorem agrees_expression {var : Nat → Prop} {fn : Nat → Nat → Prop} {x x' : Node Note} {m : Nat}
    (hx : Resolved var fn x) (h : Computed SameNote x x') (hm : n ≤ m)
    (hv : expression r (n + 1) x e = some (v, e')) :
    expression r' (m + 1) x' e = some (v, e') := by
  cases h with
  | @literal _ _ lit _ =>
      cases lit with
      | int a => exact hv
      | float a => cases hv
  | identifier hn =>
      simp only [expression, Option.bind_eq_bind, Option.bind_eq_some_iff, Option.pure_def,
        Option.some.injEq, Prod.mk.injEq] at hv ⊢
      obtain ⟨j, hj, w, hw, rfl, rfl⟩ := hv
      exact ⟨j, hn.2.trans hj, w, (read_twin hr j e).trans hw, rfl, rfl⟩
  | binary hn hl hy =>
      cases hx with
      | assign _ _ _ _ hright =>
          cases hl with
          | identifier hn' =>
              simp only [expression, Option.bind_eq_bind, Option.bind_eq_some_iff, Prod.exists,
                Option.pure_def, Option.some.injEq, Prod.mk.injEq, Node.note] at hv ⊢
              obtain ⟨w, e₁, hw, j, hj, e₂, hwrite, rfl, rfl⟩ := hv
              exact ⟨w, e₁, ih.expression hright hy hm hw, j, hn'.2.trans hj, e₂,
                (write_twin hr j w e₁).trans hwrite, rfl, rfl⟩
      | binary _ hop hleft hright =>
          obtain ⟨a, e₁, b, ha, hb, hab⟩ := (expression_binary hop).1 hv
          exact (expression_binary hop).2 ⟨a, e₁, b, ih.expression hleft hl hm ha,
            ih.expression hright hy hm hb, hab⟩
  | @unary _ _ op y y' _ hy =>
      cases hx with
      | unary _ hinner =>
          cases op with
          | plus =>
              change expression r' m y' e = some (v, e')
              exact ih.expression hinner hy hm hv
          | minus =>
              simp only [expression, Option.bind_eq_bind, Option.bind_eq_some_iff, Prod.exists,
                Option.pure_def, Option.some.injEq, Prod.mk.injEq] at hv ⊢
              obtain ⟨w, e₁, hw, rfl, rfl⟩ := hv
              exact ⟨w, e₁, ih.expression hinner hy hm hw, rfl, rfl⟩
          | not =>
              simp only [expression, Option.bind_eq_bind, Option.bind_eq_some_iff, Prod.exists,
                Option.pure_def, Option.some.injEq, Prod.mk.injEq] at hv ⊢
              obtain ⟨w, e₁, hw, rfl, rfl⟩ := hv
              exact ⟨w, e₁, ih.expression hinner hy hm hw, rfl, rfl⟩
  | call hn hf has =>
      cases hx with
      | call _ _ _ hargs =>
          simp only [expression, Option.bind_eq_bind, Option.bind_eq_some_iff, Prod.exists,
            Option.pure_def, Option.some.injEq, Prod.mk.injEq] at hv ⊢
          obtain ⟨vs, e₁, hvs, j, hj, s, hs, g, hg, w, e₂, hw, rfl, rfl⟩ := hv
          obtain ⟨s', hs', hname⟩ : ∃ s' : Symbol, r'.symbols[j]? = some s' ∧
              s'.emittedName = s.emittedName := by
            have hj := hr.symbols.get j
            rw [hs] at hj
            cases hget : r'.symbols[j]? with
            | none =>
                rw [hget] at hj
                cases hj
            | some s' =>
                rw [hget] at hj
                cases hj with
                | some hss => exact ⟨s', rfl, hss.emittedName⟩
          obtain ⟨g', hg', htwin⟩ := find?_twin hr.inferred hg
          obtain ⟨var', fn', hbody⟩ := hbodies g (List.mem_of_find?_eq_some hg)
          refine ⟨vs, e₁, ih.arguments hargs has hm hvs, j, hn.2.trans hj, s', hs', g',
            by rw [hname]; exact hg', w, e₂, ?_, rfl, rfl⟩
          rw [htwin.scope, htwin.params]
          exact ih.expression hbody htwin.body hm hw
  | cond hn hc ht he =>
      cases hx with
      | cond _ htest hthen helse =>
          cases he with
          | none =>
              simp only [expression, Option.bind_eq_bind, Option.bind_eq_some_iff,
                Prod.exists] at hv ⊢
              obtain ⟨w, e₁, hw, hv⟩ := hv
              refine ⟨w, e₁, ih.expression htest hc hm hw, ?_⟩
              split at hv
              · rwa [if_pos ‹w = 0›]
              · rw [if_neg ‹¬ w = 0›]
                exact ih.expression hthen ht hm hv
          | @some y y' hy =>
              simp only [expression, Option.bind_eq_bind, Option.bind_eq_some_iff,
                Prod.exists] at hv ⊢
              obtain ⟨w, e₁, hw, hv⟩ := hv
              refine ⟨w, e₁, ih.expression htest hc hm hw, ?_⟩
              split at hv
              · rw [if_pos ‹w = 0›]
                exact ih.expression (helse y rfl) hy hm hv
              · rw [if_neg ‹¬ w = 0›]
                exact ih.expression hthen ht hm hv
  | loop hn hc hb =>
      have hagain := fun {e₂ : Env} => @ih.expression _ _ _ _ e₂ e' v _ hx (.loop hn hc hb) hm
      cases hx with
      | loop _ htest hbody =>
          simp only [expression, Option.bind_eq_bind, Option.bind_eq_some_iff,
            Prod.exists] at hv ⊢
          obtain ⟨w, e₁, hw, hv⟩ := hv
          refine ⟨w, e₁, ih.expression htest hc hm hw, ?_⟩
          split at hv
          · rwa [if_pos ‹w = 0›]
          · rw [if_neg ‹¬ w = 0›]
            simp only [Option.bind_eq_some_iff, Prod.exists] at hv ⊢
            obtain ⟨w', e₂, hw', hv⟩ := hv
            exact ⟨w', e₂, ih.expression hbody hb hm hw', hagain hv⟩
  | block hn his =>
      cases hx with
      | block _ hitems => exact ih.statements hitems his hm hv
  | nop hn => exact hv
  | value hn hl hy hab =>
      cases hx with
      | assign => cases hab
      | binary _ hop hleft hright =>
          obtain ⟨a', e₁, b', ha, hb, hab'⟩ := (expression_binary hop).1 hv
          obtain ⟨rfl, rfl⟩ := value_literal (ih.expression hleft hl (Nat.le_refl n) ha)
          obtain ⟨rfl, rfl⟩ := value_literal (ih.expression hright hy (Nat.le_refl n) hb)
          cases hab.symm.trans hab'
          rfl
  | sign hn hy hval =>
      cases hx with
      | unary _ hinner =>
          obtain ⟨a, e₁, ha⟩ := exists_operand hv
          obtain ⟨rfl, rfl⟩ := value_literal (ih.expression hinner hy (Nat.le_refl n) ha)
          obtain ⟨rfl, rfl⟩ := eval_eq_int hval ha hv
          rfl
  | @yes _ _ _ _ _ y _ hc hne ht _ _ =>
      cases hx with
      | cond _ htest hthen helse =>
          -- the levels that the test took are not needed any more
          have hthen' := fun {e₁ : Env} =>
            @ih.expression _ _ _ _ e₁ e' v _ hthen ht (Nat.le_succ_of_le hm)
          cases y with
          | none =>
              simp only [expression, Option.bind_eq_bind, Option.bind_eq_some_iff,
                Prod.exists] at hv
              obtain ⟨w, e₁, hw, hv⟩ := hv
              obtain ⟨rfl, rfl⟩ := value_literal (ih.expression htest hc (Nat.le_refl n) hw)
              rw [if_neg hne] at hv
              exact hthen' hv
          | some y =>
              simp only [expression, Option.bind_eq_bind, Option.bind_eq_some_iff,
                Prod.exists] at hv
              obtain ⟨w, e₁, hw, hv⟩ := hv
              obtain ⟨rfl, rfl⟩ := value_literal (ih.expression htest hc (Nat.le_refl n) hw)
              rw [if_neg hne] at hv
              exact hthen' hv
  | no hc _ he _ =>
      cases hx with
      | cond _ htest hthen helse =>
          simp only [expression, Option.bind_eq_bind, Option.bind_eq_some_iff, Prod.exists] at hv
          obtain ⟨w, e₁, hw, hv⟩ := hv
          obtain ⟨rfl, rfl⟩ := value_literal (ih.expression htest hc (Nat.le_refl n) hw)
          rw [if_pos rfl] at hv
          exact ih.expression (helse _ rfl) he (Nat.le_succ_of_le hm) hv
  | skip hn hc _ =>
      cases hx with
      | cond _ htest hthen helse =>
          simp only [expression, Option.bind_eq_bind, Option.bind_eq_some_iff, Prod.exists] at hv
          obtain ⟨w, e₁, hw, hv⟩ := hv
          obtain ⟨rfl, rfl⟩ := value_literal (ih.expression htest hc (Nat.le_refl n) hw)
          rw [if_pos rfl] at hv
          exact hv

omit hr hbodies in
theorem agrees_statements {var : Nat → Prop} {fn : Nat → Nat → Prop} {xs xs' : List (Node Note)}
    {m : Nat} (hxs : ∀ x ∈ xs, Resolved var fn x) (h : ComputedList SameNote xs xs') (hm : n ≤ m)
    (hv : statements r (n + 1) xs e = some (v, e')) :
    statements r' (m + 1) xs' e = some (v, e') := by
  cases h with
  | nil => exact hv
  | cons hx hrest =>
      rw [List.forall_mem_cons] at hxs
      cases hrest with
      | nil => exact ih.expression hxs.1 hx hm hv
      | cons hy hrest =>
          simp only [statements, Option.bind_eq_bind, Option.bind_eq_some_iff, Prod.exists] at hv ⊢
          obtain ⟨w, e₁, hw, hv⟩ := hv
          exact ⟨w, e₁, ih.expression hxs.1 hx hm hw,
            ih.statements hxs.2 (.cons hy hrest) hm hv⟩

omit hr hbodies in
theorem agrees_arguments {var : Nat → Prop} {fn : Nat → Nat → Prop} {xs xs' : List (Node Note)}
    {m : Nat} {vs : List Int32} (hxs : ∀ x ∈ xs, Resolved var fn x)
    (h : ComputedList SameNote xs xs') (hm : n ≤ m)
    (hv : arguments r (n + 1) xs e = some (vs, e')) :
    arguments r' (m + 1) xs' e = some (vs, e') := by
  cases h with
  | nil => exact hv
  | cons hx hrest =>
      rw [List.forall_mem_cons] at hxs
      simp only [arguments, Option.bind_eq_bind, Option.bind_eq_some_iff, Prod.exists,
        Option.pure_def, Option.some.injEq, Prod.mk.injEq] at hv ⊢
      obtain ⟨ws, e₁, hws, w, e₂, hw, rfl, rfl⟩ := hv
      exact ⟨ws, e₁, ih.arguments hxs.2 hrest hm hws, w, e₂, ih.expression hxs.1 hx hm hw, rfl,
        rfl⟩

end Step

/-- **A tree and the tree with some of its integers computed have the same value.** -/
theorem agrees (hr : Round.Twin r r')
    (hbodies : ∀ f ∈ r.inferred, ∃ var fn, Resolved var fn f.body) (n : Nat) : Agrees r r' n := by
  induction n with
  | zero =>
      constructor
      · intro _ _ _ _ _ _ _ _ _ _ _ hv
        cases hv
      · intro _ _ _ _ _ _ _ _ _ _ _ hv
        cases hv
      · intro _ _ _ _ _ _ _ _ _ _ _ hv
        cases hv
  | succ n ih =>
      constructor
      · intro _ _ _ _ _ _ _ m hx h hm hv
        cases m with
        | zero => exact absurd hm (Nat.not_succ_le_zero n)
        | succ m => exact agrees_expression hr hbodies ih hx h (Nat.le_of_succ_le_succ hm) hv
      · intro _ _ _ _ _ _ _ m hxs h hm hv
        cases m with
        | zero => exact absurd hm (Nat.not_succ_le_zero n)
        | succ m => exact agrees_statements ih hxs h (Nat.le_of_succ_le_succ hm) hv
      · intro _ _ _ _ _ _ _ m hxs h hm hv
        cases m with
        | zero => exact absurd hm (Nat.not_succ_le_zero n)
        | succ m => exact agrees_arguments ih hxs h (Nat.le_of_succ_le_succ hm) hv

end Eval

/-- **Units that differ in what is computed have the same value**, and the same variables in the
end. -/
theorem Typing.value?_computed {t t' : Typing} {items : List (Node Mark)} (hsound : t.Sound items)
    (hroot : Infer.SameRoot t.root t'.root) (hround : Round.Twin t.round t'.round) {n : Nat}
    {v : Int32} {e : Env} (hv : t.value? n = some (v, e)) : t'.value? n = some (v, e) := by
  obtain ⟨k, k', ys, ys', hys, hys', hstatements⟩ := hroot
  obtain ⟨_, zs, hzs, -, hresolved⟩ := hsound.root
  cases hys.symm.trans hzs
  simp only [value?, hys, hys'] at hv ⊢
  have hys : ∀ y ∈ ys.filter fun y => !y.isDefinition,
      Resolved t.round.IsVariable t.round.IsInstance y := by
    intro y hy
    obtain ⟨hmem, hdefinition⟩ := List.mem_filter.1 hy
    exact hresolved y hmem (by simpa using hdefinition)
  exact (Eval.agrees hround (fun f hf => ⟨_, _, (hsound.round.inferred f hf).body⟩) n).statements
    hys hstatements (Nat.le_refl n) hv

namespace Compile

open Machine

variable {source : String} {t : Node Span} {typing : Typing}

/-- The typing of a source text without floats has none. -/
theorem isInteger_of_isFloatFree (hsource : t.IsSource) (hfree : t.IsFloatFree)
    (hinfer : (Document.ofTree t).infer = .ok typing) : typing.IsInteger := by
  have hroot := Document.isSource_ofTree hsource
  have hall : (Document.ofTree t).root.IsFloatFree := hfree.of_shape (Node.shape_number _ 0 t)
  cases hunit : (Document.ofTree t).root with
  | unit mark items =>
      rw [hunit] at hroot hall
      exact Document.infer_integer hunit (Node.every_unit.1 hall).2 hinfer
  | _ =>
      rw [hunit] at hroot
      cases hroot

/-- **Folding keeps the value of a text** on integers, without jumps and target code, in which it
only computes. -/
theorem value?_fold (hsource : t.IsSource) (hstraight : t.IsStraight) (hfree : t.IsFloatFree)
    (hsteady : t.IsSteady) (hinfer : (Document.ofTree t).infer = .ok typing) :
    ∃ typing', (Document.ofTree t.fold.1).infer = .ok typing' ∧
      Round.Twin typing.round typing'.round ∧
      ∀ n v e, typing.value? n = some (v, e) → typing'.value? n = some (v, e) := by
  cases t with
  | unit k items =>
      have hitems := Node.computedItems_fold hsource (Node.every_unit.1 hstraight).2
        (Node.every_unit.1 hfree).2 (Node.every_unit.1 hsteady).2
      have hnumbered := Node.computedItems_number (fun i s => (⟨i, s⟩ : Mark))
        (fun i s => (⟨i, s⟩ : Mark)) hitems 1 1
      have hall : (Document.ofTree (.unit k items)).root.IsFloatFree :=
        hfree.of_shape (Node.shape_number (fun i s => (⟨i, s⟩ : Mark)) 0 (.unit k items))
      obtain ⟨typing', hinfer', hroots, hround⟩ := @Document.infer_twin
        (Document.ofTree (.unit k items)) (Document.ofTree (.unit k (Node.foldList items).1))
        _ _ _ _ _ rfl rfl (Node.every_unit.1 hall).2 hnumbered hinfer
      refine ⟨typing', hinfer', hround, fun n v e hv => ?_⟩
      have hroot := Document.isSource_ofTree hsource
      exact Typing.value?_computed (Document.infer_sound rfl hroot hinfer) hroots hround hv
  | _ => cases hsource

/-- **Folding only computes** on integers, without jumps and target code: the code of the text, and
the optimized code of the folded text, end with the value of the text on the stack, and with its
variables. -/
theorem halts_of_computed (hsource : tree source = .ok t) (hstraight : t.IsStraight)
    (hfree : t.IsFloatFree) (hsteady : t.IsSteady)
    (hinfer : (Document.ofTree (prepare false t)).infer = .ok typing) {n : Nat} {v : Int32}
    {e : Env} (hvalue : typing.value? n = some (v, e)) :
    ∃ typing' c c' o o', lowered (prepare false t) = .ok (typing, c) ∧
      lowered (prepare true t) = .ok (typing', c') ∧ Halts (finish false c).1.instrs o ∧
      Halts (finish true c').1.instrs o' ∧ o.top = v.toUInt32 ∧ o'.top = o.top ∧ o.depth = 1 ∧
      o'.depth = o.depth ∧ HoldsGlobals typing.round.symbols e.globals o.globals ∧
      HoldsGlobals typing.round.symbols e.globals o'.globals := by
  have hroot := isSource_tree hsource
  obtain ⟨typing', hinfer', hround, hvalues⟩ :=
    value?_fold hroot hstraight hfree hsteady hinfer
  have hroot' := Node.isSource_fold hroot
  have hfree' : t.fold.1.IsFloatFree := by
    cases t with
    | unit k items =>
        exact Node.every_unit.2 ⟨rfl, Node.isFloatFree_computedItems (Node.computedItems_fold hroot
          (Node.every_unit.1 hstraight).2 (Node.every_unit.1 hfree).2
          (Node.every_unit.1 hsteady).2) (Node.every_unit.1 hfree).2⟩
    | _ => cases hroot
  obtain ⟨c, o, hc, -, ho, hdepth, htop, hglobals⟩ := halts_of_isSource hroot hstraight hinfer
    (isInteger_of_isFloatFree hroot hfree hinfer) hvalue
  obtain ⟨c', o', hc', -, ho', hdepth', htop', hglobals'⟩ := halts_of_isSource hroot'
    (Node.isStraight_fold hstraight) hinfer' (isInteger_of_isFloatFree hroot' hfree' hinfer')
    (hvalues n v e hvalue)
  refine ⟨typing', c, c', o, o', hc, hc', ho false, ho' true, htop, htop'.trans htop.symm, hdepth,
    hdepth'.trans hdepth.symm, hglobals, fun k s l hs hl => ?_⟩
  -- a variable lies in the same cell on either side
  have hstorage := Eval.storage_twin hround k
  rw [hs, Option.map_some, hl] at hstorage
  obtain ⟨s', hs', hl'⟩ := Option.map_eq_some_iff.1 hstorage
  exact hglobals' k s' l hs' hl'

/-- **Optimization keeps results** of a text in which folding only computes, and of one that it
leaves as it is, which can have floats and jumps: the code of the text, and the optimized code of
the folded text, end with the same cell on the stack, as many cells, and the same variables. -/
theorem halts_of_folded (hsource : tree source = .ok t)
    (hinfer : (Document.ofTree (prepare false t)).infer = .ok typing) :
    (t.IsStraight → t.IsFloatFree → t.IsSteady → ∀ n v e, typing.value? n = some (v, e) →
      ∃ typing' c c' o o', lowered (prepare false t) = .ok (typing, c) ∧
        lowered (prepare true t) = .ok (typing', c') ∧ Halts (finish false c).1.instrs o ∧
        Halts (finish true c').1.instrs o' ∧ o.top = v.toUInt32 ∧ o'.top = o.top ∧ o.depth = 1 ∧
        o'.depth = o.depth ∧ HoldsGlobals typing.round.symbols e.globals o.globals ∧
        HoldsGlobals typing.round.symbols e.globals o'.globals) ∧
    (t.fold.2 = 0 → ∀ c o, typing.lower = .ok c → Halts c.instrs o →
      lowered (prepare true t) = .ok (typing, c) ∧ Halts (finish false c).1.instrs o ∧
        Halts (finish true c).1.instrs o) := by
  refine ⟨fun hstraight hfree hsteady n v e hvalue =>
    halts_of_computed hsource hstraight hfree hsteady hinfer hvalue, fun hkept c o hc ho => ?_⟩
  have hsame : prepare true t = prepare false t := congrArg Prod.fst (Node.fold_of_eq_zero hkept)
  have hlowered : lowered (prepare false t) = .ok (typing, c) := by
    simp [lowered, bind, Except.bind, pure, Except.pure, hinfer, hc]
  exact ⟨hsame ▸ hlowered, halts_finish hlowered ho false, halts_finish hlowered ho true⟩

/-- Sums and a test are folded away, and the program shows the value all the same; and a float is
doubled in a loop that is left by a jump, where there is nothing to fold. -/
theorem halts_of_folded_sum : (∃ t typing v e typing' c c' o o',
    tree "limit = 2 * 3 + 1 def sum(n) if n < 1 0 else n + sum(n - 1)
      if 2 < 3 { total = sum(limit) } else { -limit } total" = .ok t ∧ t.IsStraight ∧
    t.IsFloatFree ∧ t.IsSteady ∧ t.fold.2 = 4 ∧
    (Document.ofTree (prepare false t)).infer = .ok typing ∧
    typing.value? 60 = some (v, e) ∧ v = 28 ∧
    lowered (prepare false t) = .ok (typing, c) ∧ lowered (prepare true t) = .ok (typing', c') ∧
    Halts (finish false c).1.instrs o ∧ Halts (finish true c').1.instrs o' ∧ o.top = v.toUInt32 ∧
    o'.top = o.top ∧ o.depth = 1 ∧ o'.depth = o.depth ∧
    HoldsGlobals typing.round.symbols e.globals o.globals ∧
    HoldsGlobals typing.round.symbols e.globals o'.globals) ∧
    ∃ t typing c o, tree "x = 0.5 while 1 { x = x + x if 2 < x { break } } x" = .ok t ∧
      ¬ t.IsStraight ∧ t.fold.2 = 0 ∧
      (Document.ofTree (prepare false t)).infer = .ok typing ∧ typing.lower = .ok c ∧
      Halts c.instrs o ∧ o.top = 0x40800000 ∧ lowered (prepare true t) = .ok (typing, c) ∧
      Halts (finish false c).1.instrs o ∧ Halts (finish true c).1.instrs o := by
  constructor
  · have hrun : (tree "limit = 2 * 3 + 1 def sum(n) if n < 1 0 else n + sum(n - 1)
      if 2 < 3 { total = sum(limit) } else { -limit } total").toOption.any (fun t =>
          t.IsStraight && t.IsFloatFree && t.IsSteady && t.fold.2 == 4 &&
            (Document.ofTree (prepare false t)).infer.toOption.any fun typing =>
              (typing.value? 60).any fun p => p.1 == 28) = true := by
      decide +kernel
    simp only [Option.any_eq_true, Bool.and_eq_true, decide_eq_true_eq, beq_iff_eq, Prod.exists]
      at hrun
    obtain ⟨t, ht, ⟨⟨⟨hstraight, hfree⟩, hsteady⟩, hfold⟩, typing, hinfer, v, e, hvalue, hv⟩ := hrun
    have ht := Step.eq_ok_of_toOption ht
    have hinfer := Step.eq_ok_of_toOption hinfer
    obtain ⟨typing', c, c', o, o', h⟩ :=
      (halts_of_folded ht hinfer).1 hstraight hfree hsteady _ _ _ hvalue
    exact ⟨t, typing, v, e, typing', c, c', o, o', ht, hstraight, hfree, hsteady, hfold, hinfer,
      hvalue, hv, h⟩
  · have hrun : (tree "x = 0.5 while 1 { x = x + x if 2 < x { break } } x").toOption.any (fun t =>
        !decide t.IsStraight && t.fold.2 == 0 &&
          (Document.ofTree (prepare false t)).infer.toOption.any fun typing =>
            typing.lower.toOption.any fun c =>
              (outcome? 100 c.instrs).any fun o => o.top == 0x40800000) = true := by
      decide +kernel
    simp only [Option.any_eq_true, Bool.and_eq_true, Bool.not_eq_true', decide_eq_false_iff_not,
      beq_iff_eq] at hrun
    obtain ⟨t, ht, ⟨hstraight, hfold⟩, typing, hinfer, c, hc, o, ho, htop⟩ := hrun
    have ht := Step.eq_ok_of_toOption ht
    have hinfer := Step.eq_ok_of_toOption hinfer
    have hc := Step.eq_ok_of_toOption hc
    exact ⟨t, typing, c, o, ht, hstraight, hfold, hinfer, hc, halts_of_outcome? ho,
      htop, (halts_of_folded ht hinfer).2 hfold c o hc (halts_of_outcome? ho)⟩

/-- With floats folding does more than compute: `if 1 { 1 } else { 2.5 }` is a float for the sake of
the branch that is never taken, and an integer once that branch is dropped. -/
theorem halts_of_folded_branch : ∃ t typing typing' c c' o o',
    tree "if 1 { 1 } else { 2.5 }" = .ok t ∧ t.hasAssembly = false ∧
    lowered (prepare false t) = .ok (typing, c) ∧ lowered (prepare true t) = .ok (typing', c') ∧
    Halts (finish false c).1.instrs o ∧ Halts (finish true c').1.instrs o' ∧
    o.top = 0x3F800000 ∧ o'.top = 1 := by
  have hrun : (tree "if 1 { 1 } else { 2.5 }").toOption.any (fun t => !t.hasAssembly &&
      (lowered (prepare false t)).toOption.any (fun p =>
        (outcome? 100 p.2.instrs).any fun o => o.top == 0x3F800000) &&
      (lowered (prepare true t)).toOption.any fun p =>
        (outcome? 100 p.2.instrs).any fun o => o.top == 1) = true := by
    decide +kernel
  simp only [Option.any_eq_true, Bool.and_eq_true, Bool.not_eq_true', beq_iff_eq, Prod.exists]
    at hrun
  obtain ⟨t, ht, ⟨hasm, typing, c, hc, o, ho, htop⟩, typing', c', hc', o', ho', htop'⟩ := hrun
  have hc := Step.eq_ok_of_toOption hc
  have hc' := Step.eq_ok_of_toOption hc'
  exact ⟨t, typing, typing', c, c', o, o', Step.eq_ok_of_toOption ht, hasm, hc, hc',
    halts_finish hc (halts_of_outcome? ho) false, halts_finish hc' (halts_of_outcome? ho') true,
    htop, htop'⟩

end Compile

end StackLang
