/-
**A program on integers computes its value.**

If a text has no jumps and no target code, all its values are integers and evaluation of its tree
comes to an end, then its code exists and runs to a halt, with the value of the tree as the only
cell and the variables in their cells.

Main results:

* `Eval.callee?_functions` — a call finds the code of the function;
* `Compile.halts_of_value` — code that was lowered shows the value of the tree.
-/

import StackLang.Proofs.Discipline
import StackLang.Proofs.Eval.Sound
import StackLang.Proofs.Lower.Total

set_option relaxedAutoImplicit false
set_option autoImplicit false

namespace StackLang

namespace Eval

open Lower Machine

variable {r : Round} {t : Typing} {items : List (Node Mark)} {k k' : Nat} {code : List Instr}

/-! ### Calls find their functions -/

/-- The code of a function without returns is its entry, and enclosed from there on. -/
theorem exists_enclosed {symbols : Symbols} {f : Inferred} (h : EmitsFunction symbols f k code k')
    (hf : f.body.IsStraight) : ∃ i is, code = i :: is ∧ i.op = .entry f.name ∧ Enclosed is := by
  obtain ⟨k₁, comment, a, hbody, rfl⟩ := emitsFunction_straight h hf
  have ha := enclosed_of_emits hbody (by simpa [trees] using hf)
  exact ⟨_, _, rfl, rfl, by simp [epilogue, Instr.plain, ha]⟩

theorem callee?_of_enclosed {i : Instr} {is : List Instr} {own : String} (hi : i.op = .entry own)
    (his : Enclosed is) (name : String) :
    callee? name (i :: is) = if own = name then some (i :: is) else none := by
  rw [callee?, callee?_eq_none fun j hj => (his j hj).2 name, hi]
  simp

/-- A call finds no other function than those there are. -/
theorem callee?_functions_eq_none {is : List Instance} (h : EmitsFunctions r is k code k')
    (hstraight : ∀ f ∈ r.inferred, f.body.IsStraight) {name : String}
    (hname : name ∉ is.map Instance.name) : callee? name code = none := by
  induction h with
  | nil => rfl
  | @cons i is f k k₁ k₂ a b hfound hf _ ih =>
      rw [List.map_cons, List.mem_cons, not_or] at hname
      obtain ⟨j, js, rfl, hj, hjs⟩ :=
        exists_enclosed hf (hstraight f (List.mem_of_find?_eq_some hfound))
      have hfi : f.name = i.name := by simpa using List.find?_some hfound
      rw [callee?_append, ih hname.2, callee?_of_enclosed hj hjs, hfi, if_neg (Ne.symm hname.1)]
      rfl

/-- **A call finds the code of the function.** -/
theorem callee?_functions {is : List Instance} (h : EmitsFunctions r is k code k')
    (hstraight : ∀ f ∈ r.inferred, f.body.IsStraight) (hnodup : (is.map Instance.name).Nodup)
    {i : Instance} (hi : i ∈ is) : ∃ f j j' fcode pre rest,
      r.inferred.find? (fun f => f.name = i.name) = some f ∧
      EmitsFunction r.symbols f j fcode j' ∧ code = pre ++ fcode ++ rest ∧
      callee? i.name code = some (fcode ++ rest) := by
  induction h with
  | nil => exact absurd hi List.not_mem_nil
  | @cons i' is f k k₁ k₂ a b hfound hf his ih =>
      rw [List.map_cons, List.nodup_cons] at hnodup
      rcases List.mem_cons.1 hi with rfl | hi
      · obtain ⟨j, js, rfl, hj, hjs⟩ :=
          exists_enclosed hf (hstraight f (List.mem_of_find?_eq_some hfound))
        have hfi : f.name = i.name := by simpa using List.find?_some hfound
        refine ⟨f, _, _, j :: js, [], b, hfound, hf, rfl, ?_⟩
        rw [callee?_append, callee?_functions_eq_none his hstraight hnodup.1,
          callee?_of_enclosed hj hjs, if_pos hfi]
        rfl
      · obtain ⟨g, j, j', fcode, pre, rest, hg, hcode, rfl, hcallee⟩ := ih hnodup.2 hi
        refine ⟨g, j, j', fcode, a ++ pre, rest, hg, hcode, by simp, ?_⟩
        rw [callee?_append, hcallee]
        rfl

/-- The bodies of instances are straight if the unit is. -/
theorem isStraight_inferred (hsound : t.Sound items) {mark : Mark}
    (hstraight : (Node.unit mark items).IsStraight) {f : Inferred} (hf : f ∈ t.round.inferred) :
    f.body.IsStraight := by
  obtain ⟨m, p, b, hmem, hshape⟩ := hsound.exists_define hf
  have hdefine := (Node.every_unit.1 hstraight).2 _ hmem
  rw [← Node.isStraight_shape, hshape, Node.isStraight_shape]
  exact (Node.every_define.1 hdefine).2.2

/-- The statements of a unit are straight if the unit is. -/
theorem isStraight_statements (hsound : t.Sound items) {mark : Mark}
    (hstraight : (Node.unit mark items).IsStraight) {n : Note} {ys : List (Node Note)}
    (hroot : t.root = .unit n ys) {y : Node Note} (hy : y ∈ ys) : y.IsStraight := by
  obtain ⟨n', ys', hroot', hshape, -⟩ := hsound.root
  cases hroot.symm.trans hroot'
  have hmem : y.shape ∈ items.map Node.shape := hshape ▸ List.mem_map_of_mem hy
  obtain ⟨x, hx, hxy⟩ := List.mem_map.1 hmem
  rw [← Node.isStraight_shape, ← hxy, Node.isStraight_shape]
  exact (Node.every_unit.1 hstraight).2 x hx

/-- **The code of a unit holds the functions that calls go to.** -/
theorem serves_of_emits (hsound : t.Sound items) {mark : Mark}
    (hstraight : (Node.unit mark items).IsStraight) (hinteger : t.IsInteger)
    (h : EmitsUnit t code k) : Serves t.round code := by
  refine ⟨h.regular.nodup, hsound.round.distinct, fun j m hj => ?_⟩
  obtain ⟨s, f, hs, hfound, hname, hparams, hwell⟩ := hsound.exists_inferred hj
  have hf := List.mem_of_find?_eq_some hfound
  have hall : ∀ f ∈ t.round.inferred, f.body.IsStraight := fun f hf =>
    isStraight_inferred hsound hstraight hf
  refine ⟨s, f, hs, hfound, hparams, hwell, hall f hf, hinteger.2 f hf, ?_⟩
  obtain ⟨s', i, hs', hused, hi, hiname, -, hlookup, -⟩ := hj
  cases hs.symm.trans hs'
  have hreached : i ∈ reached t.round := by
    refine List.mem_filter.2 ⟨hi, ?_⟩
    simp [hlookup, hs, hused]
  cases h with
  | @mk n ys k₁ k₂ a b hroot hbody hfunctions =>
      obtain ⟨g, l, l', fcode, pre, rest, hg, hcode, rfl, hcallee⟩ := callee?_functions hfunctions
        hall (hsound.round.instances.nodup.sublist (List.filter_sublist.map _)) hreached
      rw [hiname] at hg hcallee
      cases hfound.symm.trans hg
      refine ⟨l, l', fcode, resolved k₁ (a ++ [.plain k₁ .halt .none]) ++ pre, rest, hcode, by simp,
        ?_⟩
      rw [callee?_append, hcallee]
      rfl

/-- **The code of a unit shows its value**, and the variables in the end. -/
theorem halts_of_emits (hsound : t.Sound items) {mark : Mark}
    (hstraight : (Node.unit mark items).IsStraight) (hinteger : t.IsInteger)
    (h : EmitsUnit t code k) {n : Nat} {v : Int32} {e : Env} (hvalue : t.value? n = some (v, e)) :
    ∃ o, Halts code o ∧ o.depth = 1 ∧ o.top = v.toUInt32 ∧
      HoldsGlobals t.round.symbols e.globals o.globals := by
  have hserves := serves_of_emits hsound hstraight hinteger h
  obtain ⟨m, ys, hroot', -, hresolved⟩ := hsound.root
  cases h with
  | @mk _ _ k₁ _ a b hroot hbody _ =>
      cases hroot'.symm.trans hroot
      have hdirect : ∀ y ∈ ys.filter fun y => !y.isDefinition, Direct t.round none y := by
        intro y hy
        obtain ⟨hmem, hdefinition⟩ := List.mem_filter.1 hy
        refine ⟨?_, isStraight_statements hsound hstraight hroot hmem,
          (Node.every_unit.1 (hroot ▸ hinteger.1)).2 y hmem⟩
        have hframe := hsound.noFrame
        have hy := hresolved y hmem (by simpa using hdefinition)
        unfold Round.IsVariable at hy
        rwa [hframe] at hy
      have ha := enclosed_of_emits hbody fun y hy => (hdirect y hy).straight
      rw [resolved_eq (by simp [ha, Instr.plain])] at hserves ⊢
      simp only [Typing.value?, hroot] at hvalue
      have hruns := (simulated hserves n).statements 0
        ⟨hserves.distinct, fun _ hnone => by cases hnone⟩ hdirect hbody hvalue
      obtain ⟨s, hs, hrest, hframes, hbase, cells, hlength, hstack, hholds⟩ :=
        hruns [] (.plain k₁ .halt .none :: b) (by simp) ⟨[], 0, [], []⟩
        (start (a ++ [.plain k₁ .halt .none] ++ b)) (by simp [start])
        ⟨rfl, rfl, [], rfl, rfl, ⟨fun _ _ _ _ _ => rfl, fun _ hnone => by cases hnone⟩⟩
      have hcells : cells = [] := List.eq_nil_of_length_eq_zero hlength
      subst hcells
      obtain ⟨j, hj⟩ := hs.halted ⟨1, by rw [run_succ, step, hrest]; rfl⟩
      refine ⟨_, ⟨j, hj⟩, ?_, ?_, hholds.globals⟩
      · simp [State.outcome, hstack]
      · simp [State.outcome, hstack]

end Eval

namespace Compile

open Machine

variable {source : String} {t : Node Span} {typing : Typing}

/-- Code that was lowered shows the value of the tree of a source text. -/
theorem halts_of_isSource (hsource : t.IsSource) (hstraight : t.IsStraight)
    (hinfer : (Document.ofTree t).infer = .ok typing) (hinteger : typing.IsInteger) {n : Nat}
    {v : Int32} {e : Env} (hvalue : typing.value? n = some (v, e)) :
    ∃ c o, lowered t = .ok (typing, c) ∧ Halts c.instrs o ∧
      (∀ optimize, Halts (finish optimize c).1.instrs o) ∧ o.depth = 1 ∧ o.top = v.toUInt32 ∧
      HoldsGlobals typing.round.symbols e.globals o.globals := by
  have hroot := Document.isSource_ofTree hsource
  cases hunit : (Document.ofTree t).root with
  | unit mark items =>
      rw [hunit] at hroot
      have hsound := Document.infer_sound hunit hroot hinfer
      obtain ⟨c, hc⟩ := hsound.exists_lower
      obtain ⟨k, hemits⟩ := Typing.emits_lower hc
      have hshape : (Node.unit mark items).shape = t.shape :=
        hunit ▸ Node.shape_number (fun i s => (⟨i, s⟩ : Mark)) 0 t
      have hitems : (Node.unit mark items).IsStraight := by
        rwa [← Node.isStraight_shape, hshape, Node.isStraight_shape]
      obtain ⟨o, ho, hshown⟩ := Eval.halts_of_emits hsound hitems hinteger hemits hvalue
      have hlowered : lowered t = .ok (typing, c) := by
        rw [lowered, hinfer]
        simp only [bind, Except.bind, hc]
        rfl
      exact ⟨c, o, hlowered, ho, halts_finish hlowered ho, hshown⟩
  | _ =>
      rw [hunit] at hroot
      cases hroot

/-- **Code that was lowered shows the value of the tree**, and so does the code as it is written,
for a text on integers without jumps and target code. -/
theorem halts_of_value (hsource : tree source = .ok t) (hstraight : t.IsStraight)
    (hinfer : (Document.ofTree t).infer = .ok typing) (hinteger : typing.IsInteger) {n : Nat}
    {v : Int32} {e : Env} (hvalue : typing.value? n = some (v, e)) :
    ∃ c o, lowered t = .ok (typing, c) ∧ Halts c.instrs o ∧
      (∀ optimize, Halts (finish optimize c).1.instrs o) ∧ o.depth = 1 ∧ o.top = v.toUInt32 ∧
      HoldsGlobals typing.round.symbols e.globals o.globals :=
  halts_of_isSource (isSource_tree hsource) hstraight hinfer hinteger hvalue

/-- A sum of factorials, with a loop, a recursion and a variable of the unit that the function
changes: the code shows the value. -/
theorem halts_of_value_factorials : ∃ t typing v e c o,
    tree "count = 0 def f(n) { count = count + 1 if n <= 1 1 else n * f(n - 1) }
      i = 0 s = 0 while i < 4 { i = i + 1 s = s - f(i) } s" = .ok t ∧ t.IsStraight ∧
    (Document.ofTree t).infer = .ok typing ∧ typing.IsInteger ∧
    typing.value? 60 = some (v, e) ∧ v = -33 ∧
    lowered t = .ok (typing, c) ∧ Halts c.instrs o ∧
    (∀ optimize, Halts (finish optimize c).1.instrs o) ∧ o.depth = 1 ∧ o.top = v.toUInt32 ∧
    HoldsGlobals typing.round.symbols e.globals o.globals := by
  have hrun : (tree "count = 0 def f(n) { count = count + 1 if n <= 1 1 else n * f(n - 1) }
      i = 0 s = 0 while i < 4 { i = i + 1 s = s - f(i) } s").toOption.any (fun t =>
        t.IsStraight && (Document.ofTree t).infer.toOption.any fun typing =>
          typing.IsInteger && (typing.value? 60).any fun p => p.1 == -33) = true := by
    decide +kernel
  simp only [Option.any_eq_true, Bool.and_eq_true, decide_eq_true_eq, beq_iff_eq, Prod.exists]
    at hrun
  obtain ⟨t, ht, hstraight, typing, hinfer, hinteger, v, e, hvalue, hv⟩ := hrun
  have ht := Step.eq_ok_of_toOption ht
  have hinfer := Step.eq_ok_of_toOption hinfer
  obtain ⟨c, o, h⟩ := halts_of_value ht hstraight hinfer hinteger hvalue
  exact ⟨t, typing, v, e, c, o, ht, hstraight, hinfer, hinteger, hvalue, hv, h⟩

end Compile

end StackLang
