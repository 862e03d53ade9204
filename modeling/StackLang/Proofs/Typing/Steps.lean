/-
**What lasts through visits.**

A visit changes the state of a round in few ways: it makes a variable of the unit or of a function,
it makes an instance, it binds one, and it marks the symbol of a call.  What each of these keeps,
every visit keeps.

Main definitions:

* `Infer.Lasting` — a relation between states that each of the changes keeps.

Main results:

* `Infer.visit_lasts`, `Infer.visitItems_lasts` — what the changes keep lasts through visits.
-/

import StackLang.Proofs.Typing.Calls

set_option relaxedAutoImplicit false
set_option autoImplicit false

namespace StackLang

open Step Infer

namespace Infer

variable {fs : List Function} {done : List String} {r r' : Round}

/-! ### What lasts through a visit -/

/-- **A relation between states that every change of a visit keeps.** -/
structure Lasting (fs : List Function) (P : Round → Round → Prop) : Prop where
  refl : ∀ r, P r r
  trans : ∀ {r r' r'' : Round}, P r r' → P r' r'' → P r r''
  declaredGlobal : ∀ {done : List String} {r : Round} {name : String} (type : Scalar),
    r.Sound fs done → r.frame = none → IsSourceName name → r.lookup name = none →
      P r (declaredGlobal name type r)
  declaredLocal : ∀ {done : List String} {r : Round} {scope : Scope} {name : String}
    (type : Scalar), r.Sound fs done → r.frame = some scope → IsSourceName name →
      r.lookup name = none → P r (declaredLocal scope name type r)
  marked : ∀ {done : List String} {r : Round} (k : Nat), r.Sound fs done → P r (marked k r)
  bound : ∀ {done : List String} {r : Round} {i : Instance}, r.Sound fs done →
    i ∈ r.instances.made → r.lookup i.name = none → P r (bound i.name i.function r)
  withInstance : ∀ {done : List String} {r : Round} {f : Function} {args : List Scalar},
    r.Sound fs done → f ∈ fs → args.length = f.params.length →
      r.instances.get? (decorate f.name args) = none → P r (r.withInstance f args)

variable {P : Round → Round → Prop}

/-- What the changes keep lasts while an instance is provided. -/
theorem provides_lasts (hP : Lasting fs P) (h : r.Sound fs done) {f : Function}
    {args : List Scalar} (hf : f ∈ fs) (hargs : args.length = f.params.length) {k : Nat}
    (hp : r.Provides f args k r') : P r r' := by
  cases hp with
  | known => exact hP.refl r
  | @again i hnew hi =>
      obtain ⟨hmem, hname⟩ := Instances.mem_of_get? hi
      exact hP.bound h hmem (hname ▸ hnew)
  | fresh hnew hi =>
      have hgoes := goes_withInstance h hf hargs hi
      exact hP.trans (hP.withInstance h hf hargs hi)
        (hP.bound hgoes.sound (newInstance_mem hi) hnew)

theorem called_lasts (hP : Lasting fs P) (h : r.Sound fs done) {m n : Mark} {base : String}
    {args : List Scalar} {p : Nat × Nat × Scalar} (hbase : IsSourceName base)
    (hc : called m n base args r = .ok (p, r')) : P r r' := by
  obtain ⟨t, k, type⟩ := p
  obtain ⟨f, hf, -, -, -, hargs, -, r₁, hp, rfl⟩ := called_spec h hbase hc
  exact hP.trans (provides_lasts hP h hf hargs.symm hp)
    (hP.marked k (goes_provided h hf hargs.symm hp).sound)

theorem assigned_lasts (hP : Lasting fs P) (h : r.Sound fs done) {m : Mark} {name : String}
    {value : Scalar} {p : Nat × Scalar} (hname : IsSourceName name)
    (ha : assigned m name value r = .ok (p, r')) : P r r' := by
  obtain ⟨k, type⟩ := p
  rcases assigned_spec h ha with ⟨rfl, -⟩ | ⟨hnew, -, -, rfl⟩
  · exact hP.refl _
  · unfold declared
    cases hframe : r.frame with
    | none => exact hP.declaredGlobal value h hframe hname hnew
    | some scope => exact hP.declaredLocal value h hframe hname hnew

mutual

/-- **What the changes keep lasts through a visit.** -/
theorem visit_lasts (hP : Lasting fs P) (hfs : AreSource fs) (x : Node Mark) (hx : x.IsPlain)
    {r r' : Round} {y : Node Note} {type : Scalar} (h : r.Sound fs done)
    (hv : visit x r = .ok ((y, type), r')) : P r r' := by
  cases x with
  | identifier m x =>
      simp only [visit, bind_eq_ok, pure_eq_ok, Prod.exists, Prod.mk.injEq] at hv
      obtain ⟨k, s, r₁, hvalue, -, rfl⟩ := hv
      obtain ⟨rfl, -⟩ := valueOf_spec h hvalue
      exact hP.refl _
  | binary m op a b =>
      obtain ⟨ha, hb⟩ := isPlain_binary.1 hx
      by_cases hop : op = .assign
      · cases a with
        | identifier n x =>
            simp only [visit, if_pos hop, bind_eq_ok, pure_eq_ok, Prod.exists] at hv
            obtain ⟨b', s, r₁, hb', k, s', r₂, hassigned, -, rfl⟩ := hv
            exact hP.trans (visit_lasts hP hfs b hb h hb')
              (assigned_lasts hP (visit_resolved hfs b hb h hb').goes.sound ha.self hassigned)
        | _ =>
            simp only [visit, if_pos hop] at hv
            exact absurd hv fail_ne_ok
      · simp only [visit, if_neg hop, bind_eq_ok, pure_eq_ok, Prod.exists] at hv
        obtain ⟨a', s, r₁, ha', b', t, r₂, hb', -, rfl⟩ := hv
        exact hP.trans (visit_lasts hP hfs a ha h ha')
          (visit_lasts hP hfs b hb (visit_resolved hfs a ha h ha').goes.sound hb')
  | unary m op x =>
      simp only [visit, bind_eq_ok, pure_eq_ok, Prod.exists] at hv
      obtain ⟨x', s, r₁, hvx, -, rfl⟩ := hv
      exact visit_lasts hP hfs x (Node.every_unary.1 hx).2 h hvx
  | call m f as =>
      obtain ⟨-, hf, has⟩ := Node.every_call.1 hx
      cases f with
      | identifier n base =>
          simp only [visit, bind_eq_ok, pure_eq_ok, Prod.exists] at hv
          obtain ⟨as', types, r₁, has', t, k, s, r₂, hcalled, -, rfl⟩ := hv
          exact hP.trans (visitArgs_lasts hP hfs as has h has')
            (called_lasts hP (visitArgs_resolved hfs as has h has').1.goes.sound hf.self hcalled)
      | _ =>
          simp only [visit] at hv
          exact absurd hv fail_ne_ok
  | cond m c t e =>
      obtain ⟨-, hc, ht, he⟩ := Node.every_cond.1 hx
      cases e with
      | none =>
          simp only [visit, bind_eq_ok, pure_eq_ok, Prod.exists] at hv
          obtain ⟨c', _, r₁, hc', t', s, r₂, ht', -, rfl⟩ := hv
          exact hP.trans (visit_lasts hP hfs c hc h hc')
            (visit_lasts hP hfs t ht (visit_resolved hfs c hc h hc').goes.sound ht')
      | some e =>
          simp only [visit, bind_eq_ok, pure_eq_ok, Prod.exists] at hv
          obtain ⟨c', _, r₁, hc', t', s, r₂, ht', e', s', r₃, he', -, rfl⟩ := hv
          have hsound₁ := (visit_resolved hfs c hc h hc').goes.sound
          exact hP.trans (visit_lasts hP hfs c hc h hc')
            (hP.trans (visit_lasts hP hfs t ht hsound₁ ht')
              (visit_lasts hP hfs e (he e rfl) (visit_resolved hfs t ht hsound₁ ht').goes.sound
                he'))
  | loop m c b =>
      obtain ⟨-, hc, hb⟩ := Node.every_loop.1 hx
      simp only [visit, bind_eq_ok, pure_eq_ok, Prod.exists] at hv
      obtain ⟨c', _, r₁, hc', b', _, r₂, hb', -, rfl⟩ := hv
      exact hP.trans (visit_lasts hP hfs c hc h hc')
        (visit_lasts hP hfs b hb (visit_resolved hfs c hc h hc').goes.sound hb')
  | returnValue m v =>
      simp only [visit, bind_eq_ok, pure_eq_ok, Prod.exists] at hv
      obtain ⟨v', s, r₁, hvv, -, rfl⟩ := hv
      exact visit_lasts hP hfs v (Node.every_returnValue.1 hx).2 h hvv
  | block m is =>
      simp only [visit, bind_eq_ok, pure_eq_ok, Prod.exists] at hv
      obtain ⟨is', s, r₁, his', -, rfl⟩ := hv
      exact visitList_lasts hP hfs is (Node.every_block.1 hx).2 h his'
  | define m p b => exact absurd hx.self id
  | prototype m f ps => exact absurd hx.self id
  | unit m is => exact absurd hx.self id
  | _ =>
      simp only [visit, pure_eq_ok] at hv
      obtain ⟨-, rfl⟩ := hv
      exact hP.refl _

theorem visitArgs_lasts (hP : Lasting fs P) (hfs : AreSource fs) (xs : List (Node Mark))
    (hxs : ∀ x ∈ xs, x.IsPlain) {r r' : Round} {ys : List (Node Note)} {types : List Scalar}
    (h : r.Sound fs done) (hv : visitArgs xs r = .ok ((ys, types), r')) : P r r' := by
  cases xs with
  | nil =>
      simp only [visitArgs, pure_eq_ok] at hv
      obtain ⟨-, rfl⟩ := hv
      exact hP.refl _
  | cons x xs =>
      rw [List.forall_mem_cons] at hxs
      simp only [visitArgs, bind_eq_ok, pure_eq_ok, Prod.exists] at hv
      obtain ⟨y, s, r₁, hx, ys, ss, r₂, hys, -, rfl⟩ := hv
      exact hP.trans (visit_lasts hP hfs x hxs.1 h hx)
        (visitArgs_lasts hP hfs xs hxs.2 (visit_resolved hfs x hxs.1 h hx).goes.sound hys)

theorem visitList_lasts (hP : Lasting fs P) (hfs : AreSource fs) (xs : List (Node Mark))
    (hxs : ∀ x ∈ xs, x.IsPlain) {r r' : Round} {ys : List (Node Note)} {type type' : Scalar}
    (h : r.Sound fs done) (hv : visitList type xs r = .ok ((ys, type'), r')) : P r r' := by
  cases xs with
  | nil =>
      simp only [visitList, pure_eq_ok] at hv
      obtain ⟨-, rfl⟩ := hv
      exact hP.refl _
  | cons x xs =>
      rw [List.forall_mem_cons] at hxs
      simp only [visitList, bind_eq_ok, pure_eq_ok, Prod.exists] at hv
      obtain ⟨y, s, r₁, hx, ys, ss, r₂, hys, -, rfl⟩ := hv
      exact hP.trans (visit_lasts hP hfs x hxs.1 h hx)
        (visitList_lasts hP hfs xs hxs.2 (visit_resolved hfs x hxs.1 h hx).goes.sound hys)

end

/-- What the changes keep lasts through the items of a unit. -/
theorem visitItems_lasts (hP : Lasting fs P) (hfs : AreSource fs) {xs : List (Node Mark)}
    (hxs : ∀ x ∈ xs, x.IsItem) {ys : List (Node Note)} (h : r.Sound fs done)
    (hv : visitItems xs r = .ok (ys, r')) : P r r' := by
  induction xs generalizing r ys with
  | nil =>
      simp only [visitItems, pure_eq_ok] at hv
      obtain ⟨-, rfl⟩ := hv
      exact hP.refl _
  | cons x xs ih =>
      rw [List.forall_mem_cons] at hxs
      cases hdefinition : x.isDefinition with
      | true =>
          simp only [visitItems, hdefinition, if_true, bind_eq_ok, pure_eq_ok, and_assoc,
            exists_and_left, exists_eq_left] at hv
          obtain ⟨ys, r₁, hys, -, rfl⟩ := hv
          exact ih hxs.2 h hys
      | false =>
          simp only [visitItems, hdefinition, Bool.false_eq_true, if_false, bind_eq_ok, pure_eq_ok,
            Prod.exists, and_assoc, exists_and_left, exists_eq_left] at hv
          obtain ⟨y, s, r₁, hx, ys, r₂, hys, -, rfl⟩ := hv
          have hplain := (Node.isItem_of_not_isDefinition hdefinition).1 hxs.1
          exact hP.trans (visit_lasts hP hfs x hplain h hx)
            (ih hxs.2 (visit_resolved hfs x hplain h hx).goes.sound hys)

end Infer

end StackLang
