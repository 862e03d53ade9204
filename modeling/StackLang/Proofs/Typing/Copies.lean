/-
**Instances are copies of their own.**

An instance is made when a name of a function is called with argument types that it was not called
with before.  It is a copy of the function as it stands in the unit, made of nodes that no tree had
before.  Rounds only add to the instances, so what holds of them holds across all rounds.

Main definitions:

* `Instance.IsClone` — the instance is a copy of the function in the unit;
* `Round.Stands` — the instances are clones, one for each signature, and share no nodes;
* `Round.Leads` — a later state keeps this, and the instances of the earlier one.

Main results:

* `Infer.lasting_leads` — every change of a visit leads on;
* `Infer.leads_start` — so does the start of the next round.
-/

import StackLang.Proofs.Tree.Identity
import StackLang.Proofs.Typing.Steps

set_option relaxedAutoImplicit false
set_option autoImplicit false

namespace StackLang

open Step Infer

namespace Instance

/-- The name of the function and the argument types. -/
def signature (i : Instance) : String × List Scalar := (i.base, i.args)

/-- The identities of the nodes of the copy. -/
def identities (i : Instance) : List Nat := i.function.toNode.identities

/-- **The instance is a copy of the function**, as it stands in the unit, for its argument types. -/
structure IsClone (f : Function) (i : Instance) : Prop where
  base : i.base = f.name
  args : i.args.length = f.params.length
  name : i.name = decorate i.base i.args
  function : ∃ k, i.function = (f.copy k i.name).1

end Instance

/-- The identities of the nodes of all instances. -/
def Instances.identities (is : Instances) : List Nat := is.made.flatMap Instance.identities

namespace Round

/-- **The instances are clones of the functions, one for each signature**; they share no node with
each other or with the tree whose nodes are `ids`, and no node that was not made. -/
structure Stands (fs : List Function) (ids : List Nat) (r : Round) : Prop where
  clones : ∀ i ∈ r.instances.made, ∃ f ∈ fs, i.IsClone f
  signatures : (r.instances.made.map Instance.signature).Nodup
  identities : (ids ++ r.instances.identities).Nodup
  below : ∀ k ∈ ids ++ r.instances.identities, k < r.fresh

/-- **A later state** has the instances of the earlier one, and others behind them. -/
structure Leads (fs : List Function) (ids : List Nat) (r r' : Round) : Prop where
  stands : r.Stands fs ids → r'.Stands fs ids
  made : r.instances.made <+: r'.instances.made

/-- No instance was made, and no node. -/
structure Still (r r' : Round) : Prop where
  fresh : r'.fresh = r.fresh
  made : r'.instances.made = r.instances.made

variable {fs : List Function} {ids : List Nat} {r r' r'' : Round}

theorem Still.refl (r : Round) : r.Still r := ⟨rfl, rfl⟩

theorem Still.leads (h : r.Still r') : r.Leads fs ids r' := by
  constructor
  · intro hr
    have hidentities : r'.instances.identities = r.instances.identities := by
      rw [Instances.identities, h.made, Instances.identities]
    constructor
    · rw [h.made]
      exact hr.clones
    · rw [h.made]
      exact hr.signatures
    · rw [hidentities]
      exact hr.identities
    · rw [hidentities, h.fresh]
      exact hr.below
  · rw [h.made]

theorem Leads.refl (r : Round) : r.Leads fs ids r := (Still.refl r).leads

theorem Leads.trans (h : r.Leads fs ids r') (h' : r'.Leads fs ids r'') : r.Leads fs ids r'' :=
  ⟨fun hr => h'.stands (h.stands hr), h.made.trans h'.made⟩

/-- Clones of one name have one signature. -/
theorem Stands.name_ne (h : r.Stands fs ids) {f : Function} {args : List Scalar}
    (hi : r.instances.get? (decorate f.name args) = none) {i : Instance}
    (hmem : i ∈ r.instances.made) : i.signature ≠ (f.name, args) := by
  intro hsignature
  obtain ⟨hbase, hargs⟩ := Prod.mk.inj hsignature
  obtain ⟨g, -, hclone⟩ := h.clones i hmem
  have hname : i.name = decorate f.name args := by rw [hclone.name, hbase, hargs]
  exact absurd (decide_eq_true hname) (List.find?_eq_none.1 hi i hmem)

/-- **One more instance stands with the others.** -/
theorem Stands.withInstance (h : r.Stands fs ids) {f : Function} {args : List Scalar} (hf : f ∈ fs)
    (hargs : args.length = f.params.length)
    (hi : r.instances.get? (decorate f.name args) = none) :
    (r.withInstance f args).Stands fs ids := by
  have hmade : (r.withInstance f args).instances.made =
      r.instances.made ++ [r.newInstance f args] := by rw [made_withInstance hi]
  have hidentities : (r.withInstance f args).instances.identities =
      r.instances.identities ++ (r.newInstance f args).identities := by
    simp [Instances.identities, hmade]
  have hrun := f.identities_copy r.fresh (decorate f.name args)
  have hnew : ∀ k ∈ (r.newInstance f args).identities, r.fresh ≤ k ∧
      k < (r.withInstance f args).fresh := fun k hk => hrun.mem_iff.1 hk
  have hclone : (r.newInstance f args).IsClone f := ⟨rfl, hargs, rfl, r.fresh, rfl⟩
  constructor
  · intro i hmem
    rw [hmade, List.mem_append, List.mem_singleton] at hmem
    rcases hmem with hmem | rfl
    · exact h.clones i hmem
    · exact ⟨f, hf, hclone⟩
  · rw [hmade, List.map_append, List.map_singleton]
    refine List.nodup_append.2 ⟨h.signatures, List.nodup_singleton _, ?_⟩
    intro s hs s' hs' heq
    obtain ⟨i, hmem, rfl⟩ := List.mem_map.1 hs
    exact h.name_ne hi hmem (heq.trans (List.mem_singleton.1 hs'))
  · rw [hidentities, ← List.append_assoc]
    refine List.nodup_append.2 ⟨h.identities, hrun.nodup, ?_⟩
    intro j hj k hk heq
    have hlt := h.below j hj
    have hle := (hnew k hk).1
    omega
  · intro k hk
    rw [hidentities, ← List.append_assoc, List.mem_append] at hk
    rcases hk with hk | hk
    · have hlt := h.below k hk
      have hle := hrun.le
      exact Nat.lt_of_lt_of_le hlt hle
    · exact (hnew k hk).2

end Round

namespace Infer

open Round

variable {fs : List Function} {done : List String} {ids : List Nat} {r r' : Round}

/-- **Every change of a visit leads on.** -/
theorem lasting_leads (fs : List Function) (ids : List Nat) : Lasting fs (Leads fs ids) where
  refl := Leads.refl
  trans := Leads.trans
  declaredGlobal := fun _ _ _ _ _ => Still.leads ⟨rfl, rfl⟩
  declaredLocal := fun _ _ _ _ _ => Still.leads ⟨rfl, rfl⟩
  marked := fun _ _ => Still.leads ⟨rfl, rfl⟩
  bound := fun _ _ _ => Still.leads ⟨rfl, made_enqueue _ _⟩
  withInstance := by
    intro done r f args _ hf hargs hi
    constructor
    · intro hr
      exact hr.withInstance hf hargs hi
    · rw [made_withInstance hi]
      exact List.prefix_append _ _

/-! ### Between visits -/

theorem still_declareParams {span : Span} {ps : List (String × Scalar)} {u : PUnit}
    (hd : declareParams span ps r = .ok (u, r')) : r.Still r' := by
  induction ps generalizing r with
  | nil =>
      simp only [declareParams, pure_eq_ok] at hd
      rw [hd.2]
      exact .refl r
  | cons p ps ih =>
      simp only [declareParams, bind_eq_ok, get_eq_ok, and_assoc, exists_and_left,
        exists_eq_left] at hd
      split at hd
      · exact absurd hd fail_ne_ok
      · simp only [bind_eq_ok, set_eq_ok, addSymbol_eq_ok, modify_eq_ok, and_assoc,
          exists_and_left, exists_eq_left, exists_const] at hd
        have hrest := ih hd
        exact ⟨hrest.fresh, hrest.made⟩

theorem still_declareFunctions {gs : List Function} {u : PUnit}
    (hd : declareFunctions gs r = .ok (u, r')) : r.Still r' := by
  induction gs generalizing r with
  | nil =>
      simp only [declareFunctions, pure_eq_ok] at hd
      rw [hd.2]
      exact .refl r
  | cons f gs ih =>
      simp only [declareFunctions, bind_eq_ok, get_eq_ok, and_assoc, exists_and_left,
        exists_eq_left] at hd
      split at hd
      · exact absurd hd fail_ne_ok
      · simp only [bind_eq_ok, addSymbol_eq_ok, bindGlobal_eq_ok, and_assoc, exists_and_left,
          exists_eq_left, exists_const] at hd
        have hrest := ih hd
        exact ⟨hrest.fresh, hrest.made⟩

/-- The next round goes on with the instances of this one. -/
theorem leads_start (r : Round) : r.Leads fs ids (.start r.fresh r.instances) :=
  Still.leads ⟨rfl, rfl⟩

end Infer

end StackLang
