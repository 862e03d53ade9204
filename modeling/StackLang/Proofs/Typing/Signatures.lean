/-
**Every signature has one instance.**

A call goes to the instance for the name and the argument types.  Names and types are put together
in a text by which the instance is looked up, and instances last over the rounds while symbols do
not; still, two calls go to one instance exactly if they agree in name and types.  No more instances
can be queued in a round than there are signatures, so a round ends, and it infers what was queued
once.  The functions of the unit are only copied.

Main definitions:

* `Document.instances` — the instances of all states of all rounds;
* `Infer.Ends` — how a round ends;
* `Document.Monomorphizes` — every signature has one instance.

Main results:

* `Infer.ends_of_isRound` — every round ends;
* `Compile.monomorphizes` — every signature of a source text has one instance.
-/

import StackLang.Proofs.Typing.Trace

set_option relaxedAutoImplicit false
set_option autoImplicit false

namespace StackLang

open Step

/-! ### How a round ends -/

/-- **How a round ends**: a name is used against its meaning, or the queue is empty and what stood
in it was inferred once.  Definitions have no types. -/
inductive Infer.Ends (mark : Mark) (items : List (Node Mark)) (r : Round) : Prop where
  | fails (s : SemanticError) (h : visitUnit mark items r = .error (.semantic s))
  | drained {ys : List (Node Note)} {r' : Round}
      (h : visitUnit mark items r = .ok (.unit (.typed mark .int) ys, r'))
      (pending : r'.instances.pending = [])
      (inferred : (r'.inferred.map Inferred.name).Perm r'.instances.queued)
      (nodup : r'.instances.queued.Nodup)
      (count : r'.inferred.length ≤ signatures (Node.definitions items))
      (templates : List.Forall₂ (fun x y => x.isDefinition = true → y = x.map .bare) items ys)

namespace Infer

variable {items : List (Node Mark)} {r r' : Round}

/-- Definitions are left as they are. -/
theorem visitItems_templates {xs : List (Node Mark)} {ys : List (Node Note)}
    (hv : visitItems xs r = .ok (ys, r')) :
    List.Forall₂ (fun x y => x.isDefinition = true → y = x.map .bare) xs ys := by
  induction xs generalizing r r' ys with
  | nil =>
      simp only [visitItems, pure_eq_ok] at hv
      rw [hv.1]
      exact .nil
  | cons x xs ih =>
      cases hdefinition : x.isDefinition with
      | true =>
          simp only [visitItems, hdefinition, if_true, bind_eq_ok, pure_eq_ok, and_assoc,
            exists_and_left, exists_eq_left] at hv
          obtain ⟨ys, r₁, hys, rfl, -⟩ := hv
          exact .cons (fun _ => rfl) (ih hys)
      | false =>
          simp only [visitItems, hdefinition, Bool.false_eq_true, if_false, bind_eq_ok, pure_eq_ok,
            Prod.exists, and_assoc, exists_and_left, exists_eq_left] at hv
          obtain ⟨y, s, r₁, -, ys, r₂, hys, rfl, -⟩ := hv
          refine .cons ?_ (ih hys)
          intro htrue
          rw [hdefinition] at htrue
          cases htrue

/-- **Every round ends**: there are no more instances than signatures. -/
theorem ends_of_isRound (hitems : ∀ x ∈ items, x.IsItem) {mark : Mark}
    (hr : IsRound (Node.definitions items) r) : Ends mark items r := by
  obtain ⟨fresh, is, rfl⟩ := hr.start
  cases hrun : visitUnit mark items (.start fresh is) with
  | error e =>
      obtain ⟨s, rfl⟩ := visitUnit_error hitems hr.sound.instances hrun
      exact .fails s hrun
  | ok p =>
      obtain ⟨root, r'⟩ := p
      have hsound := visitUnit_sound hitems hr.sound.instances hrun
      have hperm := hsound.perm_inferred
      obtain ⟨ys, hroot, htemplates⟩ : ∃ ys, root = .unit (.typed mark .int) ys ∧
          List.Forall₂ (fun x y => x.isDefinition = true → y = x.map .bare) items ys := by
        simp only [visitUnit, bind_eq_ok, pure_eq_ok] at hrun
        obtain ⟨_, r₁, -, ys, r₂, hvisit, _, r₃, -, rfl, -⟩ := hrun
        exact ⟨ys, rfl, visitItems_templates hvisit⟩
      subst hroot
      refine .drained hrun hsound.pending hperm.symm hsound.round.instances.nodup_queued ?_
        htemplates
      have hcount := hperm.length_eq
      rw [List.length_map] at hcount
      rw [← hcount]
      exact length_queued_le hsound.round.instances

end Infer

/-! ### All rounds -/

namespace Document

/-- The instances of all states of all rounds. -/
def instances (d : Document) : List Instance := d.states.flatMap fun r => r.instances.made

/-- **Every signature has one instance**, across all rounds over a unit with the items `items`. -/
structure Monomorphizes (mark : Mark) (items : List (Node Mark)) (d : Document) : Prop where
  /-- Instances for the same name and types are one. -/
  unique : ∀ i ∈ d.instances, ∀ j ∈ d.instances, i.signature = j.signature → i = j
  nodup : ∀ r ∈ d.states, (r.instances.made.map Instance.signature).Nodup
  /-- Calls go to one instance exactly if they agree in name and types. -/
  same : ∀ c ∈ d.calls, ∀ c' ∈ d.calls,
    c.function? = c'.function? ↔ c.base = c'.base ∧ c.args = c'.args
  served : ∀ c ∈ d.calls, ∃ i ∈ d.instances, i.signature = (c.base, c.args) ∧
    c.function? = some i.function
  /-- What is called is a function as it stands in the unit, and what is made is a copy of it. -/
  templates : ∀ c ∈ d.calls, ∃ f ∈ Node.definitions items, f.name = c.base ∧ c.template? = some f
  clones : ∀ i ∈ d.instances, ∃ f ∈ Node.definitions items, i.IsClone f
  apart : ∀ i ∈ d.instances, ∀ j ∈ d.instances, i ≠ j → i.identities.Disjoint j.identities
  fresh : ∀ i ∈ d.instances, i.identities.Nodup ∧ d.root.identities.Disjoint i.identities
  rounds : ∀ r ∈ d.rounds, Infer.Ends mark items r
  outcome : ∀ t, d.infer = .ok t →
    ∃ r ∈ d.rounds, Infer.visitUnit mark items r = .ok (t.root, t.round)

/-- The states of a document stand in an order, and the instances stand in each of them. -/
structure Marches (fs : List Function) (d : Document) : Prop where
  leads : ∀ q ∈ d.states, ∀ q' ∈ d.states, q.Leads fs d.root.identities q' ∨
    q'.Leads fs d.root.identities q
  stands : ∀ q ∈ d.states, q.Stands fs d.root.identities

namespace Marches

variable {fs : List Function} {d : Document}

/-- Two instances are there in one state. -/
theorem exists_state (h : Marches fs d) {i j : Instance} (hi : i ∈ d.instances)
    (hj : j ∈ d.instances) : ∃ q ∈ d.states, i ∈ q.instances.made ∧ j ∈ q.instances.made := by
  obtain ⟨q, hq, hi⟩ := List.mem_flatMap.1 hi
  obtain ⟨q', hq', hj⟩ := List.mem_flatMap.1 hj
  rcases h.leads q hq q' hq' with hleads | hleads
  · exact ⟨q', hq', hleads.made.subset hi, hj⟩
  · exact ⟨q, hq, hi, hleads.made.subset hj⟩

theorem unique (h : Marches fs d) {i j : Instance} (hi : i ∈ d.instances) (hj : j ∈ d.instances)
    (hsignature : i.signature = j.signature) : i = j := by
  obtain ⟨q, hq, hi, hj⟩ := h.exists_state hi hj
  exact List.inj_on_of_nodup_map (h.stands q hq).signatures hi hj hsignature

/-- Different instances share no nodes. -/
theorem apart (h : Marches fs d) {i j : Instance} (hi : i ∈ d.instances) (hj : j ∈ d.instances)
    (hne : i ≠ j) : i.identities.Disjoint j.identities := by
  obtain ⟨q, hq, hi, hj⟩ := h.exists_state hi hj
  have hnodup := (List.nodup_append.1 (h.stands q hq).identities).2.1
  have hpairwise := (List.nodup_flatMap.1 hnodup).2
  have hsymm : Std.Symm (Function.onFun List.Disjoint Instance.identities) :=
    ⟨fun _ _ hdisjoint => hdisjoint.symm⟩
  exact hpairwise.forall hi hj hne

theorem fresh (h : Marches fs d) {i : Instance} (hi : i ∈ d.instances) :
    i.identities.Nodup ∧ d.root.identities.Disjoint i.identities := by
  obtain ⟨q, hq, hi, -⟩ := h.exists_state hi hi
  obtain ⟨-, hnodup, hdisjoint⟩ := List.nodup_append.1 (h.stands q hq).identities
  refine ⟨(List.nodup_flatMap.1 hnodup).1 i hi, ?_⟩
  intro k hroot hk
  exact hdisjoint k hroot k (List.mem_flatMap.2 ⟨i, hi, hk⟩) rfl

/-- Instances with one definition are one. -/
theorem eq_of_function (h : Marches fs d) {i j : Instance} (hi : i ∈ d.instances)
    (hj : j ∈ d.instances) (hfunction : i.function = j.function) : i = j := by
  by_contra hne
  have hid : i.function.mark.id ∈ i.identities := List.mem_cons_self
  refine h.apart hi hj hne hid ?_
  rw [Instance.identities, ← hfunction]
  exact hid

end Marches

variable {items : List (Node Mark)} {mark : Mark} {d : Document}

/-- **The rounds over a source march on.** -/
theorem marches (hroot : d.root = .unit mark items) (hitems : ∀ x ∈ items, x.IsItem)
    (hids : IsRun Mark.id 0 d.fresh d.root.notes) :
    Marches (Node.definitions items) d ∧ ∀ r ∈ d.rounds, IsRound (Node.definitions items) r := by
  have hfirst : IsRound (Node.definitions items) (.start d.fresh .empty) := by
    refine ⟨⟨_, _, rfl⟩, Infer.sound_start (Infer.sound_empty _) _, Infer.exact_start ?_ _⟩
    intro i hi
    exact absurd hi List.not_mem_nil
  have hstands : (Round.start d.fresh .empty).Stands (Node.definitions items)
      d.root.identities := by
    constructor
    · intro i hi
      exact absurd hi List.not_mem_nil
    · exact List.nodup_nil
    · exact (List.append_nil d.root.identities).symm ▸ hids.nodup
    · intro k hk
      have hk' : k ∈ d.root.identities := List.append_nil d.root.identities ▸ hk
      exact (hids.mem_iff.1 hk').2
  obtain ⟨hrounds, hordered, hstart⟩ := leads_roundsFrom d.root.identities mark hitems
    (2 * Infer.signatures (Node.definitions items) + 4) 1 hfirst
  have hroundsEq : d.rounds = roundsFrom mark items
      (2 * Infer.signatures (Node.definitions items) + 4) 1 d.fresh .empty := by
    rw [rounds, hroot]
  have hstates : d.states = d.rounds.flatMap (Infer.unitStates mark items) := by
    rw [states, hroot]
  rw [← hroundsEq] at hrounds hordered hstart
  rw [← hstates] at hordered hstart
  refine ⟨⟨?_, fun q hq => (hstart q hq).stands hstands⟩, hrounds⟩
  -- of two states one comes first
  have heither : d.states.Pairwise fun q q' =>
      q.Leads (Node.definitions items) d.root.identities q' ∨
        q'.Leads (Node.definitions items) d.root.identities q := hordered.imp .inl
  have hsymm : Std.Symm fun q q' : Round =>
      q.Leads (Node.definitions items) d.root.identities q' ∨
        q'.Leads (Node.definitions items) d.root.identities q := ⟨fun _ _ h => h.symm⟩
  intro q hq q' hq'
  by_cases heq : q = q'
  · exact .inl (heq ▸ .refl q)
  · exact heither.forall hq hq' heq

/-- A call of a round is followed by a state of the document. -/
theorem after_mem_states (hroot : d.root = .unit mark items) {c : Call} (hc : c ∈ d.calls) :
    c.after ∈ d.states ∧ ∃ r ∈ d.rounds, c ∈ Infer.unitCalls items r := by
  rw [calls, hroot] at hc
  obtain ⟨r, hr, hcall⟩ := List.mem_flatMap.1 hc
  rw [states, hroot]
  refine ⟨List.mem_flatMap.2 ⟨r, hr, ?_⟩, r, hr, hcall⟩
  exact List.mem_append_left _ (List.mem_cons_of_mem _ (List.mem_map_of_mem hcall))

/-- **Every signature of a source has one instance.** -/
theorem monomorphizes_of_isRun (hroot : d.root = .unit mark items) (hitems : ∀ x ∈ items, x.IsItem)
    (hids : IsRun Mark.id 0 d.fresh d.root.notes) : Monomorphizes mark items d := by
  obtain ⟨hmarches, hrounds⟩ := marches hroot hitems hids
  have hcalls : ∀ c ∈ d.calls, Infer.IsServed (Node.definitions items) c := by
    intro c hc
    obtain ⟨-, r, hr, hcall⟩ := after_mem_states hroot hc
    exact (Infer.trail_visitUnit d.root.identities hitems (hrounds r hr) mark).served c hcall
  have hserved : ∀ c ∈ d.calls, ∃ i ∈ d.instances, i.signature = (c.base, c.args) ∧
      c.function? = some i.function := by
    intro c hc
    obtain ⟨i, hi⟩ := (hcalls c hc).binds
    obtain ⟨s, hs, hdefinition⟩ := hi.symbol
    refine ⟨i, List.mem_flatMap.2 ⟨c.after, (after_mem_states hroot hc).1, hi.made⟩, ?_, ?_⟩
    · rw [Instance.signature, hi.base, hi.args]
    · rw [Call.function?, hs, Option.bind_some, hdefinition]
  refine ⟨fun i hi j hj => hmarches.unique hi hj, fun r hr => (hmarches.stands r hr).signatures,
    ?_, hserved, fun c hc => (hcalls c hc).template, ?_, fun i hi j hj => hmarches.apart hi hj,
    fun i hi => hmarches.fresh hi, fun r hr => Infer.ends_of_isRound hitems (hrounds r hr), ?_⟩
  · intro c hc c' hc'
    obtain ⟨i, hi, hsignature, hfunction⟩ := hserved c hc
    obtain ⟨j, hj, hsignature', hfunction'⟩ := hserved c' hc'
    rw [hfunction, hfunction', Option.some.injEq, ← Prod.mk.injEq, ← hsignature, ← hsignature']
    constructor
    · intro heq
      rw [hmarches.eq_of_function hi hj heq]
    · intro heq
      rw [hmarches.unique hi hj heq]
  · intro i hi
    obtain ⟨q, hq, hmade, -⟩ := hmarches.exists_state hi hi
    exact (hmarches.stands q hq).clones i hmade
  · intro t ht
    rw [infer, hroot] at ht
    rw [rounds, hroot]
    exact exists_round_of_inferFrom ht

end Document

namespace Compile

variable {source : String} {t : Node Span}

/-- **Every signature of a source text has one instance**, across all rounds, folded or not. -/
theorem monomorphizes (hsource : tree source = .ok t) (fold : Bool) :
    ∃ mark items, (Document.ofTree (prepare fold t)).root = .unit mark items ∧
      Document.Monomorphizes mark items (Document.ofTree (prepare fold t)) := by
  have hroot := Document.isSource_ofTree (@isSource_prepare fold t (isSource_tree hsource))
  cases hunit : (Document.ofTree (prepare fold t)).root with
  | unit mark items =>
      rw [hunit] at hroot
      exact ⟨mark, items, rfl,
        Document.monomorphizes_of_isRun hunit hroot (Document.identities_ofTree (prepare fold t))⟩
  | _ =>
      rw [hunit] at hroot
      cases hroot

/-- Two functions that call each other, for a float on the way: four rounds resolve twenty calls,
which go to four copies. -/
theorem monomorphizes_mutual : ∃ t, tree "def f(n, x) if n < 1 x else g(n - 1, x)
def g(n, x) if n < 1 0 else f(n - 1, x / 2.0)
y = f(4, 1)" = .ok t ∧
    (Document.ofTree (prepare false t)).rounds.length = 4 ∧
    (Document.ofTree (prepare false t)).calls.length = 20 ∧
    (Document.ofTree (prepare false t)).calls.map (fun c => c.function?.map fun f => f.mark.id) =
      (List.replicate 4 [some 35, some 48, some 63, some 76, some 63]).flatten ∧
    ∃ mark items, (Document.ofTree (prepare false t)).root = .unit mark items ∧
      Document.Monomorphizes mark items (Document.ofTree (prepare false t)) := by
  have hrun : (tree "def f(n, x) if n < 1 x else g(n - 1, x)
def g(n, x) if n < 1 0 else f(n - 1, x / 2.0)
y = f(4, 1)").toOption.any (fun t =>
        (Document.ofTree (prepare false t)).rounds.length == 4 &&
        ((Document.ofTree (prepare false t)).calls.length == 20 &&
        (Document.ofTree (prepare false t)).calls.map
            (fun c => c.function?.map fun f => f.mark.id) ==
          (List.replicate 4 [some 35, some 48, some 63, some 76, some 63]).flatten)) = true := by
    decide +kernel
  simp only [Option.any_eq_true, Bool.and_eq_true, beq_iff_eq] at hrun
  obtain ⟨t, ht, hrounds, hcalls, hfunctions⟩ := hrun
  have htree := Step.eq_ok_of_toOption ht
  exact ⟨t, htree, hrounds, hcalls, hfunctions, monomorphizes htree false⟩

end Compile

end StackLang
