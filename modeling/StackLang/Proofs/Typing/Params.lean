/-
**Instances have the parameters and results that calls count on.**

A call names its instance after the types of its arguments, and it takes the result from the table
of the round.  On the other side the parameters of the instance were made with the types that it is
for, and in the last round the type of its body is the one in the table.

Main definitions:

* `Round.HasParams` — the parameters of an instance have the types that the instance is for.

Main results:

* `Infer.declareParams_types` — parameters are made with their types;
* `Document.infer_params`, `Document.infer_returns` — the parameters and the result of every
  inferred instance have the types that its calls count on.
-/

import StackLang.Proofs.Typing.Consistent

set_option relaxedAutoImplicit false
set_option autoImplicit false

namespace StackLang

open Step Infer

/-! ### Parameters -/

namespace Round

variable {r r' : Round} {f : Inferred}

/-- In the scope the name stands for a variable of the type. -/
def HasType (r : Round) (scope : Scope) (name : String) (type : Scalar) : Prop :=
  ∃ (k : Nat) (s : Symbol), scope.lookup name = some k ∧ r.symbols[k]? = some s ∧
    s.definition = none ∧ s.type = some type

/-- **The parameters of an inferred instance have the types that the instance is for.** -/
def HasParams (r : Round) (f : Inferred) : Prop :=
  ∃ i ∈ r.instances.made, i.name = f.name ∧ i.args.length = f.params.length ∧
    ∀ p ∈ f.params.zip i.args, r.HasType f.scope p.1 p.2

theorem HasType.mono {scope scope' : Scope} {name : String} {type : Scalar}
    (h : r.HasType scope name type)
    (hscope : ∀ k, scope.lookup name = some k → scope'.lookup name = some k)
    (hr : r.KeepsTypes r') : r'.HasType scope' name type := by
  obtain ⟨k, s, hk, hs, hvariable, htype⟩ := h
  obtain ⟨s', hs', hvariable', htype'⟩ := hr k s hs hvariable
  exact ⟨k, s', hscope k hk, hs', hvariable', htype'.trans htype⟩

theorem HasParams.stays (h : r.HasParams f) (hr : r.Stays r') : r'.HasParams f := by
  obtain ⟨i, hi, hname, hlength, hparams⟩ := h
  exact ⟨i, hr.extend.made i hi, hname, hlength,
    fun p hp => (hparams p hp).mono (fun _ hk => hk) hr.types⟩

end Round

namespace Infer

variable {fs : List Function} {done : List String} {r r' : Round}

/-- **Parameters are made with their types**, and those that are there stay. -/
theorem declareParams_types {span : Span} {ps : List (String × Scalar)} {scope : Scope}
    (hframe : r.frame = some scope) {u : PUnit} (hd : declareParams span ps r = .ok (u, r')) :
    ∃ scope', r'.frame = some scope' ∧ r.KeepsTypes r' ∧
      (∀ n k, scope.lookup n = some k → scope'.lookup n = some k) ∧
        ∀ p ∈ ps, r'.HasType scope' p.1 p.2 := by
  induction ps generalizing r scope with
  | nil =>
      simp only [declareParams, pure_eq_ok] at hd
      obtain ⟨-, rfl⟩ := hd
      exact ⟨scope, hframe, .refl _, fun _ _ hk => hk, by simp⟩
  | cons p ps ih =>
      obtain ⟨name, type⟩ := p
      obtain ⟨hnew, hd⟩ := declareParams_cons hframe hd
      have hpush : r.KeepsTypes (declaredParam scope name type r) := keepsTypes_push rfl
      obtain ⟨scope', hframe', hkeeps, hlookup, htypes⟩ := ih rfl hd
      refine ⟨scope', hframe', hpush.trans hkeeps, fun n k hk => ?_, ?_⟩
      · exact hlookup n k (@lookup_bind scope.addParam.2 name n r.symbols.size k hnew hk)
      · rw [List.forall_mem_cons]
        have hown : (declaredParam scope name type r).HasType
            (scope.addParam.2.bind name r.symbols.size) name type :=
          ⟨r.symbols.size, _, Scope.lookup_bind_self _ _ _, getElem?_push_self, rfl, rfl⟩
        exact ⟨hown.mono (hlookup name) hkeeps, htypes⟩

/-- **The parameters of an instance that leaves the queue have its types.** -/
theorem visitInstance_params (hfs : AreSource fs) (h : r.Sound fs done) (he : r.Exact)
    (hr : ∀ f ∈ r.inferred, r.HasParams f) {i : Instance} (hi : i ∈ r.instances.made)
    {u : PUnit} (hstays : r.Stays r') (hv : visitInstance i r = .ok (u, r')) :
    ∀ f ∈ r'.inferred, r'.HasParams f := by
  obtain ⟨_, r₁, body, type, r₂, hparams, hbody, rfl⟩ := visitInstance_steps hv
  obtain ⟨f, hf, hcopy⟩ := h.instances.made i hi
  obtain ⟨-, hpnames, hplain⟩ := hfs f hf
  obtain ⟨hwell, hsound₁, hsound₂, hextend₂, hinferred, -⟩ :=
    inferredWell_foundInstance hfs h hi hparams hbody
  obtain ⟨hstays₁, hexact₁⟩ := declareParams_stays (sound_inside h (sound_function _)) rfl
    (fun p hp => hpnames _ (hcopy.params ▸ (List.of_mem_zip hp).1)) hparams
  have he₁ : r₁.Exact := hexact₁ ⟨he.typed, he.base, he.serves⟩
  obtain ⟨hfollows, -, -⟩ := follows_visit hfs (hplain.of_shape hcopy.shape) hsound₁ he₁ hbody
  obtain ⟨hstays₂, -⟩ := @stays_finished _ _ _ hsound₂ hfollows.exact i (hextend₂.made i hi)
    type _ hwell
  obtain ⟨scope₁, hframe₁, -, -, htypes⟩ := declareParams_types rfl hparams
  obtain ⟨scope₂, hframe₂, -, hlookup, -⟩ := hfollows.keeps.extend.frame scope₁ hframe₁
  intro g hg
  rcases List.mem_append.1 hg with hg | hg
  · exact (hr g (hinferred ▸ hg)).stays hstays
  · rw [List.mem_singleton.1 hg]
    refine ⟨i, hstays.extend.made i hi, rfl, ?_, fun p hp => ?_⟩
    · exact hcopy.args.trans (congrArg List.length hcopy.params).symm
    · refine ((htypes p hp).mono (fun k hk => ?_) hfollows.keeps.types).mono (fun _ hk => hk)
        hstays₂.types
      rw [foundInstance, hframe₂]
      exact hlookup _ k hk

/-- **The work on the queue leaves instances whose parameters have their types.** -/
theorem drain_params (hfs : AreSource fs) {fuel : Nat} (h : r.Sound fs done)
    (hframe : r.frame = none) (he : r.Exact) (htyped : AllTyped r)
    (hr : ∀ f ∈ r.inferred, r.HasParams f) {u : PUnit} (hd : drain fuel r = .ok (u, r')) :
    ∀ f ∈ r'.inferred, r'.HasParams f := by
  induction fuel generalizing r done with
  | zero =>
      simp only [drain, pure_eq_ok] at hd
      obtain ⟨-, rfl⟩ := hd
      exact hr
  | succ fuel ih =>
      simp only [drain, bind_eq_ok, get_eq_ok, and_assoc, exists_and_left, exists_eq_left,
        Instances.next] at hd
      cases hpending : r.instances.pending with
      | nil =>
          simp only [hpending, pure_eq_ok] at hd
          obtain ⟨-, rfl⟩ := hd
          exact hr
      | cons name rest =>
          simp only [hpending, bind_eq_ok, set_eq_ok, exists_eq_left, exists_const] at hd
          have hsound := sound_next h hpending
          have hnext : r.Stays { r with instances := { r.instances with pending := rest } } :=
            ⟨extends_outside (extends_next r rest), .refl r, fun hc => ⟨hc, fun _ => rfl⟩⟩
          have he' : Round.Exact { r with instances := { r.instances with pending := rest } } :=
            ⟨he.typed, he.base, he.serves⟩
          cases hget : Instances.get? name { r.instances with pending := rest } with
          | none =>
              rw [hget] at hd
              exact absurd hd throw_ne_ok
          | some i =>
              simp only [hget, bind_eq_ok] at hd
              obtain ⟨_, r₁, hvisit, hd⟩ := hd
              have hi := List.mem_of_find?_eq_some hget
              obtain ⟨hsound₁, -, hframe₁, -⟩ := visitInstance_sound hfs hsound hi hframe hvisit
              obtain ⟨he₁, htyped₁, hstays₁⟩ := visitInstance_consistent hfs hsound he'
                (fun hc f hf => (htyped hc f hf).stays hnext hc) hi hvisit
              exact ih hsound₁ hframe₁ he₁ htyped₁ (visitInstance_params hfs hsound he'
                (fun f hf => (hr f hf).stays hnext) hi hstays₁ hvisit) hd

/-- **A round leaves instances whose parameters have their types.** -/
theorem visitUnit_params {items : List (Node Mark)} (hitems : ∀ x ∈ items, x.IsItem)
    {is : Instances} (his : is.newRound.Sound (Node.definitions items))
    (hbase : ∀ i ∈ is.made, IsSourceName i.base ∧ i.name = decorate i.base i.args)
    {mark : Mark} {fresh : Nat} {root : Node Note}
    (hv : (visitUnit mark items).run (.start fresh is) = .ok (root, r)) :
    ∀ f ∈ r.inferred, r.HasParams f := by
  have hfs := Typing.areSource_definitions hitems
  simp only [StateT.run, visitUnit, bind_eq_ok, pure_eq_ok] at hv
  obtain ⟨_, r₁, hdeclare, ys, r₂, hvisit, _, r₃, hdrain, rfl, rfl⟩ := hv
  obtain ⟨hsound₁, hframe₁, hinferred₁⟩ := declareFunctions_sound hfs (List.Subset.refl _)
    (sound_start his fresh) rfl rfl hdeclare
  have he₁ := declareFunctions_exact hfs (List.Subset.refl _) (exact_start hbase fresh) hdeclare
  obtain ⟨hgoes, -, -⟩ := visitItems_resolved hfs hitems hsound₁ hvisit
  have he₂ := (visitItems_lasts (lasting_keeps hfs) hfs hitems hsound₁ hvisit).exact he₁
  have hnone : ∀ f, f ∉ r₂.inferred := by
    intro f hf
    rw [hgoes.inferred, hinferred₁] at hf
    exact absurd hf List.not_mem_nil
  exact drain_params hfs hgoes.sound (hgoes.extend.noFrame hframe₁) he₂
    (fun _ f hf => absurd hf (hnone f)) (fun f hf => absurd hf (hnone f)) hdrain

end Infer

/-! ### Typings -/

namespace Document

variable {items : List (Node Mark)} {t : Typing}

/-- **The parameters of inferred instances have the types that the instances are for.** -/
theorem infer_params {d : Document} {mark : Mark} (hroot : d.root = .unit mark items)
    (hitems : ∀ x ∈ items, x.IsItem) (ht : d.infer = .ok t) :
    ∀ f ∈ t.round.inferred, t.round.HasParams f := by
  rw [infer, hroot] at ht
  obtain ⟨_, _, his, hbase, hv, -⟩ := exists_consistentRound hitems (Infer.sound_empty _)
    (fun _ hi => absurd hi List.not_mem_nil) ht
  exact Infer.visitUnit_params hitems his hbase hv

/-- **The body of an inferred instance has the type that is recorded of the instance.** -/
theorem infer_returns {d : Document} {mark : Mark} (hroot : d.root = .unit mark items)
    (hitems : ∀ x ∈ items, x.IsItem) (ht : d.infer = .ok t) :
    ∀ f ∈ t.round.inferred, f.body.note.type = some (t.round.instances.returns f.name) := by
  rw [infer, hroot] at ht
  obtain ⟨hchanged, htyped, -⟩ := inferFrom_consistent hitems (Infer.sound_empty _)
    (fun _ hi => absurd hi List.not_mem_nil) ht
  exact fun f hf => (htyped hchanged f hf).type

end Document

end StackLang
