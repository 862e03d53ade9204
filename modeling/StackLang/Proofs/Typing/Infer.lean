/-
**What inference promises.**

A round starts from definitions that are bound and goes through the statements of the unit and the
queue.  Each instance in the queue is inferred in a scope of its own, with its parameters in order
above the return cell.  There are never more instances than signatures, so the queue is empty at the
end of a round.

Main definitions:

* `Typing.Sound` — what holds of the outcome of the last round;
* `Infer.foundInstance` — what is recorded of an instance.

Main results:

* `Infer.visitInstance_sound` — an instance that leaves the queue is inferred well;
* `Infer.drain_sound` — the queue is worked off;
* `Document.infer_sound` — the typing of a source is sound;
* `Typing.Sound.exists_inferred` — every instance that is called was inferred.
-/

import StackLang.Proofs.Typing.Visit

set_option relaxedAutoImplicit false
set_option autoImplicit false

namespace StackLang

open Step

/-- **What inference promises** of a unit with the items `items`. -/
structure Typing.Sound (items : List (Node Mark)) (t : Typing) : Prop where
  root : ∃ n ys, t.root = .unit n ys ∧ ys.map Node.shape = items.map Node.shape ∧
    ∀ y ∈ ys, y.isDefinition = false → Resolved t.round.IsVariable t.round.IsInstance y
  round : t.round.Sound (Node.definitions items) (t.round.inferred.map Inferred.name)
  noFrame : t.round.frame = none
  pending : t.round.instances.pending = []

namespace Infer

variable {fs : List Function} {done : List String} {r r' : Round}

/-! ### Scopes come and go -/

/-- The state outside of every function. -/
def outside (r : Round) : Round := { r with frame := none }

theorem sound_outside (h : r.Sound fs done) : (outside r).Sound fs done :=
  ⟨h.instances, h.queue, h.pending, h.count, h.globals, nofun, h.labels, h.numbered,
    fun f hf => ⟨(h.inferred f hf).scope, (h.inferred f hf).params, (h.inferred f hf).param,
      (h.inferred f hf).body, (h.inferred f hf).made⟩⟩

/-- A function may have any scope that is sound. -/
theorem sound_inside (h : r.Sound fs done) {scope : Scope} (hscope : scope.Sound r.symbols) :
    Round.Sound fs done { r with frame := some scope } := by
  refine ⟨h.instances, h.queue, h.pending, h.count, h.globals, ?_, h.labels, h.numbered,
    fun f hf => ⟨(h.inferred f hf).scope, (h.inferred f hf).params, (h.inferred f hf).param,
      (h.inferred f hf).body, (h.inferred f hf).made⟩⟩
  rintro _ ⟨⟩
  exact hscope

theorem extends_outside (h : r.Extends r') : (outside r).Extends (outside r') :=
  ⟨h.symbols, h.made, h.queued, h.globals, fun _ => rfl, nofun⟩

theorem sound_function (ss : Symbols) : Scope.function.Sound ss := by
  refine ⟨fun n k hn => absurd hn List.not_mem_nil, ?_⟩
  rintro j k s t o ⟨n, hn⟩
  exact absurd hn List.not_mem_nil

/-! ### Parameters -/

/-- The state after a parameter of a function with the scope `scope` was made. -/
def declaredParam (scope : Scope) (name : String) (type : Scalar) (r : Round) : Round :=
  { r with
    counters := (r.counters.localName name).2
    symbols := r.symbols.push (.ofVariable name (r.counters.localName name).1 type
      (.frame scope.addParam.1))
    frame := some (scope.addParam.2.bind name r.symbols.size) }

theorem handsOut_addParam {scope : Scope} (o : Int) (h : scope.HandsOut o) :
    scope.addParam.2.HandsOut o := by
  rcases h with ⟨j, hj, rfl⟩ | h
  · exact .inl ⟨j, Nat.lt_succ_of_lt hj, rfl⟩
  · exact .inr h

theorem not_handsOut_param {scope : Scope} : ¬ scope.HandsOut scope.addParam.1 := by
  rintro (⟨j, hj, heq⟩ | ⟨j, hj, heq⟩) <;> simp only [Scope.addParam] at heq <;> omega

theorem sound_declaredParam (h : r.Sound fs done) {scope : Scope} (hframe : r.frame = some scope)
    {name : String} (hname : IsSourceName name) (type : Scalar) :
    (declaredParam scope name type r).Sound fs done ∧
      (outside r).Extends (outside (declaredParam scope name type r)) := by
  have hextend : (outside r).Extends (outside (declaredParam scope name type r)) :=
    ⟨fun k s hs => kept_push k s hs, fun _ hi => hi, fun _ hn => hn, fun _ _ hk => hk,
      fun _ => rfl, nofun⟩
  refine ⟨⟨h.instances, h.queue, h.pending, h.count, fun n k hn => ?_, fun scope' hscope' => ?_,
    fun k s l hs hl => ?_, fun j k s t n hs ht hsl htl => ?_, fun f hf => ?_⟩, hextend⟩
  · obtain ⟨s, hs, hbound⟩ := h.globals n k hn
    obtain ⟨s', hs', hkept⟩ := hextend.symbols k s hs
    exact ⟨s', hs', hbound.mono hkept (fun _ hi => hi) fun _ hn => hn⟩
  · cases hscope'
    exact sound_bind (h.frame scope hframe) hname rfl rfl rfl handsOut_addParam
      (.inl ⟨scope.params, Nat.lt_succ_self _, rfl⟩) not_handsOut_param
  · rcases eq_or_of_push hs with ⟨-, rfl⟩ | hs
    · cases hl
    · exact h.labels k s l hs hl
  · rcases eq_or_of_push hs with ⟨-, rfl⟩ | hs
    · obtain ⟨-, -, ⟨⟩⟩ := hsl
    · rcases eq_or_of_push ht with ⟨-, rfl⟩ | ht
      · obtain ⟨-, -, ⟨⟩⟩ := htl
      · exact h.numbered j k s t n hs ht hsl htl
  · have hwell := ((sound_outside h).inferred f hf).mono hextend
    exact ⟨hwell.scope, hwell.params, hwell.param, hwell.body, hwell.made⟩

theorem declareParams_cons {span : Span} {name : String} {type : Scalar}
    {ps : List (String × Scalar)} {scope : Scope} (hframe : r.frame = some scope) {u : PUnit}
    (h : declareParams span ((name, type) :: ps) r = .ok (u, r')) :
    scope.lookup name = none ∧
      declareParams span ps (declaredParam scope name type r) = .ok (u, r') := by
  simp only [declareParams, bind_eq_ok, get_eq_ok, and_assoc, exists_and_left, exists_eq_left,
    hframe, Option.getD_some] at h
  split at h
  · exact absurd h fail_ne_ok
  · rename_i hnew
    simp only [bind_eq_ok, set_eq_ok, addSymbol_eq_ok, modify_eq_ok, and_assoc, exists_and_left,
      exists_eq_left, exists_const] at h
    refine ⟨?_, h⟩
    simpa [Scope.contains] using hnew

/-- **The parameters of an instance stand in order above the return cell.** -/
theorem declareParams_sound {span : Span} {ps : List (String × Scalar)} (h : r.Sound fs done)
    {scope : Scope} (hframe : r.frame = some scope) (hps : ∀ p ∈ ps, IsSourceName p.1)
    {u : PUnit} (hd : declareParams span ps r = .ok (u, r')) :
    r'.Sound fs done ∧ (outside r).Extends (outside r') ∧ r'.inferred = r.inferred ∧
      ∃ scope', r'.frame = some scope' ∧ scope'.params = scope.params + ps.length ∧
        (∀ n k, scope.lookup n = some k → scope'.lookup n = some k) ∧
        ∀ (j : Nat) (p : String × Scalar), ps[j]? = some p → ∃ (k : Nat) (s : Symbol),
          scope'.lookup p.1 = some k ∧ r'.symbols[k]? = some s ∧
            s.storage = .frame (4 * (scope.params + j + 1)) := by
  induction ps generalizing r scope with
  | nil =>
      simp only [declareParams, pure_eq_ok] at hd
      obtain ⟨-, rfl⟩ := hd
      exact ⟨h, .refl _, rfl, scope, hframe, rfl, fun _ _ hk => hk, by simp⟩
  | cons p ps ih =>
      obtain ⟨name, type⟩ := p
      rw [List.forall_mem_cons] at hps
      obtain ⟨hnew, hd⟩ := declareParams_cons hframe hd
      obtain ⟨hsound, hextend⟩ := sound_declaredParam h hframe hps.1 type
      obtain ⟨hsound', hextend', hinferred, scope', hframe', hparams, hlookup, hplaces⟩ :=
        ih hsound rfl hps.2 hd
      refine ⟨hsound', hextend.trans hextend', hinferred, scope', hframe', ?_, fun n k hk => ?_,
        fun j p hp => ?_⟩
      · rw [hparams, List.length_cons]
        simp only [Scope.bind, Scope.addParam]
        omega
      · exact hlookup n k (@lookup_bind scope.addParam.2 name n r.symbols.size k hnew hk)
      · cases j with
        | zero =>
            cases hp
            obtain ⟨s', hs', hkept⟩ := hextend'.symbols r.symbols.size _ getElem?_push_self
            exact ⟨r.symbols.size, s', hlookup _ _ (Scope.lookup_bind_self _ _ _), hs',
              hkept.storage⟩
        | succ j =>
            obtain ⟨k, s, hk, hs, hstorage⟩ := hplaces j p hp
            refine ⟨k, s, hk, hs, hstorage.trans ?_⟩
            simp only [Scope.bind, Scope.addParam]
            congr 1
            push_cast
            ring

/-! ### Instances -/

/-- The state after the body of an instance was inferred. -/
def finished (i : Instance) (type : Scalar) (found : Inferred) (r : Round) : Round :=
  { r with
    symbols := match r.globals.lookup i.name with
      | some k => r.symbols.modify k fun s => { s with type := some type }
      | none => r.symbols
    instances := (r.instances.record i.name type).2
    frame := none
    inferred := r.inferred ++ [found]
    changed := r.changed || (r.instances.record i.name type).1 }

/-- The steps of inferring an instance. -/
theorem visitInstance_eq (i : Instance) : visitInstance i = (do
    modify fun r => { r with frame := some .function }
    declareParams i.function.heading.span (i.function.params.zip i.args)
    let p ← visit i.function.body
    let r ← get
    set (finished i p.2 ⟨i.name, r.frame.getD .function, .typed i.function.mark p.2,
      .bare i.function.heading, i.function.params, p.1⟩ r)) := rfl

/-- Symbols of instances get their types without a change of anything else. -/
theorem goes_typed (h : r.Sound fs done) (i : Instance) (type : Scalar) :
    r.Goes fs done { r with
      symbols := match r.globals.lookup i.name with
        | some k => r.symbols.modify k fun s => { s with type := some type }
        | none => r.symbols } := by
  cases r.globals.lookup i.name with
  | none => exact goes_refl h
  | some k =>
      exact goes_modify (f := fun s => { s with type := some type }) h
        (fun _ => ⟨rfl, rfl, rfl, id⟩) k

theorem finished_sound (h : r.Sound fs done) {i : Instance} {type : Scalar} {found : Inferred}
    (hfound : InferredWell r found) :
    (finished i type found r).Sound fs done ∧
      (outside r).Extends (finished i type found r) := by
  have hgoes := goes_typed h i type
  have hextend := extends_outside hgoes.extend
  have hextend' : (outside r).Extends (finished i type found r) :=
    ⟨hextend.symbols, hextend.made, hextend.queued, hextend.globals, fun _ => rfl, nofun⟩
  have hs := hgoes.sound
  refine ⟨⟨⟨hs.instances.nodup, hs.instances.made, hs.instances.queued, hs.instances.nodup_queued⟩,
    hs.queue, hs.pending, hs.count, fun n k hn => ?_, nofun, hs.labels, hs.numbered,
    fun f hf => ?_⟩, hextend'⟩
  · obtain ⟨s, hk, hbound⟩ := hs.globals n k hn
    exact ⟨s, hk, hbound.mono (.refl s) (fun _ hj => hj) fun _ hn => hn⟩
  · have hwell : InferredWell (outside r) f := by
      rcases List.mem_append.1 hf with hf | hf
      · exact (sound_outside h).inferred f hf
      · rw [List.mem_singleton.1 hf]
        exact ⟨hfound.scope, hfound.params, hfound.param, hfound.body, hfound.made⟩
    exact hwell.mono hextend'

/-- What is recorded of an instance with a body of some type. -/
def foundInstance (i : Instance) (type : Scalar) (body : Node Note) (r : Round) : Inferred :=
  ⟨i.name, r.frame.getD .function, .typed i.function.mark type, .bare i.function.heading,
    i.function.params, body⟩

/-- What the visit of an instance does, step by step. -/
theorem visitInstance_steps {i : Instance} {u : PUnit} (hv : visitInstance i r = .ok (u, r')) :
    ∃ u₁ r₁ body type r₂,
      declareParams i.function.heading.span (i.function.params.zip i.args)
        { r with frame := some .function } = .ok (u₁, r₁) ∧
      visit i.function.body r₁ = .ok ((body, type), r₂) ∧
      r' = finished i type (foundInstance i type body r₂) r₂ := by
  simp only [visitInstance, bind_eq_ok, modify_eq_ok, get_eq_ok, set_eq_ok, Prod.exists, and_assoc,
    exists_and_left, exists_eq_left, exists_const] at hv
  obtain ⟨u₁, r₁, hparams, body, type, r₂, hbody, rfl⟩ := hv
  exact ⟨u₁, r₁, body, type, r₂, hparams, hbody, rfl⟩

/-- **What is recorded of an instance holds of it.** -/
theorem inferredWell_foundInstance (hfs : AreSource fs) (h : r.Sound fs done) {i : Instance}
    (hi : i ∈ r.instances.made) {span : Span} {u : PUnit} {r₁ r₂ : Round}
    (hparams : declareParams span (i.function.params.zip i.args)
      { r with frame := some .function } = .ok (u, r₁))
    {body : Node Note} {type : Scalar}
    (hbody : visit i.function.body r₁ = .ok ((body, type), r₂)) :
    InferredWell r₂ (foundInstance i type body r₂) ∧ r₁.Sound fs done ∧ r₂.Sound fs done ∧
      (outside r).Extends (outside r₂) ∧ r₂.inferred = r.inferred ∧
      r₂.frame = some (foundInstance i type body r₂).scope := by
  obtain ⟨f, hf, hcopy⟩ := h.instances.made i hi
  obtain ⟨-, hpnames, hplain⟩ := hfs f hf
  have hzip : (i.function.params.zip i.args).length = i.function.params.length := by
    rw [List.length_zip, hcopy.params, hcopy.args, Nat.min_self]
  obtain ⟨hsound₁, hextend₁, hinferred₁, scope₁, hscope₁, hcount₁, -, hplaces⟩ :=
    declareParams_sound (sound_inside h (sound_function _)) rfl
      (fun p hp => hpnames _ (hcopy.params ▸ (List.of_mem_zip hp).1)) hparams
  have hvisited := visit_resolved hfs i.function.body (hplain.of_shape hcopy.shape) hsound₁ hbody
  obtain ⟨scope₂, hscope₂, hparams₂, hlookup₂, -⟩ := hvisited.goes.extend.frame scope₁ hscope₁
  have hextend₂ := hextend₁.trans (extends_outside hvisited.goes.extend)
  rw [foundInstance, hscope₂]
  refine ⟨?_, hsound₁, hvisited.goes.sound, hextend₂, hvisited.goes.inferred.trans hinferred₁, rfl⟩
  refine ⟨hvisited.goes.sound.frame scope₂ hscope₂, ?_, fun j p hp => ?_, ?_,
    i, hextend₂.made i hi, rfl, rfl, hvisited.shape⟩
  · rw [Option.getD_some, hparams₂, hcount₁, hzip]
    exact Nat.zero_add _
  · obtain ⟨hlt, rfl⟩ := List.getElem?_eq_some_iff.1 hp
    have hargs : j < i.args.length := by
      rw [hcopy.args, ← hcopy.params]
      exact hlt
    obtain ⟨k, s, hk, hs, hstorage⟩ := hplaces j (i.function.params[j], i.args[j])
      (by rw [List.getElem?_zip_eq_some]; simp [hlt, hargs])
    obtain ⟨s', hs', hkept⟩ := hvisited.goes.extend.symbols k s hs
    refine ⟨k, s', hlookup₂ _ _ hk, hs', hkept.storage.trans (hstorage.trans ?_)⟩
    simp [Scope.function]
  · have hresolved := hvisited.resolved
    unfold Round.IsVariable at hresolved
    rw [hscope₂] at hresolved
    exact hresolved

/-- **An instance that leaves the queue is inferred well**, and nothing else is. -/
theorem visitInstance_sound (hfs : AreSource fs) (h : r.Sound fs done) {i : Instance}
    (hi : i ∈ r.instances.made) (hframe : r.frame = none) {u : PUnit}
    (hv : visitInstance i r = .ok (u, r')) :
    r'.Sound fs done ∧ r.Extends r' ∧ r'.frame = none ∧
      ∃ f, r'.inferred = r.inferred ++ [f] ∧ f.name = i.name := by
  obtain ⟨_, r₁, body, type, r₂, hparams, hbody, rfl⟩ := visitInstance_steps hv
  obtain ⟨hwell, -, hsound₂, hextend₂, hinferred, -⟩ :=
    inferredWell_foundInstance hfs h hi hparams hbody
  obtain ⟨hsound, hextend⟩ := @finished_sound _ _ _ hsound₂ i type _ hwell
  refine ⟨hsound, ?_, rfl, _, congrArg (· ++ [_]) hinferred, rfl⟩
  have houtside : outside r = r := by
    rw [outside, ← hframe]
  have := hextend₂.trans hextend
  exact houtside ▸ this

/-! ### The queue -/

/-- The state after the first name was taken out of the queue. -/
theorem sound_next (h : r.Sound fs done) {name : String} {rest : List String}
    (hpending : r.instances.pending = name :: rest) :
    Round.Sound fs (done ++ [name])
      { r with instances := { r.instances with pending := rest } } := by
  refine ⟨⟨h.instances.nodup, h.instances.made, h.instances.queued, h.instances.nodup_queued⟩,
    fun n hn => ?_, fun n hn => h.pending n (hpending ▸ List.mem_cons_of_mem _ hn), ?_,
    fun n k hn => ?_, h.frame, h.labels, h.numbered, fun f hf => ?_⟩
  · rcases h.queue n hn with hdone | hwaits
    · exact .inl (List.mem_append_left _ hdone)
    · rw [hpending] at hwaits
      rcases List.mem_cons.1 hwaits with rfl | hwaits
      · exact .inl (by simp)
      · exact .inr hwaits
  · have hcount := h.count
    rw [hpending, List.length_cons] at hcount
    rw [List.length_append, List.length_singleton]
    change r.instances.queued.length = _ + rest.length
    omega
  · obtain ⟨s, hs, hbound⟩ := h.globals n k hn
    exact ⟨s, hs, hbound.mono (.refl s) (fun _ hi => hi) fun _ hn => hn⟩
  · have hwell := h.inferred f hf
    exact ⟨hwell.scope, hwell.params, hwell.param, hwell.body, hwell.made⟩

theorem extends_next (r : Round) (rest : List String) :
    r.Extends { r with instances := { r.instances with pending := rest } } :=
  ⟨fun _ s hs => ⟨s, hs, .refl s⟩, fun _ hi => hi, fun _ hn => hn, fun _ _ hk => hk,
    fun hnone => hnone, fun scope hscope => ⟨scope, hscope, rfl, fun _ _ hk => hk, fun _ hk => hk⟩⟩

/-- **The queue is worked off**: there are no more instances than signatures. -/
theorem drain_sound (hfs : AreSource fs) {fuel : Nat} (h : r.Sound fs done)
    (hframe : r.frame = none) (hinferred : r.inferred.map Inferred.name = done)
    (hfuel : signatures fs ≤ fuel + done.length) {u : PUnit}
    (hd : drain fuel r = .ok (u, r')) :
    r'.Sound fs (r'.inferred.map Inferred.name) ∧ r.Extends r' ∧ r'.frame = none ∧
      r'.instances.pending = [] := by
  induction fuel generalizing r done with
  | zero =>
      simp only [drain, pure_eq_ok] at hd
      obtain ⟨-, rfl⟩ := hd
      refine ⟨hinferred ▸ h, .refl _, hframe, List.eq_nil_of_length_eq_zero ?_⟩
      have hqueued := length_queued_le h.instances
      have hcount := h.count
      omega
  | succ fuel ih =>
      simp only [drain, bind_eq_ok, get_eq_ok, and_assoc, exists_and_left, exists_eq_left,
        Instances.next] at hd
      cases hpending : r.instances.pending with
      | nil =>
          simp only [hpending, pure_eq_ok] at hd
          obtain ⟨-, rfl⟩ := hd
          exact ⟨hinferred ▸ h, .refl _, hframe, hpending⟩
      | cons name rest =>
          simp only [hpending, bind_eq_ok, set_eq_ok, exists_eq_left, exists_const] at hd
          have hsound := sound_next h hpending
          cases hget : Instances.get? name { r.instances with pending := rest } with
          | none =>
              rw [hget] at hd
              exact absurd hd throw_ne_ok
          | some i =>
              simp only [hget, bind_eq_ok] at hd
              obtain ⟨_, r₁, hvisit, hd⟩ := hd
              obtain ⟨hmem, hname⟩ := Instances.mem_of_get? hget
              obtain ⟨hsound₁, hextend₁, hframe₁, f, hinferred₁, hf⟩ :=
                visitInstance_sound hfs hsound hmem hframe hvisit
              obtain ⟨hsound₂, hextend₂, hframe₂, hpending₂⟩ := ih hsound₁ hframe₁
                (by rw [hinferred₁, List.map_append, hinferred, List.map_singleton, hf, hname])
                (by rw [List.length_append, List.length_singleton]; omega) hd
              exact ⟨hsound₂, (extends_next r rest).trans (hextend₁.trans hextend₂), hframe₂,
                hpending₂⟩

/-! ### Rounds -/

theorem sound_start {is : Instances} (his : is.newRound.Sound fs) (fresh : Nat) :
    (Round.start fresh is).Sound fs [] := by
  have hsymbols : ∀ (k : Nat) (s : Symbol), (Round.start fresh is).symbols[k]? ≠ some s := by
    intro k s hs
    exact absurd (lt_of_getElem? hs) (Nat.not_lt_zero k)
  exact ⟨his, fun _ hn => absurd hn List.not_mem_nil, fun _ hn => absurd hn List.not_mem_nil, rfl,
    fun _ _ hn => absurd hn List.not_mem_nil, fun _ hscope => (nomatch hscope),
    fun k s _ hs => absurd hs (hsymbols k s), fun j _ s _ _ hs => absurd hs (hsymbols j s),
    fun _ hf => absurd hf List.not_mem_nil⟩

/-- Binding the definitions of a unit keeps the invariant. -/
theorem declareFunctions_sound (hfs : AreSource fs) {gs : List Function} (hgs : gs ⊆ fs)
    (h : r.Sound fs done) (hframe : r.frame = none) (hinferred : r.inferred = []) {u : PUnit}
    (hd : declareFunctions gs r = .ok (u, r')) :
    r'.Sound fs done ∧ r'.frame = none ∧ r'.inferred = [] := by
  induction gs generalizing r with
  | nil =>
      simp only [declareFunctions, pure_eq_ok] at hd
      obtain ⟨-, rfl⟩ := hd
      exact ⟨h, hframe, hinferred⟩
  | cons f gs ih =>
      have hf := hgs List.mem_cons_self
      simp only [declareFunctions, bind_eq_ok, get_eq_ok, and_assoc, exists_and_left,
        exists_eq_left] at hd
      split at hd
      · exact absurd hd fail_ne_ok
      · simp only [bind_eq_ok, addSymbol_eq_ok, bindGlobal_eq_ok, and_assoc, exists_and_left,
          exists_eq_left, exists_const] at hd
        refine ih (fun g hg => hgs (List.mem_cons_of_mem _ hg)) (r := { r with
          symbols := r.symbols.push (.ofFunction f.name f)
          globals := r.globals.bind f.name r.symbols.size }) ?_ hframe hinferred hd
        have hkept := fun k s hs => @kept_push r.symbols (.ofFunction f.name f) k s hs
        refine ⟨h.instances, h.queue, h.pending, h.count, fun n k hn => ?_, fun scope hscope => ?_,
          fun k s l hs hl => ?_, fun j k s t n hs ht hsl htl => ?_, fun g hg => ?_⟩
        · rcases List.mem_cons.1 hn with hn | hn
          · cases hn
            exact ⟨_, getElem?_push_self, .defined (hfs f hf).1 hf rfl rfl⟩
          · obtain ⟨s, hs, hbound⟩ := h.globals n k hn
            obtain ⟨s', hs', hst⟩ := hkept k s hs
            exact ⟨s', hs', hbound.mono hst (fun _ hi => hi) fun _ hn => hn⟩
        · exact absurd (hframe.symm.trans hscope) (by simp)
        · rcases eq_or_of_push hs with ⟨-, rfl⟩ | hs
          · cases hl
          · exact h.labels k s l hs hl
        · rcases eq_or_of_push hs with ⟨-, rfl⟩ | hs
          · obtain ⟨-, -, ⟨⟩⟩ := hsl
          · rcases eq_or_of_push ht with ⟨-, rfl⟩ | ht
            · obtain ⟨-, -, ⟨⟩⟩ := htl
            · exact h.numbered j k s t n hs ht hsl htl
        · exact absurd (hinferred ▸ hg) List.not_mem_nil

end Infer

namespace Typing

variable {items : List (Node Mark)} {t : Typing}

/-- The functions of a source text are as the source has them. -/
theorem areSource_definitions (hitems : ∀ x ∈ items, x.IsItem) :
    AreSource (Node.definitions items) := by
  intro f hf
  obtain ⟨x, hx, hfx⟩ := List.mem_filterMap.1 hf
  have hitem := hitems x hx
  unfold Function.ofNode? at hfx
  split at hfx
  · cases hfx
    exact hitem
  · cases hfx

end Typing

namespace Infer

variable {items : List (Node Mark)}

/-- **A round that comes to its end is sound.** -/
theorem visitUnit_sound (hitems : ∀ x ∈ items, x.IsItem) {is : Instances}
    (his : is.newRound.Sound (Node.definitions items)) {mark : Mark} {fresh : Nat}
    {root : Node Note} {r : Round}
    (hv : (visitUnit mark items).run (.start fresh is) = .ok (root, r)) :
    Typing.Sound items ⟨root, r⟩ := by
  have hfs := Typing.areSource_definitions hitems
  simp only [StateT.run, visitUnit, bind_eq_ok, pure_eq_ok] at hv
  obtain ⟨_, r₁, hdeclare, ys, r₂, hvisit, _, r₃, hdrain, rfl, rfl⟩ := hv
  obtain ⟨hsound₁, hframe₁, hinferred₁⟩ := declareFunctions_sound hfs (List.Subset.refl _)
    (sound_start his fresh) rfl rfl hdeclare
  obtain ⟨hgoes, hshape, hresolved⟩ := visitItems_resolved hfs hitems hsound₁ hvisit
  obtain ⟨hsound₃, hextend₃, hframe₃, hpending₃⟩ := drain_sound hfs hgoes.sound
    (hgoes.extend.noFrame hframe₁) (by rw [hgoes.inferred, hinferred₁]; rfl)
    (Nat.le_add_right _ _) hdrain
  exact ⟨⟨_, ys, rfl, hshape, fun y hy hdefinition =>
    hextend₃.resolved (hresolved y hy hdefinition)⟩, hsound₃, hframe₃, hpending₃⟩

end Infer

namespace Document

variable {items : List (Node Mark)} {t : Typing}

/-- **The outcome is that of a round that changes nothing**, and what every round keeps of the
instances holds of those that it starts with. -/
theorem exists_lastRound {P : Instances → Prop} {mark : Mark} {fuel k fresh : Nat}
    {is : Instances}
    (hP : ∀ fresh is root r, P is →
      (Infer.visitUnit mark items).run (.start fresh is) = .ok (root, r) → P r.instances)
    (his : P is) (ht : inferFrom mark items fuel k fresh is = .ok t) :
    ∃ fresh is, P is ∧ (Infer.visitUnit mark items).run (.start fresh is) = .ok (t.root, t.round) ∧
      t.round.changed = false := by
  induction fuel generalizing k fresh is with
  | zero => cases ht
  | succ fuel ih =>
      rw [inferFrom] at ht
      cases hv : (Infer.visitUnit mark items).run (.start fresh is) with
      | error e =>
          rw [hv] at ht
          cases ht
      | ok p =>
          obtain ⟨root, r⟩ := p
          rw [hv] at ht
          change (if _ then _ else _) = _ at ht
          split at ht
          · case isTrue hchanged =>
              cases ht
              exact ⟨fresh, is, his, hv, by simpa using hchanged⟩
          · split at ht
            · cases ht
            · exact ih (hP fresh is root r his hv) ht

/-- The instances of a round are sound at the start of the next one. -/
theorem sound_newRound (hitems : ∀ x ∈ items, x.IsItem) {mark : Mark} {fresh : Nat}
    {is : Instances} (his : is.newRound.Sound (Node.definitions items)) {root : Node Note}
    {r : Round} (hv : (Infer.visitUnit mark items).run (.start fresh is) = .ok (root, r)) :
    r.instances.newRound.Sound (Node.definitions items) := by
  have hinstances := (Infer.visitUnit_sound hitems his hv).round.instances
  exact ⟨hinstances.nodup, hinstances.made, fun _ hn => absurd hn List.not_mem_nil,
    List.nodup_nil⟩

theorem inferFrom_sound (hitems : ∀ x ∈ items, x.IsItem) {mark : Mark} {fuel k fresh : Nat}
    {is : Instances} (his : is.newRound.Sound (Node.definitions items))
    (ht : inferFrom mark items fuel k fresh is = .ok t) : t.Sound items := by
  obtain ⟨_, _, his', hv, -⟩ := exists_lastRound
    (P := fun is => is.newRound.Sound (Node.definitions items))
    (fun _ _ _ _ h hv => sound_newRound hitems h hv) his ht
  exact Infer.visitUnit_sound hitems his' hv

/-- **The typing of a source is sound.** -/
theorem infer_sound {d : Document} {mark : Mark} (hroot : d.root = .unit mark items)
    (hitems : ∀ x ∈ items, x.IsItem) (ht : d.infer = .ok t) : t.Sound items := by
  rw [infer, hroot] at ht
  refine inferFrom_sound hitems ⟨?_, fun _ hi => ?_, fun _ hn => ?_, List.nodup_nil⟩ ht
  · exact List.nodup_nil
  · exact absurd hi List.not_mem_nil
  · exact absurd hn List.not_mem_nil

end Document

namespace Typing.Sound

variable {items : List (Node Mark)} {t : Typing}

/-- What stood in the queue was inferred, each name once. -/
theorem perm_inferred (h : t.Sound items) :
    t.round.instances.queued.Perm (t.round.inferred.map Inferred.name) := by
  have hcount := h.round.count
  have hqueue := h.round.queue
  rw [h.pending] at hcount hqueue
  -- no name was queued twice, and as many instances were inferred as names were queued
  have hsub := List.subperm_of_subset h.round.instances.nodup_queued fun n hn =>
    (hqueue n hn).resolve_right List.not_mem_nil
  exact hsub.perm_of_length_le hcount.ge

theorem exists_inferred_of_queued (h : t.Sound items) {n : String}
    (hn : n ∈ t.round.instances.queued) : ∃ f ∈ t.round.inferred, f.name = n :=
  List.mem_map.1 (h.perm_inferred.mem_iff.1 hn)

/-- **Every instance that is called was inferred**, under the name that the call has in the output
and with as many parameters. -/
theorem exists_inferred (h : t.Sound items) {k n : Nat} (hk : t.round.IsInstance k n) :
    ∃ (s : Symbol) (f : Inferred), t.round.symbols[k]? = some s ∧
      t.round.inferred.find? (fun f => f.name = s.emittedName) = some f ∧
      f.name = s.emittedName ∧ f.params.length = n ∧ InferredWell t.round f := by
  obtain ⟨s, i, hs, -, hi, hname, hparams, -, hqueued⟩ := hk
  obtain ⟨f₀, hf₀, hfname⟩ := h.exists_inferred_of_queued (hname ▸ hqueued)
  obtain ⟨f, hfind⟩ := Option.isSome_iff_exists.1
    (List.find?_isSome (p := fun f : Inferred => decide (f.name = s.emittedName)).2
      ⟨f₀, hf₀, decide_eq_true hfname⟩)
  have hfname' : f.name = s.emittedName := by simpa using List.find?_some hfind
  have hwell := h.round.inferred f (List.mem_of_find?_eq_some hfind)
  obtain ⟨j, hj, hjname, hjparams, -⟩ := hwell.made
  -- instances of one name are one instance
  have hji : j = i := List.inj_on_of_nodup_map h.round.instances.nodup hj hi
    (hjname.trans (hfname'.trans hname.symm))
  refine ⟨s, f, hs, hfind, hfname', ?_, hwell⟩
  rw [← hjparams, hji, hparams]

/-- An inferred body has the shape of that of a definition of the unit. -/
theorem exists_define (h : t.Sound items) {f : Inferred} (hf : f ∈ t.round.inferred) :
    ∃ m p b, Node.define m p b ∈ items ∧ f.body.shape = b.shape := by
  obtain ⟨i, hi, -, -, hshape⟩ := (h.round.inferred f hf).made
  obtain ⟨g, hg, hcopy⟩ := h.round.instances.made i hi
  obtain ⟨x, hx, hgx⟩ := List.mem_filterMap.1 hg
  unfold Function.ofNode? at hgx
  split at hgx
  · cases hgx
    exact ⟨_, _, _, hx, hshape.trans hcopy.shape⟩
  · cases hgx

end Typing.Sound

end StackLang
