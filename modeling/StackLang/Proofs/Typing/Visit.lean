/-
**What a visit does.**

Each step of a visit keeps the invariant of the round and adds to what was there.  The tree that
comes out has the shape of the tree that went in, and in it every expression has a type and every
name a symbol.

Main definitions:

* `Round.Goes` — the invariant is kept and nothing is lost.

Main results:

* `Infer.visit_resolved` — visiting an expression of the source gives a resolved tree of its shape.
-/

import StackLang.Proofs.Typing.Changes

set_option relaxedAutoImplicit false
set_option autoImplicit false

namespace StackLang

open Step

/-- A step of a round keeps the invariant and loses nothing. -/
structure Round.Goes (fs : List Function) (done : List String) (r r' : Round) : Prop where
  sound : r'.Sound fs done
  extend : r.Extends r'
  inferred : r'.inferred = r.inferred

namespace Infer

variable {fs : List Function} {done : List String} {r r' : Round}

theorem goes_refl (h : r.Sound fs done) : r.Goes fs done r := ⟨h, .refl r, rfl⟩

theorem goes_trans {r'' : Round} (h : r.Goes fs done r') (h' : r'.Goes fs done r'') :
    r.Goes fs done r'' :=
  ⟨h'.sound, h.extend.trans h'.extend, h'.inferred.trans h.inferred⟩

/-! ### Symbols -/

/-- A symbol that is there stays where it is when one more is added. -/
theorem kept_push {ss : Symbols} {s : Symbol} (k : Nat) (t : Symbol) (h : ss[k]? = some t) :
    ∃ t' : Symbol, (ss.push s)[k]? = some t' ∧ Round.SymbolKept t t' := by
  refine ⟨t, ?_, .refl t⟩
  have hk : k < ss.size := by
    by_contra hk
    simp [Array.getElem?_eq_none (Nat.le_of_not_lt hk)] at h
  rw [Array.getElem?_push_lt hk]
  rw [Array.getElem?_eq_getElem hk] at h
  exact h

theorem getElem?_push_self {ss : Symbols} {s : Symbol} : (ss.push s)[ss.size]? = some s := by
  simp

/-- A symbol after one more was added is that one or was there before. -/
theorem eq_or_of_push {ss : Symbols} {s t : Symbol} {k : Nat} (h : (ss.push s)[k]? = some t) :
    (k = ss.size ∧ t = s) ∨ ss[k]? = some t := by
  rw [Array.getElem?_push] at h
  split at h
  · exact .inl ⟨‹_›, (Option.some.inj h).symm⟩
  · exact .inr h

theorem lt_of_getElem? {ss : Symbols} {k : Nat} {s : Symbol} (h : ss[k]? = some s) :
    k < ss.size := by
  by_contra hk
  simp [Array.getElem?_eq_none (Nat.le_of_not_lt hk)] at h

/-! ### Names -/

/-- A name that is no function is a variable. -/
theorem isVariable_of_found (h : r.Sound fs done) {name : String} {k : Nat} {s : Symbol}
    (hk : r.lookup name = some k) (hs : r.symbols[k]? = some s)
    (hdefinition : s.definition = none) : r.IsVariable k := by
  rcases found h hk hs with ⟨scope, hscope, hmem, -⟩ | ⟨-, hbound⟩
  · exact .inr ⟨scope, hscope, name, hmem⟩
  · cases hbound with
    | defined _ _ _ hs' => simp [hdefinition] at hs'
    | made _ _ _ hs' _ => simp [hdefinition] at hs'
    | cell _ _ hstorage => exact .inl ⟨s, _, hs, hstorage⟩

/-- **A name that stands for a value is a variable.** -/
theorem valueOf_resolved (h : r.Sound fs done) {m : Mark} {name : String} {k : Nat}
    {type : Scalar} (hv : valueOf m name r = .ok ((k, type), r')) : r' = r ∧ r.IsVariable k := by
  obtain ⟨rfl, hk, s, hs, hdefinition, -⟩ := valueOf_spec h hv
  exact ⟨rfl, isVariable_of_found h hk hs hdefinition⟩

/-! ### Variables -/

/-- What is bound is bound in the scope of the unit after one more name was bound there. -/
theorem lookup_bind {scope : Scope} {name n : String} {k j : Nat} (hnew : scope.lookup name = none)
    (h : scope.lookup n = some j) : (scope.bind name k).lookup n = some j := by
  rw [Scope.lookup_bind_of_ne]
  · exact h
  · rintro rfl
    rw [hnew] at h
    cases h

theorem goes_declaredGlobal (h : r.Sound fs done) (hframe : r.frame = none) {name : String}
    (hname : IsSourceName name) (hnew : r.globals.lookup name = none) (type : Scalar) :
    r.Goes fs done (declaredGlobal name type r) := by
  have hextend : r.Extends (declaredGlobal name type r) := by
    refine ⟨fun k s hs => kept_push k s hs, fun _ hi => hi, fun _ hn => hn,
      fun n k hk => lookup_bind hnew hk, fun _ => hframe, fun scope hscope => ?_⟩
    rw [hframe] at hscope
    cases hscope
  refine ⟨⟨h.instances, h.queue, h.pending, h.count, fun n k hn => ?_, fun scope hscope => ?_,
    fun k s l hs hl => ?_, fun j k s t n hs ht hsl htl => ?_,
    fun f hf => (h.inferred f hf).mono hextend⟩, hextend, rfl⟩
  · rcases List.mem_cons.1 hn with hn | hn
    · cases hn
      exact ⟨_, getElem?_push_self, .cell hname rfl rfl⟩
    · obtain ⟨s, hs, hbound⟩ := h.globals n k hn
      obtain ⟨s', hs', hkept⟩ := hextend.symbols k s hs
      exact ⟨s', hs', hbound.mono hkept (fun _ hi => hi) fun _ hn => hn⟩
  · have hscope' : r.frame = some scope := hscope
    rw [hframe] at hscope'
    cases hscope'
  · rcases eq_or_of_push hs with ⟨-, rfl⟩ | hs
    · cases hl
      exact ⟨name, r.counters.globals, hname, rfl, Nat.lt_succ_self _⟩
    · obtain ⟨b, j, hb, rfl, hj⟩ := h.labels k s l hs hl
      exact ⟨b, j, hb, rfl, Nat.lt_succ_of_lt hj⟩
  · -- a label that was made before has a smaller number
    have hfresh : ∀ (k : Nat) (t : Symbol), r.symbols[k]? = some t →
        ¬ t.IsCell r.counters.globals := by
      rintro k t ht ⟨base, hbase, hl⟩
      obtain ⟨b, j, hb, heq, hj⟩ := h.labels k t _ ht hl
      have := globalLabel_inj hbase hb heq
      omega
    have hnumber : ∀ {m : Nat} {s : Symbol},
        s.storage = .global (globalLabel name r.counters.globals) → s.IsCell m →
          r.counters.globals = m := by
      rintro m s hs ⟨base, hbase, hl⟩
      exact globalLabel_inj hname hbase (Storage.global.inj (hs.symm.trans hl))
    rcases eq_or_of_push hs with ⟨rfl, rfl⟩ | hs
    · rcases eq_or_of_push ht with ⟨rfl, rfl⟩ | ht
      · rfl
      · exact absurd (hnumber rfl hsl ▸ htl) (hfresh k t ht)
    · rcases eq_or_of_push ht with ⟨rfl, rfl⟩ | ht
      · exact absurd (hnumber rfl htl ▸ hsl) (hfresh j s hs)
      · exact h.numbered j k s t n hs ht hsl htl

/-- The scope of a function after one more place was handed out and bound. -/
theorem sound_bind {ss : Symbols} {scope scope' : Scope} {name : String} {s : Symbol}
    {offset : Int} (h : scope.Sound ss) (hname : IsSourceName name) (hs : s.definition = none)
    (hstorage : s.storage = .frame offset) (hnames : scope'.names = scope.names)
    (hhands : ∀ o, scope.HandsOut o → scope'.HandsOut o) (hnew : scope'.HandsOut offset)
    (hfresh : ¬ scope.HandsOut offset) :
    (scope'.bind name ss.size).Sound (ss.push s) := by
  have hold : ∀ k, scope.Binds k → k ≠ ss.size ∧ ∃ (t : Symbol) (o : Int), ss[k]? = some t ∧
      t.storage = .frame o ∧ scope.HandsOut o := by
    rintro k ⟨n, hn⟩
    obtain ⟨-, t, o, ht, -, hto, ho⟩ := h.bound n k hn
    exact ⟨Nat.ne_of_lt (lt_of_getElem? ht), t, o, ht, hto, ho⟩
  have hbinds : ∀ k, (scope'.bind name ss.size).Binds k → k = ss.size ∨ scope.Binds k := by
    rintro k ⟨n, hn⟩
    rcases List.mem_cons.1 hn with hn | hn
    · exact .inl (Prod.mk.inj hn).2
    · exact .inr ⟨n, hnames ▸ hn⟩
  refine ⟨fun n k hn => ?_, fun j k u v o hj hk hu hv huo hvo => ?_⟩
  · rcases List.mem_cons.1 hn with hn | hn
    · cases hn
      exact ⟨hname, s, offset, getElem?_push_self, hs, hstorage, hnew⟩
    · rw [hnames] at hn
      obtain ⟨hn', t, o, ht, hdefinition, hto, ho⟩ := h.bound n k hn
      obtain ⟨t', ht', hkept⟩ := kept_push k t ht
      exact ⟨hn', t', o, ht', hkept.definition.trans hdefinition, hkept.storage.trans hto,
        hhands o ho⟩
  · -- the new place is none of the old ones
    have hne : ∀ (j : Nat) (u : Symbol), scope.Binds j → ss[j]? = some u →
        u.storage ≠ .frame offset := by
      intro j u hj hu huo
      obtain ⟨-, t, o, ht, hto, ho⟩ := hold j hj
      cases hu.symm.trans ht
      cases huo.symm.trans hto
      exact hfresh ho
    rcases eq_or_of_push hu with ⟨rfl, rfl⟩ | hu'
    · rcases eq_or_of_push hv with ⟨rfl, rfl⟩ | hv'
      · rfl
      · rcases hbinds k hk with rfl | hk
        · rfl
        · cases hstorage.symm.trans huo
          exact absurd hvo (hne k v hk hv')
    · rcases eq_or_of_push hv with ⟨rfl, rfl⟩ | hv'
      · rcases hbinds j hj with rfl | hj
        · rfl
        · cases hstorage.symm.trans hvo
          exact absurd huo (hne j u hj hu')
      · have hlt := lt_of_getElem? hu'
        have hlt' := lt_of_getElem? hv'
        have hj' := (hbinds j hj).resolve_left (Nat.ne_of_lt hlt)
        have hk' := (hbinds k hk).resolve_left (Nat.ne_of_lt hlt')
        exact h.distinct j k u v o hj' hk' hu' hv' huo hvo

theorem handsOut_addLocal {scope : Scope} (o : Int) (h : scope.HandsOut o) :
    scope.addLocal.2.HandsOut o := by
  rcases h with h | ⟨j, hj, rfl⟩
  · exact .inl h
  · exact .inr ⟨j, Nat.lt_succ_of_lt hj, rfl⟩

/-- A place that is handed out was not handed out before. -/
theorem not_handsOut_local {scope : Scope} : ¬ scope.HandsOut scope.addLocal.1 := by
  rintro (⟨j, hj, heq⟩ | ⟨j, hj, heq⟩) <;> simp only [Scope.addLocal] at heq <;> omega

theorem goes_declaredLocal (h : r.Sound fs done) {scope : Scope} (hframe : r.frame = some scope)
    {name : String} (hname : IsSourceName name) (hnew : scope.lookup name = none)
    (type : Scalar) : r.Goes fs done (declaredLocal scope name type r) := by
  have hextend : r.Extends (declaredLocal scope name type r) := by
    refine ⟨fun k s hs => kept_push k s hs, fun _ hi => hi, fun _ hn => hn, fun _ _ hk => hk,
      fun hnone => ?_, fun scope' hscope' => ?_⟩
    · rw [hframe] at hnone
      cases hnone
    · cases hframe.symm.trans hscope'
      refine ⟨_, rfl, rfl, fun n k hk => ?_, ?_⟩
      · exact @lookup_bind scope.addLocal.2 name n r.symbols.size k hnew hk
      · rintro k ⟨n, hn⟩
        exact ⟨n, List.mem_cons_of_mem _ hn⟩
  refine ⟨⟨h.instances, h.queue, h.pending, h.count, fun n k hn => ?_, fun scope' hscope' => ?_,
    fun k s l hs hl => ?_, fun j k s t n hs ht hsl htl => ?_,
    fun f hf => (h.inferred f hf).mono hextend⟩, hextend, rfl⟩
  · obtain ⟨s, hs, hbound⟩ := h.globals n k hn
    obtain ⟨s', hs', hkept⟩ := hextend.symbols k s hs
    exact ⟨s', hs', hbound.mono hkept (fun _ hi => hi) fun _ hn => hn⟩
  · cases hscope'
    exact sound_bind (h.frame scope hframe) hname rfl rfl rfl handsOut_addLocal
      (.inr ⟨scope.locals, Nat.lt_succ_self _, rfl⟩) not_handsOut_local
  · rcases eq_or_of_push hs with ⟨-, rfl⟩ | hs
    · cases hl
    · exact h.labels k s l hs hl
  · rcases eq_or_of_push hs with ⟨-, rfl⟩ | hs
    · obtain ⟨-, -, ⟨⟩⟩ := hsl
    · rcases eq_or_of_push ht with ⟨-, rfl⟩ | ht
      · obtain ⟨-, -, ⟨⟩⟩ := htl
      · exact h.numbered j k s t n hs ht hsl htl

/-- **A name that is assigned a value is a variable.** -/
theorem assigned_resolved (h : r.Sound fs done) {m : Mark} {name : String} {value type : Scalar}
    {k : Nat} (hname : IsSourceName name) (ha : assigned m name value r = .ok ((k, type), r')) :
    r.Goes fs done r' ∧ r'.IsVariable k := by
  rcases assigned_spec h ha with ⟨rfl, hk, s, hs, hdefinition, -⟩ | ⟨hk, rfl, -, rfl⟩
  · exact ⟨goes_refl h, isVariable_of_found h hk hs hdefinition⟩
  · obtain ⟨hscope, hglobals⟩ := Option.or_eq_none_iff.1 hk
    unfold declared
    cases hframe : r.frame with
    | none =>
        exact ⟨goes_declaredGlobal h hframe hname hglobals value,
          .inl ⟨_, _, getElem?_push_self, rfl⟩⟩
    | some scope =>
        rw [hframe] at hscope
        exact ⟨goes_declaredLocal h hframe hname hscope value,
          .inr ⟨_, rfl, name, List.mem_cons_self⟩⟩

/-! ### Calls -/

/-- An instance has as many parameters as its name has types. -/
theorem length_params (hfs : AreSource fs) {is : Instances} (h : is.Sound fs) {i : Instance}
    (hi : i ∈ is.made) {base : String} {args : List Scalar} (hbase : IsSourceName base)
    (hname : i.name = decorate base args) : i.function.params.length = args.length := by
  obtain ⟨f, hf, hcopy⟩ := h.made i hi
  obtain ⟨-, hargs⟩ := decorate_inj (hfs f hf).1 hbase (hcopy.name.symm.trans hname)
  rw [hcopy.params, ← hcopy.args, hargs]

theorem goes_inserted (h : r.Sound fs done) {i : Instance} {f : Function} (hf : f ∈ fs)
    (hcopy : i.IsCopy f) (hnew : r.instances.get? i.name = none) (fresh : Nat) :
    r.Goes fs done (inserted i fresh r) := by
  have hinsert : r.instances.insert i = { r.instances with made := r.instances.made ++ [i] } := by
    simp [Instances.insert, hnew]
  have hmade : ∀ j ∈ r.instances.made, j ∈ (r.instances.insert i).made := by
    intro j hj
    rw [hinsert]
    exact List.mem_append_left _ hj
  have hqueued : (r.instances.insert i).queued = r.instances.queued := by rw [hinsert]
  have hpending : (r.instances.insert i).pending = r.instances.pending := by rw [hinsert]
  have hextend : r.Extends (inserted i fresh r) :=
    ⟨fun k s hs => ⟨s, hs, .refl s⟩, hmade, fun n hn => hqueued ▸ hn, fun _ _ hk => hk,
      fun hnone => hnone,
      fun scope hscope => ⟨scope, hscope, rfl, fun _ _ hk => hk, fun _ hk => hk⟩⟩
  have hinstances : (r.instances.insert i).Sound fs := by
    refine ⟨?_, fun j hj => ?_, fun n hn => ?_, hqueued ▸ h.instances.nodup_queued⟩
    · rw [hinsert, List.map_append]
      refine List.Nodup.append h.instances.nodup (List.nodup_singleton _) ?_
      simp only [List.map_cons, List.map_nil, List.disjoint_singleton, List.mem_map, not_exists,
        not_and]
      intro j hj hname
      exact absurd hname (by simpa using List.find?_eq_none.1 hnew j hj)
    · rw [hinsert, List.mem_append, List.mem_singleton] at hj
      rcases hj with hj | rfl
      · exact h.instances.made j hj
      · exact ⟨f, hf, hcopy⟩
    · obtain ⟨j, hj, hname⟩ := h.instances.queued n (hqueued ▸ hn)
      exact ⟨j, hmade j hj, hname⟩
  refine ⟨⟨hinstances, fun n hn => ?_, fun n hn => ?_, ?_, fun n k hn => ?_, h.frame, h.labels,
    h.numbered, fun f hf => (h.inferred f hf).mono hextend⟩, hextend, rfl⟩
  · exact hpending ▸ h.queue n (hqueued ▸ hn)
  · exact hqueued ▸ h.pending n (hpending ▸ hn)
  · exact hqueued ▸ hpending ▸ h.count
  · obtain ⟨s, hs, hbound⟩ := h.globals n k hn
    exact ⟨s, hs, hbound.mono (.refl s) hmade fun n hn => hqueued ▸ hn⟩

theorem mem_enqueue {is : Instances} {name n : String} :
    n ∈ (is.enqueue name).2.queued ↔ n = name ∨ n ∈ is.queued := by
  unfold Instances.enqueue
  split
  · refine ⟨.inr, ?_⟩
    rintro (rfl | hn)
    · assumption
    · exact hn
  · exact List.mem_cons

theorem made_enqueue (is : Instances) (name : String) : (is.enqueue name).2.made = is.made := by
  unfold Instances.enqueue
  split <;> rfl

theorem goes_bound (h : r.Sound fs done) {i : Instance} (hi : i ∈ r.instances.made)
    (hnew : r.globals.lookup i.name = none) (f : Function) :
    r.Goes fs done (bound i.name f r) := by
  have hmade := made_enqueue r.instances i.name
  have hqueued : ∀ n ∈ r.instances.queued, n ∈ (r.instances.enqueue i.name).2.queued :=
    fun n hn => mem_enqueue.2 (.inr hn)
  have hextend : r.Extends (bound i.name f r) :=
    ⟨fun k s hs => kept_push k s hs, fun j hj => (hmade ▸ hj :), hqueued,
      fun n k hk => lookup_bind hnew hk, fun hnone => hnone,
      fun scope hscope => ⟨scope, hscope, rfl, fun _ _ hk => hk, fun _ hk => hk⟩⟩
  -- a name that stands in the queue already is not put there again
  have hqueue : (r.instances.enqueue i.name).2.Sound fs ∧
      (∀ n ∈ (r.instances.enqueue i.name).2.queued,
        n ∈ done ∨ n ∈ (r.instances.enqueue i.name).2.pending) ∧
      (∀ n ∈ (r.instances.enqueue i.name).2.pending,
        n ∈ (r.instances.enqueue i.name).2.queued) ∧
      (r.instances.enqueue i.name).2.queued.length
        = done.length + (r.instances.enqueue i.name).2.pending.length := by
    by_cases hq : i.name ∈ r.instances.queued
    · simp only [Instances.enqueue, if_pos hq]
      exact ⟨h.instances, h.queue, h.pending, h.count⟩
    · simp only [Instances.enqueue, if_neg hq]
      refine ⟨⟨h.instances.nodup, h.instances.made, fun n hn => ?_,
        List.nodup_cons.2 ⟨hq, h.instances.nodup_queued⟩⟩, fun n hn => ?_, fun n hn => ?_, ?_⟩
      · rcases List.mem_cons.1 hn with rfl | hn
        · exact ⟨i, hi, rfl⟩
        · exact h.instances.queued n hn
      · rcases List.mem_cons.1 hn with rfl | hn
        · exact .inr (by simp)
        · exact (h.queue n hn).imp id (List.mem_append_left _)
      · rcases List.mem_append.1 hn with hn | hn
        · exact List.mem_cons_of_mem _ (h.pending n hn)
        · rw [List.mem_singleton.1 hn]
          exact List.mem_cons_self
      · rw [List.length_cons, List.length_append, h.count, List.length_singleton]
        omega
  obtain ⟨hsound, hdone, hpending, hcount⟩ := hqueue
  refine ⟨⟨hsound, hdone, hpending, hcount, fun n k hn => ?_,
    fun scope hscope => (h.frame scope hscope).mono hextend.symbols, fun k s l hs hl => ?_,
    fun j k s t n hs ht hsl htl => ?_,
    fun f hf => (h.inferred f hf).mono hextend⟩, hextend, rfl⟩
  · rcases List.mem_cons.1 hn with hn | hn
    · cases hn
      exact ⟨_, getElem?_push_self, .made (i := i) (hmade ▸ hi :) rfl rfl rfl
        (mem_enqueue.2 (.inl rfl))⟩
    · obtain ⟨s, hs, hbound⟩ := h.globals n k hn
      obtain ⟨s', hs', hkept⟩ := hextend.symbols k s hs
      exact ⟨s', hs', hbound.mono hkept (fun j hj => (hmade ▸ hj :)) hqueued⟩
  · rcases eq_or_of_push hs with ⟨-, rfl⟩ | hs
    · cases hl
    · exact h.labels k s l hs hl
  · rcases eq_or_of_push hs with ⟨-, rfl⟩ | hs
    · obtain ⟨-, -, ⟨⟩⟩ := hsl
    · rcases eq_or_of_push ht with ⟨-, rfl⟩ | ht
      · obtain ⟨-, -, ⟨⟩⟩ := htl
      · exact h.numbered j k s t n hs ht hsl htl

/-- A change of symbols that keeps what a round relies on is a step of the round. -/
theorem goes_symbols (h : r.Sound fs done) {ss : Symbols}
    (hkept : ∀ (k : Nat) (s : Symbol), r.symbols[k]? = some s →
      ∃ s' : Symbol, ss[k]? = some s' ∧ Round.SymbolKept s s')
    (hold : ∀ (k : Nat) (s' : Symbol), ss[k]? = some s' → ∃ s : Symbol, r.symbols[k]? = some s) :
    r.Goes fs done { r with symbols := ss } := by
  have hstorage : ∀ (k : Nat) (s' : Symbol), ss[k]? = some s' →
      ∃ s : Symbol, r.symbols[k]? = some s ∧ s'.storage = s.storage := by
    intro k s' hs'
    obtain ⟨s, hs⟩ := hold k s' hs'
    obtain ⟨t, ht, hst⟩ := hkept k s hs
    cases hs'.symm.trans ht
    exact ⟨s, hs, hst.storage⟩
  have hextend : r.Extends { r with symbols := ss } :=
    ⟨hkept, fun _ hi => hi, fun _ hn => hn, fun _ _ hk => hk, fun hnone => hnone,
      fun scope hscope => ⟨scope, hscope, rfl, fun _ _ hk => hk, fun _ hk => hk⟩⟩
  refine ⟨⟨h.instances, h.queue, h.pending, h.count, fun n k hn => ?_,
    fun scope hscope => (h.frame scope hscope).mono hkept, fun k s l hs hl => ?_,
    fun j k s t n hs ht hsl htl => ?_,
    fun f hf => (h.inferred f hf).mono hextend⟩, hextend, rfl⟩
  · obtain ⟨s, hs, hbound⟩ := h.globals n k hn
    obtain ⟨s', hs', hst⟩ := hkept k s hs
    exact ⟨s', hs', hbound.mono hst (fun _ hi => hi) fun _ hn => hn⟩
  · obtain ⟨s₀, hs₀, hst⟩ := hstorage k s hs
    exact h.labels k s₀ l hs₀ (hst ▸ hl)
  · obtain ⟨s₀, hs₀, hs'⟩ := hstorage j s hs
    obtain ⟨t₀, ht₀, ht'⟩ := hstorage k t ht
    obtain ⟨b, hb, hsl⟩ := hsl
    obtain ⟨b', hb', htl⟩ := htl
    exact h.numbered j k s₀ t₀ n hs₀ ht₀ ⟨b, hb, hs' ▸ hsl⟩ ⟨b', hb', ht' ▸ htl⟩

/-- Looking up a symbol after a change of one of them. -/
theorem getElem?_modify {ss : Symbols} {f : Symbol → Symbol} (j k : Nat) :
    (ss.modify j f)[k]? = if j = k then (ss[k]?).map f else ss[k]? := by
  simp [Array.getElem?_modify]

theorem goes_modify (h : r.Sound fs done) {f : Symbol → Symbol}
    (hf : ∀ s, Round.SymbolKept s (f s)) (k : Nat) :
    r.Goes fs done { r with symbols := r.symbols.modify k f } := by
  refine goes_symbols h (fun j s hs => ?_) fun j s' hs' => ?_
  · rw [getElem?_modify]
    split
    · exact ⟨f s, by rw [hs]; rfl, hf s⟩
    · exact ⟨s, hs, .refl s⟩
  · rw [getElem?_modify] at hs'
    split at hs'
    · obtain ⟨s, hs, -⟩ := Option.map_eq_some_iff.1 hs'
      exact ⟨s, hs⟩
    · exact ⟨s', hs'⟩

/-- The instance that is made is a copy of the function. -/
theorem isCopy_newInstance {f : Function} {args : List Scalar}
    (hargs : args.length = f.params.length) : (r.newInstance f args).IsCopy f :=
  ⟨rfl, hargs, rfl, Node.shape_number _ _ f.body⟩

theorem goes_withInstance (h : r.Sound fs done) {f : Function} {args : List Scalar} (hf : f ∈ fs)
    (hargs : args.length = f.params.length)
    (hi : r.instances.get? (decorate f.name args) = none) :
    r.Goes fs done (r.withInstance f args) :=
  goes_inserted h hf (isCopy_newInstance hargs) hi _

/-- The table of instances after one was made. -/
theorem made_withInstance {f : Function} {args : List Scalar}
    (hi : r.instances.get? (decorate f.name args) = none) :
    (r.withInstance f args).instances
      = { r.instances with made := r.instances.made ++ [r.newInstance f args] } := by
  have hi' : r.instances.get? (r.newInstance f args).name = none := hi
  simp [Round.withInstance, inserted, Instances.insert, hi']

theorem newInstance_mem {f : Function} {args : List Scalar}
    (hi : r.instances.get? (decorate f.name args) = none) :
    r.newInstance f args ∈ (r.withInstance f args).instances.made := by
  rw [made_withInstance hi]
  exact List.mem_append_right _ List.mem_cons_self

/-- Providing an instance is a step of the round. -/
theorem goes_provided (h : r.Sound fs done) {f : Function} {args : List Scalar} (hf : f ∈ fs)
    (hargs : args.length = f.params.length) {k : Nat} (hp : r.Provides f args k r') :
    r.Goes fs done r' := by
  cases hp with
  | known => exact goes_refl h
  | @again i hnew hi =>
      obtain ⟨hmem, hname⟩ := Instances.mem_of_get? hi
      exact goes_bound h hmem (hname ▸ (Option.or_eq_none_iff.1 hnew).2) _
  | fresh hnew hi =>
      have hgoes := goes_withInstance h hf hargs hi
      exact goes_trans hgoes (goes_bound hgoes.sound (newInstance_mem hi)
        (Option.or_eq_none_iff.1 hnew).2 _)

theorem goes_marked (h : r.Sound fs done) (k : Nat) : r.Goes fs done (marked k r) :=
  goes_modify (f := fun s => { s with used := true }) h (fun _ => ⟨rfl, rfl, rfl, fun _ => rfl⟩) k

/-- What a decorated name is bound to is the symbol of an instance, and a call marks it. -/
theorem isInstance_marked (hfs : AreSource fs) (h : r.Sound fs done) {base : String}
    {args : List Scalar} (hbase : IsSourceName base) {k : Nat}
    (hk : r.globals.lookup (decorate base args) = some k) :
    (marked k r).IsInstance k args.length := by
  obtain ⟨s, hs, hbound⟩ := h.globals _ k (Scope.lookup_mem hk)
  cases hbound with
  | defined hn _ _ _ => exact absurd hn (not_isSourceName_decorate _ _)
  | cell hn _ _ => exact absurd hn (not_isSourceName_decorate _ _)
  | @made i _ hi hname hemitted _ hqueued =>
      refine ⟨{ s with used := true }, i, ?_, rfl, hi, hname.trans hemitted.symm,
        length_params hfs h.instances hi hbase hname, hname ▸ hk, hname ▸ hqueued⟩
      rw [marked, getElem?_modify, if_pos rfl, hs]
      rfl

/-- **What is called is an instance** for the number of arguments. -/
theorem called_resolved (hfs : AreSource fs) (h : r.Sound fs done) {m n : Mark} {base : String}
    {args : List Scalar} {t k : Nat} {type : Scalar} (hbase : IsSourceName base)
    (hc : called m n base args r = .ok ((t, k, type), r')) :
    r.Goes fs done r' ∧ r'.IsInstance k args.length := by
  obtain ⟨f, hf, rfl, -, -, hargs, -, r₁, hp, rfl⟩ := called_spec h hbase hc
  have hgoes := goes_provided h hf hargs.symm hp
  exact ⟨goes_trans hgoes (goes_marked hgoes.sound k),
    isInstance_marked hfs hgoes.sound hbase hp.lookup⟩

/-! ### Expressions -/

/-- A visit of `x` gave the tree `y` of type `type`. -/
structure Visited (fs : List Function) (done : List String) (x : Node Mark) (r : Round)
    (y : Node Note) (type : Scalar) (r' : Round) : Prop where
  goes : r.Goes fs done r'
  resolved : Resolved r'.IsVariable r'.IsInstance y
  type : y.note.type = some type
  shape : y.shape = x.shape

/-- Visits of the trees `xs` gave the trees `ys`. -/
structure AllVisited (fs : List Function) (done : List String) (xs : List (Node Mark)) (r : Round)
    (ys : List (Node Note)) (r' : Round) : Prop where
  goes : r.Goes fs done r'
  resolved : ∀ y ∈ ys, Resolved r'.IsVariable r'.IsInstance y
  shape : ys.map Node.shape = xs.map Node.shape

theorem AllVisited.cons {x : Node Mark} {xs : List (Node Mark)} {y : Node Note}
    {ys : List (Node Note)} {type : Scalar} {r₁ : Round} (h : Visited fs done x r y type r₁)
    (hs : AllVisited fs done xs r₁ ys r') : AllVisited fs done (x :: xs) r (y :: ys) r' := by
  refine ⟨goes_trans h.goes hs.goes, ?_, ?_⟩
  · rw [List.forall_mem_cons]
    exact ⟨hs.goes.extend.resolved h.resolved, hs.resolved⟩
  · rw [List.map_cons, List.map_cons, h.shape, hs.shape]

theorem AllVisited.nil (h : r.Sound fs done) : AllVisited fs done [] r [] r :=
  ⟨goes_refl h, fun _ hy => absurd hy List.not_mem_nil, rfl⟩

theorem isPlain_binary {α : Type} {n : α} {op : BinaryOp} {l r : Node α} :
    (Node.binary n op l r).IsPlain ↔ l.IsPlain ∧ r.IsPlain := by
  simp [Node.IsPlain, Node.IsPlainHead]

mutual

/-- **Visiting an expression of the source gives a resolved tree of its shape.** -/
theorem visit_resolved (hfs : AreSource fs) (x : Node Mark) (hx : x.IsPlain) {r r' : Round}
    {y : Node Note} {type : Scalar} (h : r.Sound fs done)
    (hv : visit x r = .ok ((y, type), r')) : Visited fs done x r y type r' := by
  cases x with
  | literal m v =>
      simp only [visit, pure_eq_ok, Prod.mk.injEq] at hv
      obtain ⟨⟨rfl, rfl⟩, rfl⟩ := hv
      exact ⟨goes_refl h, .literal nofun, rfl, rfl⟩
  | identifier m x =>
      simp only [visit, bind_eq_ok, pure_eq_ok, Prod.exists, Prod.mk.injEq] at hv
      obtain ⟨k, s, r₁, hvalue, ⟨rfl, rfl⟩, rfl⟩ := hv
      obtain ⟨rfl, hk⟩ := valueOf_resolved h hvalue
      exact ⟨goes_refl h, .identifier nofun rfl hk, rfl, rfl⟩
  | binary m op a b =>
      obtain ⟨ha, hb⟩ := isPlain_binary.1 hx
      by_cases hop : op = .assign
      · subst hop
        cases a with
        | identifier n x =>
            simp only [visit, if_true, bind_eq_ok, pure_eq_ok, Prod.exists, Prod.mk.injEq] at hv
            obtain ⟨b', s, r₁, hb', k, s', r₂, hassigned, ⟨rfl, rfl⟩, rfl⟩ := hv
            have hright := visit_resolved hfs b hb h hb'
            obtain ⟨hgoes, hk⟩ := assigned_resolved hright.goes.sound ha.self hassigned
            refine ⟨goes_trans hright.goes hgoes,
              .assign nofun nofun rfl hk (hgoes.extend.resolved hright.resolved), rfl, ?_⟩
            rw [Node.shape_binary, Node.shape_binary, hright.shape]
            rfl
        | _ =>
            simp only [visit, if_true] at hv
            exact absurd hv fail_ne_ok
      · simp only [visit, if_neg hop, bind_eq_ok, pure_eq_ok, Prod.exists, Prod.mk.injEq] at hv
        obtain ⟨a', s, r₁, ha', b', t, r₂, hb', ⟨rfl, rfl⟩, rfl⟩ := hv
        have hleft := visit_resolved hfs a ha h ha'
        have hright := visit_resolved hfs b hb hleft.goes.sound hb'
        refine ⟨goes_trans hleft.goes hright.goes, .binary nofun hop
          (hright.goes.extend.resolved hleft.resolved) hright.resolved, rfl, ?_⟩
        rw [Node.shape_binary, Node.shape_binary, hleft.shape, hright.shape]
  | unary m op x =>
      have hx' : x.IsPlain := (Node.every_unary.1 hx).2
      simp only [visit, bind_eq_ok, pure_eq_ok, Prod.exists, Prod.mk.injEq] at hv
      obtain ⟨x', s, r₁, hvx, ⟨rfl, rfl⟩, rfl⟩ := hv
      have hinner := visit_resolved hfs x hx' h hvx
      refine ⟨hinner.goes, .unary nofun hinner.resolved, rfl, ?_⟩
      rw [Node.shape_unary, Node.shape_unary, hinner.shape]
  | call m f as =>
      obtain ⟨-, hf, has⟩ := Node.every_call.1 hx
      cases f with
      | identifier n base =>
          simp only [visit, bind_eq_ok, pure_eq_ok, Prod.exists, Prod.mk.injEq] at hv
          obtain ⟨as', types, r₁, has', t, k, s, r₂, hcalled, ⟨rfl, rfl⟩, rfl⟩ := hv
          obtain ⟨hargs, hlength⟩ := visitArgs_resolved hfs as has h has'
          obtain ⟨hgoes, hk⟩ := called_resolved hfs hargs.goes.sound hf.self hcalled
          have hcount : as'.length = types.length := by
            have := congrArg List.length hargs.shape
            rw [List.length_map, List.length_map] at this
            rw [this, hlength]
          refine ⟨goes_trans hargs.goes hgoes, .call nofun rfl (hcount ▸ hk)
            fun y hy => hgoes.extend.resolved (hargs.resolved y hy), rfl, ?_⟩
          rw [Node.shape_call, Node.shape_call, hargs.shape]
          rfl
      | _ =>
          simp only [visit] at hv
          exact absurd hv fail_ne_ok
  | cond m c t e =>
      obtain ⟨-, hc, ht, he⟩ := Node.every_cond.1 hx
      cases e with
      | none =>
          simp only [visit, bind_eq_ok, pure_eq_ok, Prod.exists, Prod.mk.injEq] at hv
          obtain ⟨c', _, r₁, hc', t', s, r₂, ht', ⟨rfl, rfl⟩, rfl⟩ := hv
          have htest := visit_resolved hfs c hc h hc'
          have hthen := visit_resolved hfs t ht htest.goes.sound ht'
          refine ⟨goes_trans htest.goes hthen.goes, .cond nofun
            (hthen.goes.extend.resolved htest.resolved) hthen.resolved nofun, rfl, ?_⟩
          rw [Node.shape_cond, Node.shape_cond, htest.shape, hthen.shape]
          rfl
      | some e =>
          simp only [visit, bind_eq_ok, pure_eq_ok, Prod.exists, Prod.mk.injEq] at hv
          obtain ⟨c', _, r₁, hc', t', s, r₂, ht', e', s', r₃, he', ⟨rfl, rfl⟩, rfl⟩ := hv
          have htest := visit_resolved hfs c hc h hc'
          have hthen := visit_resolved hfs t ht htest.goes.sound ht'
          have helse := visit_resolved hfs e (he e rfl) hthen.goes.sound he'
          refine ⟨goes_trans htest.goes (goes_trans hthen.goes helse.goes), .cond nofun
            (helse.goes.extend.resolved (hthen.goes.extend.resolved htest.resolved))
            (helse.goes.extend.resolved hthen.resolved) ?_, rfl, ?_⟩
          · rintro _ ⟨⟩
            exact helse.resolved
          · rw [Node.shape_cond, Node.shape_cond, htest.shape, hthen.shape, Option.map_some,
              Option.map_some, helse.shape]
  | loop m c b =>
      obtain ⟨-, hc, hb⟩ := Node.every_loop.1 hx
      simp only [visit, bind_eq_ok, pure_eq_ok, Prod.exists, Prod.mk.injEq] at hv
      obtain ⟨c', _, r₁, hc', b', _, r₂, hb', ⟨rfl, rfl⟩, rfl⟩ := hv
      have htest := visit_resolved hfs c hc h hc'
      have hbody := visit_resolved hfs b hb htest.goes.sound hb'
      refine ⟨goes_trans htest.goes hbody.goes, .loop nofun
        (hbody.goes.extend.resolved htest.resolved) hbody.resolved, rfl, ?_⟩
      rw [Node.shape_loop, Node.shape_loop, htest.shape, hbody.shape]
  | breakLoop m =>
      simp only [visit, pure_eq_ok, Prod.mk.injEq] at hv
      obtain ⟨⟨rfl, rfl⟩, rfl⟩ := hv
      exact ⟨goes_refl h, .breakLoop nofun, rfl, rfl⟩
  | continueLoop m =>
      simp only [visit, pure_eq_ok, Prod.mk.injEq] at hv
      obtain ⟨⟨rfl, rfl⟩, rfl⟩ := hv
      exact ⟨goes_refl h, .continueLoop nofun, rfl, rfl⟩
  | returnValue m v =>
      have hv' : v.IsPlain := (Node.every_returnValue.1 hx).2
      simp only [visit, bind_eq_ok, pure_eq_ok, Prod.exists, Prod.mk.injEq] at hv
      obtain ⟨v', s, r₁, hvv, ⟨rfl, rfl⟩, rfl⟩ := hv
      have hinner := visit_resolved hfs v hv' h hvv
      refine ⟨hinner.goes, .returnValue nofun hinner.resolved, rfl, ?_⟩
      rw [Node.shape_returnValue, Node.shape_returnValue, hinner.shape]
  | block m is =>
      have his : ∀ x ∈ is, x.IsPlain := (Node.every_block.1 hx).2
      simp only [visit, bind_eq_ok, pure_eq_ok, Prod.exists, Prod.mk.injEq] at hv
      obtain ⟨is', s, r₁, his', ⟨rfl, rfl⟩, rfl⟩ := hv
      have hinner := visitList_resolved hfs is his h his'
      refine ⟨hinner.goes, .block nofun hinner.resolved, rfl, ?_⟩
      rw [Node.shape_block, Node.shape_block, hinner.shape]
  | assembly m text =>
      simp only [visit, pure_eq_ok, Prod.mk.injEq] at hv
      obtain ⟨⟨rfl, rfl⟩, rfl⟩ := hv
      exact ⟨goes_refl h, .assembly nofun, rfl, rfl⟩
  | nop m =>
      simp only [visit, pure_eq_ok, Prod.mk.injEq] at hv
      obtain ⟨⟨rfl, rfl⟩, rfl⟩ := hv
      exact ⟨goes_refl h, .nop nofun, rfl, rfl⟩
  | define m p b => exact absurd hx.self id
  | prototype m f ps => exact absurd hx.self id
  | unit m is => exact absurd hx.self id

theorem visitArgs_resolved (hfs : AreSource fs) (xs : List (Node Mark))
    (hxs : ∀ x ∈ xs, x.IsPlain) {r r' : Round} {ys : List (Node Note)} {types : List Scalar}
    (h : r.Sound fs done) (hv : visitArgs xs r = .ok ((ys, types), r')) :
    AllVisited fs done xs r ys r' ∧ types.length = xs.length := by
  cases xs with
  | nil =>
      simp only [visitArgs, pure_eq_ok, Prod.mk.injEq] at hv
      obtain ⟨⟨rfl, rfl⟩, rfl⟩ := hv
      exact ⟨.nil h, rfl⟩
  | cons x xs =>
      rw [List.forall_mem_cons] at hxs
      simp only [visitArgs, bind_eq_ok, pure_eq_ok, Prod.exists, Prod.mk.injEq] at hv
      obtain ⟨y, s, r₁, hx, ys, ss, r₂, hys, ⟨rfl, rfl⟩, rfl⟩ := hv
      have hfirst := visit_resolved hfs x hxs.1 h hx
      obtain ⟨hrest, hlength⟩ := visitArgs_resolved hfs xs hxs.2 hfirst.goes.sound hys
      exact ⟨.cons hfirst hrest, congrArg (· + 1) hlength⟩

theorem visitList_resolved (hfs : AreSource fs) (xs : List (Node Mark))
    (hxs : ∀ x ∈ xs, x.IsPlain) {r r' : Round} {ys : List (Node Note)} {type type' : Scalar}
    (h : r.Sound fs done) (hv : visitList type xs r = .ok ((ys, type'), r')) :
    AllVisited fs done xs r ys r' := by
  cases xs with
  | nil =>
      simp only [visitList, pure_eq_ok, Prod.mk.injEq] at hv
      obtain ⟨⟨rfl, rfl⟩, rfl⟩ := hv
      exact .nil h
  | cons x xs =>
      rw [List.forall_mem_cons] at hxs
      simp only [visitList, bind_eq_ok, pure_eq_ok, Prod.exists, Prod.mk.injEq] at hv
      obtain ⟨y, s, r₁, hx, ys, ss, r₂, hys, ⟨rfl, rfl⟩, rfl⟩ := hv
      have hfirst := visit_resolved hfs x hxs.1 h hx
      exact .cons hfirst (visitList_resolved hfs xs hxs.2 hfirst.goes.sound hys)

end

/-- **Visiting the items of a unit gives resolved trees** for all but the definitions, which are
left as they are. -/
theorem visitItems_resolved (hfs : AreSource fs) {xs : List (Node Mark)}
    (hxs : ∀ x ∈ xs, x.IsItem) {r r' : Round} {ys : List (Node Note)} (h : r.Sound fs done)
    (hv : visitItems xs r = .ok (ys, r')) :
    r.Goes fs done r' ∧ ys.map Node.shape = xs.map Node.shape ∧
      ∀ y ∈ ys, y.isDefinition = false → Resolved r'.IsVariable r'.IsInstance y := by
  induction xs generalizing r ys with
  | nil =>
      simp only [visitItems, pure_eq_ok] at hv
      obtain ⟨rfl, rfl⟩ := hv
      exact ⟨goes_refl h, rfl, fun _ hy => absurd hy List.not_mem_nil⟩
  | cons x xs ih =>
      rw [List.forall_mem_cons] at hxs
      cases hdefinition : x.isDefinition with
      | true =>
          simp only [visitItems, hdefinition, if_true, bind_eq_ok, pure_eq_ok, and_assoc,
            exists_and_left, exists_eq_left] at hv
          obtain ⟨ys, r₁, hys, rfl, rfl⟩ := hv
          obtain ⟨hgoes, hshape, hresolved⟩ := ih hxs.2 h hys
          refine ⟨hgoes, by rw [List.map_cons, List.map_cons, Node.shape_map, hshape], ?_⟩
          rw [List.forall_mem_cons]
          refine ⟨fun hx => ?_, hresolved⟩
          cases x <;> simp [Node.isDefinition, Node.map] at hdefinition hx
      | false =>
          simp only [visitItems, hdefinition, Bool.false_eq_true, if_false, bind_eq_ok, pure_eq_ok,
            Prod.exists, and_assoc, exists_and_left, exists_eq_left] at hv
          obtain ⟨y, s, r₁, hx, ys, r₂, hys, rfl, rfl⟩ := hv
          have hfirst := visit_resolved hfs x
            ((Node.isItem_of_not_isDefinition hdefinition).1 hxs.1) h hx
          obtain ⟨hgoes, hshape, hresolved⟩ := ih hxs.2 hfirst.goes.sound hys
          refine ⟨goes_trans hfirst.goes hgoes,
            by rw [List.map_cons, List.map_cons, hfirst.shape, hshape], ?_⟩
          rw [List.forall_mem_cons]
          exact ⟨fun _ => hgoes.extend.resolved hfirst.resolved, hresolved⟩

end Infer

end StackLang
