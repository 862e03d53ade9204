/-
**Inference of a tree and of the tree with some of its integers computed.**

Two rounds that go through a tree and through the same tree with some of its integers computed stay
side by side: they hand out the same names, places and symbols, make the same instances and find
the same types.  Only the trees that they come out with differ, and these as the trees did that they
went in with.

Main definitions:

* `Round.Twin` — two rounds that stand side by side;
* `Infer.Twins` — steps that lead from such rounds to such rounds.

Main results:

* `Infer.visit_twins` — visits of expressions stay side by side;
* `Document.infer_twin` — so does inference as a whole.
-/

import StackLang.Proofs.Tree.Computed

set_option relaxedAutoImplicit false
set_option autoImplicit false

namespace StackLang

open Step

/-! ### Rounds side by side -/

/-- The notes say the same of type and symbol. -/
def SameNote (n n' : Note) : Prop := n'.type = n.type ∧ n'.symbol = n.symbol

/-- The second function is the first with some integers of its body computed. -/
structure Function.Twin (f f' : Function) : Prop where
  name : f'.name = f.name
  params : f'.params = f.params
  body : Node.Computed (fun _ _ => True) f.body f'.body

/-- The symbols differ in their definitions only. -/
structure Symbol.Twin (s s' : Symbol) : Prop where
  type : s'.type = s.type
  storage : s'.storage = s.storage
  emittedName : s'.emittedName = s.emittedName
  definition : Option.Rel Function.Twin s.definition s'.definition

/-- The instances are copies of functions that differ in their bodies only. -/
structure Instance.Twin (i i' : Instance) : Prop where
  name : i'.name = i.name
  args : i'.args = i.args
  function : Function.Twin i.function i'.function

/-- The inferred instances differ in their bodies only. -/
structure Inferred.Twin (f f' : Inferred) : Prop where
  name : f'.name = f.name
  scope : f'.scope = f.scope
  params : f'.params = f.params
  body : Node.Computed SameNote f.body f'.body

/-- The same number of symbols, that differ in their definitions only. -/
structure Symbols.Twin (ss ss' : Symbols) : Prop where
  size : ss'.size = ss.size
  get (k : Nat) : Option.Rel Symbol.Twin ss[k]? ss'[k]?

/-- The same instances in the same order, and the same queue. -/
structure Instances.Twin (is is' : Instances) : Prop where
  made : List.Forall₂ Instance.Twin is.made is'.made
  results : is'.results = is.results
  pending : is'.pending = is.pending
  queued : is'.queued = is.queued

/-- **Rounds that stand side by side**, on integers only. -/
structure Round.Twin (r r' : Round) : Prop where
  integer : r.IsInteger
  instances : Instances.Twin r.instances r'.instances
  counters : r'.counters = r.counters
  symbols : Symbols.Twin r.symbols r'.symbols
  globals : r'.globals = r.globals
  frame : r'.frame = r.frame
  inferred : List.Forall₂ Inferred.Twin r.inferred r'.inferred

namespace Infer

variable {α β α' β' : Type}

/-- **Steps that stay side by side**, with outcomes in the relation `R`, as far as the first
succeeds. -/
def Twins (x : Infer α) (x' : Infer β) (R : α → β → Prop) : Prop :=
  ∀ r r', Round.Twin r r' → ∀ a r₁, x r = .ok (a, r₁) →
    ∃ b r₁', x' r' = .ok (b, r₁') ∧ R a b ∧ Round.Twin r₁ r₁'

namespace Twins

variable {R : α → β → Prop} {S : α' → β' → Prop}

protected theorem pure {a : α} {b : β} (h : R a b) : Twins (pure a) (pure b) R := by
  intro r r' hr a₁ r₁ ha
  obtain ⟨rfl, rfl⟩ := pure_eq_ok.1 ha
  exact ⟨b, r', rfl, h, hr⟩

protected theorem bind {x : Infer α} {x' : Infer β} {f : α → Infer α'} {f' : β → Infer β'}
    (hx : Twins x x' R) (hf : ∀ a b, R a b → Twins (f a) (f' b) S) :
    Twins (x >>= f) (x' >>= f') S := by
  intro r r' hr a r₁ ha
  obtain ⟨b, r₂, hb, ha⟩ := bind_eq_ok.1 ha
  obtain ⟨b', r₂', hb', hR, hr₂⟩ := hx r r' hr b r₂ hb
  obtain ⟨a', r₁', ha', hS, hr₁⟩ := hf b b' hR r₂ r₂' hr₂ a r₁ ha
  exact ⟨a', r₁', bind_eq_ok.2 ⟨b', r₂', hb', ha'⟩, hS, hr₁⟩

/-- A step that fails need not have a companion. -/
protected theorem fail {cause : SemanticCause} {span : Span} {x' : Infer β} :
    Twins (fail cause span : Infer α) x' R := by
  intro r r' hr a r₁ ha
  exact absurd ha fail_ne_ok

/-- A step that changes nothing need not have a companion. -/
theorem idle {x : Infer α} {f : α → Infer α'} {x' : Infer β'} {P : α → Prop}
    (hx : ∀ r a r₁, r.IsInteger → x r = .ok (a, r₁) → r₁ = r ∧ P a)
    (hf : ∀ a, P a → Twins (f a) x' S) : Twins (x >>= f) x' S := by
  intro r r' hr a r₁ ha
  obtain ⟨b, r₂, hb, hrest⟩ := bind_eq_ok.1 ha
  obtain ⟨rfl, hP⟩ := hx r b r₂ hr.integer hb
  exact hf b hP r₂ r' hr a r₁ hrest

/-- A step whose companion is done need not wait for one. -/
theorem done {x : Infer α} {b : β} {f : α → Infer α'} {x' : Infer β'}
    (hx : Twins x (pure b) R) (hf : ∀ a, R a b → Twins (f a) x' S) : Twins (x >>= f) x' S := by
  intro r r' hr a r₁ ha
  obtain ⟨c, r₂, hc, hrest⟩ := bind_eq_ok.1 ha
  obtain ⟨b', r₂', hb', hR, hr₂⟩ := hx r r' hr c r₂ hc
  obtain ⟨rfl, rfl⟩ := pure_eq_ok.1 hb'
  exact hf c hR r₂ _ hr₂ a r₁ hrest

/-- What is known of the first outcome may be added. -/
theorem learn {x : Infer α} {x' : Infer β} {P : α → Prop} (hx : Twins x x' R)
    (hP : ∀ r a r₁, r.IsInteger → x r = .ok (a, r₁) → P a) :
    Twins x x' (fun a b => R a b ∧ P a) := by
  intro r r' hr a r₁ ha
  obtain ⟨b, r₁', hb, hR, hr₁⟩ := hx r r' hr a r₁ ha
  exact ⟨b, r₁', hb, ⟨hR, hP r a r₁ hr.integer ha⟩, hr₁⟩

theorem read {f : Round → Infer α} {f' : Round → Infer β}
    (hf : ∀ r r', Round.Twin r r' → Twins (f r) (f' r') R) : Twins (get >>= f) (get >>= f') R := by
  intro r r' hr a r₁ ha
  obtain ⟨b, r₂, hb, ha⟩ := bind_eq_ok.1 ha
  obtain ⟨rfl, rfl⟩ := get_eq_ok.1 hb
  obtain ⟨a', r₁', ha', hR, hr₁⟩ := hf _ r' hr _ r' hr a r₁ ha
  exact ⟨a', r₁', bind_eq_ok.2 ⟨r', r', rfl, ha'⟩, hR, hr₁⟩

theorem set {r r' : Round} (h : Round.Twin r r') :
    Twins (set r : Infer PUnit) (set r' : Infer PUnit) (fun _ _ => True) := by
  intro s s' hs a s₁ ha
  obtain rfl := set_eq_ok.1 ha
  exact ⟨_, _, rfl, trivial, h⟩

theorem modify {f f' : Round → Round} (h : ∀ r r', Round.Twin r r' → Round.Twin (f r) (f' r')) :
    Twins (modify f : Infer PUnit) (modify f' : Infer PUnit) (fun _ _ => True) := by
  intro s s' hs a s₁ ha
  obtain rfl := modify_eq_ok.1 ha
  exact ⟨_, _, rfl, trivial, h s s' hs⟩

end Twins

/-! ### Symbols -/

variable {r r' : Round}

theorem push_twin {ss ss' : Symbols} {s s' : Symbol} (h : Symbols.Twin ss ss')
    (hs : Symbol.Twin s s') : Symbols.Twin (ss.push s) (ss'.push s') := by
  refine ⟨by rw [Array.size_push, Array.size_push, h.size], fun k => ?_⟩
  rw [Array.getElem?_push, Array.getElem?_push, h.size]
  split
  · exact .some hs
  · exact h.get k

theorem modify_twin {ss ss' : Symbols} {f : Symbol → Symbol} (h : Symbols.Twin ss ss')
    (hf : ∀ s s', Symbol.Twin s s' → Symbol.Twin (f s) (f s')) (k : Nat) :
    Symbols.Twin (ss.modify k f) (ss'.modify k f) := by
  refine ⟨by rw [Array.size_modify, Array.size_modify, h.size], fun j => ?_⟩
  rw [getElem?_modify, getElem?_modify]
  have hj := h.get j
  split
  · revert hj
    generalize ss[j]? = o, ss'[j]? = o'
    intro hj
    cases hj with
    | none => exact .none
    | some hs => exact .some (hf _ _ hs)
  · exact hj

theorem ofVariable_twin (name emitted : String) (type : Scalar) (storage : Storage) :
    Symbol.Twin (.ofVariable name emitted type storage) (.ofVariable name emitted type storage) :=
  ⟨rfl, rfl, rfl, .none⟩

theorem ofFunction_twin {f f' : Function} (h : Function.Twin f f') (name : String) :
    Symbol.Twin (.ofFunction name f) (.ofFunction name f') :=
  ⟨rfl, rfl, rfl, .some h⟩

/-- One more variable on either side. -/
theorem addVariable_twins (name emitted : String) (storage : Storage) :
    Twins (addSymbol (.ofVariable name emitted .int storage))
      (addSymbol (.ofVariable name emitted .int storage)) (fun k k' => k' = k) := by
  refine .read fun r r' hr => (Twins.set ?_).bind fun _ _ _ => .pure hr.symbols.size
  exact ⟨Confined.pushVariable hr.integer le_rfl _ _ _, hr.instances, hr.counters,
    push_twin hr.symbols (ofVariable_twin _ _ _ _), hr.globals, hr.frame, hr.inferred⟩

/-- One more function on either side. -/
theorem addFunction_twins {f f' : Function} (h : Function.Twin f f') (hf : f.body.IsFloatFree)
    (name : String) :
    Twins (addSymbol (.ofFunction name f)) (addSymbol (.ofFunction name f'))
      (fun k k' => k' = k) := by
  refine .read fun r r' hr => (Twins.set ?_).bind fun _ _ _ => .pure hr.symbols.size
  exact ⟨Confined.pushFunction hr.integer name ((Node.isFloatFree_shape _).2 hf), hr.instances,
    hr.counters, push_twin hr.symbols (ofFunction_twin h name), hr.globals, hr.frame, hr.inferred⟩

theorem bindGlobal_twins (name : String) (k : Nat) :
    Twins (bindGlobal name k) (bindGlobal name k) (fun _ _ => True) :=
  .modify fun _ _ hr => ⟨hr.integer, hr.instances, hr.counters, hr.symbols,
    congrArg (Scope.bind name k) hr.globals, hr.frame, hr.inferred⟩

theorem lookup_twin (hr : Round.Twin r r') (name : String) : r'.lookup name = r.lookup name := by
  rw [Round.lookup, Round.lookup, hr.frame, hr.globals]

/-! ### Names -/

/-- What a name stands for is the same but for its definition. -/
def SameFound (p p' : Nat × Symbol) : Prop :=
  p'.1 = p.1 ∧ Symbol.Twin p.2 p'.2 ∧ p.2.type.getD .int ≤ .int ∧
    ∀ f, p.2.definition = some f → f.body.IsFloatFree

theorem find?_twins (name : String) :
    Twins (find? name) (find? name) (Option.Rel SameFound) := by
  refine .read fun r r' hr => .pure ?_
  rw [lookup_twin hr]
  cases r.lookup name with
  | none => exact .none
  | some k =>
      have hk := hr.symbols.get k
      have htype := hr.integer.types k
      have hbody := hr.integer.bodies k
      revert hk htype hbody
      simp only [Option.bind_some]
      generalize r.symbols[k]? = o, r'.symbols[k]? = o'
      intro hk htype hbody
      cases hk with
      | none => exact .none
      | some hs =>
          exact .some ⟨rfl, hs, htype _ rfl, fun f hf =>
            (Node.isFloatFree_shape _).1 (hbody _ f rfl hf)⟩

theorem isFunction_twin {s s' : Symbol} (h : Symbol.Twin s s') : s'.isFunction = s.isFunction := by
  have hdefinition := h.definition
  unfold Symbol.isFunction
  revert hdefinition
  generalize s.definition = o, s'.definition = o'
  intro hdefinition
  cases hdefinition <;> rfl

/-- The same integer symbol. -/
def SameSymbol (p p' : Nat × Scalar) : Prop := p' = p ∧ p.2 = .int

theorem valueOf_twins (m m' : Mark) (name : String) :
    Twins (valueOf m name) (valueOf m' name) SameSymbol := by
  refine (find?_twins name).bind fun o o' ho => ?_
  cases ho with
  | none => exact .fail
  | @some p p' hp =>
      obtain ⟨k, s⟩ := p
      obtain ⟨k', s'⟩ := p'
      obtain ⟨rfl, hs, htype, -⟩ := hp
      dsimp only at hs htype ⊢
      rw [isFunction_twin hs, hs.type]
      split
      · exact .fail
      · exact .pure ⟨rfl, Scalar.eq_int_of_le htype⟩

theorem declare_twins (name : String) :
    Twins (declare name .int) (declare name .int) (fun k k' => k' = k) := by
  refine .read fun r r' hr => ?_
  rw [hr.frame]
  cases r.frame with
  | none =>
      dsimp only
      rw [hr.counters]
      refine (Twins.set ?_).bind fun _ _ _ => (addVariable_twins _ _ _).bind fun k k' hk => ?_
      · exact ⟨hr.integer, hr.instances, rfl, hr.symbols, hr.globals, rfl, hr.inferred⟩
      · subst hk
        exact (bindGlobal_twins _ _).bind fun _ _ _ => .pure rfl
  | some scope =>
      dsimp only
      rw [hr.counters]
      refine (Twins.set ?_).bind fun _ _ _ => (addVariable_twins _ _ _).bind fun k k' hk => ?_
      · exact ⟨hr.integer, hr.instances, rfl, hr.symbols, hr.globals, rfl, hr.inferred⟩
      · subst hk
        refine (Twins.modify fun r r' hr => ?_).bind fun _ _ _ => .pure rfl
        exact ⟨hr.integer, hr.instances, hr.counters, hr.symbols, hr.globals, rfl, hr.inferred⟩

theorem assigned_twins (m m' : Mark) (name : String) :
    Twins (assigned m name .int) (assigned m' name .int) SameSymbol := by
  refine (find?_twins name).bind fun o o' ho => ?_
  cases ho with
  | none =>
      refine (declare_twins name).bind fun k k' hk => .pure ?_
      subst hk
      exact ⟨rfl, rfl⟩
  | @some p p' hp =>
      obtain ⟨k, s⟩ := p
      obtain ⟨k', s'⟩ := p'
      obtain ⟨rfl, hs, htype, -⟩ := hp
      dsimp only at hs htype ⊢
      rw [isFunction_twin hs, hs.type]
      split
      · exact .fail
      · exact .pure ⟨rfl, Scalar.eq_int_of_le htype⟩

/-! ### Calls -/

theorem get?_twin {is is' : Instances} (h : Instances.Twin is is') (name : String) :
    Option.Rel Instance.Twin (is.get? name) (is'.get? name) := by
  obtain ⟨hmade, -, -, -⟩ := h
  unfold Instances.get?
  generalize is.made = l, is'.made = l' at hmade ⊢
  induction hmade with
  | nil => exact .none
  | @cons i i' _ _ hi _ ih =>
      rw [List.find?_cons, List.find?_cons, hi.name]
      split
      · exact .some hi
      · exact ih

theorem copy_twin {f f' : Function} (h : Function.Twin f f') (k k' : Nat) (name : String) :
    Function.Twin (f.copy k name).1 (f'.copy k' name).1 :=
  ⟨rfl, h.params, Node.Computed.number _ _ f.body h.body _ _⟩

theorem insert_twin {is is' : Instances} {i i' : Instance} (h : Instances.Twin is is')
    (hi : Instance.Twin i i') : Instances.Twin (is.insert i) (is'.insert i') := by
  have hget := get?_twin h i.name
  unfold Instances.insert
  rw [hi.name]
  revert hget
  generalize is.get? i.name = o, is'.get? i.name = o'
  intro hget
  cases hget with
  | none =>
      exact ⟨List.rel_append h.made (.cons hi .nil), h.results, h.pending, h.queued⟩
  | some _ => exact h

theorem enqueue_twin {is is' : Instances} (h : Instances.Twin is is') (name : String) :
    Instances.Twin (is.enqueue name).2 (is'.enqueue name).2 := by
  unfold Instances.enqueue
  rw [h.queued, h.pending]
  split
  · exact ⟨h.made, h.results, h.pending, h.queued⟩
  · exact ⟨h.made, h.results, rfl, rfl⟩

/-- Copies of functions that differ in their bodies, without floats. -/
def SameCopy (f f' : Function) : Prop := Function.Twin f f' ∧ f.body.IsFloatFree

theorem instanceOf_twins {f f' : Function} (h : SameCopy f f') (base name : String)
    {args : List Scalar} (hargs : ∀ a ∈ args, a = .int) :
    Twins (instanceOf f base name args) (instanceOf f' base name args) SameCopy := by
  intro r r' hr copy r₁ hcopy
  obtain ⟨h₁, hfree⟩ := instanceOf_integer hr.integer h.2 hargs hcopy
  have hget := get?_twin hr.instances name
  simp only [instanceOf, bind_eq_ok, get_eq_ok, and_assoc, exists_and_left, exists_eq_left] at hcopy
  cases hfound : r.instances.get? name with
  | some i =>
      rw [hfound] at hget
      cases hfound' : r'.instances.get? name with
      | none =>
          rw [hfound'] at hget
          cases hget
      | some i' =>
          rw [hfound'] at hget
          cases hget with
          | some hi =>
              simp only [hfound, pure_eq_ok] at hcopy
              obtain ⟨rfl, rfl⟩ := hcopy
              refine ⟨i'.function, r', ?_, ⟨hi.function, hfree⟩, hr⟩
              simp only [instanceOf, bind_eq_ok, get_eq_ok, and_assoc, exists_and_left,
                exists_eq_left, hfound', pure_eq_ok, and_self]
  | none =>
      rw [hfound] at hget
      cases hfound' : r'.instances.get? name with
      | some i' =>
          rw [hfound'] at hget
          cases hget
      | none =>
          simp only [hfound, bind_eq_ok, set_eq_ok, pure_eq_ok, exists_const,
            exists_eq_left] at hcopy
          obtain ⟨rfl, rfl⟩ := hcopy
          have hcopy := copy_twin h.1 r.fresh r'.fresh name
          refine ⟨(f'.copy r'.fresh name).1, inserted ⟨name, base, (f'.copy r'.fresh name).1, args⟩
            (f'.copy r'.fresh name).2 r', ?_, ⟨hcopy, hfree⟩, ⟨h₁, ?_, hr.counters, hr.symbols,
            hr.globals, hr.frame, hr.inferred⟩⟩
          · simp only [instanceOf, bind_eq_ok, get_eq_ok, and_assoc, exists_and_left,
              exists_eq_left, hfound', set_eq_ok, pure_eq_ok, exists_const, and_self, inserted]
          · exact insert_twin hr.instances ⟨rfl, rfl, hcopy⟩

theorem instantiate_twins {f f' : Function} (h : SameCopy f f') (base name : String)
    {args : List Scalar} (hargs : ∀ a ∈ args, a = .int) :
    Twins (instantiate f base name args) (instantiate f' base name args) (fun k k' => k' = k) := by
  refine (instanceOf_twins h base name hargs).bind fun copy copy' hcopy =>
    (addFunction_twins hcopy.1 hcopy.2 name).bind fun k k' hk => ?_
  subst hk
  refine (bindGlobal_twins name _).bind fun _ _ _ => (Twins.modify fun r r' hr => ?_).bind
    fun _ _ _ => .pure rfl
  exact ⟨enqueue_confined hr.integer name, enqueue_twin hr.instances name, hr.counters, hr.symbols,
    hr.globals, hr.frame, hr.inferred⟩

theorem returns_twin (hr : Round.Twin r r') (name : String) :
    r'.instances.returns name = r.instances.returns name := by
  rw [Instances.returns, Instances.returns, hr.instances.results]

/-- The same call with an integer for its result. -/
def SameCall (p p' : Nat × Nat × Scalar) : Prop := p' = p ∧ p.2.2 = .int

theorem called_twins (m m' n n' : Mark) (base : String) {args : List Scalar}
    (hargs : ∀ a ∈ args, a = .int) :
    Twins (called m n base args) (called m' n' base args) SameCall := by
  -- what is left to do once the symbol of the instance is known
  have hrest : ∀ t k : Nat, Twins (do
        modify fun r => { r with symbols := r.symbols.modify k fun s => { s with used := true } }
        pure (t, k, (← get).instances.returns (decorate base args))) (do
        modify fun r => { r with symbols := r.symbols.modify k fun s => { s with used := true } }
        pure (t, k, (← get).instances.returns (decorate base args))) SameCall := by
    intro t k
    refine (Twins.modify fun r r' hr => ?_).bind fun _ _ _ => .read fun r r' hr => .pure ?_
    · exact ⟨@Confined.modify _ _ _ _ _ _ hr.integer k (fun s => { s with used := true })
        (fun _ hs => hs) fun _ => rfl, hr.instances, hr.counters,
        modify_twin (f := fun s => { s with used := true }) hr.symbols
          (fun _ _ hs => ⟨hs.type, hs.storage, hs.emittedName, hs.definition⟩) k, hr.globals,
        hr.frame, hr.inferred⟩
    · rw [returns_twin hr]
      exact ⟨rfl, Confined.returns hr.integer _⟩
  refine (find?_twins base).bind fun o o' ho => ?_
  cases ho with
  | none => exact .fail
  | @some p p' hp =>
      obtain ⟨t, s⟩ := p
      obtain ⟨t', s'⟩ := p'
      obtain ⟨rfl, hs, -, hbody⟩ := hp
      have hdefinition := hs.definition
      dsimp only at hbody hdefinition ⊢
      revert hbody hdefinition
      generalize s.definition = d, s'.definition = d'
      intro hbody hdefinition
      cases hdefinition with
      | none => exact .fail
      | @some f f' hf =>
          dsimp only
          rw [hf.params]
          split
          · exact .fail
          · refine .read fun r r' hr => ?_
            rw [lookup_twin hr]
            cases r.lookup (decorate base args) with
            | none =>
                refine (instantiate_twins ⟨hf, hbody f rfl⟩ base _ hargs).bind fun k k' hk => ?_
                subst hk
                exact hrest _ _
            | some k =>
                refine (Twins.pure (R := fun k k' => k' = k) rfl).bind fun k k' hk => ?_
                subst hk
                exact hrest _ _

/-! ### Expressions -/

theorem valueOf_idle {m : Mark} {name : String} {p : Nat × Scalar}
    (hv : valueOf m name r = .ok (p, r')) : r' = r := by
  rw [valueOf, bind_eq_ok] at hv
  obtain ⟨o, r₁, hfind, hv⟩ := hv
  obtain ⟨-, rfl⟩ := find?_eq_ok.1 hfind
  cases o with
  | none => exact absurd hv fail_ne_ok
  | some q =>
      dsimp only at hv
      split at hv
      · exact absurd hv fail_ne_ok
      · exact (pure_eq_ok.1 hv).2

mutual

/-- **A visit of a tree that brings in no name changes nothing**, and the typed tree brings in
none. -/
theorem visit_idle (x : Node Mark) (hx : x.IsIdle) {r r' : Round} {y : Node Note}
    {type : Scalar} (hv : visit x r = .ok ((y, type), r')) : r' = r ∧ y.IsIdle := by
  cases x with
  | identifier m x =>
      simp only [visit, bind_eq_ok, pure_eq_ok, Prod.exists, Prod.mk.injEq] at hv
      obtain ⟨k, s, r₁, hvalue, ⟨rfl, rfl⟩, rfl⟩ := hv
      exact ⟨valueOf_idle hvalue, Node.every_identifier.2 rfl⟩
  | binary m op a b =>
      obtain ⟨hbusy, ha, hb⟩ := Node.every_binary.1 hx
      have hop : op ≠ .assign := by simpa [Node.isBusy] using hbusy
      simp only [visit, if_neg hop, bind_eq_ok, pure_eq_ok, Prod.exists, Prod.mk.injEq] at hv
      obtain ⟨a', s, r₁, ha', b', t, r₂, hb', ⟨rfl, rfl⟩, rfl⟩ := hv
      obtain ⟨rfl, hleft⟩ := visit_idle a ha ha'
      obtain ⟨rfl, hright⟩ := visit_idle b hb hb'
      exact ⟨rfl, Node.every_binary.2 ⟨hbusy, hleft, hright⟩⟩
  | unary m op x =>
      simp only [visit, bind_eq_ok, pure_eq_ok, Prod.exists, Prod.mk.injEq] at hv
      obtain ⟨x', s, r₁, hvx, ⟨rfl, rfl⟩, rfl⟩ := hv
      obtain ⟨rfl, hinner⟩ := visit_idle x (Node.every_unary.1 hx).2 hvx
      exact ⟨rfl, Node.every_unary.2 ⟨rfl, hinner⟩⟩
  | cond m c t e =>
      obtain ⟨-, hc, ht, he⟩ := Node.every_cond.1 hx
      cases e with
      | none =>
          simp only [visit, bind_eq_ok, pure_eq_ok, Prod.exists, Prod.mk.injEq] at hv
          obtain ⟨c', s, r₁, hc', t', s', r₂, ht', ⟨rfl, rfl⟩, rfl⟩ := hv
          obtain ⟨rfl, htest⟩ := visit_idle c hc hc'
          obtain ⟨rfl, hthen⟩ := visit_idle t ht ht'
          exact ⟨rfl, Node.every_cond.2 ⟨rfl, htest, hthen, nofun⟩⟩
      | some e =>
          simp only [visit, bind_eq_ok, pure_eq_ok, Prod.exists, Prod.mk.injEq] at hv
          obtain ⟨c', s, r₁, hc', t', s', r₂, ht', e', s'', r₃, he', ⟨rfl, rfl⟩, rfl⟩ := hv
          obtain ⟨rfl, htest⟩ := visit_idle c hc hc'
          obtain ⟨rfl, hthen⟩ := visit_idle t ht ht'
          obtain ⟨rfl, helse⟩ := visit_idle e (he e rfl) he'
          refine ⟨rfl, Node.every_cond.2 ⟨rfl, htest, hthen, fun z hz => ?_⟩⟩
          cases hz
          exact helse
  | loop m c b =>
      obtain ⟨-, hc, hb⟩ := Node.every_loop.1 hx
      simp only [visit, bind_eq_ok, pure_eq_ok, Prod.exists, Prod.mk.injEq] at hv
      obtain ⟨c', s, r₁, hc', b', s', r₂, hb', ⟨rfl, rfl⟩, rfl⟩ := hv
      obtain ⟨rfl, htest⟩ := visit_idle c hc hc'
      obtain ⟨rfl, hbody⟩ := visit_idle b hb hb'
      exact ⟨rfl, Node.every_loop.2 ⟨rfl, htest, hbody⟩⟩
  | returnValue m v =>
      simp only [visit, bind_eq_ok, pure_eq_ok, Prod.exists, Prod.mk.injEq] at hv
      obtain ⟨v', s, r₁, hvv, ⟨rfl, rfl⟩, rfl⟩ := hv
      obtain ⟨rfl, hinner⟩ := visit_idle v (Node.every_returnValue.1 hx).2 hvv
      exact ⟨rfl, Node.every_returnValue.2 ⟨rfl, hinner⟩⟩
  | block m is =>
      simp only [visit, bind_eq_ok, pure_eq_ok, Prod.exists, Prod.mk.injEq] at hv
      obtain ⟨is', s, r₁, his', ⟨rfl, rfl⟩, rfl⟩ := hv
      obtain ⟨rfl, hinner⟩ := visitList_idle is (Node.every_block.1 hx).2 his'
      exact ⟨rfl, Node.every_block.2 ⟨rfl, hinner⟩⟩
  | literal m v =>
      obtain ⟨heq, rfl⟩ := pure_eq_ok.1 hv
      cases heq
      exact ⟨rfl, Node.every_literal.2 rfl⟩
  | breakLoop m =>
      obtain ⟨heq, rfl⟩ := pure_eq_ok.1 hv
      cases heq
      exact ⟨rfl, Node.every_breakLoop.2 rfl⟩
  | continueLoop m =>
      obtain ⟨heq, rfl⟩ := pure_eq_ok.1 hv
      cases heq
      exact ⟨rfl, Node.every_continueLoop.2 rfl⟩
  | assembly m text =>
      obtain ⟨heq, rfl⟩ := pure_eq_ok.1 hv
      cases heq
      exact ⟨rfl, Node.every_assembly.2 rfl⟩
  | nop m =>
      obtain ⟨heq, rfl⟩ := pure_eq_ok.1 hv
      cases heq
      exact ⟨rfl, Node.every_nop.2 rfl⟩
  | call m f as => exact absurd hx.self (by simp [Node.isBusy])
  | unit m is => exact absurd hx.self (by simp [Node.isBusy])
  | define m p b => exact absurd hx.self (by simp [Node.isBusy])
  | prototype m f ps => exact absurd hx.self (by simp [Node.isBusy])

theorem visitList_idle (xs : List (Node Mark)) (hxs : ∀ x ∈ xs, x.IsIdle) {r r' : Round}
    {ys : List (Node Note)} {type type' : Scalar}
    (hv : visitList type xs r = .ok ((ys, type'), r')) : r' = r ∧ ∀ y ∈ ys, y.IsIdle := by
  cases xs with
  | nil =>
      simp only [visitList, pure_eq_ok, Prod.mk.injEq] at hv
      obtain ⟨⟨rfl, -⟩, rfl⟩ := hv
      exact ⟨rfl, fun _ hy => absurd hy List.not_mem_nil⟩
  | cons x xs =>
      rw [List.forall_mem_cons] at hxs
      simp only [visitList, bind_eq_ok, pure_eq_ok, Prod.exists, Prod.mk.injEq] at hv
      obtain ⟨y, s, r₁, hx, ys, ss, r₂, hys, ⟨rfl, rfl⟩, rfl⟩ := hv
      obtain ⟨rfl, hfirst⟩ := visit_idle x hxs.1 hx
      obtain ⟨rfl, hrest⟩ := visitList_idle xs hxs.2 hys
      exact ⟨rfl, List.forall_mem_cons.2 ⟨hfirst, hrest⟩⟩

end

/-- Visits that gave integers, and trees that differ in what is computed. -/
def SameVisit (p p' : Node Note × Scalar) : Prop :=
  p.2 = .int ∧ p'.2 = .int ∧ Node.Computed SameNote p.1 p'.1

/-- The same along lists. -/
def SameVisits (p p' : List (Node Note) × Scalar) : Prop :=
  p.2 = .int ∧ p'.2 = .int ∧ Node.ComputedList SameNote p.1 p'.1

/-- The same for arguments. -/
def SameArgs (p p' : List (Node Note) × List Scalar) : Prop :=
  p'.2 = p.2 ∧ (∀ t ∈ p.2, t = .int) ∧ Node.ComputedList SameNote p.1 p'.1

/-- A dropped branch is visited on one side only. -/
theorem Twins.dropped {α' β' : Type} {x : Node Mark} (hidle : x.IsIdle) (hfree : x.IsFloatFree)
    {f : Node Note × Scalar → Infer α'} {x' : Infer β'} {S : α' → β' → Prop}
    (hf : ∀ y, y.IsIdle → Twins (f (y, .int)) x' S) : Twins (visit x >>= f) x' S := by
  refine Twins.idle (P := fun p => p.1.IsIdle ∧ p.2 = .int) (fun r p r₁ hr hv => ?_)
    fun p hp => ?_
  · obtain ⟨hround, hy⟩ := visit_idle x hidle hv
    exact ⟨hround, hy, (visit_integer x hfree hr hv).2.2⟩
  · obtain ⟨y, type⟩ := p
    obtain ⟨hy, rfl⟩ := hp
    exact hf y hy

theorem value?_assign {op : BinaryOp} {a b v : Int32} (h : op.value? a b = some v) :
    op ≠ .assign := by
  rintro rfl
  cases h

mutual

/-- **Visits of a tree and of the tree with integers computed stay side by side.** -/
theorem visit_twins (x : Node Mark) (hx : x.IsFloatFree) {x' : Node Mark}
    (h : Node.Computed (fun _ _ => True) x x') : Twins (visit x) (visit x') SameVisit := by
  cases h with
  | @literal n n' v _ =>
      obtain ⟨a, rfl⟩ := Node.exists_int hx
      simp only [visit]
      exact .pure ⟨rfl, rfl, .literal ⟨rfl, rfl⟩⟩
  | @identifier n n' x _ =>
      simp only [visit]
      refine (valueOf_twins n n' x).bind fun p p' hp => .pure ?_
      obtain ⟨rfl, hp⟩ := hp
      exact ⟨hp, hp, .identifier ⟨rfl, rfl⟩⟩
  | @binary n n' op l r l' r' _ hl hr =>
      obtain ⟨-, hxl, hxr⟩ := Node.every_binary.1 hx
      by_cases hop : op = .assign
      · subst hop
        cases l with
        | identifier m x =>
            cases hl with
            | @identifier _ m' _ _ =>
                simp only [visit, if_true]
                refine (visit_twins r hxr hr).bind fun p p' hp => ?_
                obtain ⟨y, s⟩ := p
                obtain ⟨y', s'⟩ := p'
                obtain ⟨rfl, rfl, hy⟩ := hp
                refine (assigned_twins m m' x).bind fun q q' hq => .pure ?_
                obtain ⟨rfl, hq⟩ := hq
                exact ⟨hq, hq, .binary ⟨rfl, rfl⟩ (.identifier ⟨rfl, rfl⟩) hy⟩
        | _ =>
            simp only [visit, if_true]
            exact .fail
      · simp only [visit, if_neg hop]
        refine (visit_twins l hxl hl).bind fun p p' hp => ?_
        obtain ⟨y, s⟩ := p
        obtain ⟨y', s'⟩ := p'
        obtain ⟨rfl, rfl, hy⟩ := hp
        refine (visit_twins r hxr hr).bind fun q q' hq => .pure ?_
        obtain ⟨z, t⟩ := q
        obtain ⟨z', t'⟩ := q'
        obtain ⟨rfl, rfl, hz⟩ := hq
        have htype :
            (if op.isComparison = true then Scalar.int else Scalar.int.join .int) = .int := by
          split <;> rfl
        exact ⟨htype, htype, .binary ⟨rfl, rfl⟩ hy hz⟩
  | @unary n n' op y y' _ hy =>
      simp only [visit]
      refine (visit_twins y (Node.every_unary.1 hx).2 hy).bind fun p p' hp => .pure ?_
      obtain ⟨z, s⟩ := p
      obtain ⟨z', s'⟩ := p'
      obtain ⟨rfl, rfl, hz⟩ := hp
      exact ⟨ite_self _, ite_self _, .unary ⟨rfl, rfl⟩ hz⟩
  | @call n n' f f' as as' _ hf has =>
      obtain ⟨-, -, hxas⟩ := Node.every_call.1 hx
      cases f with
      | identifier m base =>
          cases hf with
          | @identifier _ m' _ _ =>
              simp only [visit]
              refine (visitArgs_twins as hxas has).bind fun p p' hp => ?_
              obtain ⟨ys, types⟩ := p
              obtain ⟨ys', types'⟩ := p'
              obtain ⟨rfl, htypes, hys⟩ := hp
              refine (called_twins n n' m m' base htypes).bind fun q q' hq => .pure ?_
              obtain ⟨rfl, hq⟩ := hq
              exact ⟨hq, hq, .call ⟨rfl, rfl⟩ (.identifier ⟨rfl, rfl⟩) hys⟩
      | _ =>
          simp only [visit]
          exact .fail
  | @cond n n' c t c' t' e e' _ hc ht he =>
      obtain ⟨-, hxc, hxt, hxe⟩ := Node.every_cond.1 hx
      cases he with
      | none =>
          simp only [visit]
          refine (visit_twins c hxc hc).bind fun p p' hp =>
            (visit_twins t hxt ht).bind fun q q' hq => .pure ?_
          obtain ⟨z, s⟩ := q
          obtain ⟨z', s'⟩ := q'
          obtain ⟨rfl, rfl, hz⟩ := hq
          exact ⟨rfl, rfl, .cond ⟨rfl, rfl⟩ hp.2.2 hz .none⟩
      | @some e e' he =>
          simp only [visit]
          refine (visit_twins c hxc hc).bind fun p p' hp =>
            (visit_twins t hxt ht).bind fun q q' hq =>
            (visit_twins e (hxe e rfl) he).bind fun w w' hw => .pure ?_
          obtain ⟨z, s⟩ := q
          obtain ⟨z', s'⟩ := q'
          obtain ⟨rfl, rfl, hz⟩ := hq
          obtain ⟨v, s⟩ := w
          obtain ⟨v', s'⟩ := w'
          obtain ⟨rfl, rfl, hv⟩ := hw
          exact ⟨rfl, rfl, .cond ⟨rfl, rfl⟩ hp.2.2 hz (.some hv)⟩
  | @loop n n' c b c' b' _ hc hb =>
      obtain ⟨-, hxc, hxb⟩ := Node.every_loop.1 hx
      simp only [visit]
      exact (visit_twins c hxc hc).bind fun p p' hp => (visit_twins b hxb hb).bind
        fun q q' hq => .pure ⟨rfl, rfl, .loop ⟨rfl, rfl⟩ hp.2.2 hq.2.2⟩
  | @block n n' is is' _ his =>
      simp only [visit]
      refine (visitList_twins is (Node.every_block.1 hx).2 his).bind fun p p' hp => .pure ?_
      obtain ⟨ys, s⟩ := p
      obtain ⟨ys', s'⟩ := p'
      obtain ⟨rfl, rfl, hys⟩ := hp
      exact ⟨rfl, rfl, .block ⟨rfl, rfl⟩ hys⟩
  | nop _ =>
      simp only [visit]
      exact .pure ⟨rfl, rfl, .nop ⟨rfl, rfl⟩⟩
  | @value n n' m m' op l r a b v _ hl hr hv =>
      obtain ⟨-, hxl, hxr⟩ := Node.every_binary.1 hx
      have hleft := visit_twins l hxl hl
      have hright := visit_twins r hxr hr
      simp only [visit, if_neg (value?_assign hv)] at hleft hright ⊢
      refine hleft.done fun p hp => hright.done fun q hq => .pure ?_
      obtain ⟨y, s⟩ := p
      obtain ⟨rfl, -, hy⟩ := hp
      obtain ⟨z, t⟩ := q
      obtain ⟨rfl, -, hz⟩ := hq
      have htype :
          (if op.isComparison = true then Scalar.int else Scalar.int.join .int) = .int := by
        split <;> rfl
      exact ⟨htype, rfl, .value ⟨congrArg some htype.symm, rfl⟩ hy hz hv⟩
  | @sign n n' m op y a v _ hy hv =>
      have hinner := visit_twins y (Node.every_unary.1 hx).2 hy
      simp only [visit] at hinner ⊢
      refine hinner.done fun p hp => .pure ?_
      obtain ⟨z, s⟩ := p
      obtain ⟨rfl, -, hz⟩ := hp
      have htype : (if op = .not then Scalar.int else .int) = .int := ite_self _
      exact ⟨htype, rfl, .sign ⟨congrArg some htype.symm, rfl⟩ hz hv⟩
  | @yes n m c t x' e v hc hv ht he _ =>
      obtain ⟨-, hxc, hxt, hxe⟩ := Node.every_cond.1 hx
      have htest := visit_twins c hxc hc
      have hthen := visit_twins t hxt ht
      simp only [visit] at htest
      rw [← bind_pure (visit x')]
      cases e with
      | none =>
          simp only [visit]
          refine htest.done fun p hp => hthen.bind fun q q' hq => .pure ?_
          obtain ⟨z, s⟩ := q
          obtain ⟨z', s'⟩ := q'
          obtain ⟨rfl, rfl, hz⟩ := hq
          exact ⟨rfl, rfl, .yes hp.2.2 hv hz nofun hz.isDefinition_computed⟩
      | some e =>
          simp only [visit]
          refine htest.done fun p hp => hthen.bind fun q q' hq =>
            Twins.dropped (he e rfl) (hxe e rfl) fun w hw => .pure ?_
          obtain ⟨z, s⟩ := q
          obtain ⟨z', s'⟩ := q'
          obtain ⟨rfl, rfl, hz⟩ := hq
          refine ⟨rfl, rfl, .yes hp.2.2 hv hz (fun u hu => ?_) hz.isDefinition_computed⟩
          cases hu
          exact hw
  | @no n m c t e x' hc ht he _ =>
      obtain ⟨-, hxc, hxt, hxe⟩ := Node.every_cond.1 hx
      have htest := visit_twins c hxc hc
      have helse := visit_twins e (hxe e rfl) he
      rw [← bind_pure (visit x')]
      simp only [visit] at htest ⊢
      refine htest.done fun p hp => Twins.dropped ht hxt fun w hw => helse.bind fun q q' hq =>
        .pure ?_
      obtain ⟨z, s⟩ := q
      obtain ⟨z', s'⟩ := q'
      obtain ⟨rfl, rfl, hz⟩ := hq
      exact ⟨rfl, rfl, .no hp.2.2 hw hz hz.isDefinition_computed⟩
  | @skip n n' m c t _ hc ht =>
      obtain ⟨-, hxc, hxt, -⟩ := Node.every_cond.1 hx
      have htest := visit_twins c hxc hc
      simp only [visit] at htest ⊢
      refine htest.done fun p hp => Twins.dropped ht hxt fun w hw => .pure ?_
      exact ⟨rfl, rfl, .skip ⟨rfl, rfl⟩ hp.2.2 hw⟩

theorem visitArgs_twins (xs : List (Node Mark)) (hxs : ∀ x ∈ xs, x.IsFloatFree)
    {xs' : List (Node Mark)} (h : Node.ComputedList (fun _ _ => True) xs xs') :
    Twins (visitArgs xs) (visitArgs xs') SameArgs := by
  cases h with
  | nil =>
      simp only [visitArgs]
      exact .pure ⟨rfl, fun _ ht => absurd ht List.not_mem_nil, .nil⟩
  | @cons x x' xs xs' hx hrest =>
      rw [List.forall_mem_cons] at hxs
      simp only [visitArgs]
      refine (visit_twins x hxs.1 hx).bind fun p p' hp =>
        (visitArgs_twins xs hxs.2 hrest).bind fun q q' hq => .pure ?_
      obtain ⟨y, s⟩ := p
      obtain ⟨y', s'⟩ := p'
      obtain ⟨rfl, rfl, hy⟩ := hp
      exact ⟨congrArg (Scalar.int :: ·) hq.1, List.forall_mem_cons.2 ⟨rfl, hq.2.1⟩, .cons hy hq.2.2⟩

theorem visitList_twins (xs : List (Node Mark)) (hxs : ∀ x ∈ xs, x.IsFloatFree)
    {xs' : List (Node Mark)} (h : Node.ComputedList (fun _ _ => True) xs xs') :
    Twins (visitList .int xs) (visitList .int xs') SameVisits := by
  cases h with
  | nil =>
      simp only [visitList]
      exact .pure ⟨rfl, rfl, .nil⟩
  | @cons x x' xs xs' hx hrest =>
      rw [List.forall_mem_cons] at hxs
      simp only [visitList]
      refine (visit_twins x hxs.1 hx).bind fun p p' hp => ?_
      obtain ⟨y, s⟩ := p
      obtain ⟨y', s'⟩ := p'
      obtain ⟨rfl, rfl, hy⟩ := hp
      simp only [ite_self]
      exact (visitList_twins xs hxs.2 hrest).bind fun q q' hq =>
        .pure ⟨hq.1, hq.2.1, .cons hy hq.2.2⟩

end

/-! ### Definitions and instances -/

theorem declareFunctions_twins {fs fs' : List Function} (h : List.Forall₂ SameCopy fs fs') :
    Twins (declareFunctions fs) (declareFunctions fs') (fun _ _ => True) := by
  induction h with
  | nil => exact .pure trivial
  | @cons f f' _ _ hf _ ih =>
      refine .read fun r r' hr => ?_
      rw [hr.globals, hf.1.name]
      split
      · exact .fail
      · refine (addFunction_twins hf.1 hf.2 f.name).bind fun k k' hk => ?_
        subst hk
        exact (bindGlobal_twins _ _).bind fun _ _ _ => ih

theorem declareParams_twins (span span' : Span) {ps : List (String × Scalar)}
    (hps : ∀ p ∈ ps, p.2 = .int) :
    Twins (declareParams span ps) (declareParams span' ps) (fun _ _ => True) := by
  induction ps with
  | nil => exact .pure trivial
  | cons p ps ih =>
      obtain ⟨name, type⟩ := p
      rw [List.forall_mem_cons] at hps
      obtain ⟨rfl, hps⟩ := hps
      refine .read fun r r' hr => ?_
      rw [hr.frame, hr.counters]
      dsimp only
      split
      · exact .fail
      · refine (Twins.set ?_).bind fun _ _ _ => (addVariable_twins _ _ _).bind fun k k' hk => ?_
        · exact ⟨hr.integer, hr.instances, rfl, hr.symbols, hr.globals, rfl, hr.inferred⟩
        · subst hk
          refine (Twins.modify fun r r' hr => ?_).bind fun _ _ _ => ih hps
          exact ⟨hr.integer, hr.instances, hr.counters, hr.symbols, hr.globals, rfl, hr.inferred⟩

/-- The rounds after an instance was inferred. -/
theorem finished_twin (hr : Round.Twin r r') {i i' : Instance} (hi : Instance.Twin i i')
    {found found' : Inferred} (hfound : Inferred.Twin found found')
    (hbody : found.body.IsTracked .int ∧ found.body.shape.IsFloatFree) :
    Round.Twin (finished i .int found r) (finished i' .int found' r') := by
  refine ⟨finished_confined hr.integer hbody, ?_, hr.counters, ?_, hr.globals, rfl,
    List.rel_append hr.inferred (.cons hfound .nil)⟩
  · exact ⟨hr.instances.made, by simp only [finished, Instances.record, hi.name,
      hr.instances.results], hr.instances.pending, hr.instances.queued⟩
  · simp only [finished, hr.globals, hi.name]
    split
    · exact modify_twin (f := fun s => { s with type := some .int }) hr.symbols
        (fun _ _ hs => ⟨rfl, hs.storage, hs.emittedName, hs.definition⟩) _
    · exact hr.symbols

/-- **Instances that differ in their bodies are inferred side by side.** -/
theorem visitInstance_twins {i i' : Instance} (hi : Instance.Twin i i')
    (hargs : ∀ a ∈ i.args, a = .int) (hfree : i.function.body.IsFloatFree) :
    Twins (visitInstance i) (visitInstance i') (fun _ _ => True) := by
  rw [visitInstance_eq, visitInstance_eq, hi.function.params, hi.args]
  refine (Twins.modify fun r r' hr => ?_).bind fun _ _ _ => (declareParams_twins _ _
    fun p hp => hargs _ (List.of_mem_zip hp).2).bind fun _ _ _ => ?_
  · exact ⟨hr.integer, hr.instances, hr.counters, hr.symbols, hr.globals, rfl, hr.inferred⟩
  · refine ((visit_twins _ hfree hi.function.body).learn
      (P := fun p => p.1.IsTracked .int ∧ p.1.shape.IsFloatFree) fun r p r₁ hr hv => ?_).bind
        fun p p' hp => ?_
    · obtain ⟨-, htracks, -⟩ := visit_integer _ hfree hr hv
      exact ⟨htracks.tracked, htracks.shape ▸ (Node.isFloatFree_shape _).2 hfree⟩
    obtain ⟨y, s⟩ := p
    obtain ⟨y', s'⟩ := p'
    obtain ⟨⟨rfl, rfl, hy⟩, hbody⟩ := hp
    refine .read fun r r' hr => .set (finished_twin hr hi ?_ hbody)
    exact ⟨hi.name, by rw [hr.frame], rfl, hy⟩

/-! ### The queue -/

/-- The first name is taken out of both queues. -/
theorem next_twin (hr : Round.Twin r r') (rest : List String) :
    Round.Twin { r with instances := { r.instances with pending := rest } }
      { r' with instances := { r'.instances with pending := rest } } :=
  ⟨⟨hr.integer.types, hr.integer.bodies, hr.integer.made, hr.integer.results, hr.integer.inferred,
    hr.integer.changed⟩, ⟨hr.instances.made, hr.instances.results, rfl, hr.instances.queued⟩,
    hr.counters, hr.symbols, hr.globals, hr.frame, hr.inferred⟩

/-- **The queues are worked off side by side.** -/
theorem drain_twins (fuel : Nat) : Twins (drain fuel) (drain fuel) (fun _ _ => True) := by
  induction fuel with
  | zero => exact .pure trivial
  | succ fuel ih =>
      intro r r' hr a r₁ ha
      simp only [drain, bind_eq_ok, get_eq_ok, and_assoc, exists_and_left, exists_eq_left,
        Instances.next, hr.instances.pending] at ha ⊢
      cases hpending : r.instances.pending with
      | nil =>
          simp only [hpending, pure_eq_ok] at ha ⊢
          obtain ⟨-, rfl⟩ := ha
          exact ⟨a, r', ⟨trivial, rfl⟩, trivial, hr⟩
      | cons name rest =>
          simp only [hpending, bind_eq_ok, set_eq_ok, exists_eq_left, exists_const] at ha ⊢
          have hnext := next_twin hr rest
          have hget := get?_twin hnext.instances name
          cases hfound : Instances.get? name { r.instances with pending := rest } with
          | none =>
              rw [hfound] at ha
              exact absurd ha throw_ne_ok
          | some i =>
              rw [hfound] at hget
              cases hfound' : Instances.get? name { r'.instances with pending := rest } with
              | none =>
                  simp only [hfound'] at hget
                  cases hget
              | some i' =>
                  simp only [hfound'] at hget
                  cases hget with
                  | some hi =>
                      simp only [hfound] at ha
                      obtain ⟨hargs, hfree⟩ := hr.integer.made i (List.mem_of_find?_eq_some hfound)
                      exact (visitInstance_twins hi (fun a ha => Scalar.eq_int_of_le (hargs a ha))
                        ((Node.isFloatFree_shape _).1 hfree)).bind (fun _ _ _ => ih) _ _ hnext
                        a r₁ ha

/-! ### Items -/

theorem visitItems_twins {xs xs' : List (Node Mark)} (hxs : ∀ x ∈ xs, x.IsFloatFree)
    (h : List.Forall₂ Node.ComputedItem xs xs') :
    Twins (visitItems xs) (visitItems xs') (fun ys ys' => Node.ComputedList SameNote
      (ys.filter fun y => !y.isDefinition) (ys'.filter fun y => !y.isDefinition)) := by
  induction h with
  | nil => exact .pure .nil
  | @cons x x' xs xs' hx hrest ih =>
      rw [List.forall_mem_cons] at hxs
      cases hx with
      | @define n m n' m' f ps b b' _ =>
          have hn : (Node.define n (.prototype m f ps) b).isDefinition = true := rfl
          have hn' : (Node.define n' (.prototype m' f ps) b').isDefinition = true := rfl
          rw [visitItems, visitItems, if_pos hn, if_pos hn', pure_bind, pure_bind]
          exact (ih hxs.2).bind fun ys ys' hys => .pure hys
      | expression hx =>
          rw [visitItems, visitItems, if_neg (by rw [hx.isDefinition]; exact nofun),
            if_neg (by rw [hx.isDefinition_computed]; exact nofun)]
          refine (visit_twins x hxs.1 hx).bind fun p p' hp => ?_
          obtain ⟨-, -, hy⟩ := hp
          rw [pure_bind, pure_bind]
          refine (ih hxs.2).bind fun ys ys' hys => .pure ?_
          rw [List.filter_cons_of_pos (by rw [hy.isDefinition]; rfl),
            List.filter_cons_of_pos (by rw [hy.isDefinition_computed]; rfl)]
          exact .cons hy hys

/-- The definitions of a unit, and those with integers computed. -/
theorem definitions_computed {xs xs' : List (Node Mark)} (hxs : ∀ x ∈ xs, x.IsFloatFree)
    (h : List.Forall₂ Node.ComputedItem xs xs') :
    List.Forall₂ SameCopy (Node.definitions xs) (Node.definitions xs') := by
  induction h with
  | nil => exact .nil
  | @cons x x' xs xs' hx _ ih =>
      rw [List.forall_mem_cons] at hxs
      cases hx with
      | define hb => exact .cons ⟨⟨rfl, rfl, hb⟩, (Node.every_define.1 hxs.1).2.2⟩ (ih hxs.2)
      | expression hx =>
          have hnone : ∀ {y : Node Mark}, y.isDefinition = false → Function.ofNode? y = none := by
            intro y hy
            unfold Function.ofNode?
            split
            · cases hy
            · rfl
          rw [Node.definitions, Node.definitions,
            List.filterMap_cons_none (hnone hx.isDefinition),
            List.filterMap_cons_none (hnone hx.isDefinition_computed)]
          exact ih hxs.2

/-! ### Units -/

/-- Typed units that differ in what is computed. -/
def SameRoot (y y' : Node Note) : Prop :=
  ∃ n n' ys ys', y = .unit n ys ∧ y' = .unit n' ys' ∧ Node.ComputedList SameNote
    (ys.filter fun y => !y.isDefinition) (ys'.filter fun y => !y.isDefinition)

theorem signatures_computed {fs fs' : List Function} (h : List.Forall₂ SameCopy fs fs') :
    signatures fs' = signatures fs := by
  induction h with
  | nil => rfl
  | cons hf _ ih => rw [signatures, signatures, hf.1.params, ih]

theorem visitUnit_twins (mark mark' : Mark) {xs xs' : List (Node Mark)}
    (hxs : ∀ x ∈ xs, x.IsFloatFree) (h : List.Forall₂ Node.ComputedItem xs xs') :
    Twins (visitUnit mark xs) (visitUnit mark' xs') SameRoot := by
  have hfs := definitions_computed hxs h
  unfold visitUnit
  dsimp only
  rw [signatures_computed hfs]
  exact (declareFunctions_twins hfs).bind fun _ _ _ => (visitItems_twins hxs h).bind
    fun ys ys' hys => (drain_twins _).bind fun _ _ _ => .pure ⟨_, _, ys, ys', rfl, rfl, hys⟩

theorem start_twin (k k' : Nat) : Round.Twin (.start k .empty) (.start k' .empty) :=
  ⟨isConfined_start k, ⟨.nil, rfl, rfl, rfl⟩, rfl, ⟨rfl, fun _ => .none⟩, rfl, rfl, .nil⟩

end Infer

namespace Document

/-- **Inference of a unit and of the unit with some of its integers computed** come to typings that
stand side by side. -/
theorem infer_twin {d d' : Document} {mark mark' : Mark} {xs xs' : List (Node Mark)} {t : Typing}
    (hroot : d.root = .unit mark xs) (hroot' : d'.root = .unit mark' xs')
    (hxs : ∀ x ∈ xs, x.IsFloatFree) (h : List.Forall₂ Node.ComputedItem xs xs')
    (ht : d.infer = .ok t) :
    ∃ t', d'.infer = .ok t' ∧ Infer.SameRoot t.root t'.root ∧ Round.Twin t.round t'.round := by
  have hxs' := Node.isFloatFree_computedItems h hxs
  rw [infer, hroot] at ht
  dsimp only at ht
  rw [inferFrom_confined fun x hx => (hxs x hx).isConfined] at ht
  cases hv : (Infer.visitUnit mark xs).run (.start d.fresh .empty) with
  | error e =>
      rw [hv] at ht
      cases ht
  | ok p =>
      obtain ⟨root, r⟩ := p
      rw [hv] at ht
      cases ht
      obtain ⟨root', r', hv', hroots, hr⟩ := Infer.visitUnit_twins mark mark' hxs h _ _
        (Infer.start_twin d.fresh d'.fresh) root r hv
      refine ⟨⟨root', r'⟩, ?_, hroots, hr⟩
      rw [infer, hroot']
      dsimp only
      rw [inferFrom_confined fun x hx => (hxs' x hx).isConfined]
      exact congrArg (Except.map fun p : Node Note × Round => (⟨p.1, p.2⟩ : Typing)) hv'

end Document

end StackLang
