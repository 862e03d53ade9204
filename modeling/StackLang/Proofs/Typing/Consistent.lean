/-
**The last round is consistent.**

Rounds take the results of instances from a table that changes while they run, and what a tree says
of a call is what the table said when the call was met.  Only a round that records nothing new ends
with the table that it started from; so in the last round every call has the type of the body that
it goes to, also where functions call each other.  In such a round the types are those of a typing
relation on the finished tree, in which no table occurs.

Main definitions:

* `WellTyped` — the typing rules;
* `Round.Names`, `Round.Calls` — what names and calls stand for in a state of a round;
* `Round.Exact`, `Round.Stays` — what a round keeps besides its invariant, and what lasts of it;
* `Typing.Consistent` — all trees of a typing are well typed.

Main results:

* `WellTyped.mono` — a tree stays well typed;
* `Infer.visit_wellTyped` — a visit leaves a well typed tree;
* `Infer.drain_consistent` — so does the work on the queue, if nothing new is recorded;
* `Compile.consistent_infer` — the typing of a source text is consistent.
-/

import StackLang.Proofs.Typing.Settles
import StackLang.Proofs.Typing.Steps

set_option relaxedAutoImplicit false
set_option autoImplicit false

namespace StackLang

open Step Infer

/-! ### Typing rules -/

namespace Node

variable {α β : Type}

/-- Whether a cell is left depends on the shape. -/
theorem yieldsCell_of_shape {x : Node α} {y : Node β} (h : y.shape = x.shape) :
    y.yieldsCell = x.yieldsCell := by
  rw [← yieldsCell_shape, h, yieldsCell_shape]

/-- The type of a block: that of its last statement, and an integer if there is none or it leaves no
cell. -/
def listType : List (Node Note) → Option Scalar
  | [] => some .int
  | [x] => if x.yieldsCell then x.note.type else some .int
  | _ :: y :: xs => listType (y :: xs)

end Node

/-- **The typing rules.**  A name stands for the variable with the number `k` and the type `s` where
`var` says so, and a call of a name with arguments of some types goes to the instance with the
number `k` and the result `s` where `fn` says so.  The callee itself has no type. -/
inductive WellTyped (var : String → Nat → Scalar → Prop)
    (fn : String → List Scalar → Nat → Scalar → Prop) : Node Note → Prop where
  | literal {n : Note} {v : Literal} (hn : n.type = some v.scalar) :
      WellTyped var fn (.literal n v)
  | identifier {n : Note} {x : String} {k : Nat} {s : Scalar} (hk : n.symbol = some k)
      (hx : var x k s) (hn : n.type = some s) : WellTyped var fn (.identifier n x)
  | assign {n m : Note} {x : String} {r : Node Note} {k : Nat} {s : Scalar}
      (hk : m.symbol = some k) (hx : var x k s) (hm : m.type = some s) (hn : n.type = some s)
      (hr : WellTyped var fn r) : WellTyped var fn (.binary n .assign (.identifier m x) r)
  | binary {n : Note} {op : BinaryOp} {l r : Node Note} {s t : Scalar} (hop : op ≠ .assign)
      (hl : WellTyped var fn l) (hr : WellTyped var fn r) (hs : l.note.type = some s)
      (ht : r.note.type = some t)
      (hn : n.type = some (if op.isComparison then .int else s.join t)) :
      WellTyped var fn (.binary n op l r)
  | unary {n : Note} {op : UnaryOp} {x : Node Note} {s : Scalar} (hx : WellTyped var fn x)
      (hs : x.note.type = some s) (hn : n.type = some (if op = .not then .int else s)) :
      WellTyped var fn (.unary n op x)
  | call {n m : Note} {f : String} {as : List (Node Note)} {types : List Scalar} {k : Nat}
      {s : Scalar} (has : ∀ x ∈ as, WellTyped var fn x)
      (htypes : as.map (fun x => x.note.type) = types.map some) (hk : n.symbol = some k)
      (hf : fn f types k s) (hn : n.type = some s) :
      WellTyped var fn (.call n (.identifier m f) as)
  | cond {n : Note} {c t : Node Note} (hc : WellTyped var fn c) (ht : WellTyped var fn t)
      (hn : n.type = t.note.type) : WellTyped var fn (.cond n c t none)
  | condElse {n : Note} {c t e : Node Note} {s s' : Scalar} (hc : WellTyped var fn c)
      (ht : WellTyped var fn t) (he : WellTyped var fn e) (hs : t.note.type = some s)
      (hs' : e.note.type = some s') (hn : n.type = some (s.join s')) :
      WellTyped var fn (.cond n c t (some e))
  | loop {n : Note} {c b : Node Note} (hc : WellTyped var fn c) (hb : WellTyped var fn b)
      (hn : n.type = some .int) : WellTyped var fn (.loop n c b)
  | breakLoop {n : Note} (hn : n.type = some .int) : WellTyped var fn (.breakLoop n)
  | continueLoop {n : Note} (hn : n.type = some .int) : WellTyped var fn (.continueLoop n)
  | returnValue {n : Note} {v : Node Note} (hv : WellTyped var fn v) (hn : n.type = v.note.type) :
      WellTyped var fn (.returnValue n v)
  | block {n : Note} {is : List (Node Note)} (his : ∀ x ∈ is, WellTyped var fn x)
      (hn : n.type = Node.listType is) : WellTyped var fn (.block n is)
  | assembly {n : Note} {text : String} (hn : n.type = some .int) :
      WellTyped var fn (.assembly n text)
  | nop {n : Note} (hn : n.type = some .int) : WellTyped var fn (.nop n)

/-- **A tree stays well typed** when names and calls stand for what they stood for. -/
theorem WellTyped.mono {var var' : String → Nat → Scalar → Prop}
    {fn fn' : String → List Scalar → Nat → Scalar → Prop} {x : Node Note}
    (h : WellTyped var fn x) (hvar : ∀ x k s, var x k s → var' x k s)
    (hfn : ∀ f types k s, fn f types k s → fn' f types k s) : WellTyped var' fn' x := by
  induction h with
  | literal hn => exact .literal hn
  | identifier hk hx hn => exact .identifier hk (hvar _ _ _ hx) hn
  | assign hk hx hm hn _ ih => exact .assign hk (hvar _ _ _ hx) hm hn ih
  | binary hop _ _ hs ht hn ihl ihr => exact .binary hop ihl ihr hs ht hn
  | unary _ hs hn ih => exact .unary ih hs hn
  | call _ htypes hk hf hn ih => exact .call ih htypes hk (hfn _ _ _ _ hf) hn
  | cond _ _ hn ihc iht => exact .cond ihc iht hn
  | condElse _ _ _ hs hs' hn ihc iht ihe => exact .condElse ihc iht ihe hs hs' hn
  | loop _ _ hn ihc ihb => exact .loop ihc ihb hn
  | breakLoop hn => exact .breakLoop hn
  | continueLoop hn => exact .continueLoop hn
  | returnValue _ hn ih => exact .returnValue ih hn
  | block _ hn ih => exact .block ih hn
  | assembly hn => exact .assembly hn
  | nop hn => exact .nop hn

/-! ### What names and calls stand for -/

namespace Round

variable {fs : List Function} {done : List String} {r r' r'' : Round} {frame : Option Scope}

/-- In a function with the scope `frame`, or outside of every function, the name stands for the
variable with the number `k`, which has the type `s`. -/
def Names (r : Round) (frame : Option Scope) (x : String) (k : Nat) (s : Scalar) : Prop :=
  (frame.bind (Scope.lookup x)).or (r.globals.lookup x) = some k ∧
    ∃ v : Symbol, r.symbols[k]? = some v ∧ v.definition = none ∧ v.type = some s

/-- The decorated name of a call is bound to the symbol `k` of its instance. -/
structure Binds (r : Round) (f : String) (types : List Scalar) (k : Nat) (i : Instance) : Prop where
  made : i ∈ r.instances.made
  base : i.base = f
  args : i.args = types
  name : i.name = decorate f types
  bound : r.globals.lookup i.name = some k
  symbol : ∃ v : Symbol, r.symbols[k]? = some v ∧ v.definition = some i.function

/-- A call goes to the symbol of its instance, and its type is the result that is known of it. -/
def Calls (r : Round) (f : String) (types : List Scalar) (k : Nat) (s : Scalar) : Prop :=
  ∃ i, r.Binds f types k i ∧ i.name ∈ r.instances.queued ∧ r.instances.returns i.name = s

/-- Variables have types, and instances are bound under the names that their functions and types
give them. -/
structure Exact (r : Round) : Prop where
  typed : ∀ (k : Nat) (s : Symbol), r.symbols[k]? = some s → s.definition = none →
    ∃ type, s.type = some type
  base : ∀ i ∈ r.instances.made, IsSourceName i.base ∧ i.name = decorate i.base i.args
  serves : ∀ i ∈ r.instances.made, ∀ k, r.globals.lookup i.name = some k →
    ∃ s : Symbol, r.symbols[k]? = some s ∧ s.definition = some i.function

/-- Variables keep their types. -/
def KeepsTypes (r r' : Round) : Prop :=
  ∀ (k : Nat) (s : Symbol), r.symbols[k]? = some s → s.definition = none →
    ∃ s' : Symbol, r'.symbols[k]? = some s' ∧ s'.definition = none ∧ s'.type = s.type

/-- What a visit keeps: bindings, types and results. -/
structure Keeps (r r' : Round) : Prop where
  extend : r.Extends r'
  types : r.KeepsTypes r'
  lookup : ∀ n k, r.lookup n = some k → r'.lookup n = some k
  results : r'.instances.results = r.instances.results
  changed : r'.changed = r.changed
  exact : r.Exact → r'.Exact

/-- **What lasts from one function to the next.**  Results last as long as nothing new is recorded.
-/
structure Stays (r r' : Round) : Prop where
  extend : (outside r).Extends (outside r')
  types : r.KeepsTypes r'
  settled : r'.changed = false →
    r.changed = false ∧ ∀ n, r'.instances.returns n = r.instances.returns n

theorem KeepsTypes.refl (r : Round) : r.KeepsTypes r := fun _ s hs hv => ⟨s, hs, hv, rfl⟩

theorem KeepsTypes.trans (h : r.KeepsTypes r') (h' : r'.KeepsTypes r'') : r.KeepsTypes r'' := by
  intro k s hs hv
  obtain ⟨s', hs', hv', htype⟩ := h k s hs hv
  obtain ⟨s'', hs'', hv'', htype'⟩ := h' k s' hs' hv'
  exact ⟨s'', hs'', hv'', htype'.trans htype⟩

theorem Stays.refl (r : Round) : r.Stays r := ⟨.refl _, .refl r, fun h => ⟨h, fun _ => rfl⟩⟩

theorem Stays.trans (h : r.Stays r') (h' : r'.Stays r'') : r.Stays r'' := by
  refine ⟨h.extend.trans h'.extend, h.types.trans h'.types, fun hchanged => ?_⟩
  obtain ⟨hchanged', hreturns'⟩ := h'.settled hchanged
  obtain ⟨hchanged'', hreturns⟩ := h.settled hchanged'
  exact ⟨hchanged'', fun n => (hreturns' n).trans (hreturns n)⟩

theorem Keeps.returns (h : r.Keeps r') (n : String) :
    r'.instances.returns n = r.instances.returns n := by
  rw [Instances.returns, h.results, Instances.returns]

theorem Keeps.stays (h : r.Keeps r') : r.Stays r' :=
  ⟨extends_outside h.extend, h.types, fun hchanged => ⟨h.changed ▸ hchanged, h.returns⟩⟩

theorem Names.stays {x : String} {k : Nat} {s : Scalar} (hx : r.Names frame x k s)
    (h : r.Stays r') : r'.Names frame x k s := by
  obtain ⟨hk, v, hv, hvariable, htype⟩ := hx
  obtain ⟨v', hv', hvariable', htype'⟩ := h.types k v hv hvariable
  refine ⟨?_, v', hv', hvariable', htype'.trans htype⟩
  rw [Option.or_eq_some_iff] at hk ⊢
  exact hk.imp id fun hk => ⟨hk.1, h.extend.globals x k hk.2⟩

theorem Names.keeps {x : String} {k : Nat} {s : Scalar} (hx : r.Names r.frame x k s)
    (h : r.Keeps r') : r'.Names r'.frame x k s := by
  obtain ⟨hk, v, hv, hvariable, htype⟩ := hx
  obtain ⟨v', hv', hvariable', htype'⟩ := h.types k v hv hvariable
  exact ⟨h.lookup x k hk, v', hv', hvariable', htype'.trans htype⟩

theorem Binds.extends {f : String} {types : List Scalar} {k : Nat} {i : Instance}
    (hi : r.Binds f types k i) (h : (outside r).Extends (outside r')) : r'.Binds f types k i := by
  obtain ⟨v, hv, hfunction⟩ := hi.symbol
  obtain ⟨v', hv', hkept⟩ := h.symbols k v hv
  exact ⟨h.made i hi.made, hi.base, hi.args, hi.name, h.globals _ _ hi.bound, v', hv',
    hkept.definition.trans hfunction⟩

theorem Calls.stays {f : String} {types : List Scalar} {k : Nat} {s : Scalar}
    (hf : r.Calls f types k s) (h : r.Stays r') (hchanged : r'.changed = false) :
    r'.Calls f types k s := by
  obtain ⟨i, hi, hqueued, hs⟩ := hf
  exact ⟨i, hi.extends h.extend, h.extend.queued _ hqueued, ((h.settled hchanged).2 _).trans hs⟩

theorem Calls.keeps {f : String} {types : List Scalar} {k : Nat} {s : Scalar}
    (hf : r.Calls f types k s) (h : r.Keeps r') : r'.Calls f types k s := by
  obtain ⟨i, hi, hqueued, hs⟩ := hf
  exact ⟨i, hi.extends (extends_outside h.extend), h.extend.queued _ hqueued,
    (h.returns _).trans hs⟩

end Round

namespace Infer

open Round

variable {fs : List Function} {done : List String} {r r' : Round}

/-! ### The changes of a visit -/

theorem keeps_refl (r : Round) : r.Keeps r := ⟨.refl r, .refl r, fun _ _ h => h, rfl, rfl, id⟩

theorem keeps_trans {r'' : Round} (h : r.Keeps r') (h' : r'.Keeps r'') : r.Keeps r'' :=
  ⟨h.extend.trans h'.extend, h.types.trans h'.types, fun n k hk => h'.lookup n k (h.lookup n k hk),
    h'.results.trans h.results, h'.changed.trans h.changed, fun he => h'.exact (h.exact he)⟩

theorem keepsTypes_push {s : Symbol} (h : r'.symbols = r.symbols.push s) : r.KeepsTypes r' := by
  intro k t ht hv
  refine ⟨t, ?_, hv, rfl⟩
  rw [h, Array.getElem?_push, if_neg (Nat.ne_of_lt (lt_of_getElem? ht))]
  exact ht

/-- A name of the source is that of no instance. -/
theorem ne_name_of_isSourceName (h : r.Sound fs done) {name : String} (hname : IsSourceName name)
    {i : Instance} (hi : i ∈ r.instances.made) : i.name ≠ name := by
  rintro rfl
  obtain ⟨f, -, hcopy⟩ := h.instances.made i hi
  rw [hcopy.name] at hname
  exact not_isSourceName_decorate _ _ hname

/-- One more variable. -/
theorem exact_pushVariable (he : r.Exact) {name emitted : String} {type : Scalar}
    {storage : Storage}
    (hsymbols : r'.symbols = r.symbols.push (.ofVariable name emitted type storage))
    (hmade : r'.instances.made = r.instances.made)
    (hglobals : ∀ i ∈ r.instances.made, r'.globals.lookup i.name = r.globals.lookup i.name) :
    r'.Exact := by
  refine ⟨fun k s hs hv => ?_, fun i hi => he.base i (hmade ▸ hi), fun i hi k hk => ?_⟩
  · rw [hsymbols] at hs
    rcases eq_or_of_push hs with ⟨-, rfl⟩ | hs
    · exact ⟨type, rfl⟩
    · exact he.typed k s hs hv
  · rw [hmade] at hi
    obtain ⟨s, hs, hfunction⟩ := he.serves i hi k (hglobals i hi ▸ hk)
    obtain ⟨s', hs', hkept⟩ := @kept_push _ (.ofVariable name emitted type storage) k s hs
    exact ⟨s', hsymbols ▸ hs', hkept.definition.trans hfunction⟩

/-- A change of symbols that leaves definitions as they are, and gives no variable another type. -/
theorem exact_modify (he : r.Exact) {f : Symbol → Symbol} (k : Nat)
    (hdefinition : ∀ s, (f s).definition = s.definition)
    (htype : ∀ (s : Symbol), r.symbols[k]? = some s → s.definition = none → (f s).type = s.type) :
    Round.Exact { r with symbols := r.symbols.modify k f } ∧
      r.KeepsTypes { r with symbols := r.symbols.modify k f } := by
  refine ⟨⟨fun j s hs hv => ?_, he.base, fun i hi j hj => ?_⟩, fun j s hs hv => ?_⟩
  · rw [getElem?_modify] at hs
    split at hs
    · case isTrue hkj =>
        obtain ⟨t, ht, rfl⟩ := Option.map_eq_some_iff.1 hs
        rw [hdefinition] at hv
        rw [htype t (hkj ▸ ht) hv]
        exact he.typed j t ht hv
    · exact he.typed j s hs hv
  · obtain ⟨s, hs, hfunction⟩ := he.serves i hi j hj
    rw [getElem?_modify]
    split
    · exact ⟨f s, by rw [hs]; rfl, (hdefinition s).trans hfunction⟩
    · exact ⟨s, hs, hfunction⟩
  · rw [getElem?_modify]
    split
    · case isTrue hkj =>
        exact ⟨f s, by rw [hs]; rfl, (hdefinition s).trans hv, htype s (hkj ▸ hs) hv⟩
    · exact ⟨s, hs, hv, rfl⟩

/-- One more instance: nothing is bound to its name, for it would be there already. -/
theorem exact_withInstance (hfs : AreSource fs) (h : r.Sound fs done) (he : r.Exact)
    {f : Function} {args : List Scalar} (hf : f ∈ fs)
    (hi : r.instances.get? (decorate f.name args) = none) : (r.withInstance f args).Exact := by
  have hmade : ∀ j ∈ (r.withInstance f args).instances.made,
      j ∈ r.instances.made ∨ j = r.newInstance f args := by
    intro j hj
    rw [made_withInstance hi] at hj
    simpa using hj
  refine ⟨he.typed, fun j hj => ?_, fun j hj k hk => ?_⟩
  · rcases hmade j hj with hj | rfl
    · exact he.base j hj
    · exact ⟨(hfs f hf).1, rfl⟩
  · rcases hmade j hj with hj | rfl
    · exact he.serves j hj k hk
    · obtain ⟨s, -, hbound⟩ := h.globals _ k (Scope.lookup_mem hk)
      cases hbound with
      | defined hn => exact absurd hn (not_isSourceName_decorate _ _)
      | cell hn => exact absurd hn (not_isSourceName_decorate _ _)
      | @made i _ hmem hname =>
          exact absurd (decide_eq_true hname) (List.find?_eq_none.1 hi i hmem)

/-- Binding an instance: those of one name are one. -/
theorem exact_bound (h : r.Sound fs done) (he : r.Exact) {i : Instance}
    (hi : i ∈ r.instances.made) : (bound i.name i.function r).Exact := by
  have hmade := made_enqueue r.instances i.name
  refine ⟨fun k s hs hv => ?_, fun j hj => he.base j (hmade ▸ hj :), fun j hj k hk => ?_⟩
  · rcases eq_or_of_push hs with ⟨-, rfl⟩ | hs
    · cases hv
    · exact he.typed k s hs hv
  · replace hj : j ∈ r.instances.made := (hmade ▸ hj :)
    by_cases hname : j.name = i.name
    · obtain rfl := List.inj_on_of_nodup_map h.instances.nodup hj hi hname
      cases (Scope.lookup_bind_self _ _ _).symm.trans hk
      exact ⟨_, getElem?_push_self, rfl⟩
    · obtain ⟨s, hs, hfunction⟩ :=
        he.serves j hj k ((Scope.lookup_bind_of_ne hname _ _).symm.trans hk)
      obtain ⟨s', hs', hkept⟩ := @kept_push _ (.ofFunction i.name i.function) k s hs
      exact ⟨s', hs', hkept.definition.trans hfunction⟩

/-- What was found is found after one more name was bound that was not. -/
theorem lookup_of_bound (hglobals : ∀ n k, r.globals.lookup n = some k →
      r'.globals.lookup n = some k) (hframe : r'.frame = r.frame) (n : String) (k : Nat)
    (hk : r.lookup n = some k) : r'.lookup n = some k := by
  rw [Round.lookup, Option.or_eq_some_iff] at hk ⊢
  rw [hframe]
  exact hk.imp id fun hk => ⟨hk.1, hglobals n k hk.2⟩

/-- **Every change of a visit keeps bindings, types and results.** -/
theorem lasting_keeps (hfs : AreSource fs) : Lasting fs Keeps where
  refl := keeps_refl
  trans := keeps_trans
  declaredGlobal := by
    intro done r name type h hframe hname hnew
    have hglobals := (Option.or_eq_none_iff.1 hnew).2
    have hgoes := goes_declaredGlobal h hframe hname hglobals type
    refine ⟨hgoes.extend, keepsTypes_push rfl, lookup_of_bound hgoes.extend.globals rfl, rfl, rfl,
      fun he => exact_pushVariable he rfl rfl fun i hi => ?_⟩
    exact Scope.lookup_bind_of_ne (ne_name_of_isSourceName h hname hi) _ _
  declaredLocal := by
    intro done r scope name type h hframe hname hnew
    obtain ⟨hscope, hglobals⟩ := Option.or_eq_none_iff.1 hnew
    rw [hframe] at hscope
    have hgoes := goes_declaredLocal h hframe hname hscope type
    refine ⟨hgoes.extend, keepsTypes_push rfl, fun n k hk => ?_, rfl, rfl,
      fun he => exact_pushVariable he rfl rfl fun _ _ => rfl⟩
    -- the new name stood for nothing, so it hides nothing
    have hne : n ≠ name := by
      rintro rfl
      rw [hnew] at hk
      cases hk
    rw [Round.lookup, hframe] at hk
    exact (congrArg (fun o => Option.or o (r.globals.lookup n))
      (Scope.lookup_bind_of_ne hne r.symbols.size scope.addLocal.2)).trans hk
  marked := by
    intro done r k h
    refine ⟨(goes_marked h k).extend, fun j s hs hv => ?_, fun _ _ hk => hk, rfl, rfl, fun he =>
      (exact_modify (f := fun s => { s with used := true }) he k (fun _ => rfl)
        fun _ _ _ => rfl).1⟩
    rw [marked, getElem?_modify]
    split
    · exact ⟨{ s with used := true }, by rw [hs]; rfl, hv, rfl⟩
    · exact ⟨s, hs, hv, rfl⟩
  bound := by
    intro done r i h hi hnew
    have hglobals := (Option.or_eq_none_iff.1 hnew).2
    have hgoes := goes_bound h hi hglobals i.function
    refine ⟨hgoes.extend, keepsTypes_push rfl, lookup_of_bound hgoes.extend.globals rfl, ?_, rfl,
      fun he => exact_bound h he hi⟩
    change (r.instances.enqueue i.name).2.results = _
    unfold Instances.enqueue
    split <;> rfl
  withInstance := by
    intro done r f args h hf hargs hi
    refine ⟨(goes_withInstance h hf hargs hi).extend, .refl r, fun _ _ hk => hk, ?_, rfl,
      fun he => exact_withInstance hfs h he hf hi⟩
    rw [made_withInstance hi]

/-! ### Visits -/

/-- The type of what a name stands for. -/
theorem names_of_lookup (he : r.Exact) {x : String} {k : Nat} {v : Symbol} {s : Scalar}
    (hk : r.lookup x = some k) (hv : r.symbols[k]? = some v) (hvariable : v.definition = none)
    (hs : s = v.type.getD s) : r.Names r.frame x k s := by
  obtain ⟨type, htype⟩ := he.typed k v hv hvariable
  refine ⟨hk, v, hv, hvariable, ?_⟩
  rw [htype, Option.getD_some] at hs
  rw [htype, hs]

theorem valueOf_names (h : r.Sound fs done) (he : r.Exact) {m : Mark} {name : String} {k : Nat}
    {type : Scalar} (hv : valueOf m name r = .ok ((k, type), r')) :
    r' = r ∧ r.Names r.frame name k type := by
  obtain ⟨rfl, hk, v, hv, hvariable, htype⟩ := valueOf_spec h hv
  obtain ⟨s, hs⟩ := he.typed k v hv hvariable
  exact ⟨rfl, names_of_lookup he hk hv hvariable (by rw [htype, hs]; rfl)⟩

theorem assigned_names (h : r.Sound fs done) (he : r.Exact) {m : Mark} {name : String}
    {value type : Scalar} {k : Nat} (ha : assigned m name value r = .ok ((k, type), r')) :
    r'.Names r'.frame name k type := by
  rcases assigned_spec h ha with ⟨rfl, hk, v, hv, hvariable, htype⟩ | ⟨-, rfl, rfl, rfl⟩
  · obtain ⟨s, hs⟩ := he.typed k v hv hvariable
    exact names_of_lookup he hk hv hvariable (by rw [htype, hs]; rfl)
  · unfold declared
    cases hframe : r.frame with
    | none =>
        refine ⟨?_, _, getElem?_push_self, rfl, rfl⟩
        have hnone : (declaredGlobal name type r).frame = none := hframe
        rw [hnone]
        exact Scope.lookup_bind_self _ _ _
    | some scope =>
        refine ⟨?_, _, getElem?_push_self, rfl, rfl⟩
        exact Option.or_eq_some_iff.2 (.inl (Scope.lookup_bind_self _ _ _))

/-- **A call goes to the instance for its types**, and its type is what is known of that. -/
theorem called_calls (hfs : AreSource fs) (h : r.Sound fs done) (he : r.Exact) {m n : Mark}
    {base : String} {args : List Scalar} {t k : Nat} {type : Scalar} (hbase : IsSourceName base)
    (hc : called m n base args r = .ok ((t, k, type), r')) : r'.Calls base args k type := by
  have hexact := (called_lasts (lasting_keeps hfs) h hbase hc).exact he
  have hsound := (called_resolved hfs h hbase hc).1.sound
  obtain ⟨f, -, rfl, -, -, -, htype, r₁, hp, rfl⟩ := called_spec h hbase hc
  have hbound : (marked k r₁).globals.lookup (decorate f.name args) = some k := hp.lookup
  obtain ⟨v, -, hstands⟩ := hsound.globals _ _ (Scope.lookup_mem hbound)
  cases hstands with
  | defined hn => exact absurd hn (not_isSourceName_decorate _ _)
  | cell hn => exact absurd hn (not_isSourceName_decorate _ _)
  | @made i _ hi hname _ _ hqueued =>
      obtain ⟨hsource, hbase'⟩ := hexact.base i hi
      obtain ⟨hb, ha⟩ := decorate_inj hsource hbase (hbase'.symm.trans hname)
      rw [← hname] at hbound hqueued htype
      exact ⟨i, ⟨hi, hb, ha, hname, hbound, hexact.serves i hi k hbound⟩, hqueued, htype.symm⟩

/-- What a round says of names and calls where the visit is. -/
abbrev WellTypedIn (r : Round) (frame : Option Scope) (x : Node Note) : Prop :=
  WellTyped (r.Names frame) r.Calls x

theorem wellTyped_keeps {x : Node Note} (hx : WellTypedIn r r.frame x) (h : r.Keeps r') :
    WellTypedIn r' r'.frame x :=
  hx.mono (fun _ _ _ hn => hn.keeps h) fun _ _ _ _ hf => hf.keeps h

/-- What is known of a state behind a visit. -/
structure Follows (fs : List Function) (done : List String) (r r' : Round) : Prop where
  sound : r'.Sound fs done
  exact : r'.Exact
  keeps : r.Keeps r'

theorem follows_visit (hfs : AreSource fs) {x : Node Mark} (hx : x.IsPlain) (h : r.Sound fs done)
    (he : r.Exact) {y : Node Note} {type : Scalar} (hv : visit x r = .ok ((y, type), r')) :
    Follows fs done r r' ∧ y.note.type = some type ∧ y.shape = x.shape := by
  have hvisited := visit_resolved hfs x hx h hv
  have hkeeps := visit_lasts (lasting_keeps hfs) hfs x hx h hv
  exact ⟨⟨hvisited.goes.sound, hkeeps.exact he, hkeeps⟩, hvisited.type, hvisited.shape⟩

mutual

/-- **A visit leaves a well typed tree.** -/
theorem visit_wellTyped (hfs : AreSource fs) (x : Node Mark) (hx : x.IsPlain) {r r' : Round}
    {y : Node Note} {type : Scalar} (h : r.Sound fs done) (he : r.Exact)
    (hv : visit x r = .ok ((y, type), r')) : WellTypedIn r' r'.frame y := by
  cases x with
  | literal m v =>
      simp only [visit, pure_eq_ok, Prod.mk.injEq] at hv
      obtain ⟨⟨rfl, rfl⟩, rfl⟩ := hv
      exact .literal rfl
  | identifier m x =>
      simp only [visit, bind_eq_ok, pure_eq_ok, Prod.exists, Prod.mk.injEq] at hv
      obtain ⟨k, s, r₁, hvalue, ⟨rfl, rfl⟩, rfl⟩ := hv
      obtain ⟨rfl, hnames⟩ := valueOf_names h he hvalue
      exact .identifier rfl hnames rfl
  | binary m op a b =>
      obtain ⟨ha, hb⟩ := isPlain_binary.1 hx
      by_cases hop : op = .assign
      · subst hop
        cases a with
        | identifier n x =>
            simp only [visit, if_true, bind_eq_ok, pure_eq_ok, Prod.exists, Prod.mk.injEq] at hv
            obtain ⟨b', s, r₁, hb', k, s', r₂, hassigned, ⟨rfl, rfl⟩, rfl⟩ := hv
            obtain ⟨hright, -, -⟩ := follows_visit hfs hb h he hb'
            have hkeeps := assigned_lasts (lasting_keeps hfs) hright.sound ha.self hassigned
            exact .assign rfl (assigned_names hright.sound hright.exact hassigned) rfl rfl
              (wellTyped_keeps (visit_wellTyped hfs b hb h he hb') hkeeps)
        | _ =>
            simp only [visit, if_true] at hv
            exact absurd hv fail_ne_ok
      · simp only [visit, if_neg hop, bind_eq_ok, pure_eq_ok, Prod.exists, Prod.mk.injEq] at hv
        obtain ⟨a', s, r₁, ha', b', t, r₂, hb', ⟨rfl, rfl⟩, rfl⟩ := hv
        obtain ⟨hleft, hs, -⟩ := follows_visit hfs ha h he ha'
        obtain ⟨hright, ht, -⟩ := follows_visit hfs hb hleft.sound hleft.exact hb'
        exact .binary hop (wellTyped_keeps (visit_wellTyped hfs a ha h he ha') hright.keeps)
          (visit_wellTyped hfs b hb hleft.sound hleft.exact hb') hs ht rfl
  | unary m op x =>
      have hx' : x.IsPlain := (Node.every_unary.1 hx).2
      simp only [visit, bind_eq_ok, pure_eq_ok, Prod.exists, Prod.mk.injEq] at hv
      obtain ⟨x', s, r₁, hvx, ⟨rfl, rfl⟩, rfl⟩ := hv
      exact .unary (visit_wellTyped hfs x hx' h he hvx) (follows_visit hfs hx' h he hvx).2.1 rfl
  | call m f as =>
      obtain ⟨-, hf, has⟩ := Node.every_call.1 hx
      cases f with
      | identifier n base =>
          simp only [visit, bind_eq_ok, pure_eq_ok, Prod.exists, Prod.mk.injEq] at hv
          obtain ⟨as', types, r₁, has', t, k, s, r₂, hcalled, ⟨rfl, rfl⟩, rfl⟩ := hv
          obtain ⟨hargs, htypes, hfollows⟩ := visitArgs_wellTyped hfs as has h he has'
          have hkeeps := called_lasts (lasting_keeps hfs) hfollows.sound hf.self hcalled
          exact .call (fun y hy => wellTyped_keeps (hargs y hy) hkeeps) htypes rfl
            (called_calls hfs hfollows.sound hfollows.exact hf.self hcalled) rfl
      | _ =>
          simp only [visit] at hv
          exact absurd hv fail_ne_ok
  | cond m c t e =>
      obtain ⟨-, hc, ht, he'⟩ := Node.every_cond.1 hx
      cases e with
      | none =>
          simp only [visit, bind_eq_ok, pure_eq_ok, Prod.exists, Prod.mk.injEq] at hv
          obtain ⟨c', _, r₁, hc', t', s, r₂, ht', ⟨rfl, rfl⟩, rfl⟩ := hv
          obtain ⟨htest, -, -⟩ := follows_visit hfs hc h he hc'
          obtain ⟨hthen, hs, -⟩ := follows_visit hfs ht htest.sound htest.exact ht'
          exact .cond (wellTyped_keeps (visit_wellTyped hfs c hc h he hc') hthen.keeps)
            (visit_wellTyped hfs t ht htest.sound htest.exact ht') hs.symm
      | some e =>
          simp only [visit, bind_eq_ok, pure_eq_ok, Prod.exists, Prod.mk.injEq] at hv
          obtain ⟨c', _, r₁, hc', t', s, r₂, ht', e', s', r₃, hve, ⟨rfl, rfl⟩, rfl⟩ := hv
          obtain ⟨htest, -, -⟩ := follows_visit hfs hc h he hc'
          obtain ⟨hthen, hs, -⟩ := follows_visit hfs ht htest.sound htest.exact ht'
          obtain ⟨helse, hs', -⟩ := follows_visit hfs (he' e rfl) hthen.sound hthen.exact hve
          exact .condElse
            (wellTyped_keeps (wellTyped_keeps (visit_wellTyped hfs c hc h he hc') hthen.keeps)
              helse.keeps)
            (wellTyped_keeps (visit_wellTyped hfs t ht htest.sound htest.exact ht') helse.keeps)
            (visit_wellTyped hfs e (he' e rfl) hthen.sound hthen.exact hve) hs hs' rfl
  | loop m c b =>
      obtain ⟨-, hc, hb⟩ := Node.every_loop.1 hx
      simp only [visit, bind_eq_ok, pure_eq_ok, Prod.exists, Prod.mk.injEq] at hv
      obtain ⟨c', _, r₁, hc', b', _, r₂, hb', ⟨rfl, rfl⟩, rfl⟩ := hv
      obtain ⟨htest, -, -⟩ := follows_visit hfs hc h he hc'
      obtain ⟨hbody, -, -⟩ := follows_visit hfs hb htest.sound htest.exact hb'
      exact .loop (wellTyped_keeps (visit_wellTyped hfs c hc h he hc') hbody.keeps)
        (visit_wellTyped hfs b hb htest.sound htest.exact hb') rfl
  | breakLoop m =>
      simp only [visit, pure_eq_ok, Prod.mk.injEq] at hv
      obtain ⟨⟨rfl, rfl⟩, rfl⟩ := hv
      exact .breakLoop rfl
  | continueLoop m =>
      simp only [visit, pure_eq_ok, Prod.mk.injEq] at hv
      obtain ⟨⟨rfl, rfl⟩, rfl⟩ := hv
      exact .continueLoop rfl
  | returnValue m v =>
      have hv' : v.IsPlain := (Node.every_returnValue.1 hx).2
      simp only [visit, bind_eq_ok, pure_eq_ok, Prod.exists, Prod.mk.injEq] at hv
      obtain ⟨v', s, r₁, hvv, ⟨rfl, rfl⟩, rfl⟩ := hv
      exact .returnValue (visit_wellTyped hfs v hv' h he hvv)
        (follows_visit hfs hv' h he hvv).2.1.symm
  | block m is =>
      have his : ∀ x ∈ is, x.IsPlain := (Node.every_block.1 hx).2
      simp only [visit, bind_eq_ok, pure_eq_ok, Prod.exists, Prod.mk.injEq] at hv
      obtain ⟨is', s, r₁, his', ⟨rfl, rfl⟩, rfl⟩ := hv
      obtain ⟨hall, htype⟩ := visitList_wellTyped hfs is his h he his'
      refine .block hall ?_
      cases is' with
      | nil => exact congrArg some (htype.1 rfl)
      | cons y ys => exact (htype.2 (List.cons_ne_nil y ys)).symm
  | assembly m text =>
      simp only [visit, pure_eq_ok, Prod.mk.injEq] at hv
      obtain ⟨⟨rfl, rfl⟩, rfl⟩ := hv
      exact .assembly rfl
  | nop m =>
      simp only [visit, pure_eq_ok, Prod.mk.injEq] at hv
      obtain ⟨⟨rfl, rfl⟩, rfl⟩ := hv
      exact .nop rfl
  | define m p b => exact absurd hx.self id
  | prototype m f ps => exact absurd hx.self id
  | unit m is => exact absurd hx.self id

theorem visitArgs_wellTyped (hfs : AreSource fs) (xs : List (Node Mark))
    (hxs : ∀ x ∈ xs, x.IsPlain) {r r' : Round} {ys : List (Node Note)} {types : List Scalar}
    (h : r.Sound fs done) (he : r.Exact) (hv : visitArgs xs r = .ok ((ys, types), r')) :
    (∀ y ∈ ys, WellTypedIn r' r'.frame y) ∧ ys.map (fun y => y.note.type) = types.map some ∧
      Follows fs done r r' := by
  cases xs with
  | nil =>
      simp only [visitArgs, pure_eq_ok, Prod.mk.injEq] at hv
      obtain ⟨⟨rfl, rfl⟩, rfl⟩ := hv
      exact ⟨fun _ hy => absurd hy List.not_mem_nil, rfl, h, he, keeps_refl _⟩
  | cons x xs =>
      rw [List.forall_mem_cons] at hxs
      simp only [visitArgs, bind_eq_ok, pure_eq_ok, Prod.exists, Prod.mk.injEq] at hv
      obtain ⟨y, s, r₁, hx, ys, ss, r₂, hys, ⟨rfl, rfl⟩, rfl⟩ := hv
      obtain ⟨hfirst, hs, -⟩ := follows_visit hfs hxs.1 h he hx
      obtain ⟨hrest, htypes, hfollows⟩ :=
        visitArgs_wellTyped hfs xs hxs.2 hfirst.sound hfirst.exact hys
      refine ⟨?_, by rw [List.map_cons, List.map_cons, hs, htypes], hfollows.sound, hfollows.exact,
        keeps_trans hfirst.keeps hfollows.keeps⟩
      rw [List.forall_mem_cons]
      exact ⟨wellTyped_keeps (visit_wellTyped hfs x hxs.1 h he hx) hfollows.keeps, hrest⟩

/-- The type of a list of statements is the one that it starts from if it is empty. -/
theorem visitList_wellTyped (hfs : AreSource fs) (xs : List (Node Mark))
    (hxs : ∀ x ∈ xs, x.IsPlain) {r r' : Round} {ys : List (Node Note)} {type type' : Scalar}
    (h : r.Sound fs done) (he : r.Exact) (hv : visitList type xs r = .ok ((ys, type'), r')) :
    (∀ y ∈ ys, WellTypedIn r' r'.frame y) ∧
      ((ys = [] → type' = type) ∧ (ys ≠ [] → Node.listType ys = some type')) := by
  cases xs with
  | nil =>
      simp only [visitList, pure_eq_ok, Prod.mk.injEq] at hv
      obtain ⟨⟨rfl, rfl⟩, rfl⟩ := hv
      exact ⟨fun _ hy => absurd hy List.not_mem_nil, fun _ => rfl, fun hne => absurd rfl hne⟩
  | cons x xs =>
      rw [List.forall_mem_cons] at hxs
      simp only [visitList, bind_eq_ok, pure_eq_ok, Prod.exists, Prod.mk.injEq] at hv
      obtain ⟨y, s, r₁, hx, ys, ss, r₂, hys, ⟨rfl, rfl⟩, rfl⟩ := hv
      obtain ⟨hfirst, hs, hshape⟩ := follows_visit hfs hxs.1 h he hx
      obtain ⟨hrest, hnil, hcons⟩ :=
        visitList_wellTyped hfs xs hxs.2 hfirst.sound hfirst.exact hys
      have hkeeps := visitList_lasts (lasting_keeps hfs) hfs xs hxs.2 hfirst.sound hys
      refine ⟨?_, fun hne => absurd hne (List.cons_ne_nil _ _), fun _ => ?_⟩
      · rw [List.forall_mem_cons]
        exact ⟨wellTyped_keeps (visit_wellTyped hfs x hxs.1 h he hx) hkeeps, hrest⟩
      · cases ys with
        | nil =>
            rw [hnil rfl, Node.listType, Node.yieldsCell_of_shape hshape, hs, ← apply_ite some]
        | cons z zs => exact hcons (List.cons_ne_nil z zs)

end

/-- The items of a unit that are no definitions are well typed. -/
theorem visitItems_wellTyped (hfs : AreSource fs) {xs : List (Node Mark)}
    (hxs : ∀ x ∈ xs, x.IsItem) {ys : List (Node Note)} (h : r.Sound fs done) (he : r.Exact)
    (hv : visitItems xs r = .ok (ys, r')) :
    ∀ y ∈ ys, y.isDefinition = false → WellTypedIn r' r'.frame y := by
  induction xs generalizing r ys with
  | nil =>
      simp only [visitItems, pure_eq_ok] at hv
      obtain ⟨rfl, rfl⟩ := hv
      exact fun _ hy => absurd hy List.not_mem_nil
  | cons x xs ih =>
      rw [List.forall_mem_cons] at hxs
      cases hdefinition : x.isDefinition with
      | true =>
          simp only [visitItems, hdefinition, if_true, bind_eq_ok, pure_eq_ok, and_assoc,
            exists_and_left, exists_eq_left] at hv
          obtain ⟨ys, r₁, hys, rfl, rfl⟩ := hv
          rw [List.forall_mem_cons]
          refine ⟨fun hx => ?_, ih hxs.2 h he hys⟩
          cases x <;> simp [Node.isDefinition, Node.map] at hdefinition hx
      | false =>
          simp only [visitItems, hdefinition, Bool.false_eq_true, if_false, bind_eq_ok, pure_eq_ok,
            Prod.exists, and_assoc, exists_and_left, exists_eq_left] at hv
          obtain ⟨y, s, r₁, hx, ys, r₂, hys, rfl, rfl⟩ := hv
          have hplain := (Node.isItem_of_not_isDefinition hdefinition).1 hxs.1
          obtain ⟨hfirst, -, -⟩ := follows_visit hfs hplain h he hx
          have hkeeps := visitItems_lasts (lasting_keeps hfs) hfs hxs.2 hfirst.sound hys
          rw [List.forall_mem_cons]
          exact ⟨fun _ => wellTyped_keeps (visit_wellTyped hfs x hplain h he hx) hkeeps,
            ih hxs.2 hfirst.sound hfirst.exact hys⟩

/-! ### Instances -/

/-- One more parameter: nothing outside of the function changes, and its name is not decorated. -/
theorem stays_declaredParam (h : r.Sound fs done) {scope : Scope} (hframe : r.frame = some scope)
    {name : String} (hname : IsSourceName name) (type : Scalar) :
    r.Stays (declaredParam scope name type r) ∧
      (r.Exact → (declaredParam scope name type r).Exact) :=
  ⟨⟨(sound_declaredParam h hframe hname type).2, keepsTypes_push rfl, fun hc => ⟨hc, fun _ => rfl⟩⟩,
    fun he => exact_pushVariable he rfl rfl fun _ _ => rfl⟩

theorem declareParams_stays {span : Span} {ps : List (String × Scalar)} (h : r.Sound fs done)
    {scope : Scope} (hframe : r.frame = some scope) (hps : ∀ p ∈ ps, IsSourceName p.1)
    {u : PUnit} (hd : declareParams span ps r = .ok (u, r')) :
    r.Stays r' ∧ (r.Exact → r'.Exact) := by
  induction ps generalizing r scope with
  | nil =>
      simp only [declareParams, pure_eq_ok] at hd
      obtain ⟨-, rfl⟩ := hd
      exact ⟨.refl _, id⟩
  | cons p ps ih =>
      obtain ⟨name, type⟩ := p
      rw [List.forall_mem_cons] at hps
      obtain ⟨-, hd⟩ := declareParams_cons hframe hd
      obtain ⟨hstays, hexact⟩ := stays_declaredParam h hframe hps.1 type
      obtain ⟨hstays', hexact'⟩ := ih (sound_declaredParam h hframe hps.1 type).1 rfl hps.2 hd
      exact ⟨hstays.trans hstays', fun he => hexact' (hexact he)⟩

/-- Only the symbol of the instance gets another type when its result is recorded, and results stay
if the one that is recorded was known. -/
theorem stays_finished (h : r.Sound fs done) (he : r.Exact) {i : Instance}
    (hi : i ∈ r.instances.made) {type : Scalar} {found : Inferred} (hfound : InferredWell r found) :
    r.Stays (finished i type found r) ∧ (finished i type found r).Exact := by
  have hextend := (@finished_sound _ _ _ h i type _ hfound).2
  have hmodified : ∀ k, r.globals.lookup i.name = some k →
      Round.Exact { r with symbols := r.symbols.modify k fun s => { s with type := some type } } ∧
        r.KeepsTypes { r with
          symbols := r.symbols.modify k fun s => { s with type := some type } } := by
    intro k hk
    refine exact_modify (f := fun s => { s with type := some type }) he k (fun _ => rfl)
      fun s hs hv => ?_
    -- the symbol is that of the instance, which is no variable
    obtain ⟨t, ht, hfunction⟩ := he.serves i hi k hk
    cases hs.symm.trans ht
    rw [hv] at hfunction
    cases hfunction
  have hsymbols : (finished i type found r).Exact ∧ r.KeepsTypes (finished i type found r) := by
    cases hk : r.globals.lookup i.name with
    | none =>
        refine ⟨⟨fun k s hs hv => ?_, he.base, fun j hj k hj' => ?_⟩, fun k s hs hv => ?_⟩
        · simp only [finished, hk] at hs
          exact he.typed k s hs hv
        · simp only [finished, hk]
          exact he.serves j hj k hj'
        · simp only [finished, hk]
          exact ⟨s, hs, hv, rfl⟩
    | some k =>
        obtain ⟨hexact, htypes⟩ := hmodified k hk
        refine ⟨⟨fun j s hs hv => ?_, he.base, fun j hj l hl => ?_⟩, fun j s hs hv => ?_⟩
        · simp only [finished, hk] at hs
          exact hexact.typed j s hs hv
        · simp only [finished, hk]
          exact hexact.serves j hj l hl
        · simp only [finished, hk]
          exact htypes j s hs hv
  refine ⟨⟨hextend, hsymbols.2, fun hchanged => ?_⟩, hsymbols.1⟩
  have hboth : r.changed = false ∧ r.instances.returns i.name = type := by
    simpa [finished, Instances.record] using hchanged
  refine ⟨hboth.1, fun n => ?_⟩
  by_cases hn : n = i.name
  · rw [hn, hboth.2]
    exact Instances.returns_record_self _ _ _
  · have hne : (n == i.name) = false := by simpa using hn
    simp [finished, Instances.record, Instances.returns, List.lookup_cons, hne]

/-- **The body of an inferred instance is well typed**, and its type is the result that is known. -/
structure InferredTyped (r : Round) (f : Inferred) : Prop where
  body : WellTypedIn r (some f.scope) f.body
  type : f.body.note.type = some (r.instances.returns f.name)
  mark : f.mark.type = f.body.note.type

theorem InferredTyped.stays {f : Inferred} (hf : InferredTyped r f) (h : r.Stays r')
    (hchanged : r'.changed = false) : InferredTyped r' f :=
  ⟨hf.body.mono (fun _ _ _ hn => hn.stays h) fun _ _ _ _ hc => hc.stays h hchanged,
    by rw [hf.type, (h.settled hchanged).2], hf.mark⟩

/-- All inferred instances are well typed, if nothing new was recorded. -/
def AllTyped (r : Round) : Prop := r.changed = false → ∀ f ∈ r.inferred, InferredTyped r f

/-- **An instance that leaves the queue is well typed**, if nothing new is recorded. -/
theorem visitInstance_consistent (hfs : AreSource fs) (h : r.Sound fs done) (he : r.Exact)
    (hr : AllTyped r) {i : Instance} (hi : i ∈ r.instances.made) {u : PUnit}
    (hv : visitInstance i r = .ok (u, r')) : r'.Exact ∧ AllTyped r' ∧ r.Stays r' := by
  obtain ⟨_, r₁, body, type, r₂, hparams, hbody, rfl⟩ := visitInstance_steps hv
  obtain ⟨f, hf, hcopy⟩ := h.instances.made i hi
  obtain ⟨-, hpnames, hplain⟩ := hfs f hf
  obtain ⟨hwell, hsound₁, hsound₂, hextend₂, hinferred, hframe₂⟩ :=
    inferredWell_foundInstance hfs h hi hparams hbody
  obtain ⟨hstays₁, hexact₁⟩ := declareParams_stays (sound_inside h (sound_function _)) rfl
    (fun p hp => hpnames _ (hcopy.params ▸ (List.of_mem_zip hp).1)) hparams
  have he₁ : r₁.Exact := hexact₁ ⟨he.typed, he.base, he.serves⟩
  have hplain' := hplain.of_shape hcopy.shape
  obtain ⟨hfollows, htype, -⟩ := follows_visit hfs hplain' hsound₁ he₁ hbody
  have htyped := visit_wellTyped hfs i.function.body hplain' hsound₁ he₁ hbody
  rw [hframe₂] at htyped
  obtain ⟨hstays₂, hexact⟩ := @stays_finished _ _ _ hsound₂ hfollows.exact i
    (hextend₂.made i hi) type _ hwell
  have hstays : r.Stays (finished i type (foundInstance i type body r₂) r₂) :=
    (show r.Stays r₁ from ⟨hstays₁.extend, hstays₁.types, hstays₁.settled⟩).trans
      (hfollows.keeps.stays.trans hstays₂)
  refine ⟨hexact, fun hchanged g hg => ?_, hstays⟩
  rcases List.mem_append.1 hg with hg | hg
  · exact (hr (hstays.settled hchanged).1 g (hinferred ▸ hg)).stays hstays hchanged
  · rw [List.mem_singleton.1 hg]
    refine ⟨htyped.mono (fun _ _ _ hn => hn.stays hstays₂) fun _ _ _ _ hc =>
      hc.stays hstays₂ hchanged, ?_, htype.symm⟩
    exact htype.trans (congrArg some (Instances.returns_record_self _ _ _).symm)

/-- **The work on the queue leaves well typed instances**, if nothing new is recorded. -/
theorem drain_consistent (hfs : AreSource fs) {fuel : Nat} (h : r.Sound fs done)
    (hframe : r.frame = none) (he : r.Exact) (hr : AllTyped r) {u : PUnit}
    (hd : drain fuel r = .ok (u, r')) : r'.Exact ∧ AllTyped r' ∧ r.Stays r' := by
  induction fuel generalizing r done with
  | zero =>
      simp only [drain, pure_eq_ok] at hd
      obtain ⟨-, rfl⟩ := hd
      exact ⟨he, hr, .refl _⟩
  | succ fuel ih =>
      simp only [drain, bind_eq_ok, get_eq_ok, and_assoc, exists_and_left, exists_eq_left,
        Instances.next] at hd
      cases hpending : r.instances.pending with
      | nil =>
          simp only [hpending, pure_eq_ok] at hd
          obtain ⟨-, rfl⟩ := hd
          exact ⟨he, hr, .refl _⟩
      | cons name rest =>
          simp only [hpending, bind_eq_ok, set_eq_ok, exists_eq_left, exists_const] at hd
          have hsound := sound_next h hpending
          have hnext : r.Stays { r with instances := { r.instances with pending := rest } } :=
            ⟨extends_outside (extends_next r rest), .refl r, fun hc => ⟨hc, fun _ => rfl⟩⟩
          cases hget : Instances.get? name { r.instances with pending := rest } with
          | none =>
              rw [hget] at hd
              exact absurd hd throw_ne_ok
          | some i =>
              simp only [hget, bind_eq_ok] at hd
              obtain ⟨_, r₁, hvisit, hd⟩ := hd
              have hi := List.mem_of_find?_eq_some hget
              obtain ⟨hsound₁, -, hframe₁, -⟩ := visitInstance_sound hfs hsound hi hframe hvisit
              obtain ⟨he₁, hr₁, hstays₁⟩ := visitInstance_consistent hfs hsound
                ⟨he.typed, he.base, he.serves⟩
                (fun hc f hf => (hr hc f hf).stays hnext hc) hi hvisit
              obtain ⟨he', hr', hstays⟩ := ih hsound₁ hframe₁ he₁ hr₁ hd
              exact ⟨he', hr', hnext.trans (hstays₁.trans hstays)⟩

/-! ### Rounds -/

/-- Definitions are bound under their own names, which are those of no instances. -/
theorem declareFunctions_exact (hfs : AreSource fs) {gs : List Function} (hgs : gs ⊆ fs)
    (he : r.Exact) {u : PUnit} (hd : declareFunctions gs r = .ok (u, r')) : r'.Exact := by
  induction gs generalizing r with
  | nil =>
      simp only [declareFunctions, pure_eq_ok] at hd
      obtain ⟨-, rfl⟩ := hd
      exact he
  | cons f gs ih =>
      have hf := hgs List.mem_cons_self
      simp only [declareFunctions, bind_eq_ok, get_eq_ok, and_assoc, exists_and_left,
        exists_eq_left] at hd
      split at hd
      · exact absurd hd fail_ne_ok
      · simp only [bind_eq_ok, addSymbol_eq_ok, bindGlobal_eq_ok, and_assoc, exists_and_left,
          exists_eq_left, exists_const] at hd
        refine ih (fun g hg => hgs (List.mem_cons_of_mem _ hg)) (r := { r with
          symbols := r.symbols.push (.ofFunction f.name f)
          globals := r.globals.bind f.name r.symbols.size })
          ⟨fun k s hs hv => ?_, he.base, fun i hi k hk => ?_⟩ hd
        · rcases eq_or_of_push hs with ⟨-, rfl⟩ | hs
          · cases hv
          · exact he.typed k s hs hv
        · have hne : i.name ≠ f.name := by
            intro hname
            rw [(he.base i hi).2] at hname
            exact not_isSourceName_decorate _ _ (hname ▸ (hfs f hf).1)
          obtain ⟨s, hs, hfunction⟩ :=
            he.serves i hi k ((Scope.lookup_bind_of_ne hne _ _).symm.trans hk)
          obtain ⟨s', hs', hkept⟩ := @kept_push _ (.ofFunction f.name f) k s hs
          exact ⟨s', hs', hkept.definition.trans hfunction⟩

/-- Nothing is bound at the start of a round. -/
theorem exact_start {is : Instances}
    (his : ∀ i ∈ is.made, IsSourceName i.base ∧ i.name = decorate i.base i.args) (fresh : Nat) :
    (Round.start fresh is).Exact := by
  refine ⟨fun k s hs => ?_, his, fun i _ k hk => ?_⟩
  · exact absurd (lt_of_getElem? hs) (Nat.not_lt_zero k)
  · exact absurd (Scope.lookup_mem hk) List.not_mem_nil

/-- **A round that records nothing new leaves well typed trees.** -/
theorem visitUnit_consistent {items : List (Node Mark)} (hitems : ∀ x ∈ items, x.IsItem)
    {is : Instances} (his : is.newRound.Sound (Node.definitions items))
    (hbase : ∀ i ∈ is.made, IsSourceName i.base ∧ i.name = decorate i.base i.args)
    {mark : Mark} {fresh : Nat} {root : Node Note}
    (hv : (visitUnit mark items).run (.start fresh is) = .ok (root, r)) :
    r.Exact ∧ AllTyped r ∧ (r.changed = false → ∃ ys, root = .unit (.typed mark .int) ys ∧
      ys.map Node.shape = items.map Node.shape ∧
        ∀ y ∈ ys, y.isDefinition = false → WellTypedIn r none y) := by
  have hfs := Typing.areSource_definitions hitems
  simp only [StateT.run, visitUnit, bind_eq_ok, pure_eq_ok] at hv
  obtain ⟨_, r₁, hdeclare, ys, r₂, hvisit, _, r₃, hdrain, rfl, rfl⟩ := hv
  obtain ⟨hsound₁, hframe₁, hinferred₁⟩ := declareFunctions_sound hfs (List.Subset.refl _)
    (sound_start his fresh) rfl rfl hdeclare
  have he₁ := declareFunctions_exact hfs (List.Subset.refl _) (exact_start hbase fresh) hdeclare
  obtain ⟨hgoes, hshape, -⟩ := visitItems_resolved hfs hitems hsound₁ hvisit
  have he₂ := (visitItems_lasts (lasting_keeps hfs) hfs hitems hsound₁ hvisit).exact he₁
  have hframe₂ := hgoes.extend.noFrame hframe₁
  have hitems₂ := visitItems_wellTyped hfs hitems hsound₁ he₁ hvisit
  have hnone : AllTyped r₂ := by
    intro _ f hf
    rw [hgoes.inferred, hinferred₁] at hf
    exact absurd hf List.not_mem_nil
  obtain ⟨he₃, hr₃, hstays⟩ := drain_consistent hfs hgoes.sound hframe₂ he₂ hnone hdrain
  refine ⟨he₃, hr₃, fun hchanged => ⟨ys, rfl, hshape, fun y hy hdefinition => ?_⟩⟩
  have hy' := hitems₂ y hy hdefinition
  rw [hframe₂] at hy'
  exact hy'.mono (fun _ _ _ hn => hn.stays hstays) fun _ _ _ _ hc => hc.stays hstays hchanged

end Infer

/-! ### Typings -/

namespace Typing

variable {items : List (Node Mark)} {t : Typing}

/-- **A call goes to an instance that was inferred**: to the one whose name is that of the function
for these argument types.  Its type is that of the body. -/
def IsCall (t : Typing) (f : String) (types : List Scalar) (k : Nat) (s : Scalar) : Prop :=
  ∃ i, t.round.Binds f types k i ∧
    ∃ g ∈ t.round.inferred, g.name = i.name ∧ g.body.note.type = some s

/-- **All trees of a typing are well typed**: those of the unit with the names of the unit, and the
body of every instance that is bound with the names of the instance too. -/
structure Consistent (items : List (Node Mark)) (t : Typing) : Prop where
  root : ∃ mark ys, t.root = .unit (.typed mark .int) ys ∧
    ys.map Node.shape = items.map Node.shape ∧
      ∀ y ∈ ys, y.isDefinition = false → WellTyped (t.round.Names none) t.IsCall y
  bound : ∀ i ∈ t.round.instances.made, ∀ k, t.round.globals.lookup i.name = some k →
    ∃ f ∈ t.round.inferred, f.name = i.name ∧ f.params = i.function.params ∧
      f.body.shape = i.function.body.shape
  inferred : ∀ f ∈ t.round.inferred,
    WellTyped (t.round.Names (some f.scope)) t.IsCall f.body ∧ f.mark.type = f.body.note.type
  nodup : (t.round.inferred.map Inferred.name).Nodup

namespace Sound

/-- An instance that is bound was inferred. -/
theorem exists_inferred_of_bound (h : t.Sound items) {i : Instance}
    (hi : i ∈ t.round.instances.made) {k : Nat} (hk : t.round.globals.lookup i.name = some k) :
    ∃ f ∈ t.round.inferred, f.name = i.name ∧ f.params = i.function.params ∧
      f.body.shape = i.function.body.shape := by
  obtain ⟨f', -, hcopy⟩ := h.round.instances.made i hi
  have hdecorated : ¬ IsSourceName i.name := hcopy.name ▸ not_isSourceName_decorate _ _
  obtain ⟨s, -, hbound⟩ := h.round.globals _ k (Scope.lookup_mem hk)
  cases hbound with
  | defined hn => exact absurd hn hdecorated
  | cell hn => exact absurd hn hdecorated
  | made _ _ _ _ hqueued =>
      obtain ⟨f, hf, hname⟩ := h.exists_inferred_of_queued hqueued
      obtain ⟨j, hj, hjname, hparams, hshape⟩ := (h.round.inferred f hf).made
      obtain rfl := List.inj_on_of_nodup_map h.round.instances.nodup hj hi (hjname.trans hname)
      exact ⟨f, hf, hname, hparams.symm, hshape⟩

end Sound

end Typing

namespace Document

variable {items : List (Node Mark)} {t : Typing}

/-- The last round starts with sound instances and records nothing new. -/
theorem exists_consistentRound (hitems : ∀ x ∈ items, x.IsItem) {mark : Mark}
    {fuel k fresh : Nat} {is : Instances} (his : is.newRound.Sound (Node.definitions items))
    (hbase : ∀ i ∈ is.made, IsSourceName i.base ∧ i.name = decorate i.base i.args)
    (ht : inferFrom mark items fuel k fresh is = .ok t) :
    ∃ fresh is, is.newRound.Sound (Node.definitions items) ∧
      (∀ i ∈ is.made, IsSourceName i.base ∧ i.name = decorate i.base i.args) ∧
        (Infer.visitUnit mark items).run (.start fresh is) = .ok (t.root, t.round) ∧
          t.round.changed = false := by
  obtain ⟨fresh', is', ⟨his', hbase'⟩, hv, hchanged⟩ := exists_lastRound
    (P := fun is => is.newRound.Sound (Node.definitions items) ∧
      ∀ i ∈ is.made, IsSourceName i.base ∧ i.name = decorate i.base i.args)
    (fun _ _ _ _ h hv => ⟨sound_newRound hitems h.1 hv,
      (Infer.visitUnit_consistent hitems h.1 h.2 hv).1.base⟩) ⟨his, hbase⟩ ht
  exact ⟨fresh', is', his', hbase', hv, hchanged⟩

/-- The last round recorded nothing new, and its trees are well typed. -/
theorem inferFrom_consistent (hitems : ∀ x ∈ items, x.IsItem) {mark : Mark} {fuel k fresh : Nat}
    {is : Instances} (his : is.newRound.Sound (Node.definitions items))
    (hbase : ∀ i ∈ is.made, IsSourceName i.base ∧ i.name = decorate i.base i.args)
    (ht : inferFrom mark items fuel k fresh is = .ok t) :
    t.round.changed = false ∧ Infer.AllTyped t.round ∧
      ∃ ys, t.root = .unit (.typed mark .int) ys ∧ ys.map Node.shape = items.map Node.shape ∧
        ∀ y ∈ ys, y.isDefinition = false → Infer.WellTypedIn t.round none y := by
  obtain ⟨_, _, his', hbase', hv, hchanged⟩ := exists_consistentRound hitems his hbase ht
  obtain ⟨-, htyped, hroot⟩ := Infer.visitUnit_consistent hitems his' hbase' hv
  exact ⟨hchanged, htyped, hroot hchanged⟩

/-- **The typing of a source is consistent.** -/
theorem infer_consistent {d : Document} {mark : Mark} (hroot : d.root = .unit mark items)
    (hitems : ∀ x ∈ items, x.IsItem) (ht : d.infer = .ok t) : t.Consistent items := by
  have hsound := infer_sound hroot hitems ht
  rw [infer, hroot] at ht
  obtain ⟨hchanged, htyped, ys, hys, hshape, hitemsTyped⟩ := inferFrom_consistent hitems
    (Infer.sound_empty _) (fun _ hi => absurd hi List.not_mem_nil) ht
  -- what the table says of an instance in the queue is what its body says
  have hcalls : ∀ f types k s, t.round.Calls f types k s → t.IsCall f types k s := by
    rintro f types k s ⟨i, hi, hqueued, rfl⟩
    obtain ⟨g, hg, hname⟩ := hsound.exists_inferred_of_queued hqueued
    exact ⟨i, hi, g, hg, hname, hname ▸ (htyped hchanged g hg).type⟩
  refine ⟨⟨mark, ys, hys, hshape, fun y hy hdefinition => ?_⟩,
    fun i hi k hk => hsound.exists_inferred_of_bound hi hk, fun f hf => ⟨?_, ?_⟩, ?_⟩
  · exact (hitemsTyped y hy hdefinition).mono (fun _ _ _ hn => hn) hcalls
  · exact (htyped hchanged f hf).body.mono (fun _ _ _ hn => hn) hcalls
  · exact (htyped hchanged f hf).mark
  · exact hsound.perm_inferred.nodup hsound.round.instances.nodup_queued

end Document

namespace Compile

variable {source : String} {t : Node Span} {typing : Typing}

/-- **The typing of a source text is consistent**, folded or not: every type follows from those of
the children, every name has the type of its variable, and every call the type of the body of the
instance that it goes to. -/
theorem consistent_infer (hsource : tree source = .ok t) (fold : Bool)
    (ht : (Document.ofTree (prepare fold t)).infer = .ok typing) :
    ∃ mark items, (Document.ofTree (prepare fold t)).root = .unit mark items ∧
      typing.Consistent items := by
  have hroot := Document.isSource_ofTree (@isSource_prepare fold t (isSource_tree hsource))
  cases hunit : (Document.ofTree (prepare fold t)).root with
  | unit mark items =>
      rw [hunit] at hroot
      exact ⟨mark, items, rfl, Document.infer_consistent hunit hroot ht⟩
  | _ =>
      rw [hunit] at hroot
      cases hroot

/-- Two functions that call each other, with a float that comes in on the way: what the first round
takes for integers is not. -/
theorem consistent_infer_mutual : ∃ t typing, tree "def even(n, x) if n < 1 x else odd(n - 1, x)
def odd(n, x) if n < 1 0 else even(n - 1, x / 2.0)
y = even(4, 1)" = .ok t ∧ (Document.ofTree (prepare true t)).infer = .ok typing ∧
    typing.round.inferred.map (fun f => (f.name, f.body.note.type)) =
      [("even@@i32@@i32", some .float), ("odd@@i32@@i32", some .float),
        ("even@@i32@@f32", some .float), ("odd@@i32@@f32", some .float)] ∧
    ∃ mark items, (Document.ofTree (prepare true t)).root = .unit mark items ∧
      typing.Consistent items := by
  have hrun : (tree "def even(n, x) if n < 1 x else odd(n - 1, x)
def odd(n, x) if n < 1 0 else even(n - 1, x / 2.0)
y = even(4, 1)").toOption.any (fun t => (Document.ofTree (prepare true t)).infer.toOption.any
      fun typing => typing.round.inferred.map (fun f => (f.name, f.body.note.type)) ==
        [("even@@i32@@i32", some .float), ("odd@@i32@@i32", some .float),
          ("even@@i32@@f32", some .float), ("odd@@i32@@f32", some .float)]) = true := by
    decide +kernel
  simp only [Option.any_eq_true, beq_iff_eq] at hrun
  obtain ⟨t, ht, typing, htyping, hnames⟩ := hrun
  have htree := Step.eq_ok_of_toOption ht
  have hinfer := Step.eq_ok_of_toOption htyping
  exact ⟨t, typing, htree, hinfer, hnames, consistent_infer htree true hinfer⟩

end Compile

end StackLang
