/-
**What holds during a round of inference.**

A round only ever adds: symbols keep their place at run time and their names, scopes keep their
bindings, and instances stay.  What is bound in the scope of the unit is a definition, a variable
with a cell of its own, or an instance under its decorated name; what is bound in the scope of a
function is a variable with a place in the frame.

Main definitions:

* `Resolved` — a typed tree in which every expression has a type and every name a symbol of the
  right sort;
* `Round.Extends` — what a later state of a round keeps of an earlier one;
* `Round.Sound` — the invariant of a round;
* `InferredWell` — what holds of an inferred instance.

Main results:

* `Resolved.mono`, `InferredWell.mono` — both last when the round goes on;
* `length_queued_le` — the queue holds no more names than the functions have signatures.
-/

import StackLang.Typing.Infer
import StackLang.Proofs.Step
import StackLang.Proofs.Tree.Source

set_option relaxedAutoImplicit false
set_option autoImplicit false

namespace StackLang

/-! ### Typed trees -/

/-- Every expression has a type, every name a symbol that is a variable, and every call one of an
instance for its number of arguments. -/
inductive Resolved (var : Nat → Prop) (fn : Nat → Nat → Prop) : Node Note → Prop where
  | literal {n : Note} {v : Literal} (htype : n.type ≠ none) : Resolved var fn (.literal n v)
  | identifier {n : Note} {x : String} {k : Nat} (htype : n.type ≠ none)
      (hsymbol : n.symbol = some k) (hk : var k) : Resolved var fn (.identifier n x)
  | assign {n m : Note} {x : String} {r : Node Note} {k : Nat} (htype : n.type ≠ none)
      (htype' : m.type ≠ none) (hsymbol : m.symbol = some k) (hk : var k)
      (hr : Resolved var fn r) : Resolved var fn (.binary n .assign (.identifier m x) r)
  | binary {n : Note} {op : BinaryOp} {l r : Node Note} (htype : n.type ≠ none)
      (hop : op ≠ .assign) (hl : Resolved var fn l) (hr : Resolved var fn r) :
      Resolved var fn (.binary n op l r)
  | unary {n : Note} {op : UnaryOp} {x : Node Note} (htype : n.type ≠ none)
      (hx : Resolved var fn x) : Resolved var fn (.unary n op x)
  | call {n : Note} {f : Node Note} {as : List (Node Note)} {k : Nat} (htype : n.type ≠ none)
      (hsymbol : n.symbol = some k) (hk : fn k as.length) (has : ∀ x ∈ as, Resolved var fn x) :
      Resolved var fn (.call n f as)
  | cond {n : Note} {c t : Node Note} {e : Option (Node Note)} (htype : n.type ≠ none)
      (hc : Resolved var fn c) (ht : Resolved var fn t) (he : ∀ x, e = some x → Resolved var fn x) :
      Resolved var fn (.cond n c t e)
  | loop {n : Note} {c b : Node Note} (htype : n.type ≠ none) (hc : Resolved var fn c)
      (hb : Resolved var fn b) : Resolved var fn (.loop n c b)
  | breakLoop {n : Note} (htype : n.type ≠ none) : Resolved var fn (.breakLoop n)
  | continueLoop {n : Note} (htype : n.type ≠ none) : Resolved var fn (.continueLoop n)
  | returnValue {n : Note} {v : Node Note} (htype : n.type ≠ none) (hv : Resolved var fn v) :
      Resolved var fn (.returnValue n v)
  | block {n : Note} {is : List (Node Note)} (htype : n.type ≠ none)
      (his : ∀ x ∈ is, Resolved var fn x) : Resolved var fn (.block n is)
  | assembly {n : Note} {text : String} (htype : n.type ≠ none) :
      Resolved var fn (.assembly n text)
  | nop {n : Note} (htype : n.type ≠ none) : Resolved var fn (.nop n)

namespace Resolved

variable {var var' : Nat → Prop} {fn fn' : Nat → Nat → Prop} {x : Node Note}

theorem type_ne_none (h : Resolved var fn x) : x.note.type ≠ none := by
  cases h <;> assumption

/-- **A tree stays resolved** when there are more variables and instances. -/
theorem mono (h : Resolved var fn x) (hvar : ∀ k, var k → var' k)
    (hfn : ∀ k n, fn k n → fn' k n) : Resolved var' fn' x := by
  induction h with
  | literal htype => exact .literal htype
  | identifier htype hsymbol hk => exact .identifier htype hsymbol (hvar _ hk)
  | assign htype htype' hsymbol hk _ ih => exact .assign htype htype' hsymbol (hvar _ hk) ih
  | binary htype hop _ _ ihl ihr => exact .binary htype hop ihl ihr
  | unary htype _ ih => exact .unary htype ih
  | call htype hsymbol hk _ ih => exact .call htype hsymbol (hfn _ _ hk) ih
  | cond htype _ _ _ ihc iht ihe => exact .cond htype ihc iht ihe
  | loop htype _ _ ihc ihb => exact .loop htype ihc ihb
  | breakLoop htype => exact .breakLoop htype
  | continueLoop htype => exact .continueLoop htype
  | returnValue htype _ ih => exact .returnValue htype ih
  | block htype _ ih => exact .block htype ih
  | assembly htype => exact .assembly htype
  | nop htype => exact .nop htype

end Resolved

/-! ### Symbols and scopes -/

/-- A variable with a cell of its own. -/
def Symbols.IsGlobal (ss : Symbols) (k : Nat) : Prop :=
  ∃ s l, ss[k]? = some s ∧ s.storage = .global l

/-- The scope binds some name to the symbol. -/
def Scope.Binds (scope : Scope) (k : Nat) : Prop := ∃ n, (n, k) ∈ scope.names

/-- The symbols that a name can stand for: variables of the unit and of the function. -/
def IsVisible (ss : Symbols) (frame : Option Scope) (k : Nat) : Prop :=
  ss.IsGlobal k ∨ ∃ scope, frame = some scope ∧ scope.Binds k

/-- The offset of a parameter or of a local variable that the scope handed out. -/
def Scope.HandsOut (scope : Scope) (offset : Int) : Prop :=
  (∃ j, j < scope.params ∧ offset = 4 * (j + 1)) ∨ ∃ j, j < scope.locals ∧ offset = -4 * (j + 1)

/-- The names in the scope of a function are variables with places of their own in its frame. -/
structure Scope.Sound (ss : Symbols) (scope : Scope) : Prop where
  bound : ∀ n k, (n, k) ∈ scope.names → IsSourceName n ∧
    ∃ s offset, ss[k]? = some s ∧ s.definition = none ∧ s.storage = .frame offset ∧
      scope.HandsOut offset
  distinct : ∀ (j k : Nat) (s t : Symbol) (offset : Int), scope.Binds j → scope.Binds k →
    ss[j]? = some s → ss[k]? = some t → s.storage = .frame offset → t.storage = .frame offset →
      j = k

namespace Round

variable {r r' r'' : Round}

/-- The symbols that a name can stand for where the visit is. -/
def IsVariable (r : Round) (k : Nat) : Prop := IsVisible r.symbols r.frame k

/-- The symbol of an instance for a number of arguments, bound and waiting or inferred, to which a
call goes. -/
def IsInstance (r : Round) (k n : Nat) : Prop :=
  ∃ s i, r.symbols[k]? = some s ∧ s.used = true ∧ i ∈ r.instances.made ∧ i.name = s.emittedName ∧
    i.function.params.length = n ∧ r.globals.lookup i.name = some k ∧ i.name ∈ r.instances.queued

/-- What a later state of a symbol keeps of an earlier one. -/
structure SymbolKept (s s' : Symbol) : Prop where
  storage : s'.storage = s.storage
  emittedName : s'.emittedName = s.emittedName
  definition : s'.definition = s.definition
  used : s.used = true → s'.used = true

/-- What a later state keeps of an earlier one of the same function. -/
structure Extends (r r' : Round) : Prop where
  symbols : ∀ (k : Nat) (s : Symbol), r.symbols[k]? = some s →
    ∃ s' : Symbol, r'.symbols[k]? = some s' ∧ SymbolKept s s'
  made : ∀ i ∈ r.instances.made, i ∈ r'.instances.made
  queued : ∀ n ∈ r.instances.queued, n ∈ r'.instances.queued
  globals : ∀ n k, r.globals.lookup n = some k → r'.globals.lookup n = some k
  noFrame : r.frame = none → r'.frame = none
  frame : ∀ scope, r.frame = some scope → ∃ scope', r'.frame = some scope' ∧
    scope'.params = scope.params ∧ (∀ n k, scope.lookup n = some k → scope'.lookup n = some k) ∧
    ∀ k, scope.Binds k → scope'.Binds k

@[refl] theorem SymbolKept.refl (s : Symbol) : SymbolKept s s := ⟨rfl, rfl, rfl, id⟩

theorem SymbolKept.trans {s s' s'' : Symbol} (h : SymbolKept s s') (h' : SymbolKept s' s'') :
    SymbolKept s s'' :=
  ⟨h'.storage.trans h.storage, h'.emittedName.trans h.emittedName,
    h'.definition.trans h.definition, fun hu => h'.used (h.used hu)⟩

namespace Extends

@[refl] theorem refl (r : Round) : Extends r r :=
  ⟨fun _ s h => ⟨s, h, .refl s⟩, fun _ h => h, fun _ h => h, fun _ _ h => h, fun h => h,
    fun scope h => ⟨scope, h, rfl, fun _ _ h => h, fun _ h => h⟩⟩

theorem trans (h : Extends r r') (h' : Extends r' r'') : Extends r r'' := by
  refine ⟨fun k s hs => ?_, fun i hi => h'.made i (h.made i hi),
    fun n hn => h'.queued n (h.queued n hn), fun n k hk => h'.globals n k (h.globals n k hk),
    fun hr => h'.noFrame (h.noFrame hr), fun scope hscope => ?_⟩
  · obtain ⟨s', hs', hkept⟩ := h.symbols k s hs
    obtain ⟨s'', hs'', hkept'⟩ := h'.symbols k s' hs'
    exact ⟨s'', hs'', hkept.trans hkept'⟩
  · obtain ⟨scope', hscope', hparams, hlookup, hbinds⟩ := h.frame scope hscope
    obtain ⟨scope'', hscope'', hparams', hlookup', hbinds'⟩ := h'.frame scope' hscope'
    exact ⟨scope'', hscope'', hparams'.trans hparams, fun n k hk => hlookup' n k (hlookup n k hk),
      fun k hk => hbinds' k (hbinds k hk)⟩

theorem isGlobal (h : Extends r r') {k : Nat} (hk : r.symbols.IsGlobal k) :
    r'.symbols.IsGlobal k := by
  obtain ⟨s, l, hs, hl⟩ := hk
  obtain ⟨s', hs', hkept⟩ := h.symbols k s hs
  exact ⟨s', l, hs', hkept.storage.trans hl⟩

theorem isVariable (h : Extends r r') {k : Nat} (hk : r.IsVariable k) : r'.IsVariable k := by
  rcases hk with hk | ⟨scope, hscope, hk⟩
  · exact .inl (h.isGlobal hk)
  · obtain ⟨scope', hscope', -, -, hbinds⟩ := h.frame scope hscope
    exact .inr ⟨scope', hscope', hbinds k hk⟩

theorem isInstance (h : Extends r r') {k n : Nat} (hk : r.IsInstance k n) : r'.IsInstance k n := by
  obtain ⟨s, i, hs, hused, hi, hname, hparams, hbound, hqueued⟩ := hk
  obtain ⟨s', hs', hkept⟩ := h.symbols k s hs
  exact ⟨s', i, hs', hkept.used hused, h.made i hi, hname.trans hkept.emittedName.symm, hparams,
    h.globals _ _ hbound, h.queued _ hqueued⟩

/-- A tree that is resolved stays so. -/
theorem resolved (h : Extends r r') {x : Node Note} (hx : Resolved r.IsVariable r.IsInstance x) :
    Resolved r'.IsVariable r'.IsInstance x :=
  hx.mono (fun _ => h.isVariable) fun _ _ => h.isInstance

end Extends

end Round

/-! ### The invariant -/

/-- The instance is a copy of the function for its argument types. -/
structure Instance.IsCopy (f : Function) (i : Instance) : Prop where
  name : i.name = decorate f.name i.args
  args : i.args.length = f.params.length
  params : i.function.params = f.params
  shape : i.function.body.shape = f.body.shape

/-- The functions of a source text. -/
def AreSource (fs : List Function) : Prop :=
  ∀ f ∈ fs, IsSourceName f.name ∧ (∀ p ∈ f.params, IsSourceName p) ∧ f.body.IsPlain

/-- Instances are copies of the functions, one for each name, and the queue holds each name once. -/
structure Instances.Sound (fs : List Function) (is : Instances) : Prop where
  nodup : (is.made.map Instance.name).Nodup
  made : ∀ i ∈ is.made, ∃ f ∈ fs, i.IsCopy f
  queued : ∀ n ∈ is.queued, ∃ i ∈ is.made, i.name = n
  nodup_queued : is.queued.Nodup

/-- What a name in the scope of the unit stands for. -/
inductive Round.Bound (fs : List Function) (is : Instances) (n : String) (s : Symbol) : Prop where
  | defined {f : Function} (hn : IsSourceName n) (hf : f ∈ fs) (hname : f.name = n)
      (hs : s.definition = some f)
  | cell {l : String} (hn : IsSourceName n) (hs : s.definition = none)
      (hstorage : s.storage = .global l)
  | made {i : Instance} {f : Function} (hi : i ∈ is.made) (hname : i.name = n)
      (hemitted : s.emittedName = n) (hs : s.definition = some f) (hqueued : n ∈ is.queued)

/-- What holds of an inferred instance: its scope is that of a function, its parameters stand in
order above the return cell, and its body is resolved. -/
structure InferredWell (r : Round) (f : Inferred) : Prop where
  scope : f.scope.Sound r.symbols
  params : f.scope.params = f.params.length
  param : ∀ (j : Nat) (p : String), f.params[j]? = some p → ∃ (k : Nat) (s : Symbol),
    f.scope.lookup p = some k ∧ r.symbols[k]? = some s ∧ s.storage = .frame (4 * (j + 1))
  body : Resolved (IsVisible r.symbols (some f.scope)) r.IsInstance f.body
  made : ∃ i ∈ r.instances.made, i.name = f.name ∧ i.function.params = f.params ∧
    f.body.shape = i.function.body.shape

/-- The place of the symbol is the cell with the number `n`. -/
def Symbol.IsCell (n : Nat) (s : Symbol) : Prop :=
  ∃ base, IsSourceName base ∧ s.storage = .global (globalLabel base n)

/-- **The invariant of a round** over the functions `fs`, of which the instances `done` have left
the queue. -/
structure Round.Sound (fs : List Function) (done : List String) (r : Round) : Prop where
  instances : r.instances.Sound fs
  queue : ∀ n ∈ r.instances.queued, n ∈ done ∨ n ∈ r.instances.pending
  pending : ∀ n ∈ r.instances.pending, n ∈ r.instances.queued
  count : r.instances.queued.length = done.length + r.instances.pending.length
  globals : ∀ n k, (n, k) ∈ r.globals.names →
    ∃ s : Symbol, r.symbols[k]? = some s ∧ Bound fs r.instances n s
  frame : ∀ scope, r.frame = some scope → scope.Sound r.symbols
  labels : ∀ (k : Nat) (s : Symbol) (l : String), r.symbols[k]? = some s → s.storage = .global l →
    ∃ b j, IsSourceName b ∧ l = globalLabel b j ∧ j < r.counters.globals
  numbered : ∀ (j k : Nat) (s t : Symbol) (n : Nat), r.symbols[j]? = some s →
    r.symbols[k]? = some t → s.IsCell n → t.IsCell n → j = k
  inferred : ∀ f ∈ r.inferred, InferredWell r f

/-- Variables with one cell are one variable. -/
theorem Round.Sound.distinct {fs : List Function} {done : List String} {r : Round}
    (h : r.Sound fs done) (j k : Nat) (s t : Symbol) (l : String) (hs : r.symbols[j]? = some s)
    (ht : r.symbols[k]? = some t) (hsl : s.storage = .global l) (htl : t.storage = .global l) :
    j = k := by
  obtain ⟨b, n, hb, rfl, -⟩ := h.labels j s l hs hsl
  exact h.numbered j k s t n hs ht ⟨b, hb, hsl⟩ ⟨b, hb, htl⟩

/-! ### What lasts -/

theorem Scope.lookup_mem {scope : Scope} {n : String} {k : Nat} (h : scope.lookup n = some k) :
    (n, k) ∈ scope.names := mem_of_lookup h

/-- Scopes of functions stay sound while symbols keep their storage. -/
theorem Scope.Sound.mono {ss ss' : Symbols} {scope : Scope} (h : scope.Sound ss)
    (hss : ∀ (k : Nat) (s : Symbol), ss[k]? = some s →
      ∃ s' : Symbol, ss'[k]? = some s' ∧ Round.SymbolKept s s') : scope.Sound ss' := by
  -- the storage of a bound symbol is what it was
  have hold : ∀ k (t : Symbol), scope.Binds k → ss'[k]? = some t →
      ∃ s : Symbol, ss[k]? = some s ∧ t.storage = s.storage := by
    rintro k t ⟨n, hn⟩ ht
    obtain ⟨-, s, offset, hs, -⟩ := h.bound n k hn
    obtain ⟨s', hs', hkept⟩ := hss k s hs
    cases hs'.symm.trans ht
    exact ⟨s, hs, hkept.storage⟩
  refine ⟨fun n k hn => ?_, fun j k s t offset hj hk hs ht hsoff htoff => ?_⟩
  · obtain ⟨hsource, s, offset, hs, hdefinition, hstorage, hhands⟩ := h.bound n k hn
    obtain ⟨s', hs', hkept⟩ := hss k s hs
    exact ⟨hsource, s', offset, hs', hkept.definition.trans hdefinition,
      hkept.storage.trans hstorage, hhands⟩
  · obtain ⟨s₀, hs₀, hs'⟩ := hold j s hj hs
    obtain ⟨t₀, ht₀, ht'⟩ := hold k t hk ht
    exact h.distinct j k s₀ t₀ offset hj hk hs₀ ht₀ (hs'.symm.trans hsoff) (ht'.symm.trans htoff)

/-- **An inferred instance stays well** when the round goes on. -/
theorem InferredWell.mono {r r' : Round} {f : Inferred} (h : InferredWell r f)
    (hr : Round.Extends r r') : InferredWell r' f := by
  refine ⟨h.scope.mono hr.symbols, h.params, fun j p hp => ?_, ?_, ?_⟩
  · obtain ⟨k, s, hlookup, hs, hstorage⟩ := h.param j p hp
    obtain ⟨s', hs', hkept⟩ := hr.symbols k s hs
    exact ⟨k, s', hlookup, hs', hkept.storage.trans hstorage⟩
  · refine h.body.mono (fun k hk => ?_) fun _ _ => hr.isInstance
    rcases hk with hk | hk
    · exact .inl (hr.isGlobal hk)
    · exact .inr hk
  · obtain ⟨i, hi, hname, hparams, hshape⟩ := h.made
    exact ⟨i, hr.made i hi, hname, hparams, hshape⟩

theorem Round.Bound.mono {fs : List Function} {is is' : Instances} {n : String} {s s' : Symbol}
    (h : Bound fs is n s) (hs : SymbolKept s s') (hmade : ∀ i ∈ is.made, i ∈ is'.made)
    (hqueued : ∀ n ∈ is.queued, n ∈ is'.queued) : Bound fs is' n s' := by
  cases h with
  | defined hn hf hname hdef => exact .defined hn hf hname (hs.definition.trans hdef)
  | cell hn hdef hstorage =>
      exact .cell hn (hs.definition.trans hdef) (hs.storage.trans hstorage)
  | made hi hname hemitted hdef hq =>
      exact .made (hmade _ hi) hname (hs.emittedName.trans hemitted)
        (hs.definition.trans hdef) (hqueued _ hq)

/-! ### How long the queue can be -/

/-- All lists of a number of types. -/
def typeLists : Nat → List (List Scalar)
  | 0 => [[]]
  | n + 1 => (typeLists n).flatMap fun ts => [.int :: ts, .float :: ts]

theorem length_typeLists (n : Nat) : (typeLists n).length = 2 ^ n := by
  induction n with
  | zero => rfl
  | succ n ih =>
      rw [typeLists, List.length_flatMap, pow_succ, ← ih]
      simp

theorem mem_typeLists (ts : List Scalar) : ts ∈ typeLists ts.length := by
  induction ts with
  | nil => simp [typeLists]
  | cons t ts ih =>
      rw [List.length_cons, typeLists, List.mem_flatMap]
      exact ⟨ts, ih, by cases t <;> simp⟩

/-- The names that instances of some functions can have. -/
def decoratedNames (fs : List Function) : List String :=
  fs.flatMap fun f => (typeLists f.params.length).map (decorate f.name)

theorem length_decoratedNames (fs : List Function) :
    (decoratedNames fs).length = Infer.signatures fs := by
  induction fs with
  | nil => rfl
  | cons f fs ih =>
      rw [decoratedNames, List.flatMap_cons, List.length_append, List.length_map,
        length_typeLists, Infer.signatures]
      exact congrArg _ ih

/-- **The queue holds no more names than the functions have signatures.** -/
theorem length_queued_le {fs : List Function} {is : Instances} (h : is.Sound fs) :
    is.queued.length ≤ Infer.signatures fs := by
  rw [← length_decoratedNames]
  refine (List.subperm_of_subset h.nodup_queued fun n hn => ?_).length_le
  obtain ⟨i, hi, rfl⟩ := h.queued n hn
  obtain ⟨f, hf, hcopy⟩ := h.made i hi
  rw [hcopy.name]
  refine List.mem_flatMap.2 ⟨f, hf, List.mem_map_of_mem ?_⟩
  rw [← hcopy.args]
  exact mem_typeLists i.args

end StackLang
