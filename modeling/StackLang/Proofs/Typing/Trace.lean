/-
**The calls that inference resolves.**

The outcome of inference is that of its last round.  What happens on the way is seen in the calls
that are resolved one after the other, in all rounds, and in the states behind them; a round that
fails has resolved the calls before the fault.

Main definitions:

* `Call` — a call that was resolved, with the state behind it;
* `Infer.calls`, `Infer.unitCalls` — the calls of a visit and of a round, in order;
* `Document.rounds`, `Document.calls`, `Document.states` — the rounds over a document, their calls,
  and the states on the way;
* `Infer.Trail` — the states of a step in order.

Main results:

* `Infer.trail_visit`, `Infer.trail_visitUnit` — visits and rounds leave trails;
* `Document.exists_round_of_infer` — the outcome of inference is that of one of the rounds.
-/

import StackLang.Proofs.Typing.Consistent
import StackLang.Proofs.Typing.Copies

set_option relaxedAutoImplicit false
set_option autoImplicit false

namespace StackLang

open Step

/-- A call that was resolved. -/
structure Call where
  /-- The name that is called. -/
  base : String
  /-- The types of the arguments. -/
  args : List Scalar
  /-- The symbol that the name stands for. -/
  template : Nat
  /-- The symbol that the call goes to. -/
  symbol : Nat
  /-- The state behind the call. -/
  after : Round

namespace Call

/-- The definition of the function that the name stands for. -/
def template? (c : Call) : Option Function :=
  (c.after.symbols[c.template]?).bind Symbol.definition

/-- The definition that the call goes to. -/
def function? (c : Call) : Option Function := (c.after.symbols[c.symbol]?).bind Symbol.definition

end Call

namespace Infer

/-! ### The calls of a round -/

/-- What comes behind a step, if it succeeds. -/
def behind {α β : Type} (x : Infer α) (f : α → Round → List β) (r : Round) : List β :=
  match x r with
  | .ok (a, r') => f a r'
  | .error _ => []

/-- The call of `base` with arguments of some types, if it is resolved. -/
def resolved (call callee : Mark) (base : String) (args : List Scalar) (r : Round) : List Call :=
  behind (called call callee base args) (fun p r' => [⟨base, args, p.1, p.2.1, r'⟩]) r

mutual

/-- **The calls that a visit resolves**, in order, also if it fails behind them. -/
def calls : Node Mark → Round → List Call
  | .binary _ op l x, r =>
    if op = .assign then
      match l with
      | .identifier .. => calls x r
      | _ => []
    else calls l r ++ behind (visit l) (fun _ => calls x) r
  | .unary _ _ x, r => calls x r
  | .call m f as, r =>
    match f with
    | .identifier n base =>
      callsAll as r ++ behind (visitArgs as) (fun p => resolved m n base p.2) r
    | _ => []
  | .cond _ c t none, r => calls c r ++ behind (visit c) (fun _ => calls t) r
  | .cond _ c t (some e), r =>
    calls c r ++ behind (visit c) (fun _ r => calls t r ++ behind (visit t) (fun _ => calls e) r) r
  | .loop _ c b, r => calls c r ++ behind (visit c) (fun _ => calls b) r
  | .returnValue _ v, r => calls v r
  | .block _ is, r => callsAll is r
  | .unit _ is, r => callsItems is r
  | .literal .., _ | .identifier .., _ | .breakLoop _, _ | .continueLoop _, _ | .define .., _
  | .prototype .., _ | .assembly .., _ | .nop _, _ => []

/-- The calls of arguments or statements. -/
def callsAll : List (Node Mark) → Round → List Call
  | [], _ => []
  | x :: xs, r => calls x r ++ behind (visit x) (fun _ => callsAll xs) r

/-- The calls of the items of a unit, without those in definitions. -/
def callsItems : List (Node Mark) → Round → List Call
  | [], _ => []
  | x :: xs, r =>
    if x.isDefinition then callsItems xs r
    else calls x r ++ behind (visit x) (fun _ => callsItems xs) r

end

/-- The calls in the body of an instance. -/
def instanceCalls (i : Instance) (r : Round) : List Call :=
  behind (declareParams i.function.heading.span (i.function.params.zip i.args))
    (fun _ => calls i.function.body) { r with frame := some .function }

/-- The calls of the work on the queue. -/
def drainCalls : Nat → Round → List Call
  | 0, _ => []
  | fuel + 1, r =>
    match r.instances.next with
    | (none, _) => []
    | (some name, instances) =>
      match instances.get? name with
      | none => []
      | some i =>
        instanceCalls i { r with instances } ++
          behind (visitInstance i) (fun _ => drainCalls fuel) { r with instances }

/-- **The calls of a round** over the items of a unit. -/
def unitCalls (items : List (Node Mark)) (r : Round) : List Call :=
  let fs := Node.definitions items
  behind (declareFunctions fs) (fun _ r =>
    callsItems items r ++ behind (visitItems items) (fun _ => drainCalls (signatures fs)) r) r

/-- The states of a round: the first, those behind its calls, and the last if there is one. -/
def unitStates (mark : Mark) (items : List (Node Mark)) (r : Round) : List Round :=
  r :: (unitCalls items r).map Call.after ++ behind (visitUnit mark items) (fun _ r' => [r']) r

end Infer

namespace Document

/-- The first states of the rounds from the `k`-th on. -/
def roundsFrom (mark : Mark) (items : List (Node Mark)) : Nat → Nat → Nat → Instances → List Round
  | 0, _, _, _ => []
  | fuel + 1, k, fresh, instances =>
    .start fresh instances ::
      Infer.behind (Infer.visitUnit mark items) (fun _ r =>
        if !r.changed then []
        else if 2 * r.instances.made.length + 2 < k then []
        else roundsFrom mark items fuel (k + 1) r.fresh r.instances) (.start fresh instances)

/-- **The rounds over a document**, by their first states. -/
def rounds (d : Document) : List Round :=
  match d.root with
  | .unit mark items =>
    roundsFrom mark items (2 * Infer.signatures (Node.definitions items) + 4) 1 d.fresh .empty
  | _ => []

/-- **The calls of all rounds** over a document. -/
def calls (d : Document) : List Call :=
  match d.root with
  | .unit _ items => d.rounds.flatMap (Infer.unitCalls items)
  | _ => []

/-- **The states of all rounds** over a document. -/
def states (d : Document) : List Round :=
  match d.root with
  | .unit mark items => d.rounds.flatMap (Infer.unitStates mark items)
  | _ => []

end Document

/-! ### Trails -/

namespace Infer

open Round

variable {fs : List Function} {done : List String} {ids : List Nat} {r r' : Round}

/-- A call was resolved as it should be: it goes to the instance for its types, and the name stands
for a function of the unit. -/
structure IsServed (fs : List Function) (c : Call) : Prop where
  template : ∃ f ∈ fs, f.name = c.base ∧ c.template? = some f
  binds : ∃ i, c.after.Binds c.base c.args c.symbol i

/-- **The states of a step are in order**: each leads to those behind it, and all lead to the end
of the step. -/
structure Trail {α : Type} (fs : List Function) (ids : List Nat) (x : Infer α) (cs : List Call)
    (r : Round) : Prop where
  served : ∀ c ∈ cs, IsServed fs c
  ordered : (r :: cs.map Call.after).Pairwise (Leads fs ids)
  ends : ∀ a r', x r = .ok (a, r') → ∀ q ∈ r :: cs.map Call.after, q.Leads fs ids r'

namespace Trail

variable {α β : Type} {x : Infer α} {cs : List Call}

/-- A step without calls. -/
theorem silent (h : ∀ a r', x r = .ok (a, r') → r.Leads fs ids r') : Trail fs ids x [] r where
  served := fun _ hc => absurd hc List.not_mem_nil
  ordered := List.pairwise_singleton _ _
  ends := by
    intro a r' hx q hq
    rw [List.map_nil, List.mem_singleton] at hq
    rw [hq]
    exact h a r' hx

/-- **One step after another.** -/
theorem bind {f : α → Infer β} {g : α → Round → List Call} (hx : Trail fs ids x cs r)
    (hf : ∀ a r', x r = .ok (a, r') → Trail fs ids (f a) (g a r') r') :
    Trail fs ids (x >>= f) (cs ++ behind x g r) r := by
  cases hrun : x r with
  | error e =>
      have hbehind : behind x g r = [] := by rw [behind, hrun]
      rw [hbehind, List.append_nil]
      refine ⟨hx.served, hx.ordered, ?_⟩
      intro b r'' hb
      rw [bind_eq_ok] at hb
      obtain ⟨a, r', ha, -⟩ := hb
      rw [hrun] at ha
      cases ha
  | ok p =>
      obtain ⟨a, r'⟩ := p
      have hbehind : behind x g r = g a r' := by rw [behind, hrun]
      have hnext := hf a r' hrun
      have hends := hx.ends a r' hrun
      rw [hbehind]
      refine ⟨?_, ?_, ?_⟩
      · intro c hc
        rcases List.mem_append.1 hc with hc | hc
        · exact hx.served c hc
        · exact hnext.served c hc
      · rw [List.map_append, ← List.cons_append]
        refine List.pairwise_append.2 ⟨hx.ordered, hnext.ordered.of_cons, ?_⟩
        intro q hq q' hq'
        exact (hends q hq).trans (List.rel_of_pairwise_cons hnext.ordered hq')
      · intro b r'' hb q hq
        rw [bind_eq_ok] at hb
        obtain ⟨a', r₁, ha, hb⟩ := hb
        rw [hrun] at ha
        cases ha
        rw [List.map_append, ← List.cons_append, List.mem_append] at hq
        rcases hq with hq | hq
        · exact (hends q hq).trans (hnext.ends b r'' hb _ List.mem_cons_self)
        · exact hnext.ends b r'' hb q (List.mem_cons_of_mem _ hq)

/-- A step and then one without calls. -/
theorem andThen {f : α → Infer β} (hx : Trail fs ids x cs r)
    (hf : ∀ a r' b r'', x r = .ok (a, r') → f a r' = .ok (b, r'') → r'.Leads fs ids r'') :
    Trail fs ids (x >>= f) cs r := by
  have hall := hx.bind (g := fun _ _ => []) (f := f)
    fun a r' ha => silent fun b r'' hb => hf a r' b r'' ha hb
  have hbehind : behind x (fun _ _ => ([] : List Call)) r = [] := by
    unfold behind
    split <;> rfl
  rwa [hbehind, List.append_nil] at hall

/-- A step and then its value. -/
theorem andPure {f : α → β} (hx : Trail fs ids x cs r) :
    Trail fs ids (x >>= fun a => pure (f a)) cs r := by
  refine hx.andThen ?_
  intro a r' b r'' _ hb
  rw [(pure_eq_ok.1 hb).2]
  exact .refl r'

end Trail

/-! ### Visits -/

/-- **A call that is resolved is served.** -/
theorem trail_called (hfs : AreSource fs) (h : r.Sound fs done) (he : r.Exact) (m n : Mark)
    {base : String} (args : List Scalar) (hbase : IsSourceName base) :
    Trail fs ids (called m n base args) (resolved m n base args r) r := by
  cases hrun : called m n base args r with
  | error e =>
      have hnone : resolved m n base args r = [] := by rw [resolved, behind, hrun]
      rw [hnone]
      refine .silent ?_
      intro a r' hr'
      rw [hrun] at hr'
      cases hr'
  | ok p =>
      obtain ⟨⟨t, k, type⟩, r'⟩ := p
      have hone : resolved m n base args r = [⟨base, args, t, k, r'⟩] := by
        rw [resolved, behind, hrun]
      have hleads : r.Leads fs ids r' := called_lasts (lasting_leads fs ids) h hbase hrun
      have hserved : IsServed fs ⟨base, args, t, k, r'⟩ := by
        obtain ⟨f, hf, hname, -, ⟨s, hs, hdefinition⟩, -⟩ := called_spec h hbase hrun
        obtain ⟨s', hs', hkept⟩ :=
          (called_lasts (lasting_keeps hfs) h hbase hrun).extend.symbols t s hs
        obtain ⟨i, hi, -⟩ := called_calls hfs h he hbase hrun
        refine ⟨⟨f, hf, hname, ?_⟩, i, hi⟩
        rw [Call.template?, hs', Option.bind_some, hkept.definition, hdefinition]
      rw [hone]
      refine ⟨?_, ?_, ?_⟩
      · intro c hc
        rw [List.mem_singleton.1 hc]
        exact hserved
      · exact List.pairwise_pair.2 hleads
      · intro a r'' hr'' q hq
        rw [hrun] at hr''
        cases hr''
        rw [List.map_singleton, List.mem_pair] at hq
        rcases hq with rfl | rfl
        · exact hleads
        · exact .refl _

mutual

/-- **A visit leaves a trail.** -/
theorem trail_visit (hfs : AreSource fs) (x : Node Mark) (hx : x.IsPlain) {r : Round}
    (h : r.Sound fs done) (he : r.Exact) : Trail fs ids (visit x) (calls x r) r := by
  cases x with
  | identifier m x =>
      rw [visit, calls]
      refine .silent ?_
      intro p r' hp
      simp only [bind_eq_ok, pure_eq_ok, Prod.exists] at hp
      obtain ⟨k, type, r₁, hvalue, -, rfl⟩ := hp
      rw [(valueOf_spec h hvalue).1]
      exact .refl r
  | binary m op a b =>
      obtain ⟨ha, hb⟩ := isPlain_binary.1 hx
      by_cases hop : op = .assign
      · cases a with
        | identifier n x =>
            rw [visit, calls, if_pos hop, if_pos hop]
            refine (trail_visit hfs b hb h he).andThen ?_
            rintro ⟨b', s⟩ r₁ p r₂ hb' hassigned
            simp only [bind_eq_ok, pure_eq_ok, Prod.exists] at hassigned
            obtain ⟨k, type, r₃, hassigned, -, rfl⟩ := hassigned
            have hsound := (follows_visit hfs hb h he hb').1.sound
            exact assigned_lasts (lasting_leads fs ids) hsound ha.self hassigned
        | _ =>
            simp only [visit, calls, if_pos hop]
            refine .silent ?_
            intro p r' hp
            exact absurd hp fail_ne_ok
      · simp only [visit, calls, if_neg hop]
        refine (trail_visit hfs a ha h he).bind ?_
        rintro ⟨a', s⟩ r₁ ha'
        obtain ⟨hleft, -, -⟩ := follows_visit hfs ha h he ha'
        exact (trail_visit hfs b hb hleft.sound hleft.exact).andPure
  | unary m op x =>
      rw [visit, calls]
      exact (trail_visit hfs x (Node.every_unary.1 hx).2 h he).andPure
  | call m f as =>
      obtain ⟨-, hf, has⟩ := Node.every_call.1 hx
      cases f with
      | identifier n base =>
          rw [visit, calls]
          refine (trail_visitArgs hfs as has h he).bind ?_
          rintro ⟨as', types⟩ r₁ has'
          obtain ⟨-, -, hargs⟩ := visitArgs_wellTyped hfs as has h he has'
          exact (trail_called hfs hargs.sound hargs.exact m n types hf.self).andPure
      | _ =>
          simp only [visit, calls]
          refine .silent ?_
          intro p r' hp
          exact absurd hp fail_ne_ok
  | cond m c t e =>
      obtain ⟨-, hc, ht, he'⟩ := Node.every_cond.1 hx
      cases e with
      | none =>
          rw [visit, calls]
          refine (trail_visit hfs c hc h he).bind ?_
          rintro ⟨c', s⟩ r₁ hc'
          obtain ⟨htest, -, -⟩ := follows_visit hfs hc h he hc'
          exact (trail_visit hfs t ht htest.sound htest.exact).andPure
      | some e =>
          rw [visit, calls]
          refine (trail_visit hfs c hc h he).bind ?_
          rintro ⟨c', s⟩ r₁ hc'
          obtain ⟨htest, -, -⟩ := follows_visit hfs hc h he hc'
          refine (trail_visit hfs t ht htest.sound htest.exact).bind ?_
          rintro ⟨t', s'⟩ r₂ ht'
          obtain ⟨hthen, -, -⟩ := follows_visit hfs ht htest.sound htest.exact ht'
          exact (trail_visit hfs e (he' e rfl) hthen.sound hthen.exact).andPure
  | loop m c b =>
      obtain ⟨-, hc, hb⟩ := Node.every_loop.1 hx
      rw [visit, calls]
      refine (trail_visit hfs c hc h he).bind ?_
      rintro ⟨c', s⟩ r₁ hc'
      obtain ⟨htest, -, -⟩ := follows_visit hfs hc h he hc'
      exact (trail_visit hfs b hb htest.sound htest.exact).andPure
  | returnValue m v =>
      rw [visit, calls]
      exact (trail_visit hfs v (Node.every_returnValue.1 hx).2 h he).andPure
  | block m is =>
      rw [visit, calls]
      exact (trail_visitList hfs is (Node.every_block.1 hx).2 .int h he).andPure
  | define m p b => exact absurd hx.self id
  | prototype m f ps => exact absurd hx.self id
  | unit m is => exact absurd hx.self id
  | _ =>
      rw [visit, calls]
      refine .silent ?_
      intro p r' hp
      rw [(pure_eq_ok.1 hp).2]
      exact .refl r

theorem trail_visitArgs (hfs : AreSource fs) (xs : List (Node Mark)) (hxs : ∀ x ∈ xs, x.IsPlain)
    {r : Round} (h : r.Sound fs done) (he : r.Exact) :
    Trail fs ids (visitArgs xs) (callsAll xs r) r := by
  cases xs with
  | nil =>
      rw [visitArgs, callsAll]
      refine .silent ?_
      intro p r' hp
      rw [(pure_eq_ok.1 hp).2]
      exact .refl r
  | cons x xs =>
      rw [List.forall_mem_cons] at hxs
      rw [visitArgs, callsAll]
      refine (trail_visit hfs x hxs.1 h he).bind ?_
      rintro ⟨y, s⟩ r₁ hx
      obtain ⟨hfirst, -, -⟩ := follows_visit hfs hxs.1 h he hx
      exact (trail_visitArgs hfs xs hxs.2 hfirst.sound hfirst.exact).andPure

theorem trail_visitList (hfs : AreSource fs) (xs : List (Node Mark)) (hxs : ∀ x ∈ xs, x.IsPlain)
    (type : Scalar) {r : Round} (h : r.Sound fs done) (he : r.Exact) :
    Trail fs ids (visitList type xs) (callsAll xs r) r := by
  cases xs with
  | nil =>
      rw [visitList, callsAll]
      refine .silent ?_
      intro p r' hp
      rw [(pure_eq_ok.1 hp).2]
      exact .refl r
  | cons x xs =>
      rw [List.forall_mem_cons] at hxs
      rw [visitList, callsAll]
      refine (trail_visit hfs x hxs.1 h he).bind ?_
      rintro ⟨y, s⟩ r₁ hx
      obtain ⟨hfirst, -, -⟩ := follows_visit hfs hxs.1 h he hx
      exact (trail_visitList hfs xs hxs.2 _ hfirst.sound hfirst.exact).andPure

end

theorem trail_visitItems (hfs : AreSource fs) {xs : List (Node Mark)} (hxs : ∀ x ∈ xs, x.IsItem)
    {r : Round} (h : r.Sound fs done) (he : r.Exact) :
    Trail fs ids (visitItems xs) (callsItems xs r) r := by
  induction xs generalizing r with
  | nil =>
      rw [visitItems, callsItems]
      refine .silent ?_
      intro p r' hp
      rw [(pure_eq_ok.1 hp).2]
      exact .refl r
  | cons x xs ih =>
      rw [List.forall_mem_cons] at hxs
      cases hdefinition : x.isDefinition with
      | true =>
          rw [visitItems, callsItems, if_pos hdefinition, if_pos hdefinition]
          exact (ih hxs.2 h he).andPure
      | false =>
          have hplain := (Node.isItem_of_not_isDefinition hdefinition).1 hxs.1
          have hno : ¬ x.isDefinition = true := by rw [hdefinition]; exact Bool.false_ne_true
          rw [visitItems, callsItems, if_neg hno, if_neg hno]
          refine (trail_visit hfs x hplain h he).bind ?_
          rintro ⟨y, s⟩ r₁ hx
          obtain ⟨hfirst, -, -⟩ := follows_visit hfs hplain h he hx
          exact (ih hxs.2 hfirst.sound hfirst.exact).andPure

/-! ### Rounds -/

/-- The state is read before a step. -/
theorem Trail.read {α : Type} {f : Round → Infer α} {cs : List Call}
    (hf : Trail fs ids (f r) cs r) : Trail fs ids (get >>= f) cs r :=
  ⟨hf.served, hf.ordered, hf.ends⟩

/-- **The visit of an instance leaves a trail.** -/
theorem trail_visitInstance (hfs : AreSource fs) (h : r.Sound fs done) (he : r.Exact)
    {i : Instance} (hi : i ∈ r.instances.made) :
    Trail fs ids (visitInstance i) (instanceCalls i r) r := by
  obtain ⟨f, hf, hcopy⟩ := h.instances.made i hi
  obtain ⟨-, hpnames, hplain⟩ := hfs f hf
  -- the frame is opened, the parameters are bound, the body is visited, the result is recorded
  have hopened : Trail fs ids (modify fun r => { r with frame := some .function }) [] r := by
    refine .silent ?_
    intro a r' ha
    rw [modify_eq_ok] at ha
    rw [ha]
    exact Still.leads ⟨rfl, rfl⟩
  have hbound : Trail fs ids (declareParams i.function.heading.span (i.function.params.zip i.args))
      [] { r with frame := some .function } :=
    .silent fun _ _ ha => (still_declareParams ha).leads
  refine hopened.bind (g := fun _ => behind (declareParams i.function.heading.span
    (i.function.params.zip i.args)) fun _ => calls i.function.body) ?_
  intro _ r₀ hr₀
  rw [modify_eq_ok] at hr₀
  subst hr₀
  refine hbound.bind ?_
  intro _ r₁ hparams
  have hnames : ∀ p ∈ i.function.params.zip i.args, IsSourceName p.1 :=
    fun p hp => hpnames _ (hcopy.params ▸ (List.of_mem_zip hp).1)
  have hstart := sound_inside h (sound_function r.symbols)
  have hsound₁ := (declareParams_sound hstart rfl hnames hparams).1
  have hexact₁ := (declareParams_stays hstart rfl hnames hparams).2 ⟨he.typed, he.base, he.serves⟩
  refine (trail_visit hfs i.function.body (hplain.of_shape hcopy.shape) hsound₁ hexact₁).andThen ?_
  rintro ⟨body, type⟩ r₂ _ r₃ _ hset
  simp only [bind_eq_ok, get_eq_ok, set_eq_ok, and_assoc, exists_and_left, exists_eq_left] at hset
  rw [hset]
  exact Still.leads ⟨rfl, rfl⟩

/-- **The work on the queue leaves a trail.** -/
theorem trail_drain (hfs : AreSource fs) (fuel : Nat) (h : r.Sound fs done)
    (hframe : r.frame = none) (he : r.Exact) (hr : AllTyped r) :
    Trail fs ids (drain fuel) (drainCalls fuel r) r := by
  induction fuel generalizing r done with
  | zero =>
      refine .silent ?_
      intro a r' ha
      rw [(pure_eq_ok.1 ha).2]
      exact .refl r
  | succ fuel ih =>
      rw [drain, drainCalls]
      refine .read ?_
      cases hpending : r.instances.pending with
      | nil =>
          simp only [Instances.next, hpending]
          refine .silent ?_
          intro a r' ha
          rw [(pure_eq_ok.1 ha).2]
          exact .refl r
      | cons name rest =>
          simp only [Instances.next, hpending]
          have hsound := sound_next h hpending
          have htaken : Trail fs ids
              (set { r with instances := { r.instances with pending := rest } }) [] r := by
            refine .silent ?_
            intro a r' ha
            rw [set_eq_ok] at ha
            rw [ha]
            exact Still.leads ⟨rfl, rfl⟩
          cases hget : Instances.get? name { r.instances with pending := rest } with
          | none =>
              refine htaken.andThen ?_
              intro _ r' _ r'' _ hthrow
              exact absurd hthrow throw_ne_ok
          | some i =>
              have hi := List.mem_of_find?_eq_some hget
              refine htaken.bind (g := fun _ r => instanceCalls i r ++
                behind (visitInstance i) (fun _ => drainCalls fuel) r) ?_
              intro _ r₀ hr₀
              rw [set_eq_ok] at hr₀
              subst hr₀
              have he₀ : Round.Exact { r with instances := { r.instances with pending := rest } } :=
                ⟨he.typed, he.base, he.serves⟩
              have hr₀ : AllTyped { r with instances := { r.instances with pending := rest } } :=
                fun hc f hf => (hr hc f hf).stays
                  ⟨extends_outside (extends_next r rest), .refl r, fun hc => ⟨hc, fun _ => rfl⟩⟩ hc
              refine (trail_visitInstance hfs hsound he₀ hi).bind ?_
              intro _ r₁ hvisit
              obtain ⟨hsound₁, -, hframe₁, -⟩ := visitInstance_sound hfs hsound hi hframe hvisit
              obtain ⟨he₁, hr₁, -⟩ := visitInstance_consistent hfs hsound he₀ hr₀ hi hvisit
              exact ih hsound₁ hframe₁ he₁ hr₁

end Infer

/-- **A round starts** with nothing bound, from instances that the rounds before it have made. -/
structure IsRound (fs : List Function) (r : Round) : Prop where
  start : ∃ fresh is, r = .start fresh is
  sound : r.Sound fs []
  exact : r.Exact

namespace Infer

open Round

variable {items : List (Node Mark)} {r r' : Round}

/-- **A round leaves a trail.** -/
theorem trail_visitUnit (ids : List Nat) (hitems : ∀ x ∈ items, x.IsItem)
    (hr : IsRound (Node.definitions items) r) (mark : Mark) :
    Trail (Node.definitions items) ids (visitUnit mark items) (unitCalls items r) r := by
  have hfs := Typing.areSource_definitions hitems
  obtain ⟨fresh, is, rfl⟩ := hr.start
  have hbound : Trail (Node.definitions items) ids (declareFunctions (Node.definitions items)) []
      (.start fresh is) := .silent fun _ _ ha => (still_declareFunctions ha).leads
  refine hbound.bind ?_
  intro _ r₁ hdeclare
  obtain ⟨hsound₁, hframe₁, hinferred₁⟩ := declareFunctions_sound hfs (List.Subset.refl _)
    hr.sound rfl rfl hdeclare
  have he₁ := declareFunctions_exact hfs (List.Subset.refl _) hr.exact hdeclare
  refine (trail_visitItems hfs hitems hsound₁ he₁).bind ?_
  intro ys r₂ hvisit
  obtain ⟨hgoes, -, -⟩ := visitItems_resolved hfs hitems hsound₁ hvisit
  have he₂ := (visitItems_lasts (lasting_keeps hfs) hfs hitems hsound₁ hvisit).exact he₁
  have hnone : AllTyped r₂ := by
    intro _ f hf
    rw [hgoes.inferred, hinferred₁] at hf
    exact absurd hf List.not_mem_nil
  exact (trail_drain hfs _ hgoes.sound (hgoes.extend.noFrame hframe₁) he₂ hnone).andPure

/-- **The states of a round are in order.** -/
theorem leads_unitStates (ids : List Nat) (hitems : ∀ x ∈ items, x.IsItem)
    (hr : IsRound (Node.definitions items) r) (mark : Mark) :
    (unitStates mark items r).Pairwise (Leads (Node.definitions items) ids) ∧
      ∀ root r', visitUnit mark items r = .ok (root, r') → ∀ q ∈ unitStates mark items r,
        q.Leads (Node.definitions items) ids r' := by
  have htrail := trail_visitUnit ids hitems hr mark
  cases hrun : visitUnit mark items r with
  | error e =>
      have hnone : behind (visitUnit mark items) (fun _ r' => [r']) r = [] := by rw [behind, hrun]
      rw [unitStates, hnone, List.append_nil]
      refine ⟨htrail.ordered, ?_⟩
      intro root r' h
      cases h
  | ok p =>
      obtain ⟨root, r'⟩ := p
      have hone : behind (visitUnit mark items) (fun _ r' => [r']) r = [r'] := by rw [behind, hrun]
      have hends := htrail.ends root r' hrun
      rw [unitStates, hone]
      constructor
      · refine List.pairwise_append.2 ⟨htrail.ordered, List.pairwise_singleton _ _, ?_⟩
        intro q hq q' hq'
        rw [List.mem_singleton.1 hq']
        exact hends q hq
      · rintro _ _ ⟨⟩ q hq
        rcases List.mem_append.1 hq with hq | hq
        · exact hends q hq
        · rw [List.mem_singleton.1 hq]
          exact .refl _

end Infer

namespace Document

open Round

variable {items : List (Node Mark)} {mark : Mark}

/-- What is made in a round is there for the next one. -/
theorem isRound_start (hitems : ∀ x ∈ items, x.IsItem) {r r' : Round} {root : Node Note}
    (hr : IsRound (Node.definitions items) r)
    (hv : Infer.visitUnit mark items r = .ok (root, r')) :
    IsRound (Node.definitions items) (.start r'.fresh r'.instances) := by
  obtain ⟨fresh, is, rfl⟩ := hr.start
  have hinstances := (Infer.visitUnit_sound hitems hr.sound.instances hv).round.instances
  have hbase := (Infer.visitUnit_consistent hitems hr.sound.instances hr.exact.base hv).1.base
  refine ⟨⟨_, _, rfl⟩, Infer.sound_start ⟨hinstances.nodup, hinstances.made, ?_, List.nodup_nil⟩ _,
    Infer.exact_start hbase _⟩
  intro n hn
  exact absurd hn List.not_mem_nil

/-- After the first round there are no more, or those that go on from its end. -/
theorem roundsFrom_succ (mark : Mark) (items : List (Node Mark)) (fuel k fresh : Nat)
    (is : Instances) :
    roundsFrom mark items (fuel + 1) k fresh is = [.start fresh is] ∨
      ∃ root r', Infer.visitUnit mark items (.start fresh is) = .ok (root, r') ∧
        roundsFrom mark items (fuel + 1) k fresh is =
          .start fresh is :: roundsFrom mark items fuel (k + 1) r'.fresh r'.instances := by
  rw [roundsFrom, Infer.behind]
  cases hrun : Infer.visitUnit mark items (.start fresh is) with
  | error e => exact .inl rfl
  | ok p =>
      obtain ⟨root, r'⟩ := p
      by_cases hchanged : r'.changed
      · by_cases hlimit : 2 * r'.instances.made.length + 2 < k
        · refine .inl ?_
          simp [hchanged, hlimit]
        · refine .inr ⟨root, r', rfl, ?_⟩
          simp [hchanged, hlimit]
      · refine .inl ?_
        simp [hchanged]

/-- **The rounds are in order**, and each starts as it should. -/
theorem leads_roundsFrom (ids : List Nat) (mark : Mark) (hitems : ∀ x ∈ items, x.IsItem)
    (fuel k : Nat) {fresh : Nat} {is : Instances}
    (hr : IsRound (Node.definitions items) (.start fresh is)) :
    (∀ r ∈ roundsFrom mark items fuel k fresh is, IsRound (Node.definitions items) r) ∧
      ((roundsFrom mark items fuel k fresh is).flatMap (Infer.unitStates mark items)).Pairwise
        (Leads (Node.definitions items) ids) ∧
      ∀ q ∈ (roundsFrom mark items fuel k fresh is).flatMap (Infer.unitStates mark items),
        Leads (Node.definitions items) ids (.start fresh is) q := by
  induction fuel generalizing k fresh is with
  | zero => exact ⟨fun r h => absurd h List.not_mem_nil, .nil, fun q h => absurd h List.not_mem_nil⟩
  | succ fuel ih =>
      obtain ⟨hordered, hends⟩ := Infer.leads_unitStates ids hitems hr mark
      have hfirst : ∀ q ∈ Infer.unitStates mark items (.start fresh is),
          Leads (Node.definitions items) ids (.start fresh is) q := by
        intro q hq
        rw [Infer.unitStates, List.cons_append] at hq hordered
        rcases List.mem_cons.1 hq with rfl | hq
        · exact .refl _
        · exact List.rel_of_pairwise_cons hordered hq
      rcases roundsFrom_succ mark items fuel k fresh is with hone | ⟨root, r', hrun, hmore⟩
      · rw [hone, List.flatMap_singleton]
        refine ⟨?_, hordered, hfirst⟩
        intro r h
        rw [List.mem_singleton.1 h]
        exact hr
      · obtain ⟨hrounds, hrest, hstart⟩ := ih (k + 1) (isRound_start hitems hr hrun)
        -- the states of this round lead to its end, and that to all later rounds
        have hcross : ∀ q ∈ Infer.unitStates mark items (.start fresh is),
            ∀ q' ∈ (roundsFrom mark items fuel (k + 1) r'.fresh r'.instances).flatMap
              (Infer.unitStates mark items), Leads (Node.definitions items) ids q q' :=
          fun q hq q' hq' =>
            (hends root r' hrun q hq).trans ((Infer.leads_start r').trans (hstart q' hq'))
        rw [hmore, List.flatMap_cons]
        refine ⟨?_, List.pairwise_append.2 ⟨hordered, hrest, hcross⟩, ?_⟩
        · intro r h
          rcases List.mem_cons.1 h with rfl | h
          · exact hr
          · exact hrounds r h
        · intro q hq
          rcases List.mem_append.1 hq with hq | hq
          · exact hfirst q hq
          · exact hcross _ List.mem_cons_self q hq

/-- **The outcome of inference is that of one of the rounds.** -/
theorem exists_round_of_inferFrom {fuel k fresh : Nat} {is : Instances} {t : Typing}
    (ht : inferFrom mark items fuel k fresh is = .ok t) :
    ∃ r ∈ roundsFrom mark items fuel k fresh is,
      Infer.visitUnit mark items r = .ok (t.root, t.round) := by
  induction fuel generalizing k fresh is with
  | zero => cases ht
  | succ fuel ih =>
      rw [inferFrom] at ht
      rw [roundsFrom, Infer.behind]
      cases hrun : Infer.visitUnit mark items (.start fresh is) with
      | error e =>
          rw [StateT.run, hrun] at ht
          cases ht
      | ok p =>
          obtain ⟨root, r⟩ := p
          rw [StateT.run, hrun] at ht
          change (if _ then _ else _) = _ at ht
          split at ht
          · cases ht
            exact ⟨_, List.mem_cons_self, hrun⟩
          · rename_i hchanged
            split at ht
            · cases ht
            · rename_i hlimit
              obtain ⟨r', hr', hv⟩ := ih ht
              refine ⟨r', List.mem_cons_of_mem _ ?_, hv⟩
              simp only [if_neg hchanged, if_neg hlimit]
              exact hr'

end Document

end StackLang
