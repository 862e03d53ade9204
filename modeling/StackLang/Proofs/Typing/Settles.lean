/-
**When inference comes to an end.**

A round fails only where a name is used against its meaning, and rounds follow one another as long
as some result differs from what was assumed of it.  They need not come to an end in time: a new
instance is assumed to give an integer even where it takes the place of one that gave a float, so
that results fall as well as rise.  Where every function gives an integer nothing is ever assumed
wrongly, and the first round is the last; where no float is written it finds integers only.

Main definitions:

* `Infer.FailsOnNames` — a step fails only where a name is used against its meaning;
* `Node.IsFloatFree` — no float is written in the tree;
* `Round.IsInteger` — nothing in a round is a float.

Main results:

* `Infer.visit_failsOnNames`, `Infer.drain_error` — a round fails only on names;
* `Infer.visit_integer` — without floats every expression is an integer;
* `Document.infer_error`, `Document.infer_confined`, `Document.infer_integer` — how inference fails,
  where it does not, and what it finds without floats;
* `Compile.infer_outcome` — the outcome of inference for a source text.
-/

import StackLang.Proofs.Eval.Basic
import StackLang.Proofs.Typing.Confined

set_option relaxedAutoImplicit false
set_option autoImplicit false

namespace StackLang

open Step

/-! ### Rounds fail on names only -/

namespace Infer

/-- The step fails only where a name is used against its meaning. -/
def FailsOnNames {α : Type} (x : Infer α) : Prop :=
  ∀ r e, x r = .error e → ∃ s, e = .semantic s

namespace FailsOnNames

variable {α β : Type}

protected theorem pure (a : α) : FailsOnNames (pure a : Infer α) := by
  intro r e h
  cases h

protected theorem fail (cause : SemanticCause) (span : Span) :
    FailsOnNames (fail cause span : Infer α) := by
  intro r e h
  cases h
  exact ⟨_, rfl⟩

protected theorem get : FailsOnNames (get : Infer Round) := by
  intro r e h
  cases h

protected theorem set (r : Round) : FailsOnNames (set r : Infer PUnit) := by
  intro r e h
  cases h

protected theorem modify (f : Round → Round) : FailsOnNames (modify f : Infer PUnit) := by
  intro r e h
  cases h

protected theorem bind {x : Infer α} {f : α → Infer β} (hx : FailsOnNames x)
    (hf : ∀ a, FailsOnNames (f a)) : FailsOnNames (x >>= f) := by
  intro r e h
  rcases bind_eq_error.1 h with h | ⟨a, r₁, -, h⟩
  · exact hx r e h
  · exact hf a r₁ e h

/-- A step that asks for the state may use it. -/
protected theorem read {f : Round → Infer α} (hf : ∀ r, FailsOnNames (f r)) :
    FailsOnNames (get >>= f) := FailsOnNames.get.bind hf

end FailsOnNames

/-! #### Names and calls -/

theorem addSymbol_failsOnNames (s : Symbol) : FailsOnNames (addSymbol s) :=
  .read fun _ => (FailsOnNames.set _).bind fun _ => .pure _

theorem bindGlobal_failsOnNames (name : String) (k : Nat) : FailsOnNames (bindGlobal name k) :=
  .modify _

theorem find?_failsOnNames (name : String) : FailsOnNames (find? name) := .read fun _ => .pure _

theorem declare_failsOnNames (name : String) (type : Scalar) :
    FailsOnNames (declare name type) := by
  refine .read fun r => ?_
  cases r.frame with
  | none =>
      exact (FailsOnNames.set _).bind fun _ => (addSymbol_failsOnNames _).bind fun _ =>
        (bindGlobal_failsOnNames _ _).bind fun _ => .pure _
  | some scope =>
      exact (FailsOnNames.set _).bind fun _ => (addSymbol_failsOnNames _).bind fun _ =>
        (FailsOnNames.modify _).bind fun _ => .pure _

theorem valueOf_failsOnNames (m : Mark) (name : String) : FailsOnNames (valueOf m name) := by
  refine (find?_failsOnNames name).bind fun o => ?_
  cases o with
  | none => exact .fail _ _
  | some p =>
      dsimp only
      split
      · exact .fail _ _
      · exact .pure _

theorem assigned_failsOnNames (m : Mark) (name : String) (value : Scalar) :
    FailsOnNames (assigned m name value) := by
  refine (find?_failsOnNames name).bind fun o => ?_
  cases o with
  | none => exact (declare_failsOnNames name value).bind fun _ => .pure _
  | some p =>
      dsimp only
      split
      · exact .fail _ _
      · exact .pure _

theorem instanceOf_failsOnNames (f : Function) (base name : String) (args : List Scalar) :
    FailsOnNames (instanceOf f base name args) := by
  refine .read fun r => ?_
  cases r.instances.get? name with
  | none => exact (FailsOnNames.set _).bind fun _ => .pure _
  | some i => exact .pure _

theorem instantiate_failsOnNames (f : Function) (base name : String) (args : List Scalar) :
    FailsOnNames (instantiate f base name args) :=
  (instanceOf_failsOnNames f base name args).bind fun _ => (addSymbol_failsOnNames _).bind fun _ =>
    (bindGlobal_failsOnNames _ _).bind fun _ => (FailsOnNames.modify _).bind fun _ => .pure _

theorem called_failsOnNames (call callee : Mark) (base : String) (args : List Scalar) :
    FailsOnNames (called call callee base args) := by
  refine (find?_failsOnNames base).bind fun o => ?_
  cases o with
  | none => exact .fail _ _
  | some p =>
      dsimp only
      cases p.2.definition with
      | none => exact .fail _ _
      | some f =>
          dsimp only
          split
          · exact .fail _ _
          · refine .read fun r => ?_
            cases r.lookup (decorate base args) with
            | none =>
                exact (instantiate_failsOnNames _ _ _ _).bind fun _ =>
                  (FailsOnNames.modify _).bind fun _ => .read fun _ => .pure _
            | some k =>
                exact (FailsOnNames.pure k).bind fun _ => (FailsOnNames.modify _).bind
                  fun _ => .read fun _ => .pure _

/-! #### Expressions -/

mutual

/-- **A visit of an expression fails only on names.** -/
theorem visit_failsOnNames (x : Node Mark) : FailsOnNames (visit x) := by
  cases x with
  | binary m op l r =>
      by_cases hop : op = .assign
      · cases l with
        | identifier n x =>
            simp only [visit, if_pos hop]
            exact (visit_failsOnNames r).bind fun p => (assigned_failsOnNames n x p.2).bind
              fun _ => .pure _
        | _ =>
            simp only [visit, if_pos hop]
            exact .fail _ _
      · simp only [visit, if_neg hop]
        exact (visit_failsOnNames l).bind fun _ => (visit_failsOnNames r).bind fun _ => .pure _
  | unary m op x =>
      rw [visit]
      exact (visit_failsOnNames x).bind fun _ => .pure _
  | call m f as =>
      cases f with
      | identifier n base =>
          rw [visit]
          exact (visitArgs_failsOnNames as).bind fun p => (called_failsOnNames m n base p.2).bind
            fun _ => .pure _
      | _ =>
          simp only [visit]
          exact .fail _ _
  | cond m c t e =>
      cases e with
      | none =>
          rw [visit]
          exact (visit_failsOnNames c).bind fun _ => (visit_failsOnNames t).bind fun _ => .pure _
      | some e =>
          rw [visit]
          exact (visit_failsOnNames c).bind fun _ => (visit_failsOnNames t).bind fun _ =>
            (visit_failsOnNames e).bind fun _ => .pure _
  | loop m c b =>
      rw [visit]
      exact (visit_failsOnNames c).bind fun _ => (visit_failsOnNames b).bind fun _ => .pure _
  | returnValue m v =>
      rw [visit]
      exact (visit_failsOnNames v).bind fun _ => .pure _
  | block m is =>
      rw [visit]
      exact (visitList_failsOnNames .int is).bind fun _ => .pure _
  | unit m is =>
      rw [visit]
      exact (visitItems_failsOnNames is).bind fun _ => .pure _
  | identifier m x =>
      rw [visit]
      exact (valueOf_failsOnNames m x).bind fun _ => .pure _
  | _ =>
      rw [visit]
      exact .pure _

theorem visitArgs_failsOnNames (xs : List (Node Mark)) : FailsOnNames (visitArgs xs) := by
  cases xs with
  | nil =>
      rw [visitArgs]
      exact .pure _
  | cons x xs =>
      rw [visitArgs]
      exact (visit_failsOnNames x).bind fun _ => (visitArgs_failsOnNames xs).bind fun _ => .pure _

theorem visitList_failsOnNames (type : Scalar) (xs : List (Node Mark)) :
    FailsOnNames (visitList type xs) := by
  cases xs with
  | nil =>
      rw [visitList]
      exact .pure _
  | cons x xs =>
      rw [visitList]
      exact (visit_failsOnNames x).bind fun p => (visitList_failsOnNames _ xs).bind
        fun _ => .pure _

theorem visitItems_failsOnNames (xs : List (Node Mark)) : FailsOnNames (visitItems xs) := by
  cases xs with
  | nil =>
      rw [visitItems]
      exact .pure _
  | cons x xs =>
      rw [visitItems]
      split
      · exact (visitItems_failsOnNames xs).bind fun _ => .pure _
      · exact (visit_failsOnNames x).bind fun _ => (visitItems_failsOnNames xs).bind
          fun _ => .pure _

end

/-! #### Definitions and instances -/

theorem declareFunctions_failsOnNames (fs : List Function) :
    FailsOnNames (declareFunctions fs) := by
  induction fs with
  | nil => exact .pure _
  | cons f fs ih =>
      refine .read fun r => ?_
      split
      · exact .fail _ _
      · exact (addSymbol_failsOnNames _).bind fun _ => (bindGlobal_failsOnNames _ _).bind
          fun _ => ih

theorem declareParams_failsOnNames (span : Span) (ps : List (String × Scalar)) :
    FailsOnNames (declareParams span ps) := by
  induction ps with
  | nil => exact .pure _
  | cons p ps ih =>
      refine .read fun r => ?_
      dsimp only
      split
      · exact .fail _ _
      · exact (FailsOnNames.set _).bind fun _ => (addSymbol_failsOnNames _).bind fun _ =>
          (FailsOnNames.modify _).bind fun _ => ih

theorem visitInstance_failsOnNames (i : Instance) : FailsOnNames (visitInstance i) :=
  (FailsOnNames.modify _).bind fun _ => (declareParams_failsOnNames _ _).bind fun _ =>
    (visit_failsOnNames _).bind fun _ => .read fun _ => .set _

variable {fs : List Function} {done : List String} {r : Round}

/-- **Working off the queue fails only on names**: what waits there was made. -/
theorem drain_error (hfs : AreSource fs) {fuel : Nat} (h : r.Sound fs done)
    (hframe : r.frame = none) {e : CompileError} (hd : drain fuel r = .error e) :
    ∃ s, e = .semantic s := by
  induction fuel generalizing r done with
  | zero => cases hd
  | succ fuel ih =>
      simp only [drain, bind_eq_error, get_eq_ok, and_assoc, exists_and_left, exists_eq_left] at hd
      replace hd := hd.resolve_left fun hd => by cases hd
      cases hpending : r.instances.pending with
      | nil =>
          simp only [Instances.next, hpending] at hd
          cases hd
      | cons name rest =>
          obtain ⟨j, hj, hname⟩ := h.instances.queued name
            (h.pending name (hpending ▸ List.mem_cons_self))
          obtain ⟨i, hi⟩ := Option.isSome_iff_exists.1
            (List.find?_isSome (p := fun i : Instance => decide (i.name = name)).2
              ⟨j, hj, decide_eq_true hname⟩)
          have hget : Instances.get? name { r.instances with pending := rest } = some i := hi
          simp only [Instances.next, hpending, hget, bind_eq_error, set_eq_ok, exists_eq_left,
            exists_const] at hd
          rcases hd with hd | hd | ⟨_, r₁, hvisit, hd⟩
          · cases hd
          · exact visitInstance_failsOnNames i _ _ hd
          · obtain ⟨hsound, -, hframe', -⟩ := visitInstance_sound hfs (sound_next h hpending)
              (List.mem_of_find?_eq_some hi) hframe hvisit
            exact ih hsound hframe' hd

end Infer

/-! ### Trees without floats -/

namespace Node

variable {α β : Type}

/-- The root is a float that is written out. -/
def isFloat : Node α → Bool
  | literal _ (.float _) => true
  | _ => false

/-- No float is written in the tree. -/
def IsFloatFree (x : Node α) : Prop := x.Every fun y => y.isFloat = false

instance (x : Node α) : Decidable x.IsFloatFree :=
  inferInstanceAs (Decidable (∀ y ∈ x.subtrees, y.isFloat = false))

/-- Whether a float is written depends on the shape. -/
theorem isFloatFree_shape (x : Node α) : x.shape.IsFloatFree ↔ x.IsFloatFree := by
  have hroot : ∀ y : Node α, y.shape.isFloat = y.isFloat := by
    intro y
    cases y with
    | literal n v => cases v <;> rfl
    | _ => rfl
  simp only [IsFloatFree, every_shape, hroot]

theorem IsFloatFree.of_shape {x : Node α} {y : Node β} (h : x.IsFloatFree)
    (hxy : y.shape = x.shape) : y.IsFloatFree := by
  rwa [← isFloatFree_shape, hxy, isFloatFree_shape]

/-! #### What is written without floats -/

mutual

/-- Without floats an integer is written. -/
theorem IsFloatFree.writtenType_eq (x : Node α) (hx : x.IsFloatFree) :
    x.writtenType .int = .int := by
  cases x with
  | literal m v =>
      cases v with
      | int n => rfl
      | float v => exact absurd hx.self nofun
  | binary m op l r =>
      obtain ⟨-, hl, hr⟩ := every_binary.1 hx
      rw [writtenType, IsFloatFree.writtenType_eq l hl, IsFloatFree.writtenType_eq r hr,
        Scalar.join_self, ite_self, ite_self]
  | unary m op x =>
      rw [writtenType, IsFloatFree.writtenType_eq x (every_unary.1 hx).2, ite_self]
  | cond m c t e =>
      obtain ⟨-, -, ht, he⟩ := every_cond.1 hx
      cases e with
      | none => rw [writtenType, IsFloatFree.writtenType_eq t ht]
      | some e =>
          rw [writtenType, IsFloatFree.writtenType_eq t ht, IsFloatFree.writtenType_eq e (he e rfl),
            Scalar.join_self]
  | returnValue m v =>
      rw [writtenType, IsFloatFree.writtenType_eq v (every_returnValue.1 hx).2]
  | block m is => rw [writtenType, IsFloatFree.writtenListType_eq is (every_block.1 hx).2]
  | _ => rfl

theorem IsFloatFree.writtenListType_eq (xs : List (Node α)) (hxs : ∀ x ∈ xs, x.IsFloatFree) :
    writtenListType .int .int xs = .int := by
  cases xs with
  | nil => rfl
  | cons x xs =>
      rw [List.forall_mem_cons] at hxs
      rw [writtenListType, IsFloatFree.writtenType_eq x hxs.1, ite_self,
        IsFloatFree.writtenListType_eq xs hxs.2]

end

/-- **Without floats every function gives an integer.** -/
theorem IsFloatFree.isConfined {x : Node α} (hx : x.IsFloatFree) : x.IsConfined .int := by
  intro y hy
  have hbelow : ∀ z ∈ y.children, z.IsFloatFree := (every_iff_children.1 (hx.below y hy)).2
  have hwritten : ∀ z ∈ y.children, z.writtenType .int = .int := fun z hz =>
    IsFloatFree.writtenType_eq z (hbelow z hz)
  cases y with
  | binary m op l r => exact fun _ => (hwritten r (by simp [children])).le
  | call m f as => exact fun a ha => (hwritten a (by simp [children, ha])).le
  | define m p b => exact hwritten b (by simp [children])
  | _ => trivial

/-- A tree that has floats only where the text has them is on integers, if the text has none. -/
theorem IsTracked.isInteger {x : Node Note} (h : x.IsTracked .int) (hx : x.IsFloatFree) :
    x.IsInteger := by
  intro y hy heq
  have hle : y.note.type.getD .int ≤ y.writtenType .int := h y hy
  rw [heq, IsFloatFree.writtenType_eq y (hx.below y hy)] at hle
  cases Scalar.eq_int_of_le hle

end Node

theorem giveIntegers_isFloatFree : GiveIntegers .int Node.IsFloatFree := fun x hx =>
  ⟨hx.isConfined, Node.IsFloatFree.writtenType_eq x hx⟩

/-! ### Rounds without floats -/

/-- **Nothing in the round is a float.** -/
def Round.IsInteger (r : Round) : Prop := r.IsConfined .int Node.IsFloatFree

namespace Infer

variable {r r' : Round}

theorem instanceOf_integer (h : r.IsInteger) {f copy : Function} {base name : String}
    {args : List Scalar} (hf : f.body.IsFloatFree) (hargs : ∀ a ∈ args, a = .int)
    (hi : instanceOf f base name args r = .ok (copy, r')) :
    r'.IsInteger ∧ copy.body.IsFloatFree := by
  obtain ⟨h₁, hcopy⟩ := instanceOf_confined h ((Node.isFloatFree_shape _).2 hf)
    (fun a ha => (hargs a ha).le) hi
  exact ⟨h₁, (Node.isFloatFree_shape _).1 hcopy⟩

/-- **Without floats every expression is an integer.** -/
theorem visit_integer (x : Node Mark) (hx : x.IsFloatFree) {y : Node Note} {type : Scalar}
    (h : r.IsInteger) (hv : visit x r = .ok ((y, type), r')) :
    r'.IsInteger ∧ Tracks .int x y type ∧ type = .int := by
  obtain ⟨h₁, htracks⟩ := visit_confined x hx.isConfined h hv
  have htype := htracks.type
  rw [Node.IsFloatFree.writtenType_eq x hx] at htype
  exact ⟨h₁, htracks, Scalar.eq_int_of_le htype⟩

/-! ### Rounds -/

variable {mark : Mark} {items : List (Node Mark)}

/-- The body of a definition is a part of it. -/
theorem isFloatFree_definitions (hitems : ∀ x ∈ items, x.IsFloatFree) :
    ∀ f ∈ Node.definitions items, f.body.shape.IsFloatFree := by
  intro f hf
  obtain ⟨x, hx, hfx⟩ := List.mem_filterMap.1 hf
  have hfree := hitems x hx
  unfold Function.ofNode? at hfx
  split at hfx
  · cases hfx
    exact (Node.isFloatFree_shape _).2 (Node.every_define.1 hfree).2.2
  · cases hfx

/-- **Without floats the first round finds integers only.** -/
theorem visitUnit_integer (hitems : ∀ x ∈ items, x.IsFloatFree) {fresh : Nat} {root : Node Note}
    (hv : (visitUnit mark items).run (.start fresh .empty) = .ok (root, r)) :
    root.IsInteger ∧ ∀ f ∈ r.inferred, f.body.IsInteger := by
  have hunit : (Node.unit mark items).IsFloatFree := Node.every_unit.2 ⟨rfl, hitems⟩
  obtain ⟨hr, htracked, hshape⟩ := visitUnit_confined giveIntegers_isFloatFree
    (fun x hx => (hitems x hx).isConfined) (isFloatFree_definitions hitems) hv
  refine ⟨htracked.isInteger (hunit.of_shape hshape), fun f hf => ?_⟩
  obtain ⟨hbody, hfree⟩ := hr.inferred f hf
  exact hbody.isInteger ((Node.isFloatFree_shape _).1 hfree)

/-- There is nothing to say of no instances. -/
theorem sound_empty (fs : List Function) : Instances.empty.newRound.Sound fs :=
  ⟨List.nodup_nil, fun _ hi => absurd hi List.not_mem_nil,
    fun _ hn => absurd hn List.not_mem_nil, List.nodup_nil⟩

/-- A round fails only on names. -/
theorem visitUnit_error (hitems : ∀ x ∈ items, x.IsItem) {is : Instances}
    (his : is.newRound.Sound (Node.definitions items)) {fresh : Nat} {e : CompileError}
    (hv : (visitUnit mark items).run (.start fresh is) = .error e) : ∃ s, e = .semantic s := by
  have hfs := Typing.areSource_definitions hitems
  simp only [StateT.run, visitUnit, bind_eq_error] at hv
  rcases hv with hv | ⟨_, r₁, hdeclare, hv | ⟨ys, r₂, hvisit, hv | ⟨_, r₃, -, hv⟩⟩⟩
  · exact declareFunctions_failsOnNames _ _ _ hv
  · exact visitItems_failsOnNames _ _ _ hv
  · obtain ⟨hsound₁, hframe₁, -⟩ := declareFunctions_sound hfs (List.Subset.refl _)
      (sound_start his fresh) rfl rfl hdeclare
    obtain ⟨hgoes, -⟩ := visitItems_resolved hfs hitems hsound₁ hvisit
    exact drain_error hfs hgoes.sound (hgoes.extend.noFrame hframe₁) hv
  · cases hv

end Infer

namespace Document

variable {mark : Mark} {items : List (Node Mark)} {d : Document} {t : Typing}

theorem inferFrom_error (hitems : ∀ x ∈ items, x.IsItem) {fuel k fresh : Nat} {is : Instances}
    (his : is.newRound.Sound (Node.definitions items)) {e : CompileError}
    (he : inferFrom mark items fuel k fresh is = .error e) :
    (∃ s, e = .semantic s) ∨ e = .internal .unsettledResults := by
  induction fuel generalizing k fresh is with
  | zero =>
      cases he
      exact .inr rfl
  | succ fuel ih =>
      rw [inferFrom] at he
      cases hv : (Infer.visitUnit mark items).run (.start fresh is) with
      | error e' =>
          rw [hv] at he
          cases he
          exact .inl (Infer.visitUnit_error hitems his hv)
      | ok p =>
          obtain ⟨root, r⟩ := p
          have hinstances := (Infer.visitUnit_sound hitems his hv).round.instances
          rw [hv] at he
          change (if _ then _ else _) = _ at he
          split at he
          · cases he
          · split at he
            · cases he
              exact .inr rfl
            · exact ih ⟨hinstances.nodup, hinstances.made, fun _ hn => absurd hn List.not_mem_nil,
                List.nodup_nil⟩ he

/-- **Inference of a source fails** on names, or because results do not settle. -/
theorem infer_error (hroot : d.root = .unit mark items) (hitems : ∀ x ∈ items, x.IsItem)
    {e : CompileError} (he : d.infer = .error e) :
    (∃ s, e = .semantic s) ∨ e = .internal .unsettledResults := by
  rw [infer, hroot] at he
  exact inferFrom_error hitems (Infer.sound_empty _) he

/-- **Where every function gives an integer inference fails only on names.** -/
theorem infer_confined (hroot : d.root = .unit mark items) (hitems : ∀ x ∈ items, x.IsItem)
    {n : Scalar} (hconfined : ∀ x ∈ items, x.IsConfined n) {e : CompileError}
    (he : d.infer = .error e) : ∃ s, e = .semantic s := by
  rw [infer, hroot] at he
  dsimp only at he
  rw [inferFrom_confined hconfined] at he
  cases hv : (Infer.visitUnit mark items).run (.start d.fresh .empty) with
  | error e' =>
      rw [hv] at he
      cases he
      exact Infer.visitUnit_error hitems (Infer.sound_empty _) hv
  | ok p =>
      rw [hv] at he
      cases he

/-- **Without floats what is found are integers.** -/
theorem infer_integer (hroot : d.root = .unit mark items) (hfree : ∀ x ∈ items, x.IsFloatFree)
    (ht : d.infer = .ok t) : t.IsInteger := by
  rw [infer, hroot] at ht
  dsimp only at ht
  rw [inferFrom_confined fun x hx => (hfree x hx).isConfined] at ht
  cases hv : (Infer.visitUnit mark items).run (.start d.fresh .empty) with
  | error e =>
      rw [hv] at ht
      cases ht
  | ok p =>
      obtain ⟨root, r⟩ := p
      rw [hv] at ht
      cases ht
      exact Infer.visitUnit_integer hfree hv

end Document

namespace Compile

variable {source : String} {t : Node Span}

/-- **The outcome of inference for a source text**, folded or not.  It finds a type for everything,
and where no float is written these are integers; or a name is used against its meaning; or results
do not settle within the rounds.  The last does not happen where every function gives an integer:
whatever its names stand for, or as no float is assigned and passed. -/
theorem infer_outcome (hsource : tree source = .ok t) (fold : Bool) :
    (∃ typing, (Document.ofTree (prepare fold t)).infer = .ok typing ∧
        ((prepare fold t).IsFloatFree → typing.IsInteger)) ∨
      (∃ s, (Document.ofTree (prepare fold t)).infer = .error (.semantic s)) ∨
      ((Document.ofTree (prepare fold t)).infer = .error (.internal .unsettledResults) ∧
        ∀ n, ¬ (prepare fold t).IsConfined n) := by
  have hroot := Document.isSource_ofTree (@isSource_prepare fold t (isSource_tree hsource))
  have hshape : (Document.ofTree (prepare fold t)).root.shape = (prepare fold t).shape :=
    Node.shape_number _ 0 _
  cases hunit : (Document.ofTree (prepare fold t)).root with
  | unit mark items =>
      rw [hunit] at hroot hshape
      cases hinfer : (Document.ofTree (prepare fold t)).infer with
      | ok typing =>
          refine .inl ⟨typing, rfl, fun hfree => ?_⟩
          exact Document.infer_integer hunit (Node.every_unit.1 (hfree.of_shape hshape)).2 hinfer
      | error e =>
          rcases Document.infer_error hunit hroot hinfer with ⟨s, rfl⟩ | rfl
          · exact .inr (.inl ⟨s, rfl⟩)
          · refine .inr (.inr ⟨rfl, fun n hconfined => ?_⟩)
            obtain ⟨s, hs⟩ := Document.infer_confined hunit hroot
              (Node.every_unit.1 (hconfined.of_shape hshape)).2 hinfer
            cases hs
  | _ =>
      rw [hunit] at hroot
      cases hroot

/-- A recursion on integers, folded, and floats that are assigned, passed and compared: the types
are found in one round. -/
theorem infer_outcome_factorial : (∃ t, tree "def f(n) if n <= 1 1 else n * f(n - 1)
      f(2 + 3)" = .ok t ∧ (prepare true t).IsFloatFree ∧
    ((∃ typing, (Document.ofTree (prepare true t)).infer = .ok typing ∧
        ((prepare true t).IsFloatFree → typing.IsInteger)) ∨
      (∃ s, (Document.ofTree (prepare true t)).infer = .error (.semantic s)) ∨
      ((Document.ofTree (prepare true t)).infer = .error (.internal .unsettledResults) ∧
        ∀ n, ¬ (prepare true t).IsConfined n))) ∧
    ∃ t, tree "def above(x, y) x > y
      x = 1.5
      above(x * 2, 2.5) + x" = .ok t ∧ ¬ t.IsConfined .int ∧ t.IsConfined .float ∧
    ((∃ typing, (Document.ofTree (prepare false t)).infer = .ok typing ∧
        ((prepare false t).IsFloatFree → typing.IsInteger)) ∨
      (∃ s, (Document.ofTree (prepare false t)).infer = .error (.semantic s)) ∨
      ((Document.ofTree (prepare false t)).infer = .error (.internal .unsettledResults) ∧
        ∀ n, ¬ (prepare false t).IsConfined n)) := by
  have hrun : (tree "def f(n) if n <= 1 1 else n * f(n - 1)
      f(2 + 3)").toOption.any (fun t => (prepare true t).IsFloatFree) = true := by
    decide +kernel
  have hrun' : (tree "def above(x, y) x > y
      x = 1.5
      above(x * 2, 2.5) + x").toOption.any
        (fun t => ¬ t.IsConfined .int ∧ t.IsConfined .float) = true := by
    decide +kernel
  simp only [Option.any_eq_true, decide_eq_true_eq] at hrun hrun'
  obtain ⟨t, ht, hfree⟩ := hrun
  obtain ⟨t', ht', hnames, hconfined⟩ := hrun'
  have ht := Step.eq_ok_of_toOption ht
  have ht' := Step.eq_ok_of_toOption ht'
  exact ⟨⟨t, ht, hfree, infer_outcome ht true⟩, t', ht', hnames, hconfined, infer_outcome ht' false⟩

/-- **Results need not settle in time.**  The float climbs one call a round, from the last function
of the ring to the first; by then `g` is asked for anew, with floats, and assumed to give an
integer, which climbs after it. -/
theorem infer_unsettled : ∃ t, tree "def d1() d2()
def d2() d3()
def d3() d4()
def d4() d5()
def d5() d6()
def d6() d7()
def d7() d8()
def d8() d9()
def d9() d10()
def d10() d11()
def d11() d12()
def d12() s()
def s() g(d1(),d2())
def g(a,b) 1.0
d1()" = .ok t ∧ (Document.ofTree t).infer = .error (.internal .unsettledResults) := by
  have hrun : (tree "def d1() d2()
def d2() d3()
def d3() d4()
def d4() d5()
def d5() d6()
def d6() d7()
def d7() d8()
def d8() d9()
def d9() d10()
def d10() d11()
def d11() d12()
def d12() s()
def s() g(d1(),d2())
def g(a,b) 1.0
d1()").toOption.any (fun t =>
        Step.fault? (Document.ofTree t).infer == some (.internal .unsettledResults)) = true := by
    decide +kernel
  simp only [Option.any_eq_true, beq_iff_eq] at hrun
  obtain ⟨t, ht, hinfer⟩ := hrun
  exact ⟨t, Step.eq_ok_of_toOption ht, Step.eq_error_of_fault? hinfer⟩

end Compile

end StackLang
