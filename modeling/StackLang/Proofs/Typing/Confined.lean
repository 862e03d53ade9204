/-
**Floats that stay where they are written.**

A round assumes that the calls of a new instance give integers, and what it assumed wrongly takes
further rounds to climb from call to call.  Nothing is assumed wrongly where every function gives an
integer, and this can be read off the text in two ways.  Either no float is assigned to a name or
passed to a function: then names stand for integers, and the type of an expression is that of what
is written in it.  Or floats go anywhere, and then the functions must give integers whatever their
names stand for.  Both are one condition, which takes the type that names may have at most as a
parameter.

Main definitions:

* `Node.writtenType` — the type of an expression by what is written in it;
* `Node.IsConfined` — every function gives an integer, and names keep to a type;
* `Node.IsTracked` — a typed tree that has floats only where the text has them;
* `Round.IsConfined` — nothing in a round was assumed wrongly.

Main results:

* `Infer.visit_confined` — the type of an expression is at most the written one;
* `Infer.visitUnit_confined` — a round assumes nothing wrongly;
* `Document.inferFrom_confined` — the first round is the last.
-/

import StackLang.Proofs.Typing.Infer

set_option relaxedAutoImplicit false
set_option autoImplicit false

namespace StackLang

open Step

/-! ### Integers below floats -/

namespace Scalar

/-- An integer is at most a float. -/
instance : PartialOrder Scalar where
  le s t := s = .float → t = .float
  le_refl _ := id
  le_trans _ _ _ hst htu h := htu (hst h)
  le_antisymm s t hst hts := by
    cases s <;> cases t
    · rfl
    · exact hts rfl
    · exact (hst rfl).symm
    · rfl

instance (s t : Scalar) : Decidable (s ≤ t) := inferInstanceAs (Decidable (s = .float → t = .float))

variable {s t s' t' : Scalar}

@[simp] theorem int_le (s : Scalar) : .int ≤ s := fun h => nomatch h

theorem eq_int_of_le (h : s ≤ .int) : s = .int := by
  cases s with
  | int => rfl
  | float => exact (h rfl).symm

theorem join_le_join (hs : s ≤ s') (ht : t ≤ t') : s.join t ≤ s'.join t' := by
  intro h
  cases s' with
  | float => rfl
  | int =>
      cases t' with
      | float => rfl
      | int =>
          rw [eq_int_of_le hs, eq_int_of_le ht] at h
          exact h

end Scalar

/-! ### What is written in an expression -/

namespace Node

variable {α β : Type}

mutual

/-- **The type of an expression by what is written in it**, where names have the type `n` and calls
give integers. -/
def writtenType (n : Scalar) : Node α → Scalar
  | literal _ v => v.scalar
  | identifier _ _ => n
  | binary _ op l r =>
      if op = .assign then n
      else if op.isComparison then .int else (writtenType n l).join (writtenType n r)
  | unary _ op x => if op = .not then .int else writtenType n x
  | cond _ _ t none => writtenType n t
  | cond _ _ t (some e) => (writtenType n t).join (writtenType n e)
  | returnValue _ v => writtenType n v
  | block _ is => writtenListType n .int is
  | _ => .int

/-- The type of a block, `type` if it is empty. -/
def writtenListType (n type : Scalar) : List (Node α) → Scalar
  | [] => type
  | x :: xs => writtenListType n (if x.yieldsCell then writtenType n x else .int) xs

end

/-- What the root hands on keeps to a type: a name is assigned and a function is passed at most `n`,
and a function gives an integer. -/
def Confines (n : Scalar) : Node α → Prop
  | binary _ op _ r => op = .assign → r.writtenType n ≤ n
  | call _ _ as => ∀ a ∈ as, a.writtenType n ≤ n
  | define _ _ b => b.writtenType n = .int
  | _ => True

instance (n : Scalar) : DecidablePred (@Confines α n)
  | binary _ op _ r => inferInstanceAs (Decidable (op = .assign → r.writtenType n ≤ n))
  | call _ _ as => inferInstanceAs (Decidable (∀ a ∈ as, a.writtenType n ≤ n))
  | define _ _ b => inferInstanceAs (Decidable (b.writtenType n = .int))
  | literal .. | identifier .. | unary .. | cond .. | loop .. | returnValue .. | block .. | unit ..
  | breakLoop .. | continueLoop .. | assembly .. | nop .. | prototype .. => .isTrue trivial

/-- **Every function gives an integer**, where names have at most the type `n`, and keep to it. -/
def IsConfined (n : Scalar) (x : Node α) : Prop := x.Every (Confines n)

instance (n : Scalar) (x : Node α) : Decidable (x.IsConfined n) :=
  inferInstanceAs (Decidable (∀ y ∈ x.subtrees, y.Confines n))

/-- **A typed tree has floats only where the text has them.** -/
def IsTracked (n : Scalar) (x : Node Note) : Prop :=
  x.Every fun y => y.note.type.getD .int ≤ y.writtenType n

/-! #### The shape decides -/

mutual

theorem writtenType_shape (n : Scalar) (x : Node α) :
    x.shape.writtenType n = x.writtenType n := by
  cases x with
  | binary m op l r =>
      rw [shape_binary, writtenType, writtenType, writtenType_shape n l, writtenType_shape n r]
  | unary m op x => rw [shape_unary, writtenType, writtenType, writtenType_shape n x]
  | cond m c t e =>
      cases e with
      | none => rw [shape_cond, Option.map_none, writtenType, writtenType, writtenType_shape n t]
      | some e =>
          rw [shape_cond, Option.map_some, writtenType, writtenType, writtenType_shape n t,
            writtenType_shape n e]
  | returnValue m v => rw [shape_returnValue, writtenType, writtenType, writtenType_shape n v]
  | block m is => rw [shape_block, writtenType, writtenType, writtenListType_shape n .int is]
  | _ => rfl

theorem writtenListType_shape (n type : Scalar) (xs : List (Node α)) :
    writtenListType n type (xs.map shape) = writtenListType n type xs := by
  cases xs with
  | nil => rfl
  | cons x xs =>
      rw [List.map_cons, writtenListType, writtenListType, yieldsCell_shape, writtenType_shape n x,
        writtenListType_shape n _ xs]

end

theorem writtenType_of_shape {n : Scalar} {x : Node α} {y : Node β} (h : y.shape = x.shape) :
    y.writtenType n = x.writtenType n := by
  rw [← writtenType_shape, h, writtenType_shape]

theorem confines_shape {n : Scalar} (x : Node α) : x.shape.Confines n ↔ x.Confines n := by
  cases x with
  | binary m op l r => simp only [shape_binary, Confines, writtenType_shape]
  | call m f as => simp only [shape_call, Confines, List.forall_mem_map, writtenType_shape]
  | define m p b => simp only [shape_define, Confines, writtenType_shape]
  | _ => exact .rfl

theorem isConfined_shape {n : Scalar} (x : Node α) : x.shape.IsConfined n ↔ x.IsConfined n := by
  simp only [IsConfined, every_shape, confines_shape]

theorem IsConfined.of_shape {n : Scalar} {x : Node α} {y : Node β} (h : x.IsConfined n)
    (hxy : y.shape = x.shape) : y.IsConfined n := by
  rwa [← isConfined_shape, hxy, isConfined_shape]

/-- A tree without types has no value that is a float. -/
theorem isTracked_bare (n : Scalar) (x : Node Mark) : (x.map Note.bare).IsTracked n := by
  intro y hy
  rw [subtrees_map] at hy
  obtain ⟨z, -, rfl⟩ := List.mem_map.1 hy
  cases z <;> exact Scalar.int_le _

end Node

/-! ### Rounds -/

/-- Bodies of functions that give integers, where names have at most the type `n`. -/
def GiveIntegers (n : Scalar) (B : Node Unit → Prop) : Prop :=
  ∀ x, B x → x.IsConfined n ∧ x.writtenType n = .int

/-- Symbols have at most the type `n`, every body is in `B`, and every instance gave an integer, as
was assumed of it. -/
structure Confined (n : Scalar) (B : Node Unit → Prop) (ss : Symbols) (is : Instances)
    (found : List Inferred) (changed : Bool) : Prop where
  types : ∀ (k : Nat) (s : Symbol), ss[k]? = some s → s.type.getD .int ≤ n
  bodies : ∀ (k : Nat) (s : Symbol) (f : Function), ss[k]? = some s → s.definition = some f →
    B f.body.shape
  made : ∀ i ∈ is.made, (∀ a ∈ i.args, a ≤ n) ∧ B i.function.body.shape
  results : ∀ p ∈ is.results, p.2 = .int
  inferred : ∀ f ∈ found, f.body.IsTracked n ∧ B f.body.shape
  changed : changed = false

/-- **Nothing in the round was assumed wrongly.** -/
def Round.IsConfined (n : Scalar) (B : Node Unit → Prop) (r : Round) : Prop :=
  Confined n B r.symbols r.instances r.inferred r.changed

namespace Confined

variable {n : Scalar} {B : Node Unit → Prop} {ss : Symbols} {is : Instances}
  {found : List Inferred} {changed : Bool}

theorem push (h : Confined n B ss is found changed) {s : Symbol} (htype : s.type.getD .int ≤ n)
    (hbody : ∀ f, s.definition = some f → B f.body.shape) :
    Confined n B (ss.push s) is found changed := by
  refine ⟨fun k t ht => ?_, fun k t f ht hf => ?_, h.made, h.results, h.inferred, h.changed⟩
  · rcases Infer.eq_or_of_push ht with ⟨-, rfl⟩ | ht
    · exact htype
    · exact h.types k t ht
  · rcases Infer.eq_or_of_push ht with ⟨-, rfl⟩ | ht
    · exact hbody f hf
    · exact h.bodies k t f ht hf

/-- One more variable. -/
theorem pushVariable (h : Confined n B ss is found changed) {type : Scalar} (htype : type ≤ n)
    (name emitted : String) (storage : Storage) :
    Confined n B (ss.push (.ofVariable name emitted type storage)) is found changed :=
  h.push htype fun _ hf => by cases hf

/-- One more function. -/
theorem pushFunction (h : Confined n B ss is found changed) (name : String) {f : Function}
    (hf : B f.body.shape) : Confined n B (ss.push (.ofFunction name f)) is found changed :=
  h.push (Scalar.int_le n) fun g hg => by
    cases hg
    exact hf

theorem modify (h : Confined n B ss is found changed) (k : Nat) {f : Symbol → Symbol}
    (htype : ∀ s, s.type.getD .int ≤ n → (f s).type.getD .int ≤ n)
    (hdefinition : ∀ s, (f s).definition = s.definition) :
    Confined n B (ss.modify k f) is found changed := by
  have hold : ∀ (j : Nat) (t : Symbol), (ss.modify k f)[j]? = some t →
      ∃ s : Symbol, ss[j]? = some s ∧ (t = s ∨ t = f s) := by
    intro j t ht
    rw [Infer.getElem?_modify] at ht
    split at ht
    · obtain ⟨s, hs, rfl⟩ := Option.map_eq_some_iff.1 ht
      exact ⟨s, hs, .inr rfl⟩
    · exact ⟨t, ht, .inl rfl⟩
  refine ⟨fun j t ht => ?_, fun j t g ht hg => ?_, h.made, h.results, h.inferred, h.changed⟩
  · obtain ⟨s, hs, rfl | rfl⟩ := hold j t ht
    · exact h.types j _ hs
    · exact htype s (h.types j s hs)
  · obtain ⟨s, hs, rfl | rfl⟩ := hold j t ht
    · exact h.bodies j _ g hs hg
    · exact h.bodies j s g hs (hdefinition s ▸ hg)

/-- **An integer is rightly assumed.** -/
theorem returns (h : Confined n B ss is found changed) (name : String) :
    is.returns name = .int := by
  unfold Instances.returns
  cases hlookup : is.results.lookup name with
  | none => rfl
  | some type => exact h.results (name, type) (mem_of_lookup hlookup)

end Confined

namespace Infer

variable {n : Scalar} {B : Node Unit → Prop} {r r' : Round}

/-- What a name stands for. -/
theorem find?_confined (h : r.IsConfined n B) {name : String} {k : Nat} {s : Symbol}
    (hf : find? name r = .ok (some (k, s), r')) :
    r' = r ∧ s.type.getD .int ≤ n ∧ ∀ f, s.definition = some f → B f.body.shape := by
  obtain ⟨heq, rfl⟩ := find?_eq_ok.1 hf
  obtain ⟨j, -, hj⟩ := Option.bind_eq_some_iff.1 heq.symm
  obtain ⟨t, ht, hpair⟩ := Option.map_eq_some_iff.1 hj
  cases hpair
  exact ⟨rfl, h.types _ _ ht, fun f hf => h.bodies _ _ f ht hf⟩

theorem valueOf_confined (h : r.IsConfined n B) {m : Mark} {name : String} {k : Nat}
    {type : Scalar} (hv : valueOf m name r = .ok ((k, type), r')) :
    r'.IsConfined n B ∧ type ≤ n := by
  rw [valueOf, bind_eq_ok] at hv
  obtain ⟨o, r₁, hfind, hv⟩ := hv
  cases o with
  | none => exact absurd hv fail_ne_ok
  | some p =>
      obtain ⟨j, s⟩ := p
      obtain ⟨rfl, htype, -⟩ := find?_confined h hfind
      dsimp only at hv
      split at hv
      · exact absurd hv fail_ne_ok
      · obtain ⟨heq, rfl⟩ := pure_eq_ok.1 hv
        cases heq
        exact ⟨h, htype⟩

theorem declare_confined (h : r.IsConfined n B) {name : String} {type : Scalar} (htype : type ≤ n)
    {k : Nat} (hd : declare name type r = .ok (k, r')) : r'.IsConfined n B := by
  obtain ⟨-, rfl⟩ := declare_eq_ok.1 hd
  cases r.frame with
  | none => exact Confined.pushVariable h htype _ _ _
  | some scope => exact Confined.pushVariable h htype _ _ _

theorem assigned_confined (h : r.IsConfined n B) {m : Mark} {name : String} {value : Scalar}
    (hvalue : value ≤ n) {k : Nat} {type : Scalar}
    (ha : assigned m name value r = .ok ((k, type), r')) : r'.IsConfined n B ∧ type ≤ n := by
  rw [assigned, bind_eq_ok] at ha
  obtain ⟨o, r₁, hfind, ha⟩ := ha
  cases o with
  | none =>
      obtain ⟨-, rfl⟩ := find?_eq_ok.1 hfind
      dsimp only at ha
      obtain ⟨j, r₂, hdeclare, hpure⟩ := bind_eq_ok.1 ha
      obtain ⟨heq, rfl⟩ := pure_eq_ok.1 hpure
      cases heq
      exact ⟨declare_confined h hvalue hdeclare, hvalue⟩
  | some p =>
      obtain ⟨j, s⟩ := p
      obtain ⟨rfl, htype, -⟩ := find?_confined h hfind
      dsimp only at ha
      split at ha
      · exact absurd ha fail_ne_ok
      · obtain ⟨heq, rfl⟩ := pure_eq_ok.1 ha
        cases heq
        refine ⟨h, ?_⟩
        revert htype
        cases s.type with
        | none => exact fun _ => hvalue
        | some type => exact id

/-! #### Calls -/

theorem instanceOf_confined (h : r.IsConfined n B) {f copy : Function} {base name : String}
    {args : List Scalar} (hf : B f.body.shape) (hargs : ∀ a ∈ args, a ≤ n)
    (hi : instanceOf f base name args r = .ok (copy, r')) :
    r'.IsConfined n B ∧ B copy.body.shape := by
  simp only [instanceOf, bind_eq_ok, get_eq_ok, and_assoc, exists_and_left, exists_eq_left] at hi
  cases hget : r.instances.get? name with
  | some i =>
      simp only [hget, pure_eq_ok] at hi
      obtain ⟨rfl, rfl⟩ := hi
      exact ⟨h, (h.made i (List.mem_of_find?_eq_some hget)).2⟩
  | none =>
      simp only [hget, bind_eq_ok, set_eq_ok, pure_eq_ok, exists_const, exists_eq_left] at hi
      obtain ⟨rfl, rfl⟩ := hi
      have hshape : (f.copy r.fresh name).1.body.shape = f.body.shape :=
        Node.shape_number _ _ f.body
      refine ⟨⟨h.types, h.bodies, fun i hi => ?_, ?_, h.inferred, h.changed⟩, hshape ▸ hf⟩
      · simp only [Instances.insert, hget, Option.isSome_none, Bool.false_eq_true, if_false,
          List.mem_append, List.mem_singleton] at hi
        rcases hi with hi | rfl
        · exact h.made i hi
        · exact ⟨hargs, hshape ▸ hf⟩
      · simp only [Instances.insert, hget, Option.isSome_none, Bool.false_eq_true, if_false]
        exact h.results

/-- Waiting in the queue changes nothing of what is known. -/
theorem enqueue_confined (h : r.IsConfined n B) (name : String) :
    Round.IsConfined n B { r with instances := (r.instances.enqueue name).2 } := by
  refine ⟨h.types, h.bodies, fun i hi => h.made i ?_, ?_, h.inferred, h.changed⟩
  · rw [← made_enqueue r.instances name]
    exact hi
  · simp only [Instances.enqueue]
    split <;> exact h.results

theorem instantiate_confined (h : r.IsConfined n B) {f : Function} {base name : String}
    {args : List Scalar} {k : Nat} (hf : B f.body.shape) (hargs : ∀ a ∈ args, a ≤ n)
    (hi : instantiate f base name args r = .ok (k, r')) : r'.IsConfined n B := by
  simp only [instantiate, bind_eq_ok, addSymbol_eq_ok, bindGlobal_eq_ok, modify_eq_ok, pure_eq_ok,
    and_assoc, exists_and_left, exists_eq_left, exists_const] at hi
  obtain ⟨copy, r₁, hcopy, -, rfl⟩ := hi
  obtain ⟨h₁, hbody⟩ := instanceOf_confined h hf hargs hcopy
  have hpush : Round.IsConfined n B
      { r₁ with symbols := r₁.symbols.push (.ofFunction name copy) } :=
    Confined.pushFunction h₁ name hbody
  exact enqueue_confined hpush name

/-- **A call gives an integer**, as far as is known. -/
theorem called_confined (h : r.IsConfined n B) {m m' : Mark} {base : String} {args : List Scalar}
    {t k : Nat} {type : Scalar} (hargs : ∀ a ∈ args, a ≤ n)
    (hc : called m m' base args r = .ok ((t, k, type), r')) :
    r'.IsConfined n B ∧ type = .int := by
  have hused : ∀ (r : Round) (k : Nat), r.IsConfined n B → (marked k r).IsConfined n B :=
    fun r k h => @Confined.modify _ _ _ _ _ _ h k (fun s => { s with used := true })
      (fun _ ht => ht) fun _ => rfl
  rw [called, bind_eq_ok] at hc
  obtain ⟨o, r₁, hfind, hc⟩ := hc
  cases o with
  | none => exact absurd hc fail_ne_ok
  | some p =>
      obtain ⟨j, s⟩ := p
      obtain ⟨rfl, -, hbody⟩ := find?_confined h hfind
      dsimp only at hc
      cases hdefinition : s.definition with
      | none =>
          rw [hdefinition] at hc
          exact absurd hc fail_ne_ok
      | some f =>
          simp only [hdefinition] at hc
          split at hc
          · exact absurd hc fail_ne_ok
          · simp only [bind_eq_ok, get_eq_ok, and_assoc, exists_and_left, exists_eq_left] at hc
            cases hlookup : r₁.lookup (decorate base args) with
            | some j =>
                simp only [hlookup, bind_eq_ok, get_eq_ok, modify_eq_ok, pure_eq_ok, and_assoc,
                  exists_and_left, exists_eq_left, exists_const, Prod.mk.injEq] at hc
                obtain ⟨-, -, rfl, rfl⟩ := hc
                exact ⟨hused _ j h, Confined.returns h _⟩
            | none =>
                simp only [hlookup, bind_eq_ok, get_eq_ok, modify_eq_ok, pure_eq_ok, and_assoc,
                  exists_and_left, exists_eq_left, exists_const, Prod.mk.injEq] at hc
                obtain ⟨j, r₂, hinstantiate, -, -, rfl, rfl⟩ := hc
                have h₂ := instantiate_confined h (hbody f hdefinition) hargs hinstantiate
                exact ⟨hused _ j h₂, Confined.returns h₂ _⟩

/-! #### Expressions -/

/-- The visit of `x` gave the tree `y`: its types are at most the written ones. -/
structure Tracks (n : Scalar) (x : Node Mark) (y : Node Note) (type : Scalar) : Prop where
  shape : y.shape = x.shape
  type : type ≤ x.writtenType n
  tracked : y.IsTracked n

/-- It is enough to look at the root, if what is below is tracked. -/
theorem Tracks.of_root {x : Node Mark} {y : Node Note} {type : Scalar}
    (hshape : y.shape = x.shape) (htype : type ≤ x.writtenType n)
    (hnote : y.note.type = some type) (hbelow : ∀ z ∈ y.children, z.IsTracked n) :
    Tracks n x y type := by
  refine ⟨hshape, htype, Node.every_iff_children.2 ⟨?_, hbelow⟩⟩
  rw [hnote, Node.writtenType_of_shape hshape]
  exact htype

/-- The visits of the trees `xs` gave the trees `ys`. -/
structure AllTrack (n : Scalar) (xs : List (Node Mark)) (ys : List (Node Note)) : Prop where
  shape : ys.map Node.shape = xs.map Node.shape
  tracked : ∀ y ∈ ys, y.IsTracked n

theorem AllTrack.cons {x : Node Mark} {xs : List (Node Mark)} {y : Node Note}
    {ys : List (Node Note)} {type : Scalar} (h : Tracks n x y type) (hs : AllTrack n xs ys) :
    AllTrack n (x :: xs) (y :: ys) :=
  ⟨by rw [List.map_cons, List.map_cons, h.shape, hs.shape],
    List.forall_mem_cons.2 ⟨h.tracked, hs.tracked⟩⟩

theorem AllTrack.nil : AllTrack n [] [] := ⟨rfl, fun _ hy => absurd hy List.not_mem_nil⟩

mutual

/-- **The type of an expression is at most the written one.** -/
theorem visit_confined (x : Node Mark) (hx : x.IsConfined n) {r r' : Round} {y : Node Note}
    {type : Scalar} (h : r.IsConfined n B) (hv : visit x r = .ok ((y, type), r')) :
    r'.IsConfined n B ∧ Tracks n x y type := by
  cases x with
  | literal m v =>
      simp only [visit, pure_eq_ok, Prod.mk.injEq] at hv
      obtain ⟨⟨rfl, rfl⟩, rfl⟩ := hv
      exact ⟨h, .of_root rfl le_rfl rfl (by simp [Node.children])⟩
  | identifier m x =>
      simp only [visit, bind_eq_ok, pure_eq_ok, Prod.exists, Prod.mk.injEq] at hv
      obtain ⟨k, s, r₁, hvalue, ⟨rfl, rfl⟩, rfl⟩ := hv
      obtain ⟨h₁, htype⟩ := valueOf_confined h hvalue
      exact ⟨h₁, .of_root rfl htype rfl (by simp [Node.children])⟩
  | binary m op a b =>
      obtain ⟨hself, ha, hb⟩ := Node.every_binary.1 hx
      by_cases hop : op = .assign
      · subst hop
        cases a with
        | identifier l x =>
            simp only [visit, if_true, bind_eq_ok, pure_eq_ok, Prod.exists, Prod.mk.injEq] at hv
            obtain ⟨b', s, r₁, hb', k, s', r₂, hassigned, ⟨rfl, rfl⟩, rfl⟩ := hv
            obtain ⟨h₁, hright⟩ := visit_confined b hb h hb'
            obtain ⟨h₂, htype⟩ := assigned_confined h₁ (hright.type.trans (hself rfl)) hassigned
            refine ⟨h₂, .of_root ?_ ?_ rfl ?_⟩
            · rw [Node.shape_binary, Node.shape_binary, hright.shape]
              rfl
            · rw [Node.writtenType, if_pos rfl]
              exact htype
            · simp only [Node.children, List.forall_mem_cons, List.not_mem_nil, IsEmpty.forall_iff,
                implies_true, and_true]
              exact ⟨Node.every_identifier.2 htype, hright.tracked⟩
        | _ =>
            simp only [visit, if_true] at hv
            exact absurd hv fail_ne_ok
      · simp only [visit, if_neg hop, bind_eq_ok, pure_eq_ok, Prod.exists, Prod.mk.injEq] at hv
        obtain ⟨a', s, r₁, ha', b', t, r₂, hb', ⟨rfl, rfl⟩, rfl⟩ := hv
        obtain ⟨h₁, hleft⟩ := visit_confined a ha h ha'
        obtain ⟨h₂, hright⟩ := visit_confined b hb h₁ hb'
        refine ⟨h₂, .of_root ?_ ?_ rfl ?_⟩
        · rw [Node.shape_binary, Node.shape_binary, hleft.shape, hright.shape]
        · rw [Node.writtenType, if_neg hop]
          split
          · exact le_rfl
          · exact Scalar.join_le_join hleft.type hright.type
        · simp [Node.children, hleft.tracked, hright.tracked]
  | unary m op x =>
      simp only [visit, bind_eq_ok, pure_eq_ok, Prod.exists, Prod.mk.injEq] at hv
      obtain ⟨x', s, r₁, hvx, ⟨rfl, rfl⟩, rfl⟩ := hv
      obtain ⟨h₁, hinner⟩ := visit_confined x (Node.every_unary.1 hx).2 h hvx
      refine ⟨h₁, .of_root ?_ ?_ rfl (by simp [Node.children, hinner.tracked])⟩
      · rw [Node.shape_unary, Node.shape_unary, hinner.shape]
      · rw [Node.writtenType]
        split
        · exact le_rfl
        · exact hinner.type
  | call m f as =>
      obtain ⟨hself, -, has⟩ := Node.every_call.1 hx
      cases f with
      | identifier l base =>
          simp only [visit, bind_eq_ok, pure_eq_ok, Prod.exists, Prod.mk.injEq] at hv
          obtain ⟨as', types, r₁, has', t, k, s, r₂, hcalled, ⟨rfl, rfl⟩, rfl⟩ := hv
          obtain ⟨h₁, hargs, htypes⟩ := visitArgs_confined as has h has'
          obtain ⟨h₂, rfl⟩ := called_confined h₁ (htypes hself) hcalled
          refine ⟨h₂, .of_root ?_ (Scalar.int_le _) rfl ?_⟩
          · rw [Node.shape_call, Node.shape_call, hargs.shape]
            rfl
          · simp only [Node.children, List.forall_mem_cons]
            exact ⟨Node.every_identifier.2 (Scalar.int_le _), hargs.tracked⟩
      | _ =>
          simp only [visit] at hv
          exact absurd hv fail_ne_ok
  | cond m c t e =>
      obtain ⟨-, hc, ht, he⟩ := Node.every_cond.1 hx
      cases e with
      | none =>
          simp only [visit, bind_eq_ok, pure_eq_ok, Prod.exists, Prod.mk.injEq] at hv
          obtain ⟨c', s, r₁, hc', t', s', r₂, ht', ⟨rfl, rfl⟩, rfl⟩ := hv
          obtain ⟨h₁, htest⟩ := visit_confined c hc h hc'
          obtain ⟨h₂, hthen⟩ := visit_confined t ht h₁ ht'
          refine ⟨h₂, .of_root ?_ ?_ rfl (by simp [Node.children, htest.tracked, hthen.tracked])⟩
          · rw [Node.shape_cond, Node.shape_cond, htest.shape, hthen.shape]
            rfl
          · rw [Node.writtenType]
            exact hthen.type
      | some e =>
          simp only [visit, bind_eq_ok, pure_eq_ok, Prod.exists, Prod.mk.injEq] at hv
          obtain ⟨c', s, r₁, hc', t', s', r₂, ht', e', s'', r₃, he', ⟨rfl, rfl⟩, rfl⟩ := hv
          obtain ⟨h₁, htest⟩ := visit_confined c hc h hc'
          obtain ⟨h₂, hthen⟩ := visit_confined t ht h₁ ht'
          obtain ⟨h₃, helse⟩ := visit_confined e (he e rfl) h₂ he'
          refine ⟨h₃, .of_root ?_ ?_ rfl
            (by simp [Node.children, htest.tracked, hthen.tracked, helse.tracked])⟩
          · rw [Node.shape_cond, Node.shape_cond, htest.shape, hthen.shape, Option.map_some,
              Option.map_some, helse.shape]
          · rw [Node.writtenType]
            exact Scalar.join_le_join hthen.type helse.type
  | loop m c b =>
      obtain ⟨-, hc, hb⟩ := Node.every_loop.1 hx
      simp only [visit, bind_eq_ok, pure_eq_ok, Prod.exists, Prod.mk.injEq] at hv
      obtain ⟨c', s, r₁, hc', b', s', r₂, hb', ⟨rfl, rfl⟩, rfl⟩ := hv
      obtain ⟨h₁, htest⟩ := visit_confined c hc h hc'
      obtain ⟨h₂, hbody⟩ := visit_confined b hb h₁ hb'
      refine ⟨h₂, .of_root ?_ (Scalar.int_le _) rfl
        (by simp [Node.children, htest.tracked, hbody.tracked])⟩
      rw [Node.shape_loop, Node.shape_loop, htest.shape, hbody.shape]
  | returnValue m v =>
      simp only [visit, bind_eq_ok, pure_eq_ok, Prod.exists, Prod.mk.injEq] at hv
      obtain ⟨v', s, r₁, hvv, ⟨rfl, rfl⟩, rfl⟩ := hv
      obtain ⟨h₁, hinner⟩ := visit_confined v (Node.every_returnValue.1 hx).2 h hvv
      refine ⟨h₁, .of_root ?_ ?_ rfl (by simp [Node.children, hinner.tracked])⟩
      · rw [Node.shape_returnValue, Node.shape_returnValue, hinner.shape]
      · rw [Node.writtenType]
        exact hinner.type
  | block m is =>
      simp only [visit, bind_eq_ok, pure_eq_ok, Prod.exists, Prod.mk.injEq] at hv
      obtain ⟨is', s, r₁, his', ⟨rfl, rfl⟩, rfl⟩ := hv
      obtain ⟨h₁, hinner, htype⟩ := visitList_confined is (Node.every_block.1 hx).2 le_rfl h his'
      refine ⟨h₁, .of_root ?_ ?_ rfl hinner.tracked⟩
      · rw [Node.shape_block, Node.shape_block, hinner.shape]
      · rw [Node.writtenType]
        exact htype
  | unit m is =>
      simp only [visit, bind_eq_ok, pure_eq_ok, Prod.mk.injEq] at hv
      obtain ⟨is', r₁, his', ⟨rfl, rfl⟩, rfl⟩ := hv
      obtain ⟨h₁, hinner⟩ := visitItems_confined is (Node.every_unit.1 hx).2 h his'
      refine ⟨h₁, .of_root ?_ (Scalar.int_le _) rfl hinner.tracked⟩
      rw [Node.shape_unit, Node.shape_unit, hinner.shape]
  | define m p b =>
      simp only [visit, pure_eq_ok, Prod.mk.injEq] at hv
      obtain ⟨⟨rfl, rfl⟩, rfl⟩ := hv
      refine ⟨h, .of_root ?_ (Scalar.int_le _) rfl
        (by simp [Node.children, Node.isTracked_bare])⟩
      rw [Node.shape_define, Node.shape_define, Node.shape_map, Node.shape_map]
  | _ =>
      simp only [visit, pure_eq_ok, Prod.mk.injEq] at hv
      obtain ⟨⟨rfl, rfl⟩, rfl⟩ := hv
      exact ⟨h, .of_root rfl (Scalar.int_le _) rfl (by simp [Node.children])⟩

theorem visitArgs_confined (xs : List (Node Mark)) (hxs : ∀ x ∈ xs, x.IsConfined n)
    {r r' : Round} {ys : List (Node Note)} {types : List Scalar} (h : r.IsConfined n B)
    (hv : visitArgs xs r = .ok ((ys, types), r')) :
    r'.IsConfined n B ∧ AllTrack n xs ys ∧
      ((∀ x ∈ xs, x.writtenType n ≤ n) → ∀ t ∈ types, t ≤ n) := by
  cases xs with
  | nil =>
      simp only [visitArgs, pure_eq_ok, Prod.mk.injEq] at hv
      obtain ⟨⟨rfl, rfl⟩, rfl⟩ := hv
      exact ⟨h, .nil, by simp⟩
  | cons x xs =>
      rw [List.forall_mem_cons] at hxs
      simp only [visitArgs, bind_eq_ok, pure_eq_ok, Prod.exists, Prod.mk.injEq] at hv
      obtain ⟨y, s, r₁, hx, ys, ss, r₂, hys, ⟨rfl, rfl⟩, rfl⟩ := hv
      obtain ⟨h₁, hfirst⟩ := visit_confined x hxs.1 h hx
      obtain ⟨h₂, hrest, htypes⟩ := visitArgs_confined xs hxs.2 h₁ hys
      refine ⟨h₂, .cons hfirst hrest, fun hwritten => ?_⟩
      rw [List.forall_mem_cons] at hwritten ⊢
      exact ⟨hfirst.type.trans hwritten.1, htypes hwritten.2⟩

theorem visitList_confined (xs : List (Node Mark)) (hxs : ∀ x ∈ xs, x.IsConfined n)
    {r r' : Round} {ys : List (Node Note)} {first bound type : Scalar} (hfirst : first ≤ bound)
    (h : r.IsConfined n B) (hv : visitList first xs r = .ok ((ys, type), r')) :
    r'.IsConfined n B ∧ AllTrack n xs ys ∧ type ≤ Node.writtenListType n bound xs := by
  cases xs with
  | nil =>
      simp only [visitList, pure_eq_ok, Prod.mk.injEq] at hv
      obtain ⟨⟨rfl, rfl⟩, rfl⟩ := hv
      exact ⟨h, .nil, hfirst⟩
  | cons x xs =>
      rw [List.forall_mem_cons] at hxs
      simp only [visitList, bind_eq_ok, pure_eq_ok, Prod.exists, Prod.mk.injEq] at hv
      obtain ⟨y, s, r₁, hx, ys, ss, r₂, hys, ⟨rfl, rfl⟩, rfl⟩ := hv
      obtain ⟨h₁, hhead⟩ := visit_confined x hxs.1 h hx
      have hlast : (if x.yieldsCell then s else .int) ≤
          if x.yieldsCell then x.writtenType n else .int := by
        split
        · exact hhead.type
        · exact le_rfl
      obtain ⟨h₂, hrest, htype⟩ := visitList_confined xs hxs.2 hlast h₁ hys
      exact ⟨h₂, .cons hhead hrest, htype⟩

theorem visitItems_confined (xs : List (Node Mark)) (hxs : ∀ x ∈ xs, x.IsConfined n)
    {r r' : Round} {ys : List (Node Note)} (h : r.IsConfined n B)
    (hv : visitItems xs r = .ok (ys, r')) : r'.IsConfined n B ∧ AllTrack n xs ys := by
  cases xs with
  | nil =>
      simp only [visitItems, pure_eq_ok] at hv
      obtain ⟨rfl, rfl⟩ := hv
      exact ⟨h, .nil⟩
  | cons x xs =>
      rw [List.forall_mem_cons] at hxs
      cases hdefinition : x.isDefinition with
      | true =>
          simp only [visitItems, hdefinition, if_true, bind_eq_ok, pure_eq_ok, and_assoc,
            exists_and_left, exists_eq_left] at hv
          obtain ⟨ys, r₁, hys, rfl, rfl⟩ := hv
          obtain ⟨h₁, hrest⟩ := visitItems_confined xs hxs.2 h hys
          refine ⟨h₁, ?_, List.forall_mem_cons.2 ⟨Node.isTracked_bare n x, hrest.tracked⟩⟩
          rw [List.map_cons, List.map_cons, Node.shape_map, hrest.shape]
      | false =>
          simp only [visitItems, hdefinition, Bool.false_eq_true, if_false, bind_eq_ok, pure_eq_ok,
            Prod.exists, and_assoc, exists_and_left, exists_eq_left] at hv
          obtain ⟨y, s, r₁, hx, ys, r₂, hys, rfl, rfl⟩ := hv
          obtain ⟨h₁, hfirst⟩ := visit_confined x hxs.1 h hx
          obtain ⟨h₂, hrest⟩ := visitItems_confined xs hxs.2 h₁ hys
          exact ⟨h₂, .cons hfirst hrest⟩

end

/-! #### Definitions and instances -/

variable {r r' : Round}

theorem declareFunctions_confined {fs : List Function} (hfs : ∀ f ∈ fs, B f.body.shape)
    (h : r.IsConfined n B) {u : PUnit} (hd : declareFunctions fs r = .ok (u, r')) :
    r'.IsConfined n B := by
  induction fs generalizing r with
  | nil =>
      obtain ⟨-, rfl⟩ := pure_eq_ok.1 hd
      exact h
  | cons f fs ih =>
      rw [List.forall_mem_cons] at hfs
      simp only [declareFunctions, bind_eq_ok, get_eq_ok, and_assoc, exists_and_left,
        exists_eq_left] at hd
      split at hd
      · exact absurd hd fail_ne_ok
      · simp only [bind_eq_ok, addSymbol_eq_ok, bindGlobal_eq_ok, and_assoc, exists_and_left,
          exists_eq_left, exists_const] at hd
        refine ih hfs.2 ?_ hd
        exact Confined.pushFunction h f.name hfs.1

theorem declareParams_confined {span : Span} {ps : List (String × Scalar)}
    (hps : ∀ p ∈ ps, p.2 ≤ n) (h : r.IsConfined n B) {scope : Scope} (hframe : r.frame = some scope)
    {u : PUnit} (hd : declareParams span ps r = .ok (u, r')) : r'.IsConfined n B := by
  induction ps generalizing r scope with
  | nil =>
      obtain ⟨-, rfl⟩ := pure_eq_ok.1 hd
      exact h
  | cons p ps ih =>
      obtain ⟨name, type⟩ := p
      rw [List.forall_mem_cons] at hps
      obtain ⟨-, hd⟩ := declareParams_cons hframe hd
      refine ih hps.2 ?_ rfl hd
      exact Confined.pushVariable h hps.1 _ _ _

/-- A result that is an integer was rightly assumed. -/
theorem finished_confined (h : r.IsConfined n B) {i : Instance} {found : Inferred}
    (hfound : found.body.IsTracked n ∧ B found.body.shape) :
    (finished i .int found r).IsConfined n B := by
  have htyped : Confined n B (finished i .int found r).symbols r.instances r.inferred
      r.changed := by
    unfold finished
    cases r.globals.lookup i.name with
    | none => exact h
    | some k =>
        exact Confined.modify (f := fun s => { s with type := some .int }) h k
          (fun _ _ => Scalar.int_le n) fun _ => rfl
  refine ⟨htyped.types, htyped.bodies, h.made, ?_, fun f hf => ?_, ?_⟩
  · exact List.forall_mem_cons.2 ⟨rfl, h.results⟩
  · rcases List.mem_append.1 hf with hf | hf
    · exact h.inferred f hf
    · rw [List.mem_singleton.1 hf]
      exact hfound
  · simp only [finished, h.changed, Instances.record, Confined.returns h]
    rfl

/-- **An instance gives an integer**, as was assumed. -/
theorem visitInstance_confined (hB : GiveIntegers n B) (h : r.IsConfined n B) {i : Instance}
    (hi : i ∈ r.instances.made) {u : PUnit} (hv : visitInstance i r = .ok (u, r')) :
    r'.IsConfined n B := by
  simp only [visitInstance, bind_eq_ok, modify_eq_ok, get_eq_ok, set_eq_ok, Prod.exists, and_assoc,
    exists_and_left, exists_eq_left, exists_const] at hv
  obtain ⟨_, r₁, hparams, body, type, r₂, hbody, rfl⟩ := hv
  obtain ⟨hargs, hin⟩ := h.made i hi
  obtain ⟨hconfined, hint⟩ := hB _ hin
  have h₁ : r₁.IsConfined n B := declareParams_confined
    (fun p hp => hargs _ (List.of_mem_zip hp).2) (r := { r with frame := some .function }) h rfl
    hparams
  obtain ⟨h₂, htracks⟩ := visit_confined _ ((Node.isConfined_shape _).1 hconfined) h₁ hbody
  have htype := htracks.type
  rw [← Node.writtenType_shape, hint] at htype
  cases Scalar.eq_int_of_le htype
  exact @finished_confined _ _ _ h₂ i ⟨i.name, r₂.frame.getD .function, _, _, _, body⟩
    ⟨htracks.tracked, htracks.shape ▸ hin⟩

theorem drain_confined (hB : GiveIntegers n B) {fuel : Nat} (h : r.IsConfined n B) {u : PUnit}
    (hd : drain fuel r = .ok (u, r')) : r'.IsConfined n B := by
  induction fuel generalizing r with
  | zero =>
      obtain ⟨-, rfl⟩ := pure_eq_ok.1 hd
      exact h
  | succ fuel ih =>
      simp only [drain, bind_eq_ok, get_eq_ok, and_assoc, exists_and_left, exists_eq_left,
        Instances.next] at hd
      cases hpending : r.instances.pending with
      | nil =>
          simp only [hpending, pure_eq_ok] at hd
          obtain ⟨-, rfl⟩ := hd
          exact h
      | cons name rest =>
          simp only [hpending, bind_eq_ok, set_eq_ok, exists_eq_left, exists_const] at hd
          cases hget : Instances.get? name { r.instances with pending := rest } with
          | none =>
              rw [hget] at hd
              exact absurd hd throw_ne_ok
          | some i =>
              simp only [hget, bind_eq_ok] at hd
              obtain ⟨_, r₁, hvisit, hd⟩ := hd
              have h₁ : Round.IsConfined n B { r with
                  instances := { r.instances with pending := rest } } :=
                ⟨h.types, h.bodies, h.made, h.results, h.inferred, h.changed⟩
              exact ih (visitInstance_confined hB h₁ (List.mem_of_find?_eq_some hget) hvisit) hd

/-! ### Units -/

variable {mark : Mark} {items : List (Node Mark)}

theorem isConfined_start (fresh : Nat) : (Round.start fresh .empty).IsConfined n B := by
  have hsymbols : ∀ (k : Nat) (s : Symbol), (Round.start fresh .empty).symbols[k]? ≠ some s := by
    intro k s hs
    exact absurd (lt_of_getElem? hs) (Nat.not_lt_zero k)
  exact ⟨fun k s hs => absurd hs (hsymbols k s), fun k s _ hs => absurd hs (hsymbols k s),
    fun _ hi => absurd hi List.not_mem_nil, fun _ hp => absurd hp List.not_mem_nil,
    fun _ hf => absurd hf List.not_mem_nil, rfl⟩

/-- **A round assumes nothing wrongly** of a unit whose functions give integers. -/
theorem visitUnit_confined (hB : GiveIntegers n B) (hitems : ∀ x ∈ items, x.IsConfined n)
    (hbodies : ∀ f ∈ Node.definitions items, B f.body.shape) {fresh : Nat} {root : Node Note}
    (hv : (visitUnit mark items).run (.start fresh .empty) = .ok (root, r)) :
    r.IsConfined n B ∧ root.IsTracked n ∧ root.shape = (Node.unit mark items).shape := by
  simp only [StateT.run, visitUnit, bind_eq_ok, pure_eq_ok] at hv
  obtain ⟨_, r₁, hdeclare, ys, r₂, hvisit, _, r₃, hdrain, rfl, rfl⟩ := hv
  have h₁ : r₁.IsConfined n B :=
    declareFunctions_confined hbodies (isConfined_start fresh) hdeclare
  obtain ⟨h₂, hys⟩ := visitItems_confined items hitems h₁ hvisit
  refine ⟨drain_confined hB h₂ hdrain, Node.every_unit.2 ⟨Scalar.int_le _, hys.tracked⟩, ?_⟩
  rw [Node.shape_unit, Node.shape_unit, hys.shape]

/-- The body of a definition gives an integer. -/
theorem giveIntegers_definitions (hitems : ∀ x ∈ items, x.IsConfined n) :
    ∀ f ∈ Node.definitions items,
      f.body.shape.IsConfined n ∧ f.body.shape.writtenType n = .int := by
  intro f hf
  obtain ⟨x, hx, hfx⟩ := List.mem_filterMap.1 hf
  have hconfined := hitems x hx
  unfold Function.ofNode? at hfx
  split at hfx
  · cases hfx
    obtain ⟨hself, -, hbody⟩ := Node.every_define.1 hconfined
    rw [Node.isConfined_shape, Node.writtenType_shape]
    exact ⟨hbody, hself⟩
  · cases hfx

end Infer

namespace Document

variable {n : Scalar} {mark : Mark} {items : List (Node Mark)}

/-- **Where every function gives an integer the first round is the last.** -/
theorem inferFrom_confined (hitems : ∀ x ∈ items, x.IsConfined n) {fuel k fresh : Nat} :
    inferFrom mark items (fuel + 1) k fresh .empty =
      ((Infer.visitUnit mark items).run (.start fresh .empty)).map fun p => ⟨p.1, p.2⟩ := by
  rw [inferFrom]
  cases hv : (Infer.visitUnit mark items).run (.start fresh .empty) with
  | error e => rfl
  | ok p =>
      obtain ⟨root, r⟩ := p
      obtain ⟨hr, -⟩ := Infer.visitUnit_confined (fun _ => id) hitems
        (Infer.giveIntegers_definitions hitems) hv
      change (if _ then _ else _) = _
      rw [hr.changed]
      rfl

end Document

end StackLang
