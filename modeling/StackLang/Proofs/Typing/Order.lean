/-
**Inference of a unit with its definitions in another order.**

The symbols of the definitions are made first, in the order of the definitions; all symbols that
are made later have the same numbers in both orders.  So rounds over units that differ in the order
of their definitions start side by side behind the definitions, and inference as a whole comes to
typings that differ in the numbers of the definitions only.

Main definitions:

* `Infer.SameDefinitions` — definitions alike in another order;
* `Infer.bindAll` — the round behind some definitions;
* `Typing.Moved` — typings side by side.

Main results:

* `Infer.bindAll_moved` — rounds stand side by side behind their definitions;
* `Document.infer_moved` — so do typings.
-/

import StackLang.Proofs.Typing.Moved

set_option relaxedAutoImplicit false
set_option autoImplicit false

namespace StackLang

open Step

variable {same : Span → Span → Prop} {ρ : Renaming}

namespace Infer

variable {r r' : Round}

/-! ### Definitions -/

/-- **Definitions alike in another order**, each name once. -/
structure SameDefinitions (same : Span → Span → Prop) (fs fs' : List Function) : Prop where
  names : (fs.map Function.name).Nodup
  order : ∃ gs, fs.Perm gs ∧ List.Forall₂ (Function.Moved same) gs fs'

namespace SameDefinitions

variable {fs fs' : List Function}

theorem perm (h : SameDefinitions same fs fs') :
    (fs.map Function.name).Perm (fs'.map Function.name) := by
  obtain ⟨gs, hperm, hgs⟩ := h.order
  have hnames : fs'.map Function.name = gs.map Function.name := by
    clear hperm h
    induction hgs with
    | nil => rfl
    | cons hf _ ih => rw [List.map_cons, List.map_cons, ih, hf.name]
  rw [hnames]
  exact hperm.map _

theorem length_eq (h : SameDefinitions same fs fs') : fs'.length = fs.length := by
  have hlength := h.perm.length_eq
  rw [List.length_map, List.length_map] at hlength
  exact hlength.symm

/-- Functions of the same name are alike. -/
theorem moved (h : SameDefinitions same fs fs') {f f' : Function} (hf : f ∈ fs) (hf' : f' ∈ fs')
    (hname : f'.name = f.name) : Function.Moved same f f' := by
  obtain ⟨gs, hperm, hgs⟩ := h.order
  obtain ⟨g, hg, hmoved⟩ := exists_of_mem_forall₂ hgs hf'
  have hmem : g ∈ fs := hperm.mem_iff.2 hg
  rw [List.inj_on_of_nodup_map h.names hf hmem (hname.symm.trans hmoved.name)]
  exact hmoved

/-- Numbers of definitions of the same name, and all numbers beyond them. -/
def toRenaming (h : SameDefinitions same fs fs') : Renaming where
  boundary := fs.length
  ref k k' := (fs.length ≤ k ∧ k' = k) ∨
    ∃ n, (fs.map Function.name)[k]? = some n ∧ (fs'.map Function.name)[k']? = some n
  beyond k hk := .inl ⟨hk, rfl⟩
  left := by
    -- no number lies on both sides of the boundary
    have hbound : ∀ {k : Nat} {n : String}, (fs.map Function.name)[k]? = some n →
        k < fs.length := by
      intro k n hn
      exact List.length_map Function.name ▸ (List.getElem?_eq_some_iff.1 hn).1
    rintro k j j' (⟨hk, rfl⟩ | ⟨n, hn, hj⟩) (⟨hk', rfl⟩ | ⟨n', hn', hj'⟩)
    · rfl
    · exact absurd (hbound hn') (Nat.not_lt.2 hk)
    · exact absurd (hbound hn) (Nat.not_lt.2 hk')
    · rw [hn] at hn'
      cases hn'
      exact (List.getElem?_inj (List.getElem?_eq_some_iff.1 hj).1 (h.perm.nodup_iff.1 h.names)).1
        (hj.trans hj'.symm)
  right := by
    have hbound : ∀ {k : Nat} {n : String}, (fs'.map Function.name)[k]? = some n →
        k < fs.length := by
      intro k n hn
      have hlt := (List.getElem?_eq_some_iff.1 hn).1
      rwa [List.length_map, h.length_eq] at hlt
    rintro k k' j (⟨hk, rfl⟩ | ⟨n, hn, hj⟩) (⟨hk', hkk⟩ | ⟨n', hn', hj'⟩)
    · exact hkk
    · exact absurd (hbound hj') (Nat.not_lt.2 hk)
    · exact absurd (hbound hj) (Nat.not_lt.2 (hkk ▸ hk'))
    · rw [hj] at hj'
      cases hj'
      exact (List.getElem?_inj (List.getElem?_eq_some_iff.1 hn).1 h.names).1 (hn.trans hn'.symm)

/-- There are as many signatures. -/
theorem signatures_eq (h : SameDefinitions same fs fs') : signatures fs' = signatures fs := by
  have hsum : ∀ gs : List Function,
      signatures gs = (gs.map fun f => Nat.pow 2 f.params.length).sum := by
    intro gs
    induction gs with
    | nil => rfl
    | cons f gs ih => rw [signatures, List.map_cons, List.sum_cons, ih]
  obtain ⟨gs, hperm, hgs⟩ := h.order
  have hparams : signatures fs' = signatures gs := by
    clear hperm h
    induction hgs with
    | nil => rfl
    | cons hf _ ih => rw [signatures, signatures, ih, hf.params]
  rw [hparams, hsum, hsum]
  exact (hperm.map _).sum_eq.symm

end SameDefinitions

/-- The round after some definitions were bound. -/
def bindAll : List Function → Round → Round
  | [], r => r
  | f :: fs, r => bindAll fs { r with
      symbols := r.symbols.push (.ofFunction f.name f)
      globals := r.globals.bind f.name r.symbols.size }

/-- **Definitions of different names are bound.** -/
theorem declareFunctions_eq {fs : List Function} (hnames : (fs.map Function.name).Nodup)
    (hnew : ∀ f ∈ fs, r.globals.lookup f.name = none) :
    declareFunctions fs r = .ok ((), bindAll fs r) := by
  induction fs generalizing r with
  | nil => rfl
  | cons f fs ih =>
      rw [List.map_cons, List.nodup_cons] at hnames
      rw [List.forall_mem_cons] at hnew
      have hcontains : r.globals.contains f.name = false := by
        rw [Scope.contains, hnew.1, Option.isSome_none]
      have hrest : ∀ g ∈ fs, (r.globals.bind f.name r.symbols.size).lookup g.name = none := by
        intro g hg
        have hne : g.name ≠ f.name := fun heq => hnames.1 (heq ▸ List.mem_map_of_mem hg)
        rw [Scope.lookup_bind_of_ne hne]
        exact hnew.2 g hg
      rw [bindAll, ← ih hnames.2 hrest]
      change (if r.globals.contains f.name = true then _ else _ : Infer PUnit) r = _
      rw [hcontains, if_neg Bool.false_ne_true]
      rfl

/-- Nothing but symbols and names is new. -/
theorem bindAll_eq (fs : List Function) (r : Round) :
    bindAll fs r = { r with
      symbols := (bindAll fs r).symbols
      globals := { r.globals with names := (bindAll fs r).globals.names } } := by
  induction fs generalizing r with
  | nil => rfl
  | cons f fs ih => exact ih _

theorem symbols_bindAll (fs : List Function) (r : Round) :
    (bindAll fs r).symbols =
      r.symbols ++ (fs.map fun f => Symbol.ofFunction f.name f).toArray := by
  induction fs generalizing r with
  | nil => rw [List.map_nil, bindAll, Array.append_empty]
  | cons f fs ih =>
      rw [bindAll, ih, List.map_cons]
      apply Array.toList_inj.1
      simp only [Array.toList_append, Array.toList_push, List.append_assoc, List.cons_append,
        List.nil_append]

theorem lookup_bindAll_of_notMem {fs : List Function} {name : String}
    (h : name ∉ fs.map Function.name) :
    (bindAll fs r).globals.lookup name = r.globals.lookup name := by
  induction fs generalizing r with
  | nil => rfl
  | cons f fs ih =>
      rw [List.map_cons, List.mem_cons, not_or] at h
      rw [bindAll, ih h.2, Scope.lookup_bind_of_ne h.1]

/-- The `k`-th definition has the `k`-th new symbol. -/
theorem lookup_bindAll {fs : List Function} (hnames : (fs.map Function.name).Nodup) {k : Nat}
    {name : String} (hk : (fs.map Function.name)[k]? = some name) :
    (bindAll fs r).globals.lookup name = some (r.symbols.size + k) := by
  induction fs generalizing r k with
  | nil => cases hk
  | cons f fs ih =>
      rw [List.map_cons, List.nodup_cons] at hnames
      rw [List.map_cons] at hk
      cases k with
      | zero =>
          cases hk
          rw [bindAll, lookup_bindAll_of_notMem hnames.1, Scope.lookup_bind_self, Nat.add_zero]
      | succ k =>
          rw [bindAll, ih hnames.2 hk, Array.size_push]
          exact congrArg some (by omega)

/-- **The definitions are bound side by side.** -/
theorem bindAll_moved {fs fs' : List Function} (h : SameDefinitions same fs fs')
    {is is' : Instances} (his : Instances.Moved same is is') (k k' : Nat) :
    Round.Moved same h.toRenaming (bindAll fs (.start k is)) (bindAll fs' (.start k' is')) := by
  have hsymbol : ∀ (gs : List Function) (k : Nat) (is : Instances) (j : Nat),
      (bindAll gs (.start k is)).symbols[j]? =
        gs[j]?.map fun f => Symbol.ofFunction f.name f := by
    intro gs k is j
    have hstart : (Round.start k is).symbols = #[] := rfl
    rw [symbols_bindAll, hstart, Array.empty_append, List.getElem?_toArray, List.getElem?_map]
  have hsize : ∀ (gs : List Function) (k : Nat) (is : Instances),
      (bindAll gs (.start k is)).symbols.size = gs.length := by
    intro gs k is
    have hstart : (Round.start k is).symbols = #[] := rfl
    rw [symbols_bindAll, hstart, Array.empty_append, List.size_toArray, List.length_map]
  rw [bindAll_eq fs, bindAll_eq fs']
  refine ⟨⟨his.made, his.results, rfl, rfl⟩, rfl, ?_, ?_, .none, .nil, rfl⟩
  · refine ⟨?_, ?_, ?_, ?_⟩
    · rw [hsize, hsize, h.length_eq]
    · rw [hsize]
      exact le_rfl
    · intro j j' hj
      rw [hsymbol, hsymbol]
      rcases hj with ⟨hj, rfl⟩ | ⟨name, hname, hname'⟩
      · rw [List.getElem?_eq_none hj, List.getElem?_eq_none (h.length_eq ▸ hj)]
        exact .none
      · rw [List.getElem?_map] at hname hname'
        obtain ⟨f, hf, rfl⟩ := Option.map_eq_some_iff.1 hname
        obtain ⟨f', hf', hff⟩ := Option.map_eq_some_iff.1 hname'
        rw [hf, hf', Option.map_some, Option.map_some, hff]
        exact .some (moved_function (h.moved (List.mem_of_getElem? hf) (List.mem_of_getElem? hf')
          hff) _)
    · intro j s _ hs
      rw [hsymbol, hsymbol] at hs
      rcases hs with hs | hs
      · obtain ⟨f, -, rfl⟩ := Option.map_eq_some_iff.1 hs
        rfl
      · obtain ⟨f, -, rfl⟩ := Option.map_eq_some_iff.1 hs
        rfl
  · refine ⟨rfl, rfl, ?_⟩
    intro name
    change Option.Rel _ ((bindAll fs (.start k is)).globals.lookup name)
      ((bindAll fs' (.start k' is')).globals.lookup name)
    by_cases hmem : name ∈ fs.map Function.name
    · obtain ⟨j, hj⟩ := List.mem_iff_getElem?.1 hmem
      obtain ⟨j', hj'⟩ := List.mem_iff_getElem?.1 (h.perm.mem_iff.1 hmem)
      rw [lookup_bindAll h.names hj, lookup_bindAll (h.perm.nodup_iff.1 h.names) hj']
      have hstart : ∀ (k : Nat) (is : Instances) (j : Nat),
          (Round.start k is).symbols.size + j = j := fun _ _ j => Nat.zero_add j
      rw [hstart, hstart]
      exact .some (.inr ⟨name, hj, hj'⟩)
    · rw [lookup_bindAll_of_notMem hmem,
        lookup_bindAll_of_notMem fun hmem' => hmem (h.perm.mem_iff.2 hmem')]
      exact .none

/-- Definitions alike have parts alike. -/
theorem ofNode?_moved {x x' : Node Mark} (h : Node.Alike (SameSpan same) x x') :
    Option.Rel (Function.Moved same) (Function.ofNode? x) (Function.ofNode? x') := by
  cases h with
  | define hm hp hb =>
      cases hp with
      | prototype hn => exact .some ⟨rfl, rfl, hn, hb⟩
      | _ => exact .none
  | _ => exact .none

theorem definitions_moved {xs xs' : List (Node Mark)}
    (h : List.Forall₂ (Node.Alike (SameSpan same)) xs xs') :
    List.Forall₂ (Function.Moved same) (Node.definitions xs) (Node.definitions xs') := by
  unfold Node.definitions
  induction h with
  | nil => exact .nil
  | @cons x x' xs xs' hx _ ih =>
      have hparts := ofNode?_moved hx
      rw [List.filterMap_cons, List.filterMap_cons]
      revert hparts
      generalize Function.ofNode? x = o, Function.ofNode? x' = o'
      intro hparts
      cases hparts with
      | none => exact ih
      | some hf => exact .cons hf ih

theorem ofNode?_of_not_isDefinition {x : Node Mark} (h : x.isDefinition = false) :
    Function.ofNode? x = none := by
  cases x with
  | define m p b => cases h
  | _ => rfl

theorem definitions_filter (xs : List (Node Mark)) :
    Node.definitions (xs.filter Node.isDefinition) = Node.definitions xs := by
  unfold Node.definitions
  induction xs with
  | nil => rfl
  | cons x xs ih =>
      cases hx : x.isDefinition with
      | true => rw [List.filter_cons_of_pos hx, List.filterMap_cons, List.filterMap_cons, ih]
      | false =>
          have hno : ¬ x.isDefinition = true := by
            rw [hx]
            exact Bool.false_ne_true
          rw [List.filter_cons_of_neg hno,
            List.filterMap_cons_none (ofNode?_of_not_isDefinition hx), ih]

theorem names_definitions (xs : List (Node Mark)) :
    (Node.definitions xs).map Function.name = xs.filterMap Node.definedName? := by
  have hname : ∀ x : Node Mark, (Function.ofNode? x).map Function.name = x.definedName? := by
    intro x
    cases x with
    | define m p b => cases p <;> rfl
    | _ => rfl
  rw [Node.definitions, List.map_filterMap]
  exact congrFun (congrArg List.filterMap (funext hname)) xs

/-- **The definitions of units that differ in their order.** -/
theorem sameDefinitions {xs xs' : List (Node Mark)} (h : Node.MovedItems (SameSpan same) xs xs') :
    SameDefinitions same (Node.definitions xs) (Node.definitions xs') := by
  obtain ⟨zs, hperm, hzs⟩ := h.definitions
  refine ⟨?_, Node.definitions zs, ?_, ?_⟩
  · rw [names_definitions]
    exact h.names
  · rw [← definitions_filter xs]
    exact hperm.filterMap _
  · rw [← definitions_filter xs']
    exact definitions_moved hzs

/-! ### Units -/

/-- Typed units alike but for the order of the definitions. -/
def MovedRoot (same : Span → Span → Prop) (ρ : Renaming) (y y' : Node Note) : Prop :=
  ∃ n n' ys ys', y = .unit n ys ∧ y' = .unit n' ys' ∧ MovedRest same ρ ys ys'

/-- **Rounds over units that differ in the order of their definitions** agree. -/
theorem visitUnit_moved (mark mark' : Mark) {xs xs' : List (Node Mark)}
    (h : Node.MovedItems (SameSpan same) xs xs') {is is' : Instances}
    (his : Instances.Moved same is is') (k k' : Nat) :
    Agree (CompileError.Alike same)
      (fun p p' => MovedRoot same (sameDefinitions h).toRenaming p.1 p'.1 ∧
        Round.Moved same (sameDefinitions h).toRenaming p.2 p'.2)
      (visitUnit mark xs (.start k is)) (visitUnit mark' xs' (.start k' is')) := by
  have hsame := sameDefinitions h
  have hbound := declareFunctions_eq (r := .start k is) hsame.names fun _ _ => rfl
  have hbound' := declareFunctions_eq (r := .start k' is') (hsame.perm.nodup_iff.1 hsame.names)
    fun _ _ => rfl
  have hrest : Beside same hsame.toRenaming (MovedRoot same hsame.toRenaming)
      (visitItems xs >>= fun ys => drain (signatures (Node.definitions xs)) >>= fun _ =>
        pure (.unit (.typed mark .int) ys))
      (visitItems xs' >>= fun ys => drain (signatures (Node.definitions xs')) >>= fun _ =>
        pure (.unit (.typed mark' .int) ys)) := by
    rw [hsame.signatures_eq]
    refine (visitItems_moved xs h.rest).bind ?_
    intro ys ys' hys
    exact (drain_moved _).bind fun _ _ _ => .pure ⟨_, _, ys, ys', rfl, rfl, hys⟩
  have hrun := hrest _ _ (bindAll_moved hsame his k k')
  have hsplit : ∀ (m : Mark) (zs : List (Node Mark)) (s s₁ : Round),
      declareFunctions (Node.definitions zs) s = .ok ((), s₁) →
      visitUnit m zs s = (visitItems zs >>= fun ys =>
        drain (signatures (Node.definitions zs)) >>= fun _ =>
        pure (.unit (.typed m .int) ys) : Infer (Node Note)) s₁ := by
    intro m zs s s₁ hs
    change (declareFunctions (Node.definitions zs) >>= _ : Infer (Node Note)) s = _
    exact bind_of_eq_ok hs
  rw [hsplit mark xs _ _ hbound, hsplit mark' xs' _ _ hbound']
  exact hrun

end Infer

/-- **Typings that stand side by side.** -/
structure Typing.Moved (same : Span → Span → Prop) (ρ : Renaming) (t t' : Typing) : Prop where
  root : Infer.MovedRoot same ρ t.root t'.root
  round : Round.Moved same ρ t.round t'.round

namespace Document

/-- All rounds stay side by side, whatever the next identities are. -/
theorem inferFrom_moved (mark mark' : Mark) {xs xs' : List (Node Mark)}
    (h : Node.MovedItems (SameSpan same) xs xs') (fuel : Nat) :
    ∀ (k j j' : Nat) (is is' : Instances), Instances.Moved same is is' →
      Agree (CompileError.Alike same) (Typing.Moved same (Infer.sameDefinitions h).toRenaming)
        (inferFrom mark xs fuel k j is) (inferFrom mark' xs' fuel k j' is') := by
  induction fuel with
  | zero =>
      intro k j j' is is' _
      exact .error (.internal (.same _))
  | succ fuel ih =>
      intro k j j' is is' his
      refine (Infer.visitUnit_moved mark mark' h his j j').bind ?_
      rintro ⟨root, r⟩ ⟨root', r'⟩ ⟨hroot, hr⟩
      dsimp only at hroot hr ⊢
      rw [hr.changed, ← hr.instances.made.length_eq]
      split
      · exact .ok ⟨hroot, hr⟩
      · split
        · exact .error (.internal (.same _))
        · exact ih _ _ _ _ _ hr.instances

/-- **Inference of units that differ in the order of their definitions** agrees. -/
theorem infer_moved {d d' : Document} (h : Node.IsMoved (SameSpan same) d.root d'.root) :
    ∃ ρ, Agree (CompileError.Alike same) (Typing.Moved same ρ) d.infer d'.infer := by
  unfold infer
  revert h
  generalize d.root = x, d'.root = x'
  intro h
  cases h with
  | @unit n n' is is' his =>
      refine ⟨(Infer.sameDefinitions his).toRenaming, ?_⟩
      dsimp only
      rw [(Infer.sameDefinitions his).signatures_eq]
      exact inferFrom_moved n n' his _ _ _ _ _ _ ⟨.nil, rfl, rfl, rfl⟩

end Document

end StackLang
