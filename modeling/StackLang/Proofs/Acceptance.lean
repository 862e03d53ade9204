/-
**What folding changes about acceptance.**

Constants are folded before names are resolved, so a branch that is dropped is never looked at: what
is wrong there goes unnoticed, and a variable that is assigned only there is unknown everywhere
else.  Nothing else about a text can change whether it is accepted: types play no part in it, and
everything that was inferred has code.

Main definitions:

* `Compile.Accepts`, `Compile.Rejects`, `Compile.Unsettled` — the outcomes of a text with a tree;
* `Compile.Drops`, `Compile.Hides` — the uses of names that folding drops, and what it hides.

Main results:

* `Compile.exists_compiled` — what was inferred is compiled;
* `Compile.outcome_resolves` — a text fares as its names do;
* `Compile.accepts_folded` — what the optimizer changes about acceptance.
-/

import StackLang.Proofs.Order
import StackLang.Proofs.Text.Closed
import StackLang.Proofs.Tree.Thinned
import StackLang.Proofs.Typing.Checked

set_option relaxedAutoImplicit false
set_option autoImplicit false

namespace StackLang

/-! ### The text of code -/

namespace Code

variable {c : Code}

/-- Every jump goes to an instruction with a label. -/
def IsLabelled (c : Code) : Prop :=
  ∀ i ∈ c.instrs, ∀ t, i.target = some t → ∃ k label, t = .instr k ∧ c.label? k = some label

theorem IsLabelled.exists_argument (h : c.IsLabelled) {i : Instr} (hi : i ∈ c.instrs) :
    ∃ a, c.argument i = .ok a := by
  unfold argument
  cases ht : i.target with
  | none => exact ⟨_, rfl⟩
  | some t =>
      obtain ⟨k, label, rfl, hlabel⟩ := h i hi t ht
      exact ⟨label, by simp [hlabel]⟩

theorem IsLabelled.exists_linesOf (h : c.IsLabelled) {i : Instr} (hi : i ∈ c.instrs) :
    ∃ ls, c.linesOf i = .ok ls := by
  obtain ⟨a, ha⟩ := h.exists_argument hi
  obtain ⟨ls, hls⟩ : ∃ ls, c.body i = .ok ls := by
    unfold body
    split
    · exact ⟨_, rfl⟩
    · exact ⟨_, rfl⟩
    · split
      · exact ⟨_, rfl⟩
      · exact ⟨_, by rw [ha]; rfl⟩
  exact ⟨_, by rw [linesOf, hls]; rfl⟩

theorem IsLabelled.exists_lines (h : c.IsLabelled) {is : List Instr}
    (his : ∀ i ∈ is, i ∈ c.instrs) : ∃ ls, c.lines is = .ok ls := by
  induction is with
  | nil => exact ⟨[], rfl⟩
  | cons i is ih =>
      rw [List.forall_mem_cons] at his
      obtain ⟨first, hfirst⟩ := h.exists_linesOf his.1
      obtain ⟨rest, hrest⟩ := ih his.2
      exact ⟨_, by rw [lines, hfirst, hrest]; rfl⟩

/-- **Code whose jumps have labels has a text.** -/
theorem IsLabelled.exists_text (h : c.IsLabelled) : ∃ text, c.text = .ok text := by
  obtain ⟨ls, hls⟩ := h.exists_lines fun _ hi => hi
  exact ⟨_, by rw [text, hls]; rfl⟩

end Code

/-! ### Definitions of a document -/

namespace Node

variable {α β : Type}

theorem outline?_map (f : α → β) (x : Node α) : (x.map f).outline? = x.outline? := by
  cases x with
  | define n p b => cases p <;> simp [map, outline?, uses_map]
  | _ => rfl

theorem outlines_map (f : α → β) (xs : List (Node α)) :
    outlines (xs.map (map f)) = outlines xs := by
  rw [outlines, List.filterMap_map]
  exact List.filterMap_congr fun x _ => outline?_map f x

/-- Definitions as far as names go depend on shapes only. -/
theorem outlines_of_shape {xs : List (Node α)} {ys : List (Node β)}
    (h : ys.map shape = xs.map shape) : outlines ys = outlines xs := by
  rw [← outlines_map (fun _ => ()) ys, ← outlines_map (fun _ => ()) xs]
  exact congrArg outlines h

variable {P : Use → Prop} {veiled : SemanticCause → Prop}

theorem outline?_of_isPlain {x : Node α} (h : x.IsPlain) : x.outline? = none := by
  cases x with
  | define n p b => exact absurd h.self id
  | _ => rfl

/-- **What folding leaves of the definitions of a unit.** -/
theorem thins_outlines {xs : List (Node α)} (hxs : ∀ x ∈ xs, x.IsItem)
    (h : ∀ x ∈ xs, x.Every (Loses P veiled)) :
    List.Forall₂ (Outline.Thins P veiled) (outlines xs) (outlines (foldList xs).1) := by
  induction xs with
  | nil => exact .nil
  | cons x xs ih =>
      rw [List.forall_mem_cons] at hxs h
      have hrest := ih hxs.2 h.2
      rw [foldList]
      unfold outlines at hrest ⊢
      cases hdefinition : x.isDefinition with
      | false =>
          have hplain := (isItem_of_not_isDefinition hdefinition).1 hxs.1
          rw [List.filterMap_cons_none (outline?_of_isPlain hplain),
            List.filterMap_cons_none (outline?_of_isPlain (isPlain_fold x hplain))]
          exact hrest
      | true =>
          cases x with
          | define n p b =>
              cases p with
              | prototype m f ps =>
                  have hbody := thins_fold b (every_define.1 h.1).2.2
                  rw [← uses_unwrapTail b.fold.1] at hbody
                  exact .cons ⟨rfl, rfl, hbody⟩ hrest
              | _ => exact absurd hxs.1.self id
          | _ => cases hdefinition

end Node

namespace Compile

variable {optimize : Bool} {source : String} {t : Node Span}

/-! ### Outcomes -/

/-- The text is compiled. -/
def Accepts (optimize : Bool) (source : String) : Prop := ∃ c, compile optimize source = .ok c

/-- A name is used against its meaning. -/
def Rejects (optimize : Bool) (source : String) (cause : SemanticCause) : Prop :=
  ∃ span, compile optimize source = .error (.semantic ⟨cause, span⟩)

/-- The results of functions do not settle within the rounds of inference. -/
def Unsettled (optimize : Bool) (source : String) : Prop :=
  compile optimize source = .error (.internal .unsettledResults)

/-- **What was inferred is compiled**: it has code, and all its jumps have labels. -/
theorem exists_compiled (htree : tree source = .ok t) {typing : Typing}
    (hinfer : (Document.ofTree (prepare optimize t)).infer = .ok typing) :
    Accepts optimize source := by
  obtain ⟨mark, items, -, -, hsound, -⟩ :=
    exists_sound_of_infer (isSource_prepare (isSource_tree htree)) hinfer
  obtain ⟨c, hc⟩ := hsound.exists_lower
  obtain ⟨k, hunit⟩ := Typing.emits_lower hc
  have hlinked := Peephole.linked_of_improved (improved_finish optimize hunit.regular)
    hunit.regular hunit.linked
  have hnone : c.labels = [] := by
    rw [Typing.lower] at hc
    obtain ⟨p, -, hp⟩ := Step.except_bind_eq_ok.1 hc
    cases hp
    rfl
  have hlabelled : (finish optimize c).1.IsLabelled := by
    intro i hi target ht
    obtain ⟨j, rfl, -⟩ := hlinked.target i hi target ht
    have hlabels := labels_finish optimize hnone
    have hj : i.targetId? = some j := by rw [Instr.targetId?, ht]
    obtain ⟨l, hl⟩ : ∃ l, (finish optimize c).1.labels.lookup j = some l := by
      rw [hlabels]
      exact Code.exists_lookup_labelTargets hi hj
    exact ⟨j, l, rfl, hl⟩
  obtain ⟨text, htext⟩ := hlabelled.exists_text
  have hlowered : lowered (prepare optimize t) = .ok (typing, c) := by
    rw [lowered, hinfer]
    simp only [bind, Except.bind, hc]
    rfl
  refine ⟨⟨text ++ typing.round.symbols.reservations, (finish optimize c).1,
    (finish optimize c).2⟩, ?_⟩
  rw [compile_of_tree htree, ofTree, hlowered]
  simp only [bind, Except.bind, htext]
  rfl

/-- What inference reports is reported. -/
theorem compile_of_infer_error (htree : tree source = .ok t) {e : CompileError}
    (he : (Document.ofTree (prepare optimize t)).infer = .error e) :
    compile optimize source = .error e := by
  rw [compile_of_tree htree, ofTree, lowered, he]
  rfl

/-- The stages up to inference. -/
def typed (optimize : Bool) (source : String) : Except CompileError Typing := do
  (Document.ofTree (prepare optimize (← tree source))).infer

/-- **After inference nothing fails**, and before it nothing is left out. -/
theorem compile_typed (optimize : Bool) (source : String) :
    (∀ typing, typed optimize source = .ok typing → Accepts optimize source) ∧
      ∀ e, typed optimize source = .error e → compile optimize source = .error e := by
  unfold typed
  cases htree : tree source with
  | error e =>
      refine ⟨fun typing h => (nomatch h), fun e' he => ?_⟩
      rw [compile_eq, htree]
      cases he
      rfl
  | ok t =>
      exact ⟨fun typing h => exists_compiled htree h, fun e h => compile_of_infer_error htree h⟩

/-- The cause that is reported of a name that is used against its meaning. -/
def reported? (optimize : Bool) (source : String) : Option SemanticCause :=
  match typed optimize source with
  | .error (.semantic e) => some e.cause
  | _ => none

theorem accepts_iff :
    Accepts optimize source ↔ (typed optimize source).toOption.isSome = true := by
  obtain ⟨haccept, hreport⟩ := compile_typed optimize source
  cases htyped : typed optimize source with
  | ok typing => exact ⟨fun _ => rfl, fun _ => haccept typing htyped⟩
  | error e =>
      refine ⟨?_, fun h => (nomatch h)⟩
      rintro ⟨c, hc⟩
      rw [hreport e htyped] at hc
      cases hc

theorem rejects_iff {c : SemanticCause} :
    Rejects optimize source c ↔ reported? optimize source = some c := by
  obtain ⟨haccept, hreport⟩ := compile_typed optimize source
  unfold Rejects reported?
  cases htyped : typed optimize source with
  | ok typing =>
      obtain ⟨compiled, hcompiled⟩ := haccept typing htyped
      simp [hcompiled]
  | error e =>
      rw [hreport e htyped]
      cases e with
      | semantic e =>
          refine ⟨?_, fun hc => ?_⟩
          · rintro ⟨span, hspan⟩
            cases hspan
            rfl
          · cases hc
            exact ⟨e.span, rfl⟩
      | _ => simp

instance (optimize : Bool) (source : String) : Decidable (Accepts optimize source) :=
  decidable_of_iff _ accepts_iff.symm

instance (optimize : Bool) (source : String) (c : SemanticCause) :
    Decidable (Rejects optimize source c) :=
  decidable_of_iff _ rejects_iff.symm

/-- **A text fares as its names do**, folded or not. -/
theorem outcome_resolves (htree : tree source = .ok t) (optimize : Bool) :
    (∃ c, Rejects optimize source c ∧ Resolves (Node.outlines (prepare optimize t).children)
        (prepare optimize t).uses (.error c)) ∨
      (Accepts optimize source ∨ Unsettled optimize source) ∧
        Resolves (Node.outlines (prepare optimize t).children) (prepare optimize t).uses
          (.ok ()) := by
  have hsource := @isSource_prepare optimize t (isSource_tree htree)
  have hroot := Document.isSource_ofTree hsource
  have hshape : (Document.ofTree (prepare optimize t)).root.shape = (prepare optimize t).shape :=
    Node.shape_number _ 0 _
  have huses := Node.uses_of_shape hshape
  cases hx : prepare optimize t with
  | unit n is =>
      cases hunit : (Document.ofTree (prepare optimize t)).root with
      | unit mark items =>
          rw [hunit] at hroot
          rw [hunit, hx] at hshape huses
          have hitems : items.map Node.shape = is.map Node.shape := by
            simp only [Node.shape, Node.map, Node.mapList_eq_map, Node.unit.injEq, true_and]
              at hshape
            exact hshape
          have hresolves := Document.infer_resolves hunit hroot
          rw [Node.outlines_of_shape hitems, show Node.usesList items = _ from huses] at hresolves
          rcases hresolves with ⟨e, he, hfault⟩ | ⟨hno, hnone⟩
          · exact .inl ⟨e.cause, ⟨e.span, compile_of_infer_error htree he⟩, hfault⟩
          · refine .inr ⟨?_, hnone⟩
            cases hinfer : (Document.ofTree (prepare optimize t)).infer with
            | ok typing => exact .inl (exists_compiled htree hinfer)
            | error e =>
                rcases Document.infer_error hunit hroot hinfer with ⟨s, rfl⟩ | rfl
                · exact absurd hinfer (hno s)
                · exact .inr (compile_of_infer_error htree hinfer)
      | _ =>
          rw [hunit] at hroot
          cases hroot
  | _ =>
      rw [hx] at hsource
      cases hsource

/-! ### Folded and not -/

/-- The uses of names in branches that folding drops. -/
def Drops (t : Node Span) (u : Use) : Prop := ∃ y ∈ t.dropped, u ∈ y.uses

/-- **The causes of faults that folding unveils**: something is called or assigned to that is no
name, and folding leaves a name of it. -/
def Veils (t : Node Span) (c : SemanticCause) : Prop :=
  ∃ y ∈ t.subtrees, y.unveilsAt = true ∧ .fault c ∈ y.uses

/-- Where no name is unveiled, no fault is. -/
theorem not_veils (h : t.unveils = false) (c : SemanticCause) : ¬ Veils t c := by
  rintro ⟨y, hy, hunveils, -⟩
  have hany : t.unveils = true := List.any_eq_true.2 ⟨y, hy, hunveils⟩
  rw [h] at hany
  cases hany

/-- **A folded text fares as what is left of its names.** -/
theorem thins_prepare (ht : t.IsSource) :
    List.Forall₂ (Outline.Thins (Drops t) (Veils t))
        (Node.outlines (prepare false t).children) (Node.outlines (prepare true t).children) ∧
      Thins (Drops t) (Veils t) (prepare false t).uses (prepare true t).uses := by
  have hloses : t.Every (Node.Loses (Drops t) (Veils t)) := by
    intro y hy
    exact ⟨fun z hz u hu => ⟨z, List.mem_flatMap.2 ⟨y, hy, hz⟩, hu⟩, fun hunveils c hc =>
      ⟨y, hy, hunveils, hc⟩⟩
  refine ⟨?_, Node.thins_fold t hloses⟩
  cases t with
  | unit n is => exact Node.thins_outlines ht (Node.every_unit.1 hloses).2
  | _ => cases ht

/-- The names of a text that is compiled are used as they mean. -/
theorem Accepts.resolves (h : Accepts optimize source) (htree : tree source = .ok t) :
    Resolves (Node.outlines (prepare optimize t).children) (prepare optimize t).uses
      (.ok ()) := by
  rcases outcome_resolves htree optimize with ⟨c, ⟨span, hreject⟩, -⟩ | ⟨-, hok⟩
  · obtain ⟨compiled, hcompiled⟩ := h
    rw [hreject] at hcompiled
    cases hcompiled
  · exact hok

/-- The cause that is reported is that of the names. -/
theorem Rejects.resolves {c : SemanticCause} (h : Rejects optimize source c)
    (htree : tree source = .ok t) :
    Resolves (Node.outlines (prepare optimize t).children) (prepare optimize t).uses
      (.error c) := by
  obtain ⟨span, hreject⟩ := h
  rcases outcome_resolves htree optimize with ⟨c', ⟨span', hreject'⟩, hfault⟩ |
    ⟨⟨compiled, hcompiled⟩ | hunsettled, -⟩
  · rw [hreject] at hreject'
    cases hreject'
    exact hfault
  · rw [hreject] at hcompiled
    cases hcompiled
  · rw [Unsettled, hreject] at hunsettled
    cases hunsettled

/-- The causes that folding hides: those in branches that it drops and in functions that are reached
from there, and those of faults where it unveils a name. -/
def Hides (t : Node Span) (c : SemanticCause) : Prop :=
  c.IsHidden (Drops t) (Veils t) (Node.outlines t.children)

/-- **The outcome without folding and with it.** -/
theorem outcomes_thinned (htree : tree source = .ok t) {o o' : Except SemanticCause Unit}
    (h : Resolves (Node.outlines (prepare false t).children) (prepare false t).uses o)
    (h' : Resolves (Node.outlines (prepare true t).children) (prepare true t).uses o') :
    Thinned (Drops t) (Veils t) (Node.outlines t.children) (fun _ _ => True) o o' := by
  obtain ⟨hos, hus⟩ := thins_prepare (isSource_tree htree)
  exact h.thinned hos hus h'

/-- **What folding loses**: an assignment in a branch that is dropped. -/
theorem Accepts.folded (h : Accepts false source) (htree : tree source = .ok t) :
    Accepts true source ∨ Unsettled true source ∨
      ∃ c, Rejects true source c ∧ c.IsLost (Drops t) := by
  rcases outcome_resolves htree true with ⟨c, hreject, hfault⟩ | ⟨haccept | hunsettled, -⟩
  · cases outcomes_thinned htree (h.resolves htree) hfault with
    | lost hc => exact .inr (.inr ⟨c, hreject, hc⟩)
  · exact .inl haccept
  · exact .inr (.inl hunsettled)

/-- **What folding hides**: a failure in a branch that is dropped or behind a call there, or
something that is no name before it is folded and is called or assigned to. -/
theorem Accepts.unfolded (h : Accepts true source) (htree : tree source = .ok t) :
    Accepts false source ∨ Unsettled false source ∨ ∃ c, Rejects false source c ∧ Hides t c := by
  rcases outcome_resolves htree false with ⟨c, hreject, hfault⟩ | ⟨haccept | hunsettled, -⟩
  · cases outcomes_thinned htree hfault (h.resolves htree) with
    | hidden hc => exact .inr (.inr ⟨c, hreject, hc⟩)
  · exact .inl haccept
  · exact .inr (.inl hunsettled)

/-- **Where a text is rejected with folding and without**, this is for causes of one kind, but for
what folding loses and hides. -/
theorem Rejects.folded {c c' : SemanticCause} (h : Rejects false source c)
    (h' : Rejects true source c') (htree : tree source = .ok t) :
    c.SameKind c' ∨ c'.IsLost (Drops t) ∨ Hides t c := by
  cases outcomes_thinned htree (h.resolves htree) (h'.resolves htree) with
  | fault hkind => exact hkind

/-- **What the optimizer changes about acceptance.**  A text without a tree fails alike with it and
without it.  Of the others it loses those where a name becomes unknown that is assigned in a branch
that is dropped, and gains only those that fail in such a branch or in a function that is reached
from one, or for a call or an assignment of something that is no name, of which folding leaves one.
For no other reason do the causes differ in kind for which a text is rejected with it and without
it.  Where the branches that are dropped use no names and none is unveiled, nothing is lost or
hidden.  All this is up to results that do not settle. -/
theorem accepts_folded (source : String) :
    (∀ e, tree source = .error e → ∀ optimize, compile optimize source = .error e) ∧
    ∀ t, tree source = .ok t →
      (Accepts false source → Accepts true source ∨ Unsettled true source ∨
        ∃ c, Rejects true source c ∧ c.IsLost (Drops t)) ∧
      (Accepts true source → Accepts false source ∨ Unsettled false source ∨
        ∃ c, Rejects false source c ∧ Hides t c) ∧
      (∀ c c', Rejects false source c → Rejects true source c' →
        c.SameKind c' ∨ c'.IsLost (Drops t) ∨ Hides t c) ∧
      ((∀ u, ¬ Drops t u) → t.unveils = false →
        ∀ c, ¬ c.IsLost (Drops t) ∧ ¬ Hides t c) := by
  refine ⟨fun e he optimize => ?_, fun t ht => ⟨fun h => h.folded ht, fun h => h.unfolded ht,
    fun c c' h h' => h.folded h' ht, fun hdrops hunveils c =>
    ⟨not_isLost hdrops c, not_isHidden hdrops (not_veils hunveils) c⟩⟩⟩
  rw [compile_eq, he]
  rfl

/-- The optimizer does not keep acceptance: the name that is unknown stands in a branch that is
dropped. -/
theorem not_accepts_alike :
    ¬ (Accepts true "if 1 { 2 } else { y }" ↔ Accepts false "if 1 { 2 } else { y }") := by
  decide +kernel

/-- A text of which folding drops no names, by running the parser. -/
theorem exists_of_kept (h : (tree source).toOption.any (fun t =>
      !t.unveils && t.dropped.all fun y => y.uses.isEmpty) = true) :
    ∃ t, tree source = .ok t ∧ (∀ u, ¬ Drops t u) ∧ t.unveils = false := by
  obtain ⟨t, ht, h⟩ := (Option.any_eq_true _ _).1 h
  rw [Bool.and_eq_true, Bool.not_eq_true'] at h
  refine ⟨t, Step.eq_ok_of_toOption ht, ?_, h.1⟩
  rintro u ⟨y, hy, hu⟩
  rw [List.isEmpty_iff.1 (List.all_eq_true.1 h.2 y hy)] at hu
  cases hu

/-- A text without a tree; one where the only assignment is dropped; one where a function is dropped
that uses an unknown name; one with two unknown names of which one is dropped; and one where a float
is dropped, so that types change but no names are lost. -/
theorem accepts_folded_texts :
    (∃ e, tree ")" = .error e ∧ ∀ optimize, compile optimize ")" = .error e) ∧
    (∃ t, tree "if 0 { x = 1 } x" = .ok t ∧
      (Accepts true "if 0 { x = 1 } x" ∨ Unsettled true "if 0 { x = 1 } x" ∨
        ∃ c, Rejects true "if 0 { x = 1 } x" c ∧ c.IsLost (Drops t))) ∧
    (∃ t, tree "def f() g() if 1 { 2 } else { f() }" = .ok t ∧
      (Accepts false "def f() g() if 1 { 2 } else { f() }" ∨
        Unsettled false "def f() g() if 1 { 2 } else { f() }" ∨
        ∃ c, Rejects false "def f() g() if 1 { 2 } else { f() }" c ∧ Hides t c)) ∧
    (∃ t, tree "if 1 { 2 } else { y } z" = .ok t ∧
      (SemanticCause.SameKind (.unknownIdentifier "y") (.unknownIdentifier "z") ∨
        SemanticCause.IsLost (Drops t) (.unknownIdentifier "z") ∨
        Hides t (.unknownIdentifier "y"))) ∧
    ∃ t, tree "def f(x) if 1 { x } else { 2.5 } f(3)" = .ok t ∧
      ∀ c, ¬ SemanticCause.IsLost (Drops t) c ∧ ¬ Hides t c := by
  have hparsed : ∀ {source : String}, (tree source).toOption.isSome = true →
      ∃ t, tree source = .ok t := fun h =>
    (Option.isSome_iff_exists.1 h).imp fun _ ht => Step.eq_ok_of_toOption ht
  refine ⟨?_, ?_, ?_, ?_, ?_⟩
  · have hfault : (Step.fault? (tree ")")).isSome = true := by decide +kernel
    obtain ⟨e, he⟩ := Option.isSome_iff_exists.1 hfault
    have htree := Step.eq_error_of_fault? he
    exact ⟨e, htree, (accepts_folded ")").1 e htree⟩
  · obtain ⟨t, ht⟩ := @hparsed "if 0 { x = 1 } x" (by decide +kernel)
    exact ⟨t, ht, ((accepts_folded "if 0 { x = 1 } x").2 t ht).1 (by decide +kernel)⟩
  · obtain ⟨t, ht⟩ := @hparsed "def f() g() if 1 { 2 } else { f() }" (by decide +kernel)
    obtain ⟨-, hunfolded, -⟩ := (accepts_folded "def f() g() if 1 { 2 } else { f() }").2 t ht
    exact ⟨t, ht, hunfolded (by decide +kernel)⟩
  · obtain ⟨t, ht⟩ := @hparsed "if 1 { 2 } else { y } z" (by decide +kernel)
    obtain ⟨-, -, hrejects, -⟩ := (accepts_folded "if 1 { 2 } else { y } z").2 t ht
    exact ⟨t, ht, hrejects _ _ (by decide +kernel) (by decide +kernel)⟩
  · obtain ⟨t, ht, hdrops, hunveils⟩ :=
      @exists_of_kept "def f(x) if 1 { x } else { 2.5 } f(3)" (by decide +kernel)
    obtain ⟨-, -, -, hkept⟩ := (accepts_folded "def f(x) if 1 { x } else { 2.5 } f(3)").2 t ht
    exact ⟨t, ht, hkept hdrops hunveils⟩

end Compile

end StackLang
