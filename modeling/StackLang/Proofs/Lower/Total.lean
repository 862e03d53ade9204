/-
**Lowering does not fail.**

Lowering fails only where a type or a symbol is missing, and what inference has resolved has them
all; and every instance that a call goes to was inferred.

Main results:

* `Lower.succeeds_expression` — a resolved tree is lowered;
* `Typing.Sound.exists_lower` — the code of a sound typing exists.
-/

import StackLang.Proofs.Lower.Emits
import StackLang.Proofs.Typing.Infer

set_option relaxedAutoImplicit false
set_option autoImplicit false

namespace StackLang

namespace Lower

/-- The step succeeds with any next identity. -/
def Succeeds {α : Type} (m : Lower α) : Prop := ∀ k, ∃ r, m k = .ok r

namespace Succeeds

variable {α β : Type}

theorem pure (a : α) : Succeeds (Pure.pure a : Lower α) := fun k => ⟨(a, k), rfl⟩

theorem bind {m : Lower α} {f : α → Lower β} (hm : Succeeds m) (hf : ∀ a, Succeeds (f a)) :
    Succeeds (m >>= f) := by
  intro k
  obtain ⟨⟨a, k'⟩, ha⟩ := hm k
  obtain ⟨r, hr⟩ := hf a k'
  exact ⟨r, Step.bind_eq_ok.2 ⟨a, k', ha, hr⟩⟩

/-- After a step that has the value `a` and takes no identity. -/
theorem bind_of_eq {m : Lower α} {f : α → Lower β} {a : α} (hm : ∀ k, m k = .ok (a, k))
    (hf : Succeeds (f a)) : Succeeds (m >>= f) := by
  intro k
  obtain ⟨r, hr⟩ := hf k
  exact ⟨r, Step.bind_eq_ok.2 ⟨a, k, hm k, hr⟩⟩

/-- Two branches that go on with the same step. -/
theorem join {c : Prop} [Decidable c] {a : α} {m : Lower β} {f : α → Lower β}
    (hf : ∀ a, Succeeds (f a)) (hm : ¬ c → (∀ a, Succeeds (f a)) → Succeeds m) :
    Succeeds (if c then Pure.pure a >>= f else m) := by
  split
  · exact (pure a).bind hf
  · exact hm ‹_› hf

theorem fresh : Succeeds fresh := fun k => ⟨(k, k + 1), rfl⟩

theorem instr (op : Op) (operand : Operand) : Succeeds (instr op operand) :=
  fresh.bind fun _ => pure _

theorem remarked (op : Op) (operand : Operand) (comment : String) :
    Succeeds (remarked op operand comment) := fresh.bind fun _ => pure _

theorem jump (c : Condition) (target : Target) : Succeeds (jump c target) :=
  fresh.bind fun _ => pure _

theorem times (n : Nat) (op : Op) (operand : Operand) : Succeeds (times n op operand) := by
  induction n with
  | zero => exact pure _
  | succ n ih => exact (instr op operand).bind fun _ => ih.bind fun _ => pure _

theorem convert (s t : Scalar) : Succeeds (convert s t) := by
  cases s <;> cases t
  · exact pure _
  · exact instr _ _
  · exact instr _ _
  · exact pure _

theorem truth (c : Condition) : Succeeds (truth c) :=
  fresh.bind fun _ => fresh.bind fun _ => (jump _ _).bind fun _ => (instr _ _).bind fun _ =>
    (jump _ _).bind fun _ => pure _

theorem pad (x : Node Note) (code : List Instr) : Succeeds (pad x code) := by
  unfold Lower.pad
  split
  · exact pure _
  · exact (instr _ _).bind fun _ => pure _

theorem typeOf {x : Node Note} (h : x.note.type ≠ none) : Succeeds (typeOf x) := by
  obtain ⟨type, htype⟩ := Option.ne_none_iff_exists'.1 h
  exact fun k => ⟨(type, k), typeOf_eq_ok.2 ⟨htype, rfl⟩⟩

end Succeeds

section Trees

variable {ss : Symbols} {var : Nat → Prop} {fn : Nat → Nat → Prop}

/-- The symbol is one of a variable with a cell. -/
def HasCell (ss : Symbols) (k : Nat) : Prop :=
  ∃ (s : Symbol) (cell : Operand), ss[k]? = some s ∧ s.storage.cell? = some cell

theorem succeeds_name {n : Note} {x : String} {k : Nat} (hk : n.symbol = some k)
    (hcell : HasCell ss k) : Succeeds (name ss (.identifier n x)) := by
  obtain ⟨s, cell, hs, hcell⟩ := hcell
  have hsymbol : (Node.identifier n x).symbol? ss = some s := by
    simp [Node.symbol?, Node.note, hk, hs]
  refine .bind_of_eq (fun _ => symbolOf_eq_ok.2 ⟨hsymbol, rfl⟩) ?_
  refine .bind_of_eq (fun _ => cellOf_eq_ok.2 ⟨hcell, rfl⟩) ?_
  split
  · exact .remarked _ _ _
  · exact .instr _ _

theorem succeeds_store {n : Note} {x : String} {k : Nat} (hk : n.symbol = some k)
    (hcell : HasCell ss k) : Succeeds (store ss (.identifier n x)) := by
  obtain ⟨s, cell, hs, hcell⟩ := hcell
  have hsymbol : (Node.identifier n x).symbol? ss = some s := by
    simp [Node.symbol?, Node.note, hk, hs]
  refine .bind_of_eq (fun _ => symbolOf_eq_ok.2 ⟨hsymbol, rfl⟩) ?_
  refine .bind_of_eq (fun _ => cellOf_eq_ok.2 ⟨hcell, rfl⟩) ?_
  exact (Succeeds.remarked _ _ _).bind fun _ => (Succeeds.remarked _ _ _).bind fun _ => .pure _

theorem succeeds_loopJump (site : Site) (toHead : Bool) : Succeeds (loopJump site toHead) := by
  unfold loopJump
  split
  · exact .pure _
  · exact (Succeeds.times _ _ _).bind fun _ => (Succeeds.jump _ _).bind fun _ => .pure _

/-- The symbols that a tree resolves to exist, and those of its variables have cells. -/
structure Knows (ss : Symbols) (var : Nat → Prop) (fn : Nat → Nat → Prop) : Prop where
  cell : ∀ k, var k → HasCell ss k
  callee : ∀ k n, fn k n → ∃ s : Symbol, ss[k]? = some s

mutual

/-- **A resolved tree is lowered.** -/
theorem succeeds_expression (hss : Knows ss var fn) (site : Site) (x : Node Note)
    (h : Resolved var fn x) : Succeeds (expression ss site x) := by
  cases x with
  | literal n v =>
      rw [expression]
      exact .instr _ _
  | identifier n x =>
      cases h with
      | identifier htype hsymbol hk =>
          rw [expression]
          exact succeeds_name hsymbol (hss.cell _ hk)
  | binary n op l r =>
      cases h with
      | assign htype htype' hsymbol hk hr =>
          rw [expression, if_pos rfl]
          refine (@Succeeds.typeOf (.identifier _ _) htype').bind fun _ => ?_
          refine (succeeds_expression hss site r hr).bind fun _ => ?_
          refine (Succeeds.pad _ _).bind fun _ => ?_
          refine (Succeeds.typeOf hr.type_ne_none).bind fun _ => ?_
          refine (Succeeds.convert _ _).bind fun _ => ?_
          exact (succeeds_store hsymbol (hss.cell _ hk)).bind fun _ => .pure _
      | binary htype hop hl hr =>
          rw [expression, if_neg hop]
          refine (Succeeds.typeOf hl.type_ne_none).bind fun _ => ?_
          refine (Succeeds.typeOf hr.type_ne_none).bind fun _ => ?_
          refine .join (fun _ => ?_) fun _ hrest =>
            (@Succeeds.typeOf (.binary n op l r) htype).bind hrest
          refine (succeeds_expression hss site l hl).bind fun _ => ?_
          refine (Succeeds.pad _ _).bind fun _ => ?_
          refine (Succeeds.convert _ _).bind fun _ => ?_
          refine (succeeds_expression hss _ r hr).bind fun _ => ?_
          refine (Succeeds.pad _ _).bind fun _ => ?_
          refine (Succeeds.convert _ _).bind fun _ => ?_
          split
          · exact (Succeeds.instr _ _).bind fun _ => (Succeeds.instr _ _).bind fun _ =>
              (Succeeds.truth _).bind fun _ => .pure _
          · exact (Succeeds.instr _ _).bind fun _ => .pure _
  | unary n op x =>
      cases h with
      | unary htype hx =>
          cases op with
          | plus =>
              rw [expression]
              exact (succeeds_expression hss site x hx).bind fun _ => .pad _ _
          | minus =>
              rw [expression]
              refine (@Succeeds.typeOf (.unary n .minus x) htype).bind fun _ => ?_
              refine (Succeeds.instr _ _).bind fun _ => ?_
              refine (succeeds_expression hss _ x hx).bind fun _ => ?_
              refine (Succeeds.pad _ _).bind fun _ => ?_
              exact (Succeeds.instr _ _).bind fun _ => .pure _
          | not =>
              rw [expression]
              refine (succeeds_expression hss site x hx).bind fun _ => ?_
              refine (Succeeds.pad _ _).bind fun _ => ?_
              refine (Succeeds.instr _ _).bind fun _ => ?_
              exact (Succeeds.truth _).bind fun _ => .pure _
  | call n f as =>
      cases h with
      | call htype hsymbol hk has =>
          obtain ⟨s, hs⟩ := hss.callee _ _ hk
          have hsymbol : (Node.call n f as).symbol? ss = some s := by
            simp [Node.symbol?, Node.note, hsymbol, hs]
          rw [expression]
          refine .bind_of_eq (fun _ => symbolOf_eq_ok.2 ⟨hsymbol, rfl⟩) ?_
          refine (Succeeds.remarked _ _ _).bind fun _ => ?_
          refine (succeeds_arguments hss _ as has).bind fun _ => ?_
          refine (Succeeds.instr _ _).bind fun _ => ?_
          exact (Succeeds.times _ _ _).bind fun _ => .pure _
  | cond n c t e =>
      cases h with
      | cond htype hc ht he =>
          cases e with
          | none =>
              rw [expression]
              refine (@Succeeds.typeOf (.cond n c t none) htype).bind fun _ => ?_
              refine Succeeds.fresh.bind fun _ => Succeeds.fresh.bind fun _ => ?_
              refine (succeeds_expression hss site c hc).bind fun _ => ?_
              refine (Succeeds.pad _ _).bind fun _ => ?_
              refine (Succeeds.instr _ _).bind fun _ => (Succeeds.jump _ _).bind fun _ => ?_
              refine (succeeds_expression hss site t ht).bind fun _ => ?_
              refine (Succeeds.pad _ _).bind fun _ => ?_
              refine (Succeeds.typeOf ht.type_ne_none).bind fun _ => ?_
              refine (Succeeds.convert _ _).bind fun _ => ?_
              exact (Succeeds.jump _ _).bind fun _ => (Succeeds.instr _ _).bind fun _ => .pure _
          | some e =>
              have he := he e rfl
              rw [expression]
              refine (@Succeeds.typeOf (.cond n c t (some e)) htype).bind fun _ => ?_
              refine Succeeds.fresh.bind fun _ => Succeeds.fresh.bind fun _ => ?_
              refine (succeeds_expression hss site c hc).bind fun _ => ?_
              refine (Succeeds.pad _ _).bind fun _ => ?_
              refine (Succeeds.instr _ _).bind fun _ => (Succeeds.jump _ _).bind fun _ => ?_
              refine (succeeds_expression hss site t ht).bind fun _ => ?_
              refine (Succeeds.pad _ _).bind fun _ => ?_
              refine (Succeeds.typeOf ht.type_ne_none).bind fun _ => ?_
              refine (Succeeds.convert _ _).bind fun _ => (Succeeds.jump _ _).bind fun _ => ?_
              refine (succeeds_expression hss site e he).bind fun _ => ?_
              refine (Succeeds.pad _ _).bind fun _ => ?_
              refine (Succeeds.typeOf he.type_ne_none).bind fun _ => ?_
              exact (Succeeds.convert _ _).bind fun _ => .pure _
  | loop n c b =>
      cases h with
      | loop htype hc hb =>
          rw [expression]
          refine Succeeds.fresh.bind fun _ => Succeeds.fresh.bind fun _ => ?_
          refine .join (fun _ => ?_) fun _ hrest => ?_
          · refine (succeeds_expression hss _ b hb).bind fun _ => ?_
            refine (Succeeds.pad _ _).bind fun _ => ?_
            exact (Succeeds.instr _ _).bind fun _ => (Succeeds.jump _ _).bind fun _ =>
              (Succeeds.instr _ _).bind fun _ => .pure _
          · refine (succeeds_expression hss _ c hc).bind fun _ => ?_
            refine (Succeeds.pad _ _).bind fun _ => ?_
            refine (Succeeds.instr _ _).bind fun _ => (Succeeds.jump _ _).bind fun _ => ?_
            exact (Succeeds.pure _).bind hrest
  | breakLoop n =>
      rw [expression]
      exact succeeds_loopJump _ _
  | continueLoop n =>
      rw [expression]
      exact succeeds_loopJump _ _
  | returnValue n v =>
      cases h with
      | returnValue htype hv =>
          rw [expression]
          refine (Succeeds.times _ _ _).bind fun _ => ?_
          refine (succeeds_expression hss _ v hv).bind fun _ => (Succeeds.pad _ _).bind fun _ => ?_
          exact (Succeeds.jump _ _).bind fun _ => .pure _
  | block n is =>
      cases h with
      | block htype his =>
          rw [expression]
          exact succeeds_statements hss site is his
  | assembly n text =>
      rw [expression]
      exact .instr _ _
  | nop n =>
      rw [expression]
      exact .instr _ _
  | define n p b => cases h
  | prototype n f ps => cases h
  | unit n is => cases h

theorem succeeds_statements (hss : Knows ss var fn) (site : Site) (xs : List (Node Note))
    (h : ∀ x ∈ xs, Resolved var fn x) : Succeeds (statements ss site xs) := by
  match xs with
  | [] =>
      rw [statements]
      exact .instr _ _
  | [x] =>
      rw [statements]
      exact (succeeds_expression hss site x (h x (by simp))).bind fun _ => .pad _ _
  | x :: y :: xs =>
      rw [List.forall_mem_cons] at h
      rw [statements]
      refine (succeeds_expression hss site x h.1).bind fun _ => ?_
      split
      · exact (Succeeds.instr _ _).bind fun _ =>
          (succeeds_statements hss site (y :: xs) h.2).bind fun _ => .pure _
      · exact (Succeeds.pure _).bind fun _ =>
          (succeeds_statements hss site (y :: xs) h.2).bind fun _ => .pure _

theorem succeeds_arguments (hss : Knows ss var fn) (site : Site) (xs : List (Node Note))
    (h : ∀ x ∈ xs, Resolved var fn x) : Succeeds (arguments ss site xs) := by
  match xs with
  | [] =>
      rw [arguments]
      exact .pure _
  | x :: xs =>
      rw [List.forall_mem_cons] at h
      rw [arguments]
      refine (succeeds_arguments hss site xs h.2).bind fun _ => ?_
      refine (succeeds_expression hss _ x h.1).bind fun _ => ?_
      exact (Succeeds.pad _ _).bind fun _ => .pure _

end

end Trees

/-! ### Functions and units -/

variable {items : List (Node Mark)} {t : Typing} {r : Round}

/-- What is visible in a scope that is sound has a cell. -/
theorem hasCell_of_isVisible {ss : Symbols} {frame : Option Scope}
    (hframe : ∀ scope, frame = some scope → scope.Sound ss) {k : Nat}
    (hk : IsVisible ss frame k) : HasCell ss k := by
  rcases hk with ⟨s, l, hs, hl⟩ | ⟨scope, hscope, n, hn⟩
  · exact ⟨s, .global l, hs, by rw [hl]; rfl⟩
  · obtain ⟨-, s, offset, hs, -, hoffset, -⟩ := (hframe scope hscope).bound n k hn
    exact ⟨s, .frame offset, hs, by rw [hoffset]; rfl⟩

theorem knows_of_sound {frame : Option Scope}
    (hframe : ∀ scope, frame = some scope → scope.Sound r.symbols) :
    Knows r.symbols (IsVisible r.symbols frame) r.IsInstance :=
  ⟨fun _ => hasCell_of_isVisible hframe, fun _ _ ⟨s, _, hs, _⟩ => ⟨s, hs⟩⟩

theorem succeeds_function {f : Inferred} (hf : InferredWell r f) :
    Succeeds (function r.symbols f) := by
  unfold function
  refine (Succeeds.instr _ _).bind fun _ => (Succeeds.times _ _ _).bind fun _ => ?_
  refine (succeeds_expression (knows_of_sound ?_) .top f.body hf.body).bind fun _ => ?_
  · rintro _ ⟨⟩
    exact hf.scope
  refine (Succeeds.pad _ _).bind fun _ => Succeeds.fresh.bind fun _ => ?_
  exact (Succeeds.times _ _ _).bind fun _ => (Succeeds.instr _ _).bind fun _ => .pure _

theorem succeeds_functions (hinferred : ∀ f ∈ r.inferred, InferredWell r f) {is : List Instance}
    (his : ∀ i ∈ is, i.name ∈ r.inferred.map Inferred.name) : Succeeds (functions r is) := by
  induction is with
  | nil => exact .pure _
  | cons i is ih =>
      rw [List.forall_mem_cons] at his
      obtain ⟨f, hf, hname⟩ := List.mem_map.1 his.1
      obtain ⟨g, hg⟩ := Option.isSome_iff_exists.1
        (List.find?_isSome (p := fun g : Inferred => decide (g.name = i.name)).2
          ⟨f, hf, decide_eq_true hname⟩)
      rw [functions]
      simp only [hg]
      exact (succeeds_function (hinferred g (List.mem_of_find?_eq_some hg))).bind fun _ =>
        (ih his.2).bind fun _ => .pure _

/-- **Every instance with code was inferred.** -/
theorem mem_inferred_of_reached (h : t.Sound items) {i : Instance} (hi : i ∈ reached t.round) :
    i.name ∈ t.round.inferred.map Inferred.name := by
  obtain ⟨hmade, hused⟩ := List.mem_filter.1 hi
  cases hlookup : t.round.globals.lookup i.name with
  | none => simp [hlookup] at hused
  | some k =>
      obtain ⟨s, hs, hbound⟩ := h.round.globals _ _ (Scope.lookup_mem hlookup)
      obtain ⟨f, -, hcopy⟩ := h.round.instances.made i hmade
      have hname : ¬ IsSourceName i.name := hcopy.name ▸ not_isSourceName_decorate _ _
      cases hbound with
      | defined hn => exact absurd hn hname
      | cell hn => exact absurd hn hname
      | made _ _ _ _ hqueued =>
          refine (h.round.queue _ hqueued).resolve_right ?_
          simp [h.pending]

end Lower

/-- **The code of a sound typing exists.** -/
theorem Typing.Sound.exists_lower {items : List (Node Mark)} {t : Typing} (h : t.Sound items) :
    ∃ c, t.lower = .ok c := by
  obtain ⟨n, ys, hroot, -, hys⟩ := h.root
  have hframe : ∀ scope, t.round.frame = some scope → scope.Sound t.round.symbols :=
    h.round.frame
  have hunit : Lower.Succeeds (Lower.unit t) := by
    unfold Lower.unit
    rw [hroot]
    refine .bind ?_ fun _ => ?_
    · refine .bind ?_ fun _ => Lower.Succeeds.fresh.bind fun _ => .pure _
      refine Lower.succeeds_statements (Lower.knows_of_sound hframe) _ _ fun x hx => ?_
      obtain ⟨hmem, hdefinition⟩ := List.mem_filter.1 hx
      exact hys x hmem (by simpa using hdefinition)
    · exact (Lower.succeeds_functions h.round.inferred fun _ =>
        Lower.mem_inferred_of_reached h).bind fun _ => .pure _
  obtain ⟨⟨instrs, fresh⟩, hlower⟩ := hunit 0
  exact ⟨.ofInstrs fresh instrs, by rw [Typing.lower, StateT.run, hlower]; rfl⟩

end StackLang
