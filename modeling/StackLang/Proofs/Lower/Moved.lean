/-
**The code of a unit with its definitions in another order.**

Lowering looks symbols up by their numbers and notes the place of a node in its errors, and no
number or place gets into the code.  So typings that stand side by side have the same code, and the
same cells for their variables.

Main definitions:

* `Lower.Same` — steps that make the same code or fail alike.

Main results:

* `Lower.same_expression` — trees alike have the same code;
* `Typing.Moved.lower` — so have typings side by side;
* `Symbols.Moved.reservations_eq` — and the same cells.
-/

import StackLang.Proofs.Typing.Order

set_option relaxedAutoImplicit false
set_option autoImplicit false

namespace StackLang

open Step

variable {same : Span → Span → Prop} {ρ : Renaming}

namespace Lower

variable {α β : Type}

/-- **Steps that do the same or fail alike.** -/
def Same (same : Span → Span → Prop) (m m' : Lower α) : Prop :=
  Paired (InternalError.Alike same) Eq Eq m m'

namespace Same

theorem refl (m : Lower α) : Same same m m := by
  rintro s _ rfl
  cases m s with
  | error e => exact .error (.same e)
  | ok p => exact .ok ⟨rfl, rfl⟩

protected theorem bind {m m' : Lower α} {f f' : α → Lower β} (hm : Same same m m')
    (hf : ∀ a, Same same (f a) (f' a)) : Same same (m >>= f) (m' >>= f') := by
  refine Paired.bind hm ?_
  rintro a _ rfl
  exact hf a

/-- The same step on both sides and then others. -/
theorem next {m : Lower α} {f f' : α → Lower β} (hf : ∀ a, Same same (f a) (f' a)) :
    Same same (m >>= f) (m >>= f') :=
  (refl m).bind hf

/-- Other steps and then the same on both sides. -/
theorem before {m m' : Lower α} (hm : Same same m m') (f : α → Lower β) :
    Same same (m >>= f) (m' >>= f) :=
  hm.bind fun _ => refl _

/-- Two branches that go on with the same step. -/
theorem join {c : Prop} [Decidable c] {a : α} {m m' : Lower β} {f f' : α → Lower β}
    (hf : ∀ a, Same same (f a) (f' a)) (hm : (∀ a, Same same (f a) (f' a)) → Same same m m') :
    Same same (if c then pure a >>= f else m) (if c then pure a >>= f' else m') := by
  split
  · exact next hf
  · exact hm hf

end Same

section Trees

variable {ss ss' : Symbols} {x x' : Node Note}

/-! ### What inference promises -/

theorem pad_alike (h : Node.Alike (Note.Moved same ρ) x x') (code : List Instr) :
    pad x' code = pad x code := by
  rw [pad, pad, h.yieldsCell]

theorem same_typeOf (h : Node.Alike (Note.Moved same ρ) x x') :
    Same same (typeOf x) (typeOf x') := by
  unfold typeOf
  rw [h.note.type, h.kindName]
  cases x.note.type with
  | some type => exact .refl _
  | none => exact Paired.throw (.untyped h.note.span)

theorem paired_symbolOf (hss : Symbols.Moved same ρ ss ss')
    (h : Node.Alike (Note.Moved same ρ) x x') :
    Paired (InternalError.Alike same) Eq (Symbol.Moved same) (symbolOf ss x)
      (symbolOf ss' x') := by
  have hsymbol := h.note.symbol
  unfold symbolOf
  rw [h.kindName]
  revert hsymbol
  generalize x.note.symbol = o, x'.note.symbol = o'
  intro hsymbol
  cases hsymbol with
  | none => exact .throw (.unresolved h.note.span)
  | @some k k' hk =>
      have hs := hss.get hk
      simp only [Option.bind_some]
      revert hs
      generalize ss[k]? = t, ss'[k']? = t'
      intro hs
      cases hs with
      | none => exact .throw (.unresolved h.note.span)
      | some hs => exact .pure hs

theorem cellOf_moved {s s' : Symbol} (h : Symbol.Moved same s s') : cellOf s' = cellOf s := by
  rw [cellOf, cellOf, h.storage, h.sourceName]

theorem same_name (hss : Symbols.Moved same ρ ss ss')
    (h : Node.Alike (Note.Moved same ρ) x x') : Same same (name ss x) (name ss' x') := by
  refine Paired.bind (paired_symbolOf hss h) ?_
  intro s s' hs
  rw [cellOf_moved hs, hs.storage, hs.sourceName]
  exact Same.refl _

theorem same_store (hss : Symbols.Moved same ρ ss ss')
    (h : Node.Alike (Note.Moved same ρ) x x') : Same same (store ss x) (store ss' x') := by
  refine Paired.bind (paired_symbolOf hss h) ?_
  intro s s' hs
  rw [cellOf_moved hs, hs.sourceName]
  exact Same.refl _

theorem isEndless_alike (h : Node.Alike (Note.Moved same ρ) x x') : isEndless x' = isEndless x := by
  cases h with
  | @literal _ _ v _ => cases v <;> rfl
  | _ => rfl

/-! ### Expressions -/

mutual

/-- **Trees alike have the same code.** -/
theorem same_expression (hss : Symbols.Moved same ρ ss ss') (site : Site) (x : Node Note)
    {x' : Node Note} (h : Node.Alike (Note.Moved same ρ) x x') :
    Same same (expression ss site x) (expression ss' site x') := by
  have hnode := h
  cases h with
  | literal _ =>
      rw [expression, expression]
      exact .refl _
  | identifier _ =>
      rw [expression, expression]
      exact same_name hss hnode
  | @binary n n' op l r l' r' hn hl hr =>
      rw [expression, expression]
      by_cases hop : op = .assign
      · rw [if_pos hop, if_pos hop]
        refine (same_typeOf hl).bind fun _ => ?_
        refine (same_expression hss site r hr).bind fun _ => ?_
        rw [pad_alike hr]
        refine .next fun _ => ?_
        refine (same_typeOf hr).bind fun _ => ?_
        exact .next fun _ => (same_store hss hl).before _
      · rw [if_neg hop, if_neg hop]
        refine (same_typeOf hl).bind fun _ => ?_
        refine (same_typeOf hr).bind fun _ => ?_
        refine .join (fun _ => ?_) (same_typeOf hnode).bind
        refine (same_expression hss site l hl).bind fun _ => ?_
        rw [pad_alike hl]
        refine .next fun _ => .next fun _ => ?_
        refine (same_expression hss _ r hr).bind fun _ => ?_
        rw [pad_alike hr]
        exact .refl _
  | @unary n n' op y y' hn hy =>
      cases op with
      | plus =>
          rw [expression, expression]
          refine (same_expression hss site y hy).bind fun _ => ?_
          rw [pad_alike hy]
          exact .refl _
      | minus =>
          rw [expression, expression]
          refine (same_typeOf hnode).bind fun _ => .next fun _ => ?_
          refine (same_expression hss _ y hy).bind fun _ => ?_
          rw [pad_alike hy]
          exact .refl _
      | not =>
          rw [expression, expression]
          refine (same_expression hss site y hy).bind fun _ => ?_
          rw [pad_alike hy]
          exact .refl _
  | @call n n' c c' as as' hn hc has =>
      rw [expression, expression, has.length_eq]
      refine Paired.bind (paired_symbolOf hss hnode) fun s s' hs => ?_
      rw [hs.emittedName]
      exact Same.next fun _ => (same_arguments hss _ as has).before _
  | @cond n n' c t c' t' e e' hn hc ht he =>
      cases he with
      | none =>
          rw [expression, expression]
          refine (same_typeOf hnode).bind fun _ => .next fun _ => .next fun _ => ?_
          refine (same_expression hss site c hc).bind fun _ => ?_
          rw [pad_alike hc]
          refine .next fun _ => .next fun _ => .next fun _ => ?_
          refine (same_expression hss site t ht).bind fun _ => ?_
          rw [pad_alike ht]
          exact .next fun _ => (same_typeOf ht).before _
      | @some e e' he =>
          rw [expression, expression]
          refine (same_typeOf hnode).bind fun _ => .next fun _ => .next fun _ => ?_
          refine (same_expression hss site c hc).bind fun _ => ?_
          rw [pad_alike hc]
          refine .next fun _ => .next fun _ => .next fun _ => ?_
          refine (same_expression hss site t ht).bind fun _ => ?_
          rw [pad_alike ht]
          refine .next fun _ => (same_typeOf ht).bind fun _ => .next fun _ => .next fun _ => ?_
          refine (same_expression hss site e he).bind fun _ => ?_
          rw [pad_alike he]
          exact .next fun _ => (same_typeOf he).before _
  | @loop n n' c b c' b' hn hc hb =>
      rw [expression, expression, isEndless_alike hc]
      refine .next fun head => .next fun exit => .join (fun _ => ?_) fun hrest => ?_
      · refine (same_expression hss _ b hb).bind fun _ => ?_
        rw [pad_alike hb]
        exact .refl _
      · refine (same_expression hss _ c hc).bind fun _ => ?_
        rw [pad_alike hc]
        exact .next fun _ => .next fun _ => .next fun _ => .next hrest
  | @returnValue n n' v v' hn hv =>
      rw [expression, expression]
      refine .next fun _ => (same_expression hss _ v hv).bind fun _ => ?_
      rw [pad_alike hv]
      exact .refl _
  | @block n n' is is' hn his =>
      rw [expression, expression]
      exact same_statements hss site is his
  | _ =>
      simp only [expression]
      exact .refl _

theorem same_statements (hss : Symbols.Moved same ρ ss ss') (site : Site) (xs : List (Node Note))
    {xs' : List (Node Note)} (h : Node.AlikeList (Note.Moved same ρ) xs xs') :
    Same same (statements ss site xs) (statements ss' site xs') := by
  match h with
  | .nil =>
      rw [statements, statements]
      exact .refl _
  | @Node.AlikeList.cons _ _ _ x x' _ _ hx .nil =>
      rw [statements, statements]
      refine (same_expression hss site x hx).bind fun _ => ?_
      rw [pad_alike hx]
      exact .refl _
  | @Node.AlikeList.cons _ _ _ x x' _ _ hx (@Node.AlikeList.cons _ _ _ y y' ys ys' hy hys) =>
      rw [statements, statements, hx.yieldsCell]
      refine (same_expression hss site x hx).bind fun _ => ?_
      have hrest := same_statements hss site (y :: ys) (.cons hy hys)
      split
      · exact .next fun _ => hrest.before _
      · exact .next fun _ => hrest.before _

theorem same_arguments (hss : Symbols.Moved same ρ ss ss') (site : Site) (xs : List (Node Note))
    {xs' : List (Node Note)} (h : Node.AlikeList (Note.Moved same ρ) xs xs') :
    Same same (arguments ss site xs) (arguments ss' site xs') := by
  cases h with
  | nil =>
      rw [arguments, arguments]
      exact .refl _
  | @cons x x' xs xs' hx hxs =>
      rw [arguments, arguments, hxs.length_eq]
      refine (same_arguments hss site xs hxs).bind fun _ => ?_
      refine (same_expression hss _ x hx).bind fun _ => ?_
      rw [pad_alike hx]
      exact .refl _

end

end Trees

/-! ### Functions and units -/

variable {r r' : Round}

theorem same_function {ss ss' : Symbols} (hss : Symbols.Moved same ρ ss ss') {f f' : Inferred}
    (hf : Inferred.Moved same ρ f f') : Same same (function ss f) (function ss' f') := by
  unfold function
  rw [hf.name, hf.params, hf.locals]
  refine .next fun _ => .next fun _ => ?_
  refine (same_expression hss .top f.body hf.body).bind fun _ => ?_
  rw [pad_alike hf.body]
  exact .refl _

theorem same_main {ss ss' : Symbols} (hss : Symbols.Moved same ρ ss ss') {ys ys' : List (Node Note)}
    (h : Infer.MovedRest same ρ ys ys') : Same same (main ss ys) (main ss' ys') := by
  unfold main
  exact (same_statements hss .top _ (Node.alikeList_iff.2 h)).before _

/-- **The same instances have code.** -/
theorem reached_moved (h : Round.Moved same ρ r r') :
    List.Forall₂ (Instance.Moved same) (reached r) (reached r') := by
  unfold reached
  refine List.rel_filter ?_ h.instances.made
  intro i i' hi
  -- a call goes to one instance where it goes to the other
  have hlookup := h.globals.lookup i.name
  dsimp only
  rw [hi.name]
  revert hlookup
  generalize r.globals.lookup i.name = o, r'.globals.lookup i.name = o'
  intro hlookup
  cases hlookup with
  | none => exact Iff.rfl
  | @some k k' hk =>
      have hs := h.symbols.get hk
      simp only [Option.bind_some]
      revert hs
      generalize r.symbols[k]? = t, r'.symbols[k']? = t'
      intro hs
      cases hs with
      | none => exact Iff.rfl
      | some hs =>
          dsimp only
          rw [hs.used]

theorem find?_inferred {fs fs' : List Inferred} (h : List.Forall₂ (Inferred.Moved same ρ) fs fs')
    (name : String) : Option.Rel (Inferred.Moved same ρ) (fs.find? fun f => f.name = name)
      (fs'.find? fun f => f.name = name) := by
  induction h with
  | nil => exact .none
  | @cons f f' _ _ hf _ ih =>
      rw [List.find?_cons, List.find?_cons, hf.name]
      split
      · exact .some hf
      · exact ih

theorem same_functions (h : Round.Moved same ρ r r') {is is' : List Instance}
    (his : List.Forall₂ (Instance.Moved same) is is') :
    Same same (functions r is) (functions r' is') := by
  induction his with
  | nil => exact .refl _
  | @cons i i' is is' hi _ ih =>
      have hfound := find?_inferred h.inferred i.name
      rw [functions, functions, hi.name]
      revert hfound
      generalize r.inferred.find? (fun f => f.name = i.name) = o,
        r'.inferred.find? (fun f => f.name = i.name) = o'
      intro hfound
      cases hfound with
      | none => exact .refl _
      | some hf => exact (same_function h.symbols hf).bind fun _ => ih.before _

theorem same_unit {t t' : Typing} (h : t.Moved same ρ t') :
    Same same (unit t) (unit t') := by
  obtain ⟨n, n', ys, ys', hroot, hroot', hys⟩ := h.root
  unfold unit
  rw [hroot, hroot']
  refine (same_main h.round.symbols hys).bind fun _ => ?_
  exact (same_functions h.round (reached_moved h.round)).before _

end Lower

/-- **Typings that stand side by side have the same code.** -/
theorem Typing.Moved.lower {t t' : Typing} (h : t.Moved same ρ t') :
    Agree (InternalError.Alike same) Eq t.lower t'.lower := by
  unfold Typing.lower
  refine (Lower.same_unit h 0 0 rfl).bind ?_
  rintro ⟨instrs, fresh⟩ ⟨instrs', fresh'⟩ ⟨rfl, rfl⟩
  exact .ok rfl

/-- **The same cells are reserved.** -/
theorem Symbols.Moved.reservations_eq {ss ss' : Symbols} (h : Symbols.Moved same ρ ss ss') :
    ss'.reservations = ss.reservations := by
  unfold Symbols.reservations
  congr 1
  refine List.ext_getElem? ?_
  intro k
  rw [List.getElem?_map, List.getElem?_map, Array.getElem?_toList, Array.getElem?_toList]
  by_cases hk : k < ρ.boundary
  · -- definitions have no cells
    have hlt : k < ss.size := Nat.lt_of_lt_of_le hk h.le
    have hlt' : k < ss'.size := h.size ▸ hlt
    have hnone := h.nowhere k ss[k] hk (.inl (Array.getElem?_eq_getElem hlt))
    have hnone' := h.nowhere k ss'[k] hk (.inr (Array.getElem?_eq_getElem hlt'))
    rw [Array.getElem?_eq_getElem hlt, Array.getElem?_eq_getElem hlt', Option.map_some,
      Option.map_some, hnone, hnone']
    cases ss[k].emitted <;> cases ss'[k].emitted <;> rfl
  · have hs := h.get (ρ.beyond k (Nat.le_of_not_lt hk))
    revert hs
    generalize ss[k]? = o, ss'[k]? = o'
    intro hs
    cases hs with
    | none => rfl
    | some hs => rw [Option.map_some, Option.map_some, hs.emitted, hs.storage]

end StackLang
