/-
**Nested spans.**

The tree of a text has at every node the spans of what is directly below it inside, one behind the
other, and so it has those of everything below it inside.  Folding puts trees in the place of others
that had them inside, so this still holds of a folded tree.

Main definitions:

* `Node.Nested` — every node has inside its span what is directly below it;
* `Node.Replaces` — a tree that can stand in the place of another one.

Main results:

* `Node.replaces_unwrapTail`, `Node.replaces_fold` — folded trees stand in the place of the trees;
* `Compile.nested_tree` — **the spans of a tree are nested**.
-/

import StackLang.Compile
import StackLang.Proofs.Token.Partition
import StackLang.Proofs.Tree.Folded
import StackLang.Proofs.Tree.Spans

set_option relaxedAutoImplicit false
set_option autoImplicit false

namespace StackLang

/-! ### Everything below a node -/

namespace Node

/-- Every node has inside its span what is directly below it. -/
def Nested (x : Node Span) : Prop := x.Every fun y => ∀ z ∈ y.children, y.note.Covers z.note

theorem nested_iff_children {x : Node Span} :
    x.Nested ↔ (∀ y ∈ x.children, x.note.Covers y.note) ∧ ∀ y ∈ x.children, y.Nested :=
  every_iff_children

/-- With what is directly below every node, all that is below it is inside its span. -/
theorem Nested.covers {x : Node Span} (h : x.Nested) : ∀ y ∈ x.subtrees, x.note.Covers y.note := by
  induction x using induction_children with
  | h x ih =>
      obtain ⟨hroot, hchildren⟩ := nested_iff_children.1 h
      refine every_iff_children.2 ⟨Span.covers_refl _, fun y hy z hz => ?_⟩
      exact (hroot y hy).trans (ih y hy (hchildren y hy) z hz)

/-! ### Folded trees -/

/-- Another tree can stand in the place of one: its spans are nested, and inside that of the one. -/
structure Replaces (x' x : Node Span) : Prop where
  nested : x'.Nested
  covers : x.note.Covers x'.note

theorem replaces_self {x : Node Span} (hx : x.Nested) : x.Replaces x := ⟨hx, Span.covers_refl _⟩

theorem Replaces.trans {x y z : Node Span} (h : x.Replaces y) (h' : y.Replaces z) : x.Replaces z :=
  ⟨h.nested, h'.covers.trans h.covers⟩

/-- Trees can be replaced below a node. -/
theorem replaces_of_children {x x' : Node Span} (hx : x.Nested) (hnote : x'.note = x.note)
    (hchildren : ∀ y' ∈ x'.children, ∃ y ∈ x.children, y'.Replaces y) : x'.Replaces x := by
  obtain ⟨hroot, -⟩ := nested_iff_children.1 hx
  refine ⟨nested_iff_children.2 ⟨fun y' hy' => ?_, fun y' hy' => ?_⟩, ?_⟩
  · obtain ⟨y, hy, hreplaces⟩ := hchildren y' hy'
    exact hnote ▸ (hroot y hy).trans hreplaces.covers
  · obtain ⟨y, -, hreplaces⟩ := hchildren y' hy'
    exact hreplaces.nested
  · rw [hnote]
    exact Span.covers_refl _

/-- What can stand in the place of a tree below a node can stand in that of the node. -/
theorem Replaces.above {x y y' : Node Span} (h : y'.Replaces y) (hx : x.Nested)
    (hy : y ∈ x.children) : y'.Replaces x :=
  ⟨h.nested, ((nested_iff_children.1 hx).1 y hy).trans h.covers⟩

/-- A body without the `return` at its end can stand in its place. -/
theorem replaces_unwrapTail {x : Node Span} (hx : x.Nested) : x.unwrapTail.1.Replaces x := by
  induction x using induction_children with
  | h x ih =>
      have hbelow := (nested_iff_children.1 hx).2
      have hkept : ∀ y ∈ x.children, ∃ z ∈ x.children, y.Replaces z := fun y hy =>
        ⟨y, hy, replaces_self (hbelow y hy)⟩
      have hunwrapped : ∀ y ∈ x.children, ∃ z ∈ x.children, y.unwrapTail.1.Replaces z :=
        fun y hy => ⟨y, hy, ih y hy (hbelow y hy)⟩
      cases x with
      | returnValue n v =>
          exact (replaces_self (hbelow v List.mem_cons_self)).above hx List.mem_cons_self
      | block n is =>
          refine replaces_of_children hx rfl fun y' hy' => ?_
          rcases List.eq_nil_or_concat is with rfl | ⟨ys, y, rfl⟩
          · cases hy'
          · rw [List.concat_eq_append] at hkept hunwrapped ⊢
            simp only [unwrapTail, List.concat_eq_append, unwrapLast_concat, children,
              List.mem_append, List.mem_singleton] at hy'
            rcases hy' with hy' | rfl
            · exact hkept y' (by simp [children, hy'])
            · exact hunwrapped y (by simp [children])
      | cond n c t e =>
          refine replaces_of_children hx rfl fun y' hy' => ?_
          simp only [unwrapTail, children, unwrapOption_eq_map, List.mem_cons, Option.mem_toList,
            Option.map_eq_some_iff] at hy'
          rcases hy' with rfl | rfl | ⟨y, rfl, rfl⟩
          · exact hkept y' (by simp [children])
          · exact hunwrapped t (by simp [children])
          · exact hunwrapped y (by simp [children])
      | _ => exact replaces_self hx

section Cases

variable {α : Type} {n : α}

theorem foldBinary_cases {op : BinaryOp} {l r : Node α} :
    (∃ v, (foldBinary n op l r).1 = literal n v) ∨
      (foldBinary n op l r).1 = binary n op l r := by
  unfold foldBinary
  split
  · split
    · exact .inl ⟨_, rfl⟩
    · exact .inr rfl
  · exact .inr rfl

theorem foldUnary_cases {op : UnaryOp} {x : Node α} :
    (∃ v, (foldUnary n op x).1 = literal n v) ∨ (foldUnary n op x).1 = unary n op x := by
  unfold foldUnary
  split
  · exact .inl ⟨_, rfl⟩
  · exact .inr rfl

theorem foldCond_cases {c t : Node α} {e : Option (Node α)} :
    (foldCond n c t e).1 = t ∨ (∃ x, e = some x ∧ (foldCond n c t e).1 = x) ∨
      (foldCond n c t e).1 = nop n ∨ (foldCond n c t e).1 = cond n c t e := by
  unfold foldCond
  split
  · split
    · exact .inl rfl
    · cases e with
      | none => exact .inr (.inr (.inl rfl))
      | some e => exact .inr (.inl ⟨e, rfl, rfl⟩)
  · exact .inr (.inr (.inr rfl))

end Cases

/-- **A folded tree can stand in the place of the tree.** -/
theorem replaces_fold {x : Node Span} (hx : x.Nested) : x.fold.1.Replaces x := by
  induction x using induction_children with
  | h x ih =>
      have hfolded : ∀ y ∈ x.children, y.fold.1.Replaces y := fun y hy =>
        ih y hy ((nested_iff_children.1 hx).2 y hy)
      -- the note stays where the node does, and what is below it is folded
      have hkept : ∀ x' : Node Span, x'.note = x.note →
          x'.children ⊆ x.children.map (fun y => y.fold.1) → x'.Replaces x := by
        intro x' hnote hchildren
        refine replaces_of_children hx hnote fun y' hy' => ?_
        obtain ⟨y, hy, rfl⟩ := List.mem_map.1 (hchildren hy')
        exact ⟨y, hy, hfolded y hy⟩
      cases x with
      | binary n op l r =>
          rcases @foldBinary_cases _ n op l.fold.1 r.fold.1 with ⟨v, hv⟩ | hsame
          · simpa only [fold, hv] using hkept (literal n v) rfl (List.nil_subset _)
          · simpa only [fold, hsame] using
              hkept (binary n op l.fold.1 r.fold.1) rfl (by simp [children])
      | unary n op x =>
          rcases @foldUnary_cases _ n op x.fold.1 with ⟨v, hv⟩ | hsame
          · simpa only [fold, hv] using hkept (literal n v) rfl (List.nil_subset _)
          · simpa only [fold, hsame] using hkept (unary n op x.fold.1) rfl (by simp [children])
      | call n f as => exact hkept _ rfl (by simp [fold, children, foldList_eq_map])
      | cond n c t e =>
          rcases @foldCond_cases _ n c.fold.1 t.fold.1 (foldOption e).1 with
            hyes | ⟨e', he, hno⟩ | hnop | hsame
          · simpa only [fold, hyes] using
              (hfolded t (by simp [children])).above hx (by simp [children])
          · rw [foldOption_eq_map, Option.map_eq_some_iff] at he
            obtain ⟨e, rfl, rfl⟩ := he
            simpa only [fold, hno] using
              (hfolded e (by simp [children])).above hx (by simp [children])
          · simpa only [fold, hnop] using hkept (nop n) rfl (List.nil_subset _)
          · rw [foldOption_eq_map] at hsame
            simpa only [fold, foldOption_eq_map, hsame] using
              hkept (cond n c.fold.1 t.fold.1 (e.map fun x => x.fold.1)) rfl
                (by cases e <;> simp [children])
      | loop n c b => exact hkept _ rfl (by simp [fold, children])
      | returnValue n v => exact hkept _ rfl (by simp [fold, children])
      | define n p b =>
          refine replaces_of_children hx rfl fun y' hy' => ?_
          simp only [fold, children, List.mem_cons, List.not_mem_nil, or_false] at hy'
          rcases hy' with rfl | rfl
          · exact ⟨p, by simp [children], hfolded p (by simp [children])⟩
          · have hb := hfolded b (by simp [children])
            exact ⟨b, by simp [children], (replaces_unwrapTail hb.nested).trans hb⟩
      | block n is => exact hkept _ rfl (by simp [fold, children, foldList_eq_map])
      | unit n is => exact hkept _ rfl (by simp [fold, children, foldList_eq_map])
      | _ => exact replaces_self hx

end Node

/-! ### Texts -/

/-- The start of the span is a place of the text, with the line and the column of that place. -/
def Span.StartsIn (text : String) (s : Span) : Prop :=
  ∃ before after, text.toList = before ++ after ∧
    Position.start.advance before = ⟨s.start, s.line, s.column⟩

namespace Lexeme

variable {text : String} {ls : List Lexeme}

/-- The words of a text come one behind the other. -/
theorem isLaidOut_ofText (h : ofText text = .ok ls) : IsLaidOut ls := by
  have hcut : Cut [] text.toList (items text.toList) := cut_itemsFrom [] text.toList
  rcases ofText_cases text with ⟨ms, hms, hitems⟩ | ⟨herror, -⟩
  · obtain rfl := Except.ok.inj (hms.symm.trans h)
    have hend := span_endOf text.toList
    have hmem : ∀ l ∈ ms, (.ok l : Except LexError Lexeme) ∈ items text.toList := fun l hl =>
      hitems ▸ List.mem_map_of_mem hl
    constructor
    case le =>
      refine List.forall_mem_append.2 ⟨fun l hl => (hcut.start_lt_stop (hmem l hl)).le, ?_⟩
      rw [List.forall_mem_singleton, hend]
      exact Nat.le_add_right _ _
    case ordered =>
      rw [List.map_append, List.pairwise_append, List.forall_mem_map]
      refine ⟨?_, List.pairwise_singleton _ _, fun l hl => ?_⟩
      · have hordered := hcut.pairwise
        rwa [hitems, List.map_map] at hordered
      · refine List.forall_mem_singleton.2 ?_
        rw [hend]
        exact hcut.stop_le (hmem l hl)
  · rw [h] at herror
    cases herror

/-- No end mark is missing behind the words of a text. -/
theorem close_ofText (h : ofText text = .ok ls) : Cursor.close ls = ls := by
  rcases ofText_cases text with ⟨ms, hms, -⟩ | ⟨herror, -⟩
  · obtain rfl := Except.ok.inj (hms.symm.trans h)
    simp [Cursor.close, endOf]
  · rw [h] at herror
    cases herror

/-- Every word of a text shows its place in it. -/
theorem startsIn_ofText (h : ofText text = .ok ls) {l : Lexeme} (hl : l ∈ ls) :
    l.span.StartsIn text := by
  have hcut : Cut [] text.toList (items text.toList) := cut_itemsFrom [] text.toList
  have hbehind : ∀ before word after, text.toList = before ++ (word ++ after) →
      (Span.behind before word).StartsIn text := fun before word after htext =>
    ⟨before, word ++ after, htext, by rw [← Span.between_advance]; rfl⟩
  rcases ofText_cases text with ⟨ms, hms, hitems⟩ | ⟨herror, -⟩
  · obtain rfl := Except.ok.inj (hms.symm.trans h)
    rcases List.mem_append.1 hl with hl | hl
    · obtain ⟨front, word, after, htext, -, hspan, -⟩ :=
        hcut.exists_item (hitems ▸ List.mem_map_of_mem (f := Except.ok) hl)
      rw [show l.span = .behind front word from hspan]
      exact hbehind front word after htext
    · rw [List.mem_singleton.1 hl, span_endOf]
      exact hbehind text.toList [] [] (by simp)
  · rw [h] at herror
    cases herror

end Lexeme

namespace Compile

variable {source : String} {t : Node Span}

/-- A tree is parsed from the words of its text. -/
theorem exists_of_tree (h : tree source = .ok t) :
    ∃ ls, Lexeme.ofText source = .ok ls ∧ (Cursor.ofLexemes ls).parse = .ok t := by
  unfold tree at h
  split at h
  · cases h
  · case h_2 ls hls =>
    split at h
    · cases h
    · case h_2 t' hparse =>
      cases h
      exact ⟨ls, hls, hparse⟩

/-- **The spans of a tree are nested**: each node goes from the start of a word to the end of one,
and shows the line and the column of its start; it has the spans of all that is below it inside; and
the trees directly below it come one behind the other.  In the folded tree every node still has
inside what is below it. -/
theorem nested_tree (h : tree source = .ok t) : ∃ ls, Lexeme.ofText source = .ok ls ∧
    (∀ x ∈ t.subtrees, (∃ l ∈ ls, x.note.start = l.span.start) ∧
      (∃ l ∈ ls, x.note.stop = l.span.stop) ∧ x.note.StartsIn source ∧
      (∀ y ∈ x.subtrees, x.note.Covers y.note) ∧
      (x.children.map Node.note).Pairwise Span.Before) ∧
    ∀ x ∈ t.fold.1.subtrees, ∀ y ∈ x.subtrees, x.note.Covers y.note := by
  obtain ⟨ls, hls, hparse⟩ := exists_of_tree h
  have hlexemes : (Cursor.ofLexemes ls).lexemes = ls := by
    rw [Cursor.lexemes_ofLexemes]
    exact Lexeme.close_ofText hls
  have hlaid := Lexeme.isLaidOut_ofText hls
  have hspanned := Cursor.every_isSpanned_parse hparse (hlexemes.symm ▸ hlaid)
  rw [hlexemes] at hspanned
  have hnested : t.Nested := fun x hx => (hspanned x hx).covers
  refine ⟨ls, hls, fun x hx => ?_, fun x hx => ?_⟩
  · obtain ⟨⟨⟨l, hl, hstart, hline, hcolumn⟩, hstop, -⟩, -, hordered⟩ := hspanned x hx
    obtain ⟨before, after, htext, hplace⟩ := Lexeme.startsIn_ofText hls hl
    refine ⟨⟨l, hl, hstart⟩, hstop, ⟨before, after, htext, ?_⟩,
      Node.Nested.covers (hnested.below x hx), hordered⟩
    rw [hstart, hline, hcolumn]
    exact hplace
  · exact Node.Nested.covers ((Node.replaces_fold hnested).nested.below x hx)

/-- A called name in parentheses, a definition behind a comment, and a condition that folds. -/
theorem nested_tree_parentheses : ∃ t,
    tree "// twice\ndef f(x) { return (x) + x }\nif 1 { (f)((2), 3) } else -4" = .ok t ∧
    ∃ ls, Lexeme.ofText "// twice\ndef f(x) { return (x) + x }\nif 1 { (f)((2), 3) } else -4"
        = .ok ls ∧
      (∀ x ∈ t.subtrees, (∃ l ∈ ls, x.note.start = l.span.start) ∧
        (∃ l ∈ ls, x.note.stop = l.span.stop) ∧
        x.note.StartsIn
          "// twice\ndef f(x) { return (x) + x }\nif 1 { (f)((2), 3) } else -4" ∧
        (∀ y ∈ x.subtrees, x.note.Covers y.note) ∧
        (x.children.map Node.note).Pairwise Span.Before) ∧
      ∀ x ∈ t.fold.1.subtrees, ∀ y ∈ x.subtrees, x.note.Covers y.note := by
  have hrun : (tree "// twice\ndef f(x) { return (x) + x }\nif 1 { (f)((2), 3) } else -4"
      ).toOption.isSome = true := by decide +kernel
  obtain ⟨t, ht⟩ := Option.isSome_iff_exists.1 hrun
  have ht := Step.eq_ok_of_toOption ht
  exact ⟨t, ht, nested_tree ht⟩

end Compile

end StackLang
