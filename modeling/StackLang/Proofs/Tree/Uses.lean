/-
**What a tree does with names.**

A tree reads variables, assigns to them and calls functions, in the order of evaluation.  What it
does with names can be listed without knowing what any name stands for, and the list says all that
inference looks at before it accepts a tree: types play no part.  The list ends where something that
is no name is called or assigned to.

Folding takes conditions away together with the branches that cannot be reached, and with them what
these branches do with names.  Besides that it can leave a bare name of a condition that is called
or assigned to: `(if 1 f else g)(2)` is a call only after it was folded.

Main definitions:

* `Use`, `Node.uses` — what a tree does with names, in order;
* `Node.dropped` — the branches that folding drops;
* `Node.unveils` — whether folding leaves a name where none was called or assigned to;
* `Thins` — a list of uses and the list that folding leaves of it.

Main results:

* `Node.uses_of_shape` — the uses do not depend on the notes;
* `Node.thins_fold` — what folding leaves of the uses of a tree.
-/

import StackLang.Proofs.Tree.Jumps
import StackLang.Typing.Error

set_option relaxedAutoImplicit false
set_option autoImplicit false

namespace StackLang

/-! ### Uses of names -/

/-- One use of a name. -/
inductive Use where
  | read (name : String)
  | write (name : String)
  | call (name : String) (args : Nat)
  /-- Something that is no name is called or assigned to. -/
  | fault (cause : SemanticCause)
deriving DecidableEq, Repr

namespace Node

variable {α β : Type}

mutual

/-- **What a tree does with names**, in the order of evaluation.  Definitions do nothing before they
are called. -/
def uses : Node α → List Use
  | identifier _ x => [.read x]
  | binary _ op l r =>
    if op = .assign then
      match l with
      | identifier _ x => uses r ++ [.write x]
      | _ => [.fault .assignToNonIdentifier]
    else uses l ++ uses r
  | unary _ _ x => uses x
  | call _ f as =>
    match f with
    | identifier _ name => usesList as ++ [.call name as.length]
    | _ => [.fault (.notCallable f.kindName)]
  | cond _ c t e => uses c ++ (uses t ++ usesOption e)
  | loop _ c b => uses c ++ uses b
  | returnValue _ v => uses v
  | block _ is => usesList is
  | unit _ is => usesList is
  | literal .. | breakLoop .. | continueLoop .. | define .. | prototype .. | assembly .. | nop .. =>
    []

/-- The uses of the trees of a list, one tree after the other. -/
def usesList : List (Node α) → List Use
  | [] => []
  | x :: xs => uses x ++ usesList xs

/-- The uses of a tree that may be missing. -/
def usesOption : Option (Node α) → List Use
  | none => []
  | some x => uses x

end

/-- Whether the tree is a name. -/
def isName : Node α → Bool
  | identifier .. => true
  | _ => false

theorem uses_assign {n : α} {l r : Node α} (h : l.isName = false) :
    (binary n .assign l r).uses = [.fault .assignToNonIdentifier] := by
  cases l with
  | identifier => cases h
  | _ => simp [uses]

theorem uses_binary {n : α} {op : BinaryOp} {l r : Node α} (h : op ≠ .assign) :
    (binary n op l r).uses = l.uses ++ r.uses := by
  cases l <;> simp [uses, h]

theorem uses_call {n : α} {f : Node α} {as : List (Node α)} (h : f.isName = false) :
    (call n f as).uses = [.fault (.notCallable f.kindName)] := by
  cases f with
  | identifier => cases h
  | _ => rfl

theorem exists_of_isName {x : Node α} (h : x.isName = true) : ∃ n name, x = identifier n name := by
  cases x with
  | identifier n name => exact ⟨n, name, rfl⟩
  | _ => cases h

/-! ### Notes play no part -/

mutual

theorem uses_map (f : α → β) (x : Node α) : (x.map f).uses = x.uses := by
  cases x with
  | binary n op l r =>
      have hr := uses_map f r
      by_cases hop : op = .assign
      · subst hop
        cases l with
        | identifier => simp only [map, uses, if_true, hr]
        | _ => simp only [map, uses, if_true]
      · simp only [map, uses, if_neg hop, uses_map f l, hr]
  | unary n op x => simp only [map, uses, uses_map f x]
  | call n g as =>
      cases g with
      | identifier => simp only [map, uses, uses_mapList f as, length_mapList]
      | _ => rfl
  | cond n c t e =>
      simp only [map, uses, uses_map f c, uses_map f t, uses_mapOption f e]
  | loop n c b => simp only [map, uses, uses_map f c, uses_map f b]
  | returnValue n v => simp only [map, uses, uses_map f v]
  | block n is => simp only [map, uses, uses_mapList f is]
  | unit n is => simp only [map, uses, uses_mapList f is]
  | _ => rfl

theorem uses_mapList (f : α → β) (xs : List (Node α)) :
    usesList (mapList f xs) = usesList xs := by
  cases xs with
  | nil => rfl
  | cons x xs => simp only [mapList, usesList, uses_map f x, uses_mapList f xs]

theorem uses_mapOption (f : α → β) (e : Option (Node α)) :
    usesOption (mapOption f e) = usesOption e := by
  cases e with
  | none => rfl
  | some x => simp only [mapOption, usesOption, uses_map f x]

end

/-- **The uses of a tree depend on its shape only.** -/
theorem uses_of_shape {x : Node α} {y : Node β} (h : y.shape = x.shape) : y.uses = x.uses := by
  rw [← uses_map (fun _ => ()) y, ← uses_map (fun _ => ()) x]
  exact congrArg uses h

/-! ### The end of a function body -/

mutual

/-- The `return` at the end of a body does nothing with names. -/
theorem uses_unwrapTail (x : Node α) : x.unwrapTail.1.uses = x.uses := by
  cases x with
  | returnValue n v => rfl
  | block n is => simp only [unwrapTail, uses, uses_unwrapLast is]
  | cond n c t e => simp only [unwrapTail, uses, uses_unwrapTail t, uses_unwrapOption e]
  | _ => rfl

theorem uses_unwrapLast (xs : List (Node α)) : usesList (unwrapLast xs).1 = usesList xs := by
  match xs with
  | [] => rfl
  | [x] => simp only [unwrapLast, usesList, uses_unwrapTail x]
  | x :: y :: ys =>
      have hys := uses_unwrapLast (y :: ys)
      simp only [unwrapLast, usesList] at hys ⊢
      rw [hys]

theorem uses_unwrapOption (e : Option (Node α)) : usesOption (unwrapOption e).1 = usesOption e := by
  cases e with
  | none => rfl
  | some x => simp only [unwrapOption, usesOption, uses_unwrapTail x]

end

/-! ### What folding drops -/

/-- The branches that folding drops at the root: those of a condition on a literal that are not
taken. -/
def dropsAt : Node α → List (Node α)
  | cond _ c t e =>
    match c.fold.1 with
    | literal _ v => if v.isTrue then e.toList else [t]
    | _ => []
  | _ => []

/-- **The branches that folding drops.** -/
def dropped (x : Node α) : List (Node α) := x.subtrees.flatMap dropsAt

/-- Whether folding leaves a name of what is called or assigned to at the root, and was none. -/
def unveilsAt : Node α → Bool
  | binary _ op l _ => op == .assign && !l.isName && l.fold.1.isName
  | call _ f _ => !f.isName && f.fold.1.isName
  | _ => false

/-- **Whether folding leaves a name of something that is called or assigned to, and was none.** -/
def unveils (x : Node α) : Bool := x.subtrees.any unveilsAt

end Node

namespace SemanticCause

/-- **Causes of the same kind**: the same cause, but for the word for something that is no name and
is called. -/
inductive SameKind : SemanticCause → SemanticCause → Prop
  | same (c : SemanticCause) : SameKind c c
  | callee (what what' : String) : SameKind (.notCallable what) (.notCallable what')

end SemanticCause

/-- **A list of uses and what folding leaves of it**: the uses in `P` may be missing, and behind a
fault nothing is left to compare if its cause is `veiled`, for then it may be no fault any more. -/
inductive Thins (P : Use → Prop) (veiled : SemanticCause → Prop) : List Use → List Use → Prop
  | nil : Thins P veiled [] []
  | keep (u : Use) {us us' : List Use} (h : Thins P veiled us us') :
      Thins P veiled (u :: us) (u :: us')
  | drop {u : Use} {us us' : List Use} (hu : P u) (h : Thins P veiled us us') :
      Thins P veiled (u :: us) us'
  | fault {c c' : SemanticCause} {us us' : List Use} (hc : c.SameKind c') :
      Thins P veiled (.fault c :: us) (.fault c' :: us')
  | unveil {c : SemanticCause} {us us' : List Use} (h : veiled c) :
      Thins P veiled (.fault c :: us) us'

namespace Thins

variable {P : Use → Prop} {veiled : SemanticCause → Prop} {us us' vs vs' : List Use}

theorem refl (us : List Use) : Thins P veiled us us := by
  induction us with
  | nil => exact .nil
  | cons u us ih => exact .keep u ih

theorem append (h : Thins P veiled us us') (h' : Thins P veiled vs vs') :
    Thins P veiled (us ++ vs) (us' ++ vs') := by
  induction h with
  | nil => exact h'
  | keep u _ ih => exact .keep u ih
  | drop hu _ ih => exact .drop hu ih
  | fault hc => exact .fault hc
  | unveil hu => exact .unveil hu

/-- Uses that are all dropped leave nothing. -/
theorem of_forall (h : ∀ u ∈ us, P u) : Thins P veiled us [] := by
  induction us with
  | nil => exact .nil
  | cons u us ih =>
      rw [List.forall_mem_cons] at h
      exact .drop h.1 (ih h.2)

end Thins

namespace Node

variable {α : Type} {P : Use → Prop} {veiled : SemanticCause → Prop}

/-- What folding drops at the root has its uses in `P`, and if a name is unveiled there, the cause
of the fault that it was is `veiled`. -/
structure Loses (P : Use → Prop) (veiled : SemanticCause → Prop) (x : Node α) : Prop where
  drops : ∀ y ∈ x.dropsAt, ∀ u ∈ y.uses, P u
  unveils : x.unveilsAt = true → ∀ c, .fault c ∈ x.uses → veiled c

/-! ### Single nodes -/

theorem uses_literal {x : Node α} {n : α} {v : Literal} (h : x = literal n v) : x.uses = [] := by
  rw [h]
  rfl

theorem eval?_assign (a b : Literal) : BinaryOp.eval? .assign a b = none := by
  cases a <;> cases b <;> rfl

/-- Operators on literals use no names. -/
theorem uses_foldBinary {n : α} {op : BinaryOp} {l r : Node α} :
    (foldBinary n op l r).1.uses = (binary n op l r).uses := by
  unfold foldBinary
  split
  · rename_i a b
    by_cases hop : op = .assign
    · rw [hop, eval?_assign]
    · rw [uses_binary hop]
      split <;> simp [uses, hop]
  · rfl

theorem uses_foldUnary {n : α} {op : UnaryOp} {x : Node α} :
    (foldUnary n op x).1.uses = x.uses := by
  unfold foldUnary
  split <;> rfl

/-- An assignment to what folding may have changed. -/
theorem thins_assign {n : α} {l r r' : Node α} (h : (binary n .assign l r).Loses P veiled)
    (hr : Thins P veiled r.uses r'.uses) :
    Thins P veiled (binary n .assign l r).uses (binary n .assign l.fold.1 r').uses := by
  cases hname : l.isName with
  | true =>
      obtain ⟨m, x, rfl⟩ := exists_of_isName hname
      simp only [uses, if_true, fold]
      exact hr.append (.refl _)
  | false =>
      rw [uses_assign hname]
      cases hleft : l.fold.1.isName with
      | true =>
          have hunveils : (binary n .assign l r).unveilsAt = true := by
            simp [unveilsAt, hname, hleft]
          exact .unveil (h.unveils hunveils _ (by simp [uses_assign hname]))
      | false =>
          rw [uses_assign hleft]
          exact .fault (.same _)

/-- A call of what folding may have changed. -/
theorem thins_call {n : α} {f : Node α} {as as' : List (Node α)}
    (h : (call n f as).Loses P veiled) (hlength : as'.length = as.length)
    (has : Thins P veiled (usesList as) (usesList as')) :
    Thins P veiled (call n f as).uses (call n f.fold.1 as').uses := by
  cases hname : f.isName with
  | true =>
      obtain ⟨m, name, rfl⟩ := exists_of_isName hname
      simp only [uses, fold, hlength]
      exact has.append (.refl _)
  | false =>
      rw [uses_call hname]
      cases hleft : f.fold.1.isName with
      | true =>
          have hunveils : (call n f as).unveilsAt = true := by simp [unveilsAt, hname, hleft]
          exact .unveil (h.unveils hunveils _ (by simp [uses_call hname]))
      | false =>
          rw [uses_call hleft]
          exact .fault (.callee _ _)

/-- A condition whose parts were folded. -/
theorem thins_cond {n : α} {c t t' : Node α} {e e' : Option (Node α)}
    (h : (cond n c t e).Loses P veiled) (hc : Thins P veiled c.uses c.fold.1.uses)
    (ht : Thins P veiled t.uses t'.uses) (he : Thins P veiled (usesOption e) (usesOption e')) :
    Thins P veiled (cond n c t e).uses (foldCond n c.fold.1 t' e').1.uses := by
  have hwhole : Thins P veiled (cond n c t e).uses (cond n c.fold.1 t' e').uses := by
    simp only [uses]
    exact hc.append (ht.append he)
  cases hliteral : c.fold.1 with
  | literal m v =>
      rw [uses_literal hliteral] at hc
      have hdrops := h.drops
      simp only [dropsAt, hliteral] at hdrops
      cases htrue : v.isTrue with
      | true =>
          have hlost : Thins P veiled (usesOption e) [] := by
            refine .of_forall fun u hu => ?_
            cases e with
            | none => cases hu
            | some y => exact hdrops y (by simp [htrue]) u hu
          have hsum := hc.append (ht.append hlost)
          simpa [uses, foldCond, htrue] using hsum
      | false =>
          have hlost : Thins P veiled t.uses [] :=
            .of_forall (hdrops t (by simp [htrue]))
          have hleft : (e'.getD (nop n)).uses = usesOption e' := by
            cases e' <;> rfl
          have hsum := hc.append (hlost.append he)
          simpa [uses, foldCond, htrue, hleft] using hsum
  | _ =>
      rw [hliteral] at hwhole
      exact hwhole

/-! ### Trees -/

mutual

/-- **What folding leaves of the uses of a tree.** -/
theorem thins_fold (x : Node α) (h : x.Every (Loses P veiled)) :
    Thins P veiled x.uses x.fold.1.uses := by
  cases x with
  | binary n op l r =>
      obtain ⟨hroot, hl, hr⟩ := every_binary.1 h
      have hright := thins_fold r hr
      simp only [fold, uses_foldBinary]
      by_cases hop : op = .assign
      · subst hop
        exact thins_assign hroot hright
      · rw [uses_binary hop, uses_binary hop]
        exact (thins_fold l hl).append hright
  | unary n op x =>
      simp only [fold, uses_foldUnary]
      exact thins_fold x (every_unary.1 h).2
  | call n f as =>
      obtain ⟨hroot, -, has⟩ := every_call.1 h
      exact thins_call hroot (length_foldList as) (thins_foldList as has)
  | cond n c t e =>
      obtain ⟨hroot, hc, ht, he⟩ := every_cond.1 h
      exact thins_cond hroot (thins_fold c hc) (thins_fold t ht) (thins_foldOption e he)
  | loop n c b =>
      obtain ⟨-, hc, hb⟩ := every_loop.1 h
      exact (thins_fold c hc).append (thins_fold b hb)
  | returnValue n v => exact thins_fold v (every_returnValue.1 h).2
  | block n is => exact thins_foldList is (every_block.1 h).2
  | unit n is => exact thins_foldList is (every_unit.1 h).2
  | _ => exact .refl _

theorem thins_foldList (xs : List (Node α)) (h : ∀ x ∈ xs, x.Every (Loses P veiled)) :
    Thins P veiled (usesList xs) (usesList (foldList xs).1) := by
  cases xs with
  | nil => exact .nil
  | cons x xs =>
      rw [List.forall_mem_cons] at h
      exact (thins_fold x h.1).append (thins_foldList xs h.2)

theorem thins_foldOption (e : Option (Node α))
    (h : ∀ x, e = some x → x.Every (Loses P veiled)) :
    Thins P veiled (usesOption e) (usesOption (foldOption e).1) := by
  cases e with
  | none => exact .nil
  | some x => exact thins_fold x (h x rfl)

end

end Node

end StackLang
