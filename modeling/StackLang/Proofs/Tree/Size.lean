/-
**Trees are no larger than their texts.**

Every name in a tree was a word of its text, and every word takes at least one character, so a text
has at least as many characters as its tree has names.  Folding drops names and makes none.

Main definitions:

* `Node.nameCount` — the number of names in a tree, parameters among them.

Main results:

* `Node.nameCount_fold` — folding makes no names;
* `Compile.nameCount_tree` — a text has at least as many characters as its tree has names.
-/

import StackLang.Compile
import StackLang.Proofs.Tree.Shape

set_option relaxedAutoImplicit false
set_option autoImplicit false

namespace StackLang

namespace Node

variable {α β : Type}

/-- The number of names that stand at the root of a tree. -/
def rootNames : Node α → Nat
  | identifier .. => 1
  | prototype _ _ ps => ps.length
  | _ => 0

/-- The number of names in a tree, parameters among them. -/
def nameCount (x : Node α) : Nat := (x.subtrees.map rootNames).sum

section Constructors

variable {n : α}

@[simp] theorem nameCount_literal {v : Literal} : (literal n v).nameCount = 0 := rfl

@[simp] theorem nameCount_identifier {x : String} : (identifier n x).nameCount = 1 := rfl

@[simp] theorem nameCount_breakLoop : (breakLoop n).nameCount = 0 := rfl

@[simp] theorem nameCount_continueLoop : (continueLoop n).nameCount = 0 := rfl

@[simp] theorem nameCount_nop : (nop n).nameCount = 0 := rfl

@[simp] theorem nameCount_assembly {t : String} : (assembly n t).nameCount = 0 := rfl

@[simp] theorem nameCount_prototype {f : String} {ps : List String} :
    (prototype n f ps).nameCount = ps.length := rfl

@[simp] theorem nameCount_binary {op : BinaryOp} {l r : Node α} :
    (binary n op l r).nameCount = l.nameCount + r.nameCount := by
  simp [nameCount, subtrees, rootNames]

@[simp] theorem nameCount_unary {op : UnaryOp} {x : Node α} :
    (unary n op x).nameCount = x.nameCount := by
  simp [nameCount, subtrees, rootNames]

theorem sum_subtreesList (xs : List (Node α)) :
    ((subtreesList xs).map rootNames).sum = (xs.map nameCount).sum := by
  induction xs with
  | nil => rfl
  | cons x xs ih => simp [subtreesList, ih, nameCount]

@[simp] theorem nameCount_call {f : Node α} {as : List (Node α)} :
    (call n f as).nameCount = f.nameCount + (as.map nameCount).sum := by
  rw [← sum_subtreesList]
  simp [nameCount, subtrees, rootNames]

@[simp] theorem nameCount_cond {c t : Node α} {e : Option (Node α)} :
    (cond n c t e).nameCount = c.nameCount + t.nameCount + e.elim 0 nameCount := by
  cases e <;> simp [nameCount, subtrees, subtreesOption, rootNames, Nat.add_assoc]

@[simp] theorem nameCount_loop {c b : Node α} :
    (loop n c b).nameCount = c.nameCount + b.nameCount := by
  simp [nameCount, subtrees, rootNames]

@[simp] theorem nameCount_returnValue {v : Node α} :
    (returnValue n v).nameCount = v.nameCount := by
  simp [nameCount, subtrees, rootNames]

@[simp] theorem nameCount_define {p b : Node α} :
    (define n p b).nameCount = p.nameCount + b.nameCount := by
  simp [nameCount, subtrees, rootNames]

@[simp] theorem nameCount_block {is : List (Node α)} :
    (block n is).nameCount = (is.map nameCount).sum := by
  rw [← sum_subtreesList]
  simp [nameCount, subtrees, rootNames]

@[simp] theorem nameCount_unit {is : List (Node α)} :
    (unit n is).nameCount = (is.map nameCount).sum := by
  rw [← sum_subtreesList]
  simp [nameCount, subtrees, rootNames]

end Constructors

/-- The number of names depends on the shape of a tree. -/
@[simp] theorem nameCount_shape (x : Node α) : x.shape.nameCount = x.nameCount := by
  have hroot : ∀ y : Node α, (y.map fun _ => ()).rootNames = y.rootNames := by
    intro y
    cases y <;> rfl
  rw [nameCount, shape, subtrees_map, List.map_map, nameCount]
  simp only [Function.comp_def, hroot]

theorem nameCount_of_shape {x : Node α} {y : Node β} (h : y.shape = x.shape) :
    y.nameCount = x.nameCount := by
  rw [← nameCount_shape, h, nameCount_shape]

/-- The parameters and the body of a function have no more names than the unit. -/
theorem nameCount_definitions {mark : Mark} {items : List (Node Mark)} {f : Function}
    (hf : f ∈ definitions items) :
    f.params.length + f.body.nameCount ≤ (unit mark items).nameCount := by
  obtain ⟨x, hx, hfx⟩ := List.mem_filterMap.1 hf
  have hle : x.nameCount ≤ (items.map nameCount).sum :=
    List.le_sum_of_mem (List.mem_map_of_mem hx)
  unfold Function.ofNode? at hfx
  split at hfx
  · cases hfx
    simpa using hle
  · cases hfx

/-! ### Folding -/

theorem nameCount_foldBinary (n : α) (op : BinaryOp) (l r : Node α) :
    (foldBinary n op l r).1.nameCount ≤ l.nameCount + r.nameCount := by
  unfold foldBinary
  split
  · split <;> simp
  · simp

theorem nameCount_foldUnary (n : α) (op : UnaryOp) (x : Node α) :
    (foldUnary n op x).1.nameCount ≤ x.nameCount := by
  unfold foldUnary
  split <;> simp

theorem nameCount_foldCond (n : α) (c t : Node α) (e : Option (Node α)) :
    (foldCond n c t e).1.nameCount ≤ c.nameCount + t.nameCount + e.elim 0 nameCount := by
  unfold foldCond
  split
  · simp only
    split
    · omega
    · cases e <;> simp
  · simp

mutual

theorem nameCount_unwrapTail (x : Node α) : x.unwrapTail.1.nameCount ≤ x.nameCount := by
  cases x with
  | returnValue n v => simp [unwrapTail]
  | block n is => simpa [unwrapTail] using nameCount_unwrapLast is
  | cond n c t e =>
      have ht := nameCount_unwrapTail t
      have he := nameCount_unwrapOption e
      simp only [unwrapTail, nameCount_cond]
      omega
  | _ => exact Nat.le_refl _

theorem nameCount_unwrapLast (xs : List (Node α)) :
    ((unwrapLast xs).1.map nameCount).sum ≤ (xs.map nameCount).sum := by
  match xs with
  | [] => exact Nat.le_refl _
  | [x] => simpa [unwrapLast] using nameCount_unwrapTail x
  | x :: y :: ys => simpa [unwrapLast] using nameCount_unwrapLast (y :: ys)

theorem nameCount_unwrapOption (e : Option (Node α)) :
    (unwrapOption e).1.elim 0 nameCount ≤ e.elim 0 nameCount := by
  cases e with
  | none => exact Nat.le_refl _
  | some x => exact nameCount_unwrapTail x

end

mutual

/-- **Folding makes no names.** -/
theorem nameCount_fold (x : Node α) : x.fold.1.nameCount ≤ x.nameCount := by
  cases x with
  | binary n op l r =>
      have := nameCount_foldBinary n op l.fold.1 r.fold.1
      have hl := nameCount_fold l
      have hr := nameCount_fold r
      simp only [fold, nameCount_binary]
      omega
  | unary n op x =>
      have := nameCount_foldUnary n op x.fold.1
      have hx := nameCount_fold x
      simp only [fold, nameCount_unary]
      omega
  | call n f as =>
      have hf := nameCount_fold f
      have has := nameCount_foldList as
      simp only [fold, nameCount_call]
      omega
  | cond n c t e =>
      have := nameCount_foldCond n c.fold.1 t.fold.1 (foldOption e).1
      have hc := nameCount_fold c
      have ht := nameCount_fold t
      have he := nameCount_foldOption e
      simp only [fold, nameCount_cond]
      omega
  | loop n c b =>
      have hc := nameCount_fold c
      have hb := nameCount_fold b
      simp only [fold, nameCount_loop]
      omega
  | returnValue n v => simpa [fold] using nameCount_fold v
  | define n p b =>
      have hp := nameCount_fold p
      have hb := nameCount_fold b
      have hend := nameCount_unwrapTail b.fold.1
      simp only [fold, nameCount_define]
      omega
  | block n is => simpa [fold] using nameCount_foldList is
  | unit n is => simpa [fold] using nameCount_foldList is
  | _ => exact Nat.le_refl _

theorem nameCount_foldList (xs : List (Node α)) :
    ((foldList xs).1.map nameCount).sum ≤ (xs.map nameCount).sum := by
  cases xs with
  | nil => exact Nat.le_refl _
  | cons x xs =>
      have hx := nameCount_fold x
      have hxs := nameCount_foldList xs
      simp only [foldList, List.map_cons, List.sum_cons]
      omega

theorem nameCount_foldOption (e : Option (Node α)) :
    (foldOption e).1.elim 0 nameCount ≤ e.elim 0 nameCount := by
  cases e with
  | none => exact Nat.le_refl _
  | some x => exact nameCount_fold x

end

end Node

/-! ### Words -/

namespace Lexeme

/-- **A text has at least as many characters as words.** -/
theorem length_words_itemsFrom (p : Position) (text : List Char) :
    (words (itemsFrom p text)).length ≤ text.length := by
  induction hn : text.length using Nat.strong_induction_on generalizing p text with
  | _ n ih =>
      cases text with
      | nil =>
          rw [itemsFrom]
          exact Nat.zero_le _
      | cons c cs =>
          have hlt : (cs.drop (Piece.scan c cs).2).length < n := by
            rw [← hn, List.length_cons, List.length_drop]
            omega
          have hrest := ih _ hlt (p.advance (c :: cs.take (Piece.scan c cs).2)) _ rfl
          rw [itemsFrom]
          cases hpiece : (Piece.scan c cs).1 with
          | skipped =>
              simp only [hpiece]
              omega
          | fault cause =>
              simp only [hpiece, words, List.filterMap_cons, Except.toOption] at hrest ⊢
              omega
          | word t =>
              simp only [hpiece, words, List.filterMap_cons, Except.toOption, List.length_cons]
                at hrest ⊢
              omega

theorem length_ofText {text : String} {ls : List Lexeme} (h : ofText text = .ok ls) :
    ∃ ws l, ls = ws ++ [l] ∧ l.token = .eof ∧ ws.length ≤ text.length := by
  unfold ofText at h
  simp only at h
  split_ifs at h
  cases h
  refine ⟨_, _, rfl, rfl, ?_⟩
  rw [← String.length_toList]
  exact length_words_itemsFrom _ _

end Lexeme

/-! ### The parser -/

/-- The number of names that a word is. -/
def Lexeme.nameCount (l : Lexeme) : Nat :=
  match l.token with
  | .identifier _ => 1
  | _ => 0

/-- The number of names on the left of the operators that await an operand. -/
def Chain.pendingNames (ps : List Pending) : Nat := (ps.map fun p => p.left.nameCount).sum

mutual

/-- The number of names in an open list and around it. -/
def Body.nameCount : Body → Nat
  | .unit done => (done.map Node.nameCount).sum
  | .block _ done outer => (done.map Node.nameCount).sum + outer.nameCount

/-- The number of names around a place. -/
def Hole.nameCount : Hole → Nat
  | .statement body | .returned _ body => body.nameCount
  | .group chain outer => Chain.pendingNames chain.pending + outer.nameCount
  | .argument callee done chain outer =>
    callee.nameCount + (done.map Node.nameCount).sum + Chain.pendingNames chain.pending
      + outer.nameCount
  | .condition _ outer | .loopCondition _ outer => outer.nameCount
  | .yes _ c outer | .loopBody _ c outer => c.nameCount + outer.nameCount
  | .no _ c yes outer => c.nameCount + yes.nameCount + outer.nameCount
  | .functionBody _ p done => p.nameCount + (done.map Node.nameCount).sum

end

/-- The number of names in what is complete of a heading and before it. -/
def Heading.nameCount (h : Heading) : Nat := h.params.length + (h.done.map Node.nameCount).sum

/-- The number of names that have been read. -/
def Awaiting.nameCount : Awaiting → Nat
  | .statement body | .assemblyText _ body => body.nameCount
  | .expression hole => hole.nameCount
  | .operand chain hole => Chain.pendingNames chain.pending + hole.nameCount
  | .afterOperand x _ chain hole =>
    x.nameCount + Chain.pendingNames chain.pending + hole.nameCount
  | .afterExpression x hole => x.nameCount + hole.nameCount
  | .firstArgument callee chain hole =>
    callee.nameCount + Chain.pendingNames chain.pending + hole.nameCount
  | .functionName _ done => (done.map Node.nameCount).sum
  | .params h | .firstParam h | .param h | .afterParam h => h.nameCount

section Parser

variable {l : Lexeme} {x : Node Span} {a : Awaiting}

@[simp] theorem Body.nameCount_add (body : Body) (x : Node Span) :
    (body.add x).nameCount = body.nameCount + x.nameCount := by
  cases body <;> simp only [Body.add, Body.nameCount, List.map_cons, List.sum_cons] <;> omega

@[simp] theorem nameCount_closeSigns (x : Node Span) (signs : List (Span × UnaryOp)) :
    (Chain.closeSigns x signs).nameCount = x.nameCount := by
  induction signs generalizing x with
  | nil => rfl
  | cons s signs ih => exact (ih _).trans Node.nameCount_unary

@[simp] theorem nameCount_close (x : Node Span) (p : Pending) :
    (p.close x).nameCount = p.left.nameCount + x.nameCount := Node.nameCount_binary

@[simp] theorem nameCount_closeAll (x : Node Span) (ps : List Pending) :
    (Chain.closeAll x ps).nameCount = x.nameCount + Chain.pendingNames ps := by
  induction ps generalizing x with
  | nil => rfl
  | cons p ps ih =>
      have := ih (p.close x)
      simp only [Chain.closeAll, Chain.pendingNames, List.foldl_cons, List.map_cons, List.sum_cons,
        nameCount_close] at this ⊢
      omega

theorem pendingNames_settle (op : BinaryOp) (x : Node Span) (floor : Nat) (ps : List Pending) :
    Chain.pendingNames (Chain.settle op x floor ps) = x.nameCount + Chain.pendingNames ps := by
  induction ps generalizing x floor with
  | nil => simp [Chain.settle, Chain.pendingNames]
  | cons p ps ih =>
      rw [Chain.settle]
      split
      · simp [Chain.pendingNames]
      · rw [ih, nameCount_close]
        simp only [Chain.pendingNames, List.map_cons, List.sum_cons]
        omega

@[simp] theorem pendingNames_push (op : BinaryOp) (x : Node Span) (ps : List Pending) :
    Chain.pendingNames (Chain.push op x ps) = x.nameCount + Chain.pendingNames ps := by
  cases ps with
  | nil => simp [Chain.push, Chain.pendingNames]
  | cons p ps =>
      rw [Chain.push]
      split
      · simp [Chain.pendingNames]
      · split
        · simp [Chain.pendingNames]
        · rw [pendingNames_settle, nameCount_close]
          simp only [Chain.pendingNames, List.map_cons, List.sum_cons]
          omega

theorem nameCount_startOperand {chain : Chain} {hole : Hole}
    (h : Awaiting.startOperand l chain hole = .ok a) :
    a.nameCount = Chain.pendingNames chain.pending + hole.nameCount + l.nameCount := by
  cases htoken : l.token with
  | plus | minus | bang | intLiteral | floatLiteral | charLiteral | identifier | leftParen =>
      simp only [Awaiting.startOperand, htoken, Except.ok.injEq] at h
      subst h
      simp only [Awaiting.nameCount, Hole.nameCount, Lexeme.nameCount, htoken,
        Node.nameCount_literal, Node.nameCount_identifier]
      omega
  | _ => simp only [Awaiting.startOperand, htoken, reduceCtorEq] at h

theorem nameCount_startExpression {hole : Hole} (h : Awaiting.startExpression l hole = .ok a) :
    a.nameCount = hole.nameCount + l.nameCount := by
  unfold Awaiting.startExpression at h
  split at h
  · cases h
    simp [Awaiting.nameCount, Body.nameCount, Lexeme.nameCount, *]
  · cases h
    simp [Awaiting.nameCount, Hole.nameCount, Lexeme.nameCount, *]
  · cases h
    simp [Awaiting.nameCount, Hole.nameCount, Lexeme.nameCount, *]
  · rw [nameCount_startOperand h]
    simp [Chain.empty, Chain.pendingNames]

theorem nameCount_startStatement {body : Body} (h : Awaiting.startStatement l body = .ok a) :
    a.nameCount = body.nameCount + l.nameCount := by
  unfold Awaiting.startStatement at h
  split at h
  · cases h
    simp [Awaiting.nameCount, Lexeme.nameCount, *]
  · cases h
    simp [Awaiting.nameCount, Lexeme.nameCount, *]
  · cases h
    simp [Awaiting.nameCount, Hole.nameCount, Lexeme.nameCount, *]
  · cases h
    simp [Awaiting.nameCount, Lexeme.nameCount, *]
  · rw [nameCount_startExpression h, Hole.nameCount]

theorem nameCount_inBody {body : Body} (h : Awaiting.inBody l body = .ok a) :
    a.nameCount = body.nameCount + l.nameCount := by
  cases body with
  | unit done =>
      simp only [Awaiting.inBody] at h
      split at h
      · cases h
        simp [Awaiting.nameCount, Lexeme.nameCount, *]
      · cases h
        simp [Awaiting.nameCount, Body.nameCount, Lexeme.nameCount, *]
      · exact nameCount_startStatement h
  | block start done outer =>
      simp only [Awaiting.inBody] at h
      split at h
      · cases h
        simp [Awaiting.nameCount, Body.nameCount, Lexeme.nameCount, List.map_reverse, *]
      · cases h
      · exact nameCount_startStatement h

theorem nameCount_complete {x : Node Span} {hole : Hole} (h : Awaiting.complete x l hole = .ok a) :
    a.nameCount = x.nameCount + hole.nameCount + l.nameCount := by
  -- an open place holds the names read before it, and the expression adds its own
  match hole with
  | .statement body =>
      rw [Awaiting.complete] at h
      rw [nameCount_inBody h, Body.nameCount_add, Hole.nameCount, Nat.add_comm x.nameCount]
  | .returned start body =>
      rw [Awaiting.complete] at h
      rw [nameCount_inBody h, Body.nameCount_add, Node.nameCount_returnValue, Hole.nameCount,
        Nat.add_comm x.nameCount]
  | .group chain outer =>
      simp only [Awaiting.complete] at h
      split at h
      · cases h
        simp [Awaiting.nameCount, Hole.nameCount, Lexeme.nameCount, Nat.add_assoc, *]
      · cases h
  | .argument callee done chain outer =>
      simp only [Awaiting.complete] at h
      split at h
      · cases h
        simp [Awaiting.nameCount, Hole.nameCount, Lexeme.nameCount, *]
        omega
      · cases h
        simp [Awaiting.nameCount, Hole.nameCount, Lexeme.nameCount, List.map_reverse, *]
        omega
      · cases h
  | .condition start outer =>
      rw [Awaiting.complete] at h
      rw [nameCount_startExpression h, Hole.nameCount, Hole.nameCount]
  | .yes start c outer =>
      simp only [Awaiting.complete] at h
      split at h
      · cases h
        simp [Awaiting.nameCount, Hole.nameCount, Lexeme.nameCount, *]
        omega
      · rw [nameCount_complete h, Node.nameCount_cond, Option.elim_none, Hole.nameCount]
        omega
  | .no start c yes outer =>
      rw [Awaiting.complete] at h
      rw [nameCount_complete h, Node.nameCount_cond, Option.elim_some, Hole.nameCount]
      omega
  | .loopCondition start outer =>
      rw [Awaiting.complete] at h
      rw [nameCount_startExpression h, Hole.nameCount, Hole.nameCount]
  | .loopBody start c outer =>
      rw [Awaiting.complete] at h
      rw [nameCount_complete h, Node.nameCount_loop, Hole.nameCount]
      omega
  | .functionBody start p done =>
      rw [Awaiting.complete] at h
      rw [nameCount_inBody h, Body.nameCount, Hole.nameCount, List.map_cons, List.sum_cons,
        Node.nameCount_define]
      omega

theorem nameCount_operate {chain : Chain} {hole : Hole}
    (h : Awaiting.operate x l chain hole = .ok a) : a.nameCount
      = x.nameCount + Chain.pendingNames chain.pending + hole.nameCount + l.nameCount := by
  simp only [Awaiting.operate] at h
  split at h
  · rename_i op hop
    have hl : l.nameCount = 0 := by
      unfold BinaryOp.ofToken? at hop
      unfold Lexeme.nameCount
      split at hop <;> simp_all
    cases h
    simp [Awaiting.nameCount, hl]
  · rw [nameCount_complete h, nameCount_closeAll, nameCount_closeSigns]

theorem nameCount_name {name : String} (h : l.name = .ok name) : l.nameCount = 1 := by
  unfold Lexeme.name at h
  unfold Lexeme.nameCount
  split at h <;> simp_all

/-- **A word that is read adds no more names than it is.** -/
theorem nameCount_step {b : Awaiting} (h : b.step l = .ok a) :
    a.nameCount ≤ b.nameCount + l.nameCount := by
  -- where a name is asked for, the word is one
  have hmap : ∀ {f : String → Awaiting} {n : Nat}, l.name.map f = .ok a →
      (∀ name, (f name).nameCount ≤ n + 1) → a.nameCount ≤ n + l.nameCount := by
    intro f n hf hle
    cases hname : l.name with
    | error e => simp [hname, Except.map] at hf
    | ok name =>
        simp only [hname, Except.map, Except.ok.injEq] at hf
        rw [← hf, nameCount_name hname]
        exact hle name
  cases b with
  | statement body => exact (nameCount_inBody h).le
  | expression hole => exact (nameCount_startExpression h).le
  | operand chain hole => exact (nameCount_startOperand h).le
  | afterOperand x callable chain hole =>
      rw [Awaiting.step] at h
      split at h
      · cases h
        exact Nat.le_add_right _ _
      · exact (nameCount_operate h).le
  | afterExpression x hole => exact (nameCount_complete h).le
  | firstArgument callee chain hole =>
      simp only [Awaiting.step] at h
      split at h
      · cases h
        simp [Awaiting.nameCount]
      · rw [nameCount_startExpression h]
        simp [Hole.nameCount, Awaiting.nameCount]
  | assemblyText start body =>
      simp only [Awaiting.step] at h
      split at h
      · cases h
        simp [Awaiting.nameCount]
      · cases h
  | functionName start done =>
      refine hmap h fun name => ?_
      simp [Awaiting.nameCount, Heading.nameCount]
  | params head =>
      simp only [Awaiting.step] at h
      split at h
      · cases h
        exact Nat.le_add_right _ _
      · cases h
  | firstParam head =>
      simp only [Awaiting.step] at h
      split at h
      · cases h
        simp [Awaiting.nameCount, Hole.nameCount, Heading.prototype, Heading.nameCount]
      · refine hmap h fun name => ?_
        simp [Awaiting.nameCount, Heading.nameCount, Heading.addParam]
        omega
  | param head =>
      refine hmap h fun name => ?_
      simp [Awaiting.nameCount, Heading.nameCount, Heading.addParam]
      omega
  | afterParam head =>
      simp only [Awaiting.step] at h
      split at h
      · cases h
        exact Nat.le_add_right _ _
      · cases h
        simp [Awaiting.nameCount, Hole.nameCount, Heading.prototype, Heading.nameCount]
      · cases h

theorem nameCount_run {ls : List Lexeme} {b : Awaiting} (h : Awaiting.run ls b = .ok a) :
    a.nameCount ≤ b.nameCount + (ls.map Lexeme.nameCount).sum := by
  induction ls generalizing b with
  | nil =>
      cases h
      exact Nat.le_refl _
  | cons l ls ih =>
      rw [List.map_cons, List.sum_cons]
      rw [Awaiting.run] at h
      split at h
      · have := nameCount_step h
        omega
      · cases hstep : b.step l with
        | error e =>
            rw [hstep] at h
            cases h
        | ok b' =>
            rw [hstep] at h
            have := ih h
            have := nameCount_step hstep
            omega

theorem Cursor.nameCount_parse {c : Cursor} {t : Node Span} (h : c.parse = .ok t) :
    t.nameCount ≤ (c.lexemes.map Lexeme.nameCount).sum := by
  unfold Cursor.parse at h
  cases hrun : Awaiting.run c.lexemes .start with
  | error e =>
      rw [hrun] at h
      cases h
  | ok a =>
      rw [hrun] at h
      cases h
      have hle := nameCount_run hrun
      have hstart : Awaiting.start.nameCount = 0 := rfl
      have hitems : (a.items.map Node.nameCount).sum ≤ a.nameCount := by
        unfold Awaiting.items
        split
        · simp [Awaiting.nameCount, Body.nameCount, List.map_reverse]
        · exact Nat.zero_le _
      rw [Node.nameCount_unit]
      omega

/-- **A text has at least as many characters as its tree has names.** -/
theorem Compile.nameCount_tree {source : String} {t : Node Span}
    (h : Compile.tree source = .ok t) : t.nameCount ≤ source.length := by
  unfold Compile.tree at h
  split at h
  · cases h
  · case h_2 ls hls =>
    split at h
    · cases h
    · case h_2 t' hparse =>
      cases h
      obtain ⟨ws, e, rfl, heof, hlength⟩ := Lexeme.length_ofText hls
      -- the end mark is there, so none is added
      have hlexemes : (Cursor.ofLexemes (ws ++ [e])).lexemes = ws ++ [e] := by
        have hclose : Cursor.close (ws ++ [e]) = ws ++ [e] := by
          simp [Cursor.close, heof]
        rw [Cursor.ofLexemes, hclose]
        cases ws <;> rfl
      have hle : (ws.map Lexeme.nameCount).sum ≤ ws.length := by
        have hone : ∀ l : Lexeme, l.nameCount ≤ 1 := by
          intro l
          unfold Lexeme.nameCount
          split <;> omega
        simpa using List.sum_le_card_nsmul (ws.map Lexeme.nameCount) 1
          (by simpa using fun l _ => hone l)
      have hparse := Cursor.nameCount_parse hparse
      rw [hlexemes] at hparse
      have hend : e.nameCount = 0 := by simp [Lexeme.nameCount, heof]
      simp only [List.map_append, List.map_cons, List.map_nil, List.sum_append, List.sum_cons,
        List.sum_nil, hend] at hparse
      omega

end Parser

/-- The document that is compiled has no more names than its text has characters. -/
theorem Document.nameCount_ofTree {source : String} {t : Node Span}
    (h : Compile.tree source = .ok t) (fold : Bool) :
    (Document.ofTree (Compile.prepare fold t)).root.nameCount ≤ source.length := by
  refine (Node.nameCount_of_shape (Node.shape_number _ 0 (Compile.prepare fold t))).trans_le ?_
  have := Compile.nameCount_tree h
  cases fold with
  | false => exact this
  | true => exact (Node.nameCount_fold t).trans this

end StackLang
