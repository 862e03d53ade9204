/-
**The spans of a tree.**

While it reads, the parser holds the places of some words and the complete parts of what is open, in
the order of the text.  A word that is read is held behind all of this or is let go, and a part that
becomes complete takes the place of what it is made of, with the span from the first of it to the
last.  What is held therefore never overlaps, however many parentheses were let go, and every tree
has the spans of what is below it inside its own, one behind the other.

Main definitions:

* `Span.Covers`, `Span.Before` — one span inside the other, and one behind the other;
* `Node.IsSpanned` — the span of a node fits the words of the text and what is directly below it;
* `Held`, `Awaiting.held` — what the parser holds, in source order;
* `Joins` — words that are held are let go, and the last trees are joined.

Main results:

* `Awaiting.gathers_step`, `Awaiting.inOrder_run` — a step joins what was held, and a run keeps it
  in order;
* `Cursor.every_isSpanned_parse` — **the spans of the tree of a text fit its words**.
-/

import StackLang.Proofs.Tree.Shape
import StackLang.Proofs.Tree.Words

set_option relaxedAutoImplicit false
set_option autoImplicit false

namespace StackLang

/-! ### Spans -/

namespace Span

/-- The other span is inside. -/
structure Covers (s t : Span) : Prop where
  start : s.start ≤ t.start
  stop : t.stop ≤ s.stop

/-- The other span is behind. -/
def Before (s t : Span) : Prop := s.stop ≤ t.start

/-- The span goes from the start of a word to the end of one, and shows the place of its start. -/
structure IsOfWords (ls : List Lexeme) (s : Span) : Prop where
  start : ∃ l ∈ ls, s.start = l.span.start ∧ s.line = l.span.line ∧ s.column = l.span.column
  stop : ∃ l ∈ ls, s.stop = l.span.stop
  le : s.start ≤ s.stop

variable {s t u : Span} {ls : List Lexeme}

theorem covers_refl (s : Span) : s.Covers s := ⟨le_rfl, le_rfl⟩

theorem Covers.trans (h : s.Covers t) (h' : t.Covers u) : s.Covers u :=
  ⟨h.start.trans h'.start, h'.stop.trans h.stop⟩

/-- A merged span has the line and the column of the first one. -/
theorem merge_of_le (h : s.start ≤ t.start) :
    s.merge t = ⟨s.start, max s.stop t.stop, s.line, s.column⟩ := by
  simp [merge, h]

theorem IsOfWords.merge (hs : s.IsOfWords ls) (ht : t.IsOfWords ls) (hstart : s.start ≤ t.start)
    (hstop : s.stop ≤ t.stop) : (s.merge t).IsOfWords ls := by
  rw [merge_of_le hstart, max_eq_right hstop]
  exact ⟨hs.start, ht.stop, hs.le.trans hstop⟩

end Span

namespace Node

/-- The span of a node fits the words of the text, has those of the trees directly below it inside,
and these come one behind the other. -/
structure IsSpanned (ls : List Lexeme) (x : Node Span) : Prop where
  words : x.note.IsOfWords ls
  covers : ∀ y ∈ x.children, x.note.Covers y.note
  ordered : (x.children.map note).Pairwise Span.Before

end Node

/-! ### Words in order -/

/-- Some words come one behind the other. -/
structure Lexeme.IsLaidOut (ls : List Lexeme) : Prop where
  le : ∀ l ∈ ls, l.span.start ≤ l.span.stop
  ordered : (ls.map Lexeme.span).Pairwise Span.Before

theorem Lexeme.IsLaidOut.isOfWords {ls : List Lexeme} {l : Lexeme} (h : Lexeme.IsLaidOut ls)
    (hl : l ∈ ls) : l.span.IsOfWords ls :=
  ⟨⟨l, hl, rfl, rfl, rfl⟩, ⟨l, hl, rfl⟩, h.le l hl⟩

/-! ### What is held -/

/-- A part of a text that a parser holds. -/
inductive Held where
  /-- The place of a word. -/
  | word (s : Span)
  /-- What is complete. -/
  | tree (x : Node Span)

namespace Held

def span : Held → Span
  | word s => s
  | tree x => x.note

/-- The tree, where the part is complete. -/
def tree? : Held → Option (Node Span)
  | word _ => none
  | tree x => some x

/-- What is held fits the words of the text. -/
def Fits (ls : List Lexeme) : Held → Prop
  | word s => s.IsOfWords ls
  | tree x => x.Every (Node.IsSpanned ls)

theorem Fits.words {ls : List Lexeme} {h : Held} (hfits : h.Fits ls) : h.span.IsOfWords ls := by
  cases h with
  | word s => exact hfits
  | tree x => exact hfits.self.words

end Held

/-- The complete trees among what is held. -/
def completed (hs : List Held) : List (Node Span) := hs.filterMap Held.tree?

section Completed

variable {hs ws : List Held}

@[simp] theorem completed_nil : completed [] = [] := rfl

@[simp] theorem completed_append : completed (hs ++ ws) = completed hs ++ completed ws :=
  List.filterMap_append

@[simp] theorem completed_word (s : Span) : completed (.word s :: hs) = completed hs := rfl

@[simp] theorem completed_tree (x : Node Span) :
    completed (.tree x :: hs) = x :: completed hs :=
  rfl

theorem sublist_completed (hs : List Held) : ((completed hs).map Held.tree).Sublist hs := by
  induction hs with
  | nil => exact .slnil
  | cons h hs ih =>
      cases h with
      | word s => exact ih.cons _
      | tree x => exact ih.cons_cons _

end Completed

/-- A tree is made of parts: its span goes from the first to the last, and the trees directly below
it are those that are complete among them. -/
structure IsJoined (x : Node Span) (hs : List Held) : Prop where
  span : ∃ first last, hs.head? = some first ∧ hs.getLast? = some last ∧
    x.note = first.span.merge last.span
  children : completed hs = x.children

/-- **Words that are held are let go, and the last trees are joined.** -/
inductive Joins : List Held → List Held → Prop where
  | refl (hs : List Held) : Joins hs hs
  | drop (s : Span) : Joins [.word s] []
  | join {x : Node Span} {hs : List Held} (h : IsJoined x hs) : Joins hs [.tree x]
  | behind (us : List Held) {vs ws : List Held} (h : Joins vs ws) : Joins (us ++ vs) (us ++ ws)
  | before (s : Span) {vs ws : List Held} (h : Joins vs ws) :
      Joins (vs ++ [.word s]) (ws ++ [.word s])
  | trans {as bs cs : List Held} (h : Joins as bs) (h' : Joins bs cs) : Joins as cs

/-- What is held fits the words of a text, from the place `lo` to the place `hi`, in order. -/
structure InOrder (ls : List Lexeme) (lo hi : Nat) (hs : List Held) : Prop where
  fits : ∀ h ∈ hs, h.Fits ls
  lower : ∀ h ∈ hs, lo ≤ h.span.start
  upper : ∀ h ∈ hs, h.span.stop ≤ hi
  ordered : (hs.map Held.span).Pairwise Span.Before

namespace InOrder

variable {ls : List Lexeme} {lo hi : Nat} {us vs ws hs as bs : List Held} {x : Node Span}

theorem sublist (h : InOrder ls lo hi hs) (hsub : ws.Sublist hs) : InOrder ls lo hi ws :=
  ⟨fun w hw => h.fits w (hsub.subset hw), fun w hw => h.lower w (hsub.subset hw),
    fun w hw => h.upper w (hsub.subset hw), h.ordered.sublist (hsub.map _)⟩

/-- Nothing starts before the first of what is held. -/
theorem start_le (h : InOrder ls lo hi ws) {first : Held} (hfirst : ws.head? = some first) :
    ∀ w ∈ ws, first.span.start ≤ w.span.start := by
  obtain ⟨rest, rfl⟩ := List.head?_eq_some_iff.1 hfirst
  rw [List.forall_mem_cons]
  refine ⟨le_rfl, fun w hw => ?_⟩
  have hbefore := (List.pairwise_cons.1 h.ordered).1 _ (List.mem_map_of_mem hw)
  exact (h.fits first List.mem_cons_self).words.le.trans hbefore

/-- Nothing stops behind the last of what is held. -/
theorem le_stop (h : InOrder ls lo hi ws) {last : Held} (hlast : ws.getLast? = some last) :
    ∀ w ∈ ws, w.span.stop ≤ last.span.stop := by
  obtain ⟨front, rfl⟩ := List.getLast?_eq_some_iff.1 hlast
  rw [List.forall_mem_append, List.forall_mem_singleton]
  refine ⟨fun w hw => ?_, le_rfl⟩
  have hordered := h.ordered
  rw [List.map_append, List.pairwise_append] at hordered
  have hbefore := hordered.2.2 _ (List.mem_map_of_mem hw) last.span (by simp)
  exact le_trans hbefore (h.fits last (by simp)).words.le

/-- **A tree that is made of what is held in order fits**, and has its ends there. -/
theorem of_isJoined (h : InOrder ls lo hi ws) (hx : IsJoined x ws) :
    x.Every (Node.IsSpanned ls) ∧ (∃ w ∈ ws, x.note.start = w.span.start) ∧
      ∃ w ∈ ws, x.note.stop = w.span.stop := by
  obtain ⟨⟨first, last, hfirst, hlast, hnote⟩, hchildren⟩ := hx
  have hstart := h.start_le hfirst
  have hstop := h.le_stop hlast
  have hfirstmem := List.mem_of_head? hfirst
  have hlastmem := List.mem_of_getLast? hlast
  have hmerge := Span.merge_of_le (hstart last hlastmem)
  rw [max_eq_right (hstop first hfirstmem)] at hmerge
  have hsub : (x.children.map Held.tree).Sublist ws := hchildren ▸ sublist_completed ws
  have hbelow : ∀ y ∈ x.children, Held.tree y ∈ ws := fun y hy =>
    hsub.subset (List.mem_map_of_mem hy)
  have hspanned : x.IsSpanned ls := by
    constructor
    case words =>
      rw [hnote]
      exact (h.fits first hfirstmem).words.merge (h.fits last hlastmem).words
        (hstart last hlastmem) (hstop first hfirstmem)
    case covers =>
      intro y hy
      rw [hnote, hmerge]
      exact ⟨hstart _ (hbelow y hy), hstop _ (hbelow y hy)⟩
    case ordered =>
      have hordered := (h.sublist hsub).ordered
      rwa [List.map_map] at hordered
  rw [hnote, hmerge]
  exact ⟨Node.every_iff_children.2 ⟨hspanned, fun y hy => h.fits _ (hbelow y hy)⟩,
    ⟨first, hfirstmem, rfl⟩, ⟨last, hlastmem, rfl⟩⟩

theorem join (h : InOrder ls lo hi (us ++ (ws ++ vs))) (hx : IsJoined x ws) :
    InOrder ls lo hi (us ++ .tree x :: vs) := by
  have hws : InOrder ls lo hi ws := h.sublist (by simp)
  obtain ⟨hfits, ⟨first, hfirst, hstart⟩, ⟨last, hlast, hstop⟩⟩ := hws.of_isJoined hx
  have hrest : InOrder ls lo hi (us ++ vs) := h.sublist (by simp)
  -- what holds of all that is held holds of the tree and of the rest
  have hall : ∀ P : Held → Prop, P (.tree x) → (∀ w ∈ us ++ vs, P w) →
      ∀ w ∈ us ++ .tree x :: vs, P w := by
    intro P hP hothers w hw
    simp only [List.mem_append, List.mem_cons] at hw hothers
    rcases hw with hw | rfl | hw
    · exact hothers w (.inl hw)
    · exact hP
    · exact hothers w (.inr hw)
  refine ⟨hall _ hfits hrest.fits, hall _ (hstart ▸ hws.lower first hfirst) hrest.lower,
    hall _ (hstop ▸ hws.upper last hlast) hrest.upper, ?_⟩
  rw [List.map_append, List.map_cons, List.pairwise_append, List.pairwise_cons,
    List.forall_mem_map, List.forall_mem_map]
  have hordered := h.ordered
  rw [List.map_append, List.map_append, List.pairwise_append, List.pairwise_append,
    List.forall_mem_map, List.forall_mem_map] at hordered
  obtain ⟨hus, ⟨-, hvs, hbehind⟩, hbefore⟩ := hordered
  refine ⟨hus, ⟨fun v hv => ?_, hvs⟩, fun u hu t ht => ?_⟩
  · change x.note.stop ≤ v.span.start
    rw [hstop]
    exact hbehind last hlast _ (List.mem_map_of_mem hv)
  · rcases List.mem_cons.1 ht with rfl | ht
    · change u.span.stop ≤ x.note.start
      rw [hstart]
      exact hbefore u hu _ (List.mem_append_left _ (List.mem_map_of_mem hfirst))
    · exact hbefore u hu t (List.mem_append_right _ ht)

/-- **What is held stays in order** when some of it is let go or joined. -/
theorem of_joins (hjoins : Joins as bs) (us vs : List Held)
    (h : InOrder ls lo hi (us ++ (as ++ vs))) : InOrder ls lo hi (us ++ (bs ++ vs)) := by
  induction hjoins generalizing us vs with
  | refl => exact h
  | drop s => exact h.sublist (by simp)
  | join hx => exact h.join hx
  | behind ws _ ih => simpa using ih (us ++ ws) vs (by simpa using h)
  | before s _ ih => simpa using ih us (.word s :: vs) (by simpa using h)
  | trans _ _ ih ih' => exact ih' us vs (ih us vs h)

end InOrder

/-! ### What a parser holds -/

/-- Complete trees that are held. -/
def trees (xs : List (Node Span)) : List Held := xs.map .tree

@[simp] theorem trees_nil : trees [] = [] := rfl

@[simp] theorem trees_append (xs ys : List (Node Span)) :
    trees (xs ++ ys) = trees xs ++ trees ys := List.map_append

@[simp] theorem trees_cons (x : Node Span) (xs : List (Node Span)) :
    trees (x :: xs) = .tree x :: trees xs := rfl

@[simp] theorem completed_trees (xs : List (Node Span)) : completed (trees xs) = xs := by
  induction xs with
  | nil => rfl
  | cons x xs ih => rw [trees_cons, completed_tree, ih]

/-- The operators that await an operand, given innermost first, as their left sides. -/
def pendingHeld : List Pending → List Held
  | [] => []
  | p :: ps => pendingHeld ps ++ [.tree p.left]

/-- The signs before an operand, given innermost first. -/
def signsHeld : List (Span × UnaryOp) → List Held
  | [] => []
  | (s, _) :: signs => signsHeld signs ++ [.word s]

/-- The operators of a chain. -/
def Chain.held (chain : Chain) : List Held := pendingHeld chain.pending ++ signsHeld chain.signs

mutual

/-- What is held at a place in a list of statements. -/
def Body.held : Body → List Held
  | .unit done => trees done.reverse
  | .block start done outer => Hole.held outer ++ .word start :: trees done.reverse

/-- What is held at a place for an expression. -/
def Hole.held : Hole → List Held
  | .statement body => Body.held body
  | .returned start body => Body.held body ++ [.word start]
  | .group chain outer => Hole.held outer ++ chain.held
  | .argument callee done chain outer =>
    Hole.held outer ++ chain.held ++ .tree callee :: trees done.reverse
  | .condition start outer => Hole.held outer ++ [.word start]
  | .yes start c outer => Hole.held outer ++ [.word start, .tree c]
  | .no start c yes outer => Hole.held outer ++ [.word start, .tree c, .tree yes]
  | .loopCondition start outer => Hole.held outer ++ [.word start]
  | .loopBody start c outer => Hole.held outer ++ [.word start, .tree c]
  | .functionBody start prototype done => trees done.reverse ++ [.word start, .tree prototype]

end

/-- The heading of a function, after the items before it. -/
def Heading.held (h : Heading) : List Held :=
  trees h.done.reverse ++ [.word h.start, .word h.nameSpan]

@[simp] theorem Body.held_add (x : Node Span) (body : Body) :
    (body.add x).held = body.held ++ [.tree x] := by
  cases body <;> simp [Body.add, Body.held]

/-- **What the parser holds**, in source order. -/
def Awaiting.held : Awaiting → List Held
  | statement body => body.held
  | expression hole => hole.held
  | operand chain hole => hole.held ++ chain.held
  | afterOperand x _ chain hole => hole.held ++ chain.held ++ [.tree x]
  | afterExpression x hole => hole.held ++ [.tree x]
  | firstArgument callee chain hole => hole.held ++ chain.held ++ [.tree callee]
  | assemblyText start body => body.held ++ [.word start]
  | functionName start done => trees done.reverse ++ [.word start]
  | params h | firstParam h | param h | afterParam h => h.held

/-! ### Joining what is held -/

namespace Joins

variable {us vs ws : List Held} {x : Node Span} {s : Span}

/-- The last word is let go. -/
theorem dropLast (us : List Held) (s : Span) : Joins (us ++ [.word s]) us := by
  simpa using behind us (.drop s)

/-- The last word becomes a tree. -/
theorem leaf (us : List Held) (hchildren : x.children = []) :
    Joins (us ++ [.word x.note]) (us ++ [.tree x]) :=
  behind us (.join ⟨⟨_, _, rfl, rfl, by simp [Held.span, Span.merge]⟩, by simp [hchildren]⟩)

/-- A last stretch becomes a tree. -/
theorem made (us : List Held) {mid : List Held} {first last : Held}
    (hnote : x.note = first.span.merge last.span)
    (hchildren : completed (first :: (mid ++ [last])) = x.children) :
    Joins (us ++ first :: (mid ++ [last])) (us ++ [.tree x]) := by
  refine behind us (.join ⟨⟨first, last, rfl, ?_, hnote⟩, hchildren⟩)
  rw [← List.cons_append, List.getLast?_concat]

end Joins

namespace Chain

theorem joins_closeSigns (us : List Held) (x : Node Span) (signs : List (Span × UnaryOp)) :
    Joins (us ++ signsHeld signs ++ [.tree x]) (us ++ [.tree (closeSigns x signs)]) := by
  induction signs generalizing x with
  | nil => simpa [signsHeld, closeSigns] using Joins.refl (us ++ [.tree x])
  | cons s signs ih =>
      refine .trans ?_ (ih (.unary (s.1.merge x.note) s.2 x))
      simpa [signsHeld] using @Joins.made (.unary (s.1.merge x.note) s.2 x)
        (us ++ signsHeld signs) [] (.word s.1) (.tree x) rfl (by simp [Node.children])

/-- An operator with both sides is made of these. -/
theorem joins_close (us : List Held) (x : Node Span) (p : Pending) :
    Joins (us ++ [.tree p.left] ++ [.tree x]) (us ++ [.tree (p.close x)]) := by
  simpa using @Joins.made (p.close x) us [] (.tree p.left) (.tree x) rfl
    (by simp [Pending.close, Node.children])

theorem joins_closeAll (us : List Held) (x : Node Span) (pending : List Pending) :
    Joins (us ++ pendingHeld pending ++ [.tree x]) (us ++ [.tree (closeAll x pending)]) := by
  induction pending generalizing x with
  | nil => simpa [pendingHeld, closeAll] using Joins.refl (us ++ [.tree x])
  | cons p ps ih =>
      refine .trans ?_ (ih (p.close x))
      simpa [pendingHeld] using joins_close (us ++ pendingHeld ps) x p

theorem joins_settle (op : BinaryOp) (us : List Held) (x : Node Span) (floor : Nat)
    (pending : List Pending) : Joins (us ++ pendingHeld pending ++ [.tree x])
      (us ++ pendingHeld (settle op x floor pending)) := by
  induction pending generalizing x floor with
  | nil => simpa [settle, pendingHeld] using Joins.refl (us ++ [.tree x])
  | cons p ps ih =>
      rw [settle]
      split
      · rw [List.append_assoc]
        exact .refl _
      · refine .trans ?_ (ih (p.close x) p.floor)
        simpa [pendingHeld] using joins_close (us ++ pendingHeld ps) x p

/-- Behind an operator its left side is held, made of what it ended. -/
theorem joins_push (op : BinaryOp) (us : List Held) (x : Node Span) (pending : List Pending) :
    Joins (us ++ pendingHeld pending ++ [.tree x]) (us ++ pendingHeld (push op x pending)) := by
  cases pending with
  | nil => simpa [push, pendingHeld] using Joins.refl (us ++ [.tree x])
  | cons p ps =>
      rw [push]
      split
      · rw [List.append_assoc]
        exact .refl _
      · split
        · rw [List.append_assoc]
          exact .refl _
        · refine .trans ?_ (joins_settle op us (p.close x) p.floor ps)
          simpa [pendingHeld] using joins_close (us ++ pendingHeld ps) x p

end Chain

namespace Awaiting

/-! ### Reading a word -/

/-- **The outcome of reading `l` while `before` is held** is what holds this and the word, some of
it let go or joined. -/
def Gathers (before : List Held) (l : Lexeme) : Except ParseError Awaiting → Prop
  | .ok a => Joins (before ++ [.word l.span]) a.held
  | .error _ => True

section Step

variable {l : Lexeme} {x : Node Span} {chain : Chain} {hole : Hole} {body : Body}
  {before before' : List Held} {a : Awaiting} {r : Except ParseError Awaiting}

theorem Gathers.of_joins (h : Gathers before' l r) (hjoins : Joins before before') :
    Gathers before l r := by
  cases r with
  | ok a => exact .trans (.before l.span hjoins) h
  | error e => trivial

theorem gathers_error {e : ParseError} : Gathers before l (.error e) := True.intro

theorem gathers_kept (h : a.held = before ++ [.word l.span]) : Gathers before l (.ok a) := by
  rw [Gathers, h]
  exact .refl _

/-- The word is let go. -/
theorem gathers_dropped (h : a.held = before) : Gathers before l (.ok a) := by
  rw [Gathers, h]
  exact .dropLast before l.span

theorem gathers_leaf (h : a.held = before ++ [.tree x]) (hx : x.children = [])
    (hnote : x.note = l.span) : Gathers before l (.ok a) := by
  rw [Gathers, h, ← hnote]
  exact .leaf before hx

theorem gathers_startOperand (l : Lexeme) (chain : Chain) (hole : Hole) :
    Gathers (hole.held ++ chain.held) l (startOperand l chain hole) := by
  cases ht : l.token with
  | plus | minus | bang =>
      simp only [startOperand, ht]
      exact gathers_kept (by simp [held, Chain.held, signsHeld])
  | intLiteral | floatLiteral | charLiteral | identifier =>
      simp only [startOperand, ht]
      exact gathers_leaf rfl rfl rfl
  | leftParen =>
      simp only [startOperand, ht]
      exact gathers_dropped rfl
  | _ =>
      simp only [startOperand, ht]
      exact gathers_error

theorem gathers_startExpression (l : Lexeme) (hole : Hole) :
    Gathers hole.held l (startExpression l hole) := by
  unfold startExpression
  split
  case h_4 =>
    simpa [Chain.held, Chain.empty, pendingHeld, signsHeld] using
      gathers_startOperand l .empty hole
  all_goals exact gathers_kept rfl

theorem gathers_startStatement (l : Lexeme) (body : Body) :
    Gathers body.held l (startStatement l body) := by
  unfold startStatement
  split
  case h_1 | h_2 => exact gathers_leaf (Body.held_add _ _) rfl rfl
  case h_3 | h_4 => exact gathers_kept rfl
  case h_5 => exact gathers_startExpression l (.statement body)

theorem gathers_inBody (l : Lexeme) (body : Body) : Gathers body.held l (inBody l body) := by
  cases body with
  | unit done =>
      simp only [inBody]
      split
      · exact gathers_dropped rfl
      · exact gathers_kept rfl
      · exact gathers_startStatement l _
  | block start done outer =>
      simp only [inBody]
      split
      · have hmade := @Joins.made (.block (start.merge l.span) done.reverse) outer.held
          (trees done.reverse) (.word start) (.word l.span) rfl
          (by simp [Node.children])
        simpa [Gathers, Body.held, held] using hmade
      · exact gathers_error
      · exact gathers_startStatement l _

/-- The word behind a complete expression is read where a construct goes on. -/
theorem gathers_complete (x : Node Span) (l : Lexeme) (hole : Hole) :
    Gathers (hole.held ++ [.tree x]) l (complete x l hole) := by
  match hole with
  | .statement body =>
      simpa [complete, Hole.held] using gathers_inBody l (body.add x)
  | .returned start body =>
      refine (gathers_inBody l (body.add (.returnValue (start.merge x.note) x))).of_joins ?_
      simpa [Hole.held] using @Joins.made (.returnValue (start.merge x.note) x) body.held []
        (.word start) (.tree x) rfl (by simp [Node.children])
  | .group chain outer =>
      simp only [complete]
      split
      · exact gathers_dropped rfl
      · exact gathers_error
  | .argument callee done chain outer =>
      simp only [complete]
      split
      · exact gathers_dropped (by simp [held, Hole.held])
      · have hmade := @Joins.made (.call (callee.note.merge l.span) callee (x :: done).reverse)
          (outer.held ++ chain.held) (trees (x :: done).reverse) (.tree callee) (.word l.span) rfl
          (by simp [Node.children])
        simpa [Gathers, Hole.held, held] using hmade
      · exact gathers_error
  | .condition start outer =>
      simpa [complete, Hole.held] using gathers_startExpression l (.yes start x outer)
  | .yes start c outer =>
      simp only [complete]
      split
      · exact gathers_dropped (by simp [held, Hole.held])
      · refine (gathers_complete (.cond (start.merge x.note) c x none) l outer).of_joins ?_
        simpa [Hole.held] using @Joins.made (.cond (start.merge x.note) c x none) outer.held
          [.tree c] (.word start) (.tree x) rfl (by simp [Node.children])
  | .no start c yes outer =>
      simp only [complete]
      refine (gathers_complete (.cond (start.merge x.note) c yes (some x)) l outer).of_joins ?_
      simpa [Hole.held] using @Joins.made (.cond (start.merge x.note) c yes (some x)) outer.held
        [.tree c, .tree yes] (.word start) (.tree x) rfl (by simp [Node.children])
  | .loopCondition start outer =>
      simpa [complete, Hole.held] using gathers_startExpression l (.loopBody start x outer)
  | .loopBody start c outer =>
      simp only [complete]
      refine (gathers_complete (.loop (start.merge x.note) c x) l outer).of_joins ?_
      simpa [Hole.held] using @Joins.made (.loop (start.merge x.note) c x) outer.held
        [.tree c] (.word start) (.tree x) rfl (by simp [Node.children])
  | .functionBody start prototype done =>
      simp only [complete]
      refine (gathers_inBody l
        (.unit (.define (start.merge x.note) prototype x :: done))).of_joins ?_
      simpa [Hole.held, Body.held] using @Joins.made (.define (start.merge x.note) prototype x)
        (trees done.reverse) [.tree prototype] (.word start) (.tree x) rfl
        (by simp [Node.children])

theorem gathers_operate :
    Gathers (hole.held ++ chain.held ++ [.tree x]) l (operate x l chain hole) := by
  have hsigns := Chain.joins_closeSigns (hole.held ++ pendingHeld chain.pending) x chain.signs
  simp only [operate]
  split
  case h_1 op hop =>
    have hpush := Chain.joins_push op hole.held (Chain.closeSigns x chain.signs) chain.pending
    have hjoins := (Joins.before l.span (hsigns.trans hpush)).trans (.dropLast _ l.span)
    simpa [Gathers, held, Chain.held, signsHeld] using hjoins
  case h_2 =>
    refine (gathers_complete _ l hole).of_joins ?_
    have hall := Chain.joins_closeAll hole.held (Chain.closeSigns x chain.signs) chain.pending
    simpa [Chain.held] using hsigns.trans hall

/-- A name that is read is let go, as what holds it is no tree yet. -/
theorem gathers_name {f : String → Awaiting} (hf : ∀ name, (f name).held = before) :
    Gathers before l (l.name.map f) := by
  cases l.name with
  | error e => exact gathers_error
  | ok name => exact gathers_dropped (hf name)

/-- The heading of a function becomes its prototype. -/
theorem gathers_prototype (h : Heading) :
    Gathers h.held l (.ok (.expression (.functionBody h.start (h.prototype l.span) h.done))) := by
  have hmade := @Joins.made (h.prototype l.span) (trees h.done.reverse ++ [.word h.start]) []
    (.word h.nameSpan) (.word l.span) rfl (by simp [Heading.prototype, Node.children])
  simpa [Gathers, held, Hole.held, Heading.held] using hmade

/-- **A step joins what was held**, with the word that it reads behind it. -/
theorem gathers_step (l : Lexeme) (a : Awaiting) : Gathers a.held l (a.step l) := by
  cases a with
  | statement body => exact gathers_inBody l body
  | expression hole => exact gathers_startExpression l hole
  | operand chain hole => exact gathers_startOperand l chain hole
  | afterOperand x callable chain hole =>
      rw [step]
      split
      · exact gathers_dropped rfl
      · exact gathers_operate
  | afterExpression x hole => exact gathers_complete x l hole
  | firstArgument callee chain hole =>
      simp only [step]
      split
      · have hmade := @Joins.made (.call (callee.note.merge l.span) callee [])
          (hole.held ++ chain.held) [] (.tree callee) (.word l.span) rfl
          (by simp [Node.children])
        simpa [Gathers, held] using hmade
      · simpa [held, Hole.held] using
          gathers_startExpression l (.argument callee [] chain hole)
  | assemblyText start body =>
      simp only [step]
      split
      case h_1 text _ =>
        have hmade := @Joins.made (.assembly (start.merge l.span) text) body.held [] (.word start)
          (.word l.span) rfl (by simp [Node.children])
        simpa [Gathers, held] using hmade
      case h_2 => exact gathers_error
  | functionName start done =>
      simp only [step]
      cases l.name with
      | error e => exact gathers_error
      | ok name => exact gathers_kept (by simp [held, Heading.held])
  | params h =>
      simp only [step]
      split
      · exact gathers_dropped rfl
      · exact gathers_error
  | firstParam h =>
      simp only [step]
      split
      · exact gathers_prototype h
      · exact gathers_name fun _ => rfl
  | param h => exact gathers_name fun _ => rfl
  | afterParam h =>
      simp only [step]
      split
      · exact gathers_dropped rfl
      · exact gathers_prototype h
      · exact gathers_error

end Step

/-! ### Reading all words -/

section Run

variable {ls all : List Lexeme} {l : Lexeme} {a b : Awaiting} {lo hi : Nat} {hs : List Held}

/-- A word behind what is held is held in order with it. -/
theorem inOrder_concat (hlaid : Lexeme.IsLaidOut all) (h : InOrder all lo hi hs) (hl : l ∈ all)
    (hlo : lo ≤ l.span.start) (hhi : hi ≤ l.span.start) :
    InOrder all lo l.span.stop (hs ++ [.word l.span]) := by
  have hle := hlaid.le l hl
  constructor
  case fits =>
    exact List.forall_mem_append.2 ⟨h.fits, List.forall_mem_singleton.2 (hlaid.isOfWords hl)⟩
  case lower => exact List.forall_mem_append.2 ⟨h.lower, List.forall_mem_singleton.2 hlo⟩
  case upper =>
    exact List.forall_mem_append.2 ⟨fun w hw => ((h.upper w hw).trans hhi).trans hle,
      List.forall_mem_singleton.2 le_rfl⟩
  case ordered =>
    rw [List.map_append, List.pairwise_append, List.forall_mem_map]
    refine ⟨h.ordered, List.pairwise_singleton _ _, fun w hw => ?_⟩
    exact List.forall_mem_singleton.2 ((h.upper w hw).trans hhi)

/-- **A step keeps what is held in order.** -/
theorem inOrder_step (h : a.step l = .ok b) (hlaid : Lexeme.IsLaidOut all) (hl : l ∈ all)
    (hlo : lo ≤ l.span.start) (hhi : hi ≤ l.span.start) (ha : InOrder all lo hi a.held) :
    InOrder all lo l.span.stop b.held := by
  have hjoins := gathers_step l a
  rw [h] at hjoins
  simpa using InOrder.of_joins hjoins [] [] (by simpa using inOrder_concat hlaid ha hl hlo hhi)

/-- **A run keeps what is held in order.** -/
theorem inOrder_run (h : run ls a = .ok b) (hlaid : Lexeme.IsLaidOut all) (hwords : ls.Sublist all)
    (hlo : ∀ l ∈ ls, lo ≤ l.span.start) (hhi : ∀ l ∈ ls, hi ≤ l.span.start)
    (ha : InOrder all lo hi a.held) : ∃ hi', InOrder all lo hi' b.held := by
  induction ls generalizing a hi with
  | nil =>
      cases h
      exact ⟨hi, ha⟩
  | cons l ls ih =>
      have hl := hwords.subset List.mem_cons_self
      have hfirst := hlo l List.mem_cons_self
      have hnext := hhi l List.mem_cons_self
      rw [run] at h
      split at h
      · exact ⟨_, inOrder_step h hlaid hl hfirst hnext ha⟩
      · obtain ⟨c, hc, hrun⟩ := Step.except_bind_eq_ok.1 h
        have hordered := hlaid.ordered.sublist (hwords.map Lexeme.span)
        refine ih hrun ((List.sublist_cons_self l ls).trans hwords)
          (fun m hm => hlo m (.tail l hm)) (fun m hm => ?_)
          (inOrder_step hc hlaid hl hfirst hnext ha)
        exact (List.pairwise_cons.1 hordered).1 _ (List.mem_map_of_mem hm)

/-- The items of a text are held when it was read. -/
theorem inOrder_items (h : InOrder all lo hi a.held) : InOrder all lo hi (trees a.items) := by
  unfold Awaiting.items
  split
  · exact h
  · exact h.sublist (List.nil_sublist _)

end Run

end Awaiting

/-! ### The tree of a text -/

namespace Cursor

/-- No word starts or stops before the first one does. -/
theorem le_of_mem_lexemes {c : Cursor} (hlaid : Lexeme.IsLaidOut c.lexemes) {l : Lexeme}
    (hl : l ∈ c.lexemes) :
    c.current.span.start ≤ l.span.start ∧ c.current.span.stop ≤ l.span.stop := by
  rcases List.mem_cons.1 hl with rfl | hrest
  · exact ⟨le_rfl, le_rfl⟩
  · have hbefore : c.current.span.stop ≤ l.span.start :=
      (List.pairwise_cons.1 hlaid.ordered).1 _ (List.mem_map_of_mem hrest)
    exact ⟨(hlaid.le _ List.mem_cons_self).trans hbefore, hbefore.trans (hlaid.le l hl)⟩

/-- The span of the whole tree, from the first word to the last item. -/
def spanOf (c : Cursor) (items : List (Node Span)) : Span :=
  match items.getLast? with
  | some x => c.current.span.merge x.note
  | none => c.current.span

/-- The span of the whole tree fits, and has the items inside. -/
theorem isOfWords_spanOf {c : Cursor} {items : List (Node Span)} {hi : Nat}
    (hlaid : Lexeme.IsLaidOut c.lexemes)
    (h : InOrder c.lexemes c.current.span.start hi (trees items)) :
    (c.spanOf items).IsOfWords c.lexemes ∧ ∀ y ∈ items, (c.spanOf items).Covers y.note := by
  have hcurrent : c.current.span.IsOfWords c.lexemes := hlaid.isOfWords List.mem_cons_self
  unfold spanOf
  cases hlast : items.getLast? with
  | none => exact ⟨hcurrent, by simp [List.getLast?_eq_none_iff.1 hlast]⟩
  | some x =>
      have hx := List.mem_of_getLast? hlast
      have hwords := (h.fits _ (List.mem_map_of_mem hx)).words
      have hstart : c.current.span.start ≤ x.note.start := h.lower _ (List.mem_map_of_mem hx)
      -- the last item stops with a word, and no word stops before the first one
      have hstop : c.current.span.stop ≤ x.note.stop := by
        obtain ⟨l, hl, hlstop⟩ := hwords.stop
        exact ((le_of_mem_lexemes hlaid hl).2).trans_eq hlstop.symm
      refine ⟨hcurrent.merge hwords hstart hstop, fun y hy => ?_⟩
      have hlasttree : (trees items).getLast? = some (.tree x) := by
        rw [trees, List.getLast?_map, hlast]
        rfl
      simp only [Span.merge_of_le hstart, max_eq_right hstop]
      exact ⟨h.lower _ (List.mem_map_of_mem hy), h.le_stop hlasttree _ (List.mem_map_of_mem hy)⟩

/-- **The spans of the tree of a text fit its words.** -/
theorem every_isSpanned_parse {c : Cursor} {t : Node Span} (h : c.parse = .ok t)
    (hlaid : Lexeme.IsLaidOut c.lexemes) : t.Every (Node.IsSpanned c.lexemes) := by
  obtain ⟨a, hrun, h⟩ := Step.except_bind_eq_ok.1 h
  obtain rfl : Node.unit (c.spanOf a.items) a.items = t := Except.ok.inj h
  obtain ⟨hi, hheld⟩ := Awaiting.inOrder_run hrun hlaid (.refl _)
    (fun l hl => (le_of_mem_lexemes hlaid hl).1) (fun _ _ => Nat.zero_le _)
    ⟨nofun, nofun, nofun, .nil⟩
  have hitems := Awaiting.inOrder_items hheld
  obtain ⟨hwords, hcovers⟩ := isOfWords_spanOf hlaid hitems
  have hordered := hitems.ordered
  rw [trees, List.map_map] at hordered
  exact Node.every_unit.2 ⟨⟨hwords, hcovers, hordered⟩, fun y hy =>
    hitems.fits _ (List.mem_map_of_mem hy)⟩

end Cursor

end StackLang
