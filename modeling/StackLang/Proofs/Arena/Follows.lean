/-
**The arena that the parser makes.**

Read side by side, a text leads the parser of trees and the parser of places to the same constructs,
in which a tree here stands for the place of its root there; and at every moment the arena is full
with the trees that the open constructs hold.  So no node is left behind when a construct is
complete, and none is taken twice.

Main definitions:

* `Awaiting.map`, `Awaiting.trees` — what constructs hold;
* `Arena.IsFullOf` — an arena holds some trees, and nothing else;
* `Reading.Follows` — a step into an arena does what the same step does with trees.

Main results:

* `Reading.follows_step`, `Reading.follows_run` — **reading into an arena follows the parser**;
* `Cursor.read_of_parse`, `Cursor.read_of_error` — the arena of a text, or its error.
-/

import StackLang.Proofs.Arena.Parsed
import StackLang.Proofs.Arena.Reading

set_option relaxedAutoImplicit false
set_option autoImplicit false

namespace StackLang

open Node (identity)

/-! ### What constructs hold -/

section Contexts

variable {σ τ : Type}

def Pending.map (f : σ → τ) (p : Pending σ) : Pending τ := ⟨f p.left, p.op, p.floor⟩

@[simp] theorem Pending.op_map (f : σ → τ) (p : Pending σ) : (p.map f).op = p.op := rfl

@[simp] theorem Pending.floor_map (f : σ → τ) (p : Pending σ) : (p.map f).floor = p.floor := rfl

def Chain.map (f : σ → τ) (c : Chain σ) : Chain τ := ⟨c.signs, c.pending.map (Pending.map f)⟩

/-- The left sides of operators. -/
def Chain.lefts (ps : List (Pending τ)) : Multiset τ := ↑(ps.map Pending.left)

/-- The trees that a chain holds. -/
def Chain.trees (c : Chain τ) : Multiset τ := lefts c.pending

theorem Chain.lefts_nil : lefts ([] : List (Pending τ)) = 0 := rfl

theorem Chain.lefts_cons (p : Pending τ) (ps : List (Pending τ)) :
    lefts (p :: ps) = p.left ::ₘ lefts ps := rfl

mutual

def Body.map (f : σ → τ) : Body σ → Body τ
  | .unit done => .unit (done.map f)
  | .block start done outer => .block start (done.map f) (outer.map f)

def Hole.map (f : σ → τ) : Hole σ → Hole τ
  | .statement body => .statement (body.map f)
  | .returned start body => .returned start (body.map f)
  | .group chain outer => .group (chain.map f) (outer.map f)
  | .argument callee done chain outer =>
    .argument (f callee) (done.map f) (chain.map f) (outer.map f)
  | .condition start outer => .condition start (outer.map f)
  | .yes start c outer => .yes start (f c) (outer.map f)
  | .no start c y outer => .no start (f c) (f y) (outer.map f)
  | .loopCondition start outer => .loopCondition start (outer.map f)
  | .loopBody start c outer => .loopBody start (f c) (outer.map f)
  | .functionBody start p done => .functionBody start (f p) (done.map f)

end

mutual

/-- The trees that a list of statements and what is around it hold. -/
def Body.trees : Body τ → Multiset τ
  | .unit done => ↑done
  | .block _ done outer => ↑done + outer.trees

/-- The trees that a place for an expression and what is around it hold. -/
def Hole.trees : Hole τ → Multiset τ
  | .statement body | .returned _ body => body.trees
  | .group chain outer => chain.trees + outer.trees
  | .argument callee done chain outer => callee ::ₘ (↑done + (chain.trees + outer.trees))
  | .condition _ outer | .loopCondition _ outer => outer.trees
  | .yes _ c outer | .loopBody _ c outer => c ::ₘ outer.trees
  | .no _ c y outer => c ::ₘ y ::ₘ outer.trees
  | .functionBody _ p done => p ::ₘ ↑done

end

def Heading.map (f : σ → τ) (h : Heading σ) : Heading τ :=
  ⟨h.start, h.nameSpan, h.name, h.params, h.done.map f⟩

namespace Awaiting

def map (f : σ → τ) : Awaiting σ → Awaiting τ
  | statement body => statement (body.map f)
  | expression hole => expression (hole.map f)
  | operand chain hole => operand (chain.map f) (hole.map f)
  | afterOperand x callable chain hole => afterOperand (f x) callable (chain.map f) (hole.map f)
  | afterExpression x hole => afterExpression (f x) (hole.map f)
  | firstArgument callee chain hole => firstArgument (f callee) (chain.map f) (hole.map f)
  | assemblyText start body => assemblyText start (body.map f)
  | functionName start done => functionName start (done.map f)
  | params h => params (h.map f)
  | firstParam h => firstParam (h.map f)
  | param h => param (h.map f)
  | afterParam h => afterParam (h.map f)

/-- The trees that all that is open holds. -/
def trees : Awaiting τ → Multiset τ
  | statement body | assemblyText _ body => body.trees
  | expression hole => hole.trees
  | operand chain hole => chain.trees + hole.trees
  | afterOperand x _ chain hole | firstArgument x chain hole => x ::ₘ (chain.trees + hole.trees)
  | afterExpression x hole => x ::ₘ hole.trees
  | functionName _ done => ↑done
  | params h | firstParam h | param h | afterParam h => ↑h.done

end Awaiting

theorem Body.trees_add (x : τ) (body : Body τ) : (body.add x).trees = x ::ₘ body.trees := by
  cases body with
  | unit done => rfl
  | block start done outer =>
      rw [add, trees, trees, ← Multiset.cons_coe, Multiset.cons_add]

theorem Body.map_add (f : σ → τ) (x : σ) (body : Body σ) :
    (body.add x).map f = (body.map f).add (f x) := by
  cases body <;> simp [add, map]

theorem Awaiting.items_map (f : σ → τ) (a : Awaiting σ) : (a.map f).items = a.items.map f := by
  cases a with
  | statement body => cases body <;> simp [map, Body.map, items]
  | _ => rfl

end Contexts

/-! ### Full arenas -/

namespace Arena

variable {A : Arena} {xs ys : List (Node Mark)} {us vs : Multiset (Node Mark)} {x : Node Mark}

theorem IsFull.of_perm (h : A.IsFull xs) (hperm : xs.Perm ys) : A.IsFull ys :=
  ⟨fun x hx => h.holds x (hperm.mem_iff.2 hx), (hperm.flatMap_right _).symm.trans h.perm, h.blank⟩

/-- **An arena is full with some trees**, in any order. -/
def IsFullOf (A : Arena) (us : Multiset (Node Mark)) : Prop :=
  ∃ xs : List (Node Mark), ↑xs = us ∧ A.IsFull xs

theorem IsFullOf.shows (h : A.IsFullOf us) (hx : x ∈ us) : A.Shows x := by
  obtain ⟨xs, rfl, h⟩ := h
  exact (h.holds x (Multiset.mem_coe.1 hx)).self

/-- **A node that is made** takes the trees below it. -/
theorem IsFullOf.made {k : Kind (Node Mark)} (h : A.IsFullOf (↑k.children + vs)) (s : Span) :
    (A.push ⟨k.map identity, s, .empty⟩).IsFullOf (.ofKind ⟨A.size, s⟩ k ::ₘ vs) := by
  obtain ⟨us, rfl⟩ := Quot.exists_rep vs
  obtain ⟨xs, hxs, h⟩ := h
  have hperm : xs.Perm (us ++ k.children) :=
    (Multiset.coe_eq_coe.1 hxs).trans List.perm_append_comm
  refine ⟨us ++ [.ofKind ⟨A.size, s⟩ k], ?_, (h.of_perm hperm).made s⟩
  exact Multiset.coe_eq_coe.2 (List.perm_append_singleton _ _)

theorem isFullOf_empty : empty.IsFullOf 0 := ⟨[], rfl, nofun, .nil, nofun⟩

end Arena

namespace Reading

/-! ### Steps side by side -/

section Steps

variable {α β : Type} {m : Reading α} {f : α → Reading β} {A B : Arena} {a : α} {e : ParseError}

theorem bind_of_eq_ok (h : m A = some (.ok (a, B))) : (m >>= f) A = f a B := by
  change (m A >>= fun r => f r.1 r.2) = _
  rw [h]
  rfl

theorem bind_of_eq_error (h : m A = some (.error e)) : (m >>= f) A = some (.error e) := by
  change (m A >>= fun r => f r.1 r.2) = _
  rw [h]
  rfl

theorem make_eq (kind : Kind Nat) (span : Span) :
    make kind span A = some (.ok (A.size, A.push ⟨kind, span, .empty⟩)) := rfl

theorem spanAt_eq {k : Nat} {c : Cell} (h : A.cells[k]? = some c) :
    spanAt k A = some (.ok (c.span, A)) := by
  rw [spanAt, ofPass, Arena.bind_of_eq_some (Arena.cell_eq h)]
  rfl

end Steps

/-- The tree that stands at some places, with what its nodes extend over. -/
abbrev plain (x : Node Mark) : Node Span := x.map Mark.span

/-- **A step into an arena follows a step with trees**: from every arena that is full with the trees
`us` it fails as that step does, or both succeed with outcomes in the relation `R`, which depends on
the trees that the arena is full with then. -/
def Follows {α β : Type} (us : Multiset (Node Mark)) (m : Reading α) (x : Except ParseError β)
    (R : Multiset (Node Mark) → α → β → Prop) : Prop :=
  ∀ A : Arena, A.IsFullOf us → (∃ e, x = .error e ∧ m A = some (.error e)) ∨
    ∃ b a B vs, x = .ok b ∧ m A = some (.ok (a, B)) ∧ B.IsFullOf vs ∧ R vs a b

namespace Follows

variable {α α' β β' : Type} {us : Multiset (Node Mark)} (vs : Multiset (Node Mark)) {m : Reading α}
  {f : α → Reading β} {x : Except ParseError α'} {g : α' → Except ParseError β'}
  {y : Except ParseError β'} {R : Multiset (Node Mark) → α → α' → Prop}
  {S : Multiset (Node Mark) → β → β' → Prop}

protected theorem pure {a : α} {b : α'} (h : R us a b) : Follows us (pure a) (.ok b) R :=
  fun A hA => .inr ⟨b, a, A, us, rfl, rfl, hA, h⟩

protected theorem throw (e : ParseError) : Follows us (throw e : Reading α) (.error e) R :=
  fun _ _ => .inl ⟨e, rfl, rfl⟩

protected theorem bind (hm : Follows us m x R)
    (hf : ∀ vs a b, x = .ok b → R vs a b → Follows vs (f a) (g b) S) :
    Follows us (m >>= f) (x >>= g) S := by
  intro A hA
  rcases hm A hA with ⟨e, rfl, hrun⟩ | ⟨b, a, B, vs, rfl, hrun, hB, hR⟩
  · exact .inl ⟨e, rfl, bind_of_eq_error hrun⟩
  · rw [bind_of_eq_ok hrun]
    exact hf vs a b rfl hR B hB

/-- **A node is made** out of some of the trees. -/
theorem make {f : Nat → Reading β} (k : Kind (Node Mark)) {s : Span} (hus : us = ↑k.children + vs)
    (hf : ∀ z, plain z = .ofKind s (k.map plain) → Follows (z ::ₘ vs) (f z.identity) y S) :
    Follows us (make (k.map identity) s >>= f) y S := by
  intro A hA
  have hz : plain (.ofKind ⟨A.size, s⟩ k) = .ofKind s (k.map plain) := Node.map_ofKind _
  have hfollows := hf _ hz
  rw [Node.identity_ofKind] at hfollows
  rw [bind_of_eq_ok (make_eq _ s)]
  exact hfollows _ ((hus ▸ hA).made s)

/-- What one of the trees extends over is read. -/
theorem spanAt {f : Span → Reading β} {x : Node Mark} (hx : x ∈ us)
    (hf : Follows us (f (plain x).note) y S) : Follows us (spanAt x.identity >>= f) y S := by
  intro A hA
  obtain ⟨c, hc, -, hspan⟩ := hA.shows hx
  have hnote : (plain x).note = c.span := (Node.note_map Mark.span x).trans hspan.symm
  rw [bind_of_eq_ok (spanAt_eq hc), ← hnote]
  exact hf A hA

/-- A node is made that ends with one of the trees that it takes. -/
theorem makeTo {f : Nat → Reading β} (k : Kind (Node Mark)) {start : Span} {last : Node Mark}
    (hlast : last ∈ k.children) (hus : us = ↑k.children + vs)
    (hf : ∀ z, plain z = .ofKind (start.merge (plain last).note) (k.map plain) →
      Follows (z ::ₘ vs) (f z.identity) y S) :
    Follows us (makeTo start last.identity (k.map identity) >>= f) y S := by
  rw [Reading.makeTo, bind_assoc]
  refine .spanAt ?_ (.make vs k hus hf)
  rw [hus]
  exact Multiset.mem_add.2 (.inl (Multiset.mem_coe.2 hlast))

/-! #### Operators -/

variable {vs} {f : Nat → Reading β}

theorem close {x : Node Mark} {p : Pending (Node Mark)}
    (hf : ∀ z, plain z = Pending.close (plain x) (p.map plain) →
      Follows (z ::ₘ vs) (f z.identity) y S) :
    Follows (x ::ₘ p.left ::ₘ vs) (Reading.close x.identity (p.map identity) >>= f) y S := by
  rw [Reading.close, bind_assoc]
  refine .spanAt (by simp) (.makeTo vs (.binary p.op p.left x) (by simp [Kind.children]) ?_ hf)
  rw [Multiset.cons_swap]
  simp [Kind.children, ← Multiset.cons_coe]

theorem closeSigns {signs : List (Span × UnaryOp)} {x : Node Mark}
    (hf : ∀ z, plain z = Chain.closeSigns (plain x) signs →
      Follows (z ::ₘ vs) (f z.identity) y S) :
    Follows (x ::ₘ vs) (Reading.closeSigns x.identity signs >>= f) y S := by
  induction signs generalizing x with
  | nil =>
      rw [Reading.closeSigns, pure_bind]
      exact hf x rfl
  | cons s signs ih =>
      obtain ⟨start, op⟩ := s
      rw [Reading.closeSigns, bind_assoc]
      refine .makeTo vs (.unary op x) (by simp [Kind.children]) rfl fun z hz =>
        ih fun w hw => hf w ?_
      rw [hw, hz]
      rfl

theorem closeAll {ps : List (Pending (Node Mark))} {x : Node Mark}
    (hf : ∀ z, plain z = Chain.closeAll (plain x) (ps.map (Pending.map plain)) →
      Follows (z ::ₘ vs) (f z.identity) y S) :
    Follows (x ::ₘ (Chain.lefts ps + vs))
      (Reading.closeAll x.identity (ps.map (Pending.map identity)) >>= f) y S := by
  induction ps generalizing x with
  | nil =>
      rw [List.map_nil, Reading.closeAll, pure_bind, Chain.lefts_nil, zero_add]
      exact hf x rfl
  | cons p ps ih =>
      rw [List.map_cons, Reading.closeAll, bind_assoc, Chain.lefts_cons, Multiset.cons_add]
      refine .close fun z hz => ih fun w hw => hf w ?_
      rw [hw, hz]
      rfl

/-- The operators that do not admit the one that is read are made, on the same levels. -/
theorem settle {f : List (Pending Nat) → Reading β} {op : BinaryOp}
    {ps : List (Pending (Node Mark))} {x : Node Mark} {floor : Nat}
    (hf : ∀ qs : List (Pending (Node Mark)), qs.map (Pending.map plain) =
        Chain.settle op (plain x) floor (ps.map (Pending.map plain)) →
      Follows (Chain.lefts qs + vs) (f (qs.map (Pending.map identity))) y S) :
    Follows (x ::ₘ (Chain.lefts ps + vs))
      (Reading.settle op x.identity floor (ps.map (Pending.map identity)) >>= f) y S := by
  induction ps generalizing x floor with
  | nil =>
      rw [List.map_nil, Reading.settle, pure_bind, ← Multiset.cons_add]
      exact hf [⟨x, op, floor⟩] rfl
  | cons p ps ih =>
      rw [List.map_cons, Chain.settle] at hf
      rw [List.map_cons, Reading.settle]
      split
      case isTrue hfloor =>
        rw [if_pos hfloor] at hf
        rw [pure_bind, ← Multiset.cons_add]
        exact hf (⟨x, op, floor⟩ :: p :: ps) rfl
      case isFalse hfloor =>
        rw [if_neg hfloor] at hf
        rw [bind_assoc, Chain.lefts_cons, Multiset.cons_add]
        refine .close fun z hz => ih fun qs hqs => hf qs ?_
        rw [hqs, hz]
        rfl

theorem push {f : List (Pending Nat) → Reading β} {op : BinaryOp}
    {ps : List (Pending (Node Mark))} {x : Node Mark}
    (hf : ∀ qs : List (Pending (Node Mark)), qs.map (Pending.map plain) =
        Chain.push op (plain x) (ps.map (Pending.map plain)) →
      Follows (Chain.lefts qs + vs) (f (qs.map (Pending.map identity))) y S) :
    Follows (x ::ₘ (Chain.lefts ps + vs))
      (Reading.push op x.identity (ps.map (Pending.map identity)) >>= f) y S := by
  cases ps with
  | nil =>
      rw [List.map_nil, Reading.push, pure_bind, ← Multiset.cons_add]
      exact hf [⟨x, op, BinaryOp.loosest⟩] rfl
  | cons p ps =>
      rw [List.map_cons, Chain.push, Pending.op_map, Pending.floor_map] at hf
      rw [List.map_cons, Reading.push, Pending.op_map, Pending.floor_map]
      split
      case isTrue htight =>
        rw [if_pos htight] at hf
        rw [pure_bind, ← Multiset.cons_add]
        exact hf (⟨x, op, p.op.binding + 1⟩ :: p :: ps) rfl
      case isFalse htight =>
        rw [if_neg htight] at hf
        split
        case isTrue hright =>
          rw [if_pos hright] at hf
          rw [pure_bind, ← Multiset.cons_add]
          exact hf (⟨x, op, p.op.binding⟩ :: p :: ps) rfl
        case isFalse hright =>
          rw [if_neg hright] at hf
          rw [bind_assoc, Chain.lefts_cons, Multiset.cons_add]
          refine .close fun z hz => .settle fun qs hqs => hf qs ?_
          rw [hqs, hz]

end Follows

/-! ### Reading a word -/

/-- What is open on both sides is the same, and holds all the trees that the arena is full with. -/
def Stands (us : Multiset (Node Mark)) (a : Awaiting Nat) (b : Awaiting) : Prop :=
  ∃ c : Awaiting (Node Mark), us = c.trees ∧ a = c.map identity ∧ b = c.map plain

variable {l : Lexeme} {chain : Chain (Node Mark)} {hole : Hole (Node Mark)}
  {body : Body (Node Mark)}

theorem follows_operand {kind : Kind (Node Mark)} (hkind : kind.children = []) (callable : Bool) :
    Follows (chain.trees + hole.trees)
      (operand l (kind.map identity) callable (chain.map identity) (hole.map identity))
      (.ok (.afterOperand (.ofKind l.span (kind.map plain)) callable (chain.map plain)
        (hole.map plain))) Stands := by
  refine .make _ kind (by rw [hkind, Multiset.coe_nil, zero_add]) fun z hz => ?_
  rw [← hz]
  exact .pure ⟨.afterOperand z callable chain hole, rfl, rfl, rfl⟩

theorem follows_startOperand :
    Follows (chain.trees + hole.trees)
      (startOperand l (chain.map identity) (hole.map identity))
      (Awaiting.startOperand l (chain.map plain) (hole.map plain)) Stands := by
  have hsign : ∀ op, Follows (chain.trees + hole.trees)
      (pure (.operand ⟨(l.span, op) :: chain.signs, (chain.map identity).pending⟩
        (hole.map identity)))
      (.ok (.operand ⟨(l.span, op) :: chain.signs, (chain.map plain).pending⟩ (hole.map plain)))
      Stands :=
    fun op => .pure ⟨.operand ⟨(l.span, op) :: chain.signs, chain.pending⟩ hole, rfl, rfl, rfl⟩
  unfold startOperand Awaiting.startOperand
  generalize l.token = t
  cases t with
  | plus => exact hsign .plus
  | minus => exact hsign .minus
  | bang => exact hsign .not
  | intLiteral n => exact @follows_operand l chain hole (.literal (.int n)) rfl false
  | floatLiteral x => exact @follows_operand l chain hole (.literal (.float x)) rfl false
  | charLiteral c =>
      exact @follows_operand l chain hole (.literal (.int (Int32.ofNat c.toNat))) rfl false
  | identifier name => exact @follows_operand l chain hole (.identifier name) rfl true
  | leftParen => exact .pure ⟨.expression (.group chain hole), rfl, rfl, rfl⟩
  | _ => exact .throw _

theorem follows_startExpression :
    Follows hole.trees (startExpression l (hole.map identity))
      (Awaiting.startExpression l (hole.map plain)) Stands := by
  have hoperand := @follows_startOperand l ⟨[], []⟩ hole
  rw [show Chain.trees ⟨[], []⟩ + hole.trees = hole.trees from zero_add _] at hoperand
  unfold startExpression Awaiting.startExpression
  generalize l.token = t
  cases t with
  | leftBrace => exact .pure ⟨.statement (.block l.span [] hole), (zero_add _).symm, rfl, rfl⟩
  | ifWord => exact .pure ⟨.expression (.condition l.span hole), rfl, rfl, rfl⟩
  | whileWord => exact .pure ⟨.expression (.loopCondition l.span hole), rfl, rfl, rfl⟩
  | _ => exact hoperand

/-- A statement that is a single node is added to a list. -/
theorem follows_add {kind : Kind (Node Mark)} (hkind : kind.children = []) {s : Span} :
    Follows body.trees
      (do return .statement ((body.map identity).add (← make (kind.map identity) s)))
      (.ok (.statement ((body.map plain).add (.ofKind s (kind.map plain))))) Stands := by
  refine .make _ kind (by rw [hkind, Multiset.coe_nil, zero_add]) fun z hz => ?_
  rw [← hz]
  exact .pure ⟨.statement (body.add z), (body.trees_add z).symm, by
    rw [Awaiting.map, Body.map_add], by rw [Awaiting.map, Body.map_add]⟩

theorem follows_startStatement :
    Follows body.trees (startStatement l (body.map identity))
      (Awaiting.startStatement l (body.map plain)) Stands := by
  unfold startStatement Awaiting.startStatement
  generalize l.token = t
  cases t with
  | breakWord => exact @follows_add body .breakLoop rfl l.span
  | continueWord => exact @follows_add body .continueLoop rfl l.span
  | returnWord => exact .pure ⟨.expression (.returned l.span body), rfl, rfl, rfl⟩
  | asmWord => exact .pure ⟨.assemblyText l.span body, rfl, rfl, rfl⟩
  | _ => exact @follows_startExpression l (.statement body)

theorem follows_inBody :
    Follows body.trees (inBody l (body.map identity)) (Awaiting.inBody l (body.map plain))
      Stands := by
  have hstatement := @follows_startStatement l body
  cases body with
  | unit done =>
      rw [Body.map, Body.map, inBody, Awaiting.inBody]
      generalize l.token = t
      cases t with
      | eof => exact .pure ⟨.statement (.unit done), rfl, rfl, rfl⟩
      | defWord => exact .pure ⟨.functionName l.span done, rfl, rfl, rfl⟩
      | _ => exact hstatement
  | block start done outer =>
      rw [Body.map, Body.map, inBody, Awaiting.inBody]
      generalize l.token = t
      cases t with
      | rightBrace =>
          dsimp only
          rw [← List.map_reverse, ← List.map_reverse]
          refine .make outer.trees (.block done.reverse) (by simp [Body.trees, Kind.children])
            fun z hz => ?_
          have hz : plain z = .block (start.merge l.span) (done.reverse.map plain) := hz
          rw [← hz]
          exact .pure ⟨.afterExpression z outer, rfl, rfl, rfl⟩
      | eof => exact .throw _
      | _ => exact hstatement

theorem follows_call {callee : Node Mark} {args : List (Node Mark)} :
    Follows (callee ::ₘ (↑args + (chain.trees + hole.trees)))
      (call l callee.identity (args.map identity) (chain.map identity) (hole.map identity))
      (.ok (.afterOperand (.call ((plain callee).note.merge l.span) (plain callee)
        (args.map plain)) false (chain.map plain) (hole.map plain))) Stands := by
  refine .spanAt (Multiset.mem_cons_self _ _)
    (.make (chain.trees + hole.trees) (.call callee args) ?_ fun z hz => ?_)
  · rw [Kind.children, ← Multiset.cons_coe, Multiset.cons_add]
  · have hz : plain z = .call ((plain callee).note.merge l.span) (plain callee) (args.map plain) :=
      hz
    rw [← hz]
    exact .pure ⟨.afterOperand z false chain hole, rfl, rfl, rfl⟩

/-- **The word after a complete expression** closes the same constructs on both sides. -/
theorem follows_complete (x : Node Mark) (hole : Hole (Node Mark)) :
    Follows (x ::ₘ hole.trees) (complete x.identity l (hole.map identity))
      (Awaiting.complete (plain x) l (hole.map plain)) Stands := by
  -- the recursion is on the constructs that are closed: each takes what it holds into one node
  cases hole with
  | statement body =>
      rw [Hole.map, Hole.map, complete, Awaiting.complete, ← Body.map_add, ← Body.map_add,
        Hole.trees, ← Body.trees_add]
      exact follows_inBody
  | returned start body =>
      rw [Hole.map, Hole.map, complete, Awaiting.complete]
      refine .makeTo body.trees (.returnValue x) (by simp [Kind.children]) rfl fun z hz => ?_
      have hz : plain z = .returnValue (start.merge (plain x).note) (plain x) := hz
      rw [← hz, ← Body.map_add, ← Body.map_add, ← Body.trees_add]
      exact follows_inBody
  | group chain outer =>
      rw [Hole.map, Hole.map, complete, Awaiting.complete]
      generalize l.token = t
      cases t with
      | rightParen => exact .pure ⟨.afterOperand x true chain outer, rfl, rfl, rfl⟩
      | _ => exact .throw _
  | argument callee done chain outer =>
      rw [Hole.map, Hole.map, complete, Awaiting.complete]
      have hcall := @follows_call l chain outer callee (x :: done).reverse
      have htrees : (Hole.argument callee done chain outer).trees =
          callee ::ₘ (↑done + (chain.trees + outer.trees)) := rfl
      generalize l.token = t
      cases t with
      | comma =>
          refine .pure ⟨.expression (.argument callee (x :: done) chain outer), ?_, rfl, rfl⟩
          rw [htrees, Multiset.cons_swap, ← Multiset.cons_add]
          rfl
      | rightParen =>
          rw [htrees, Multiset.cons_swap, ← Multiset.cons_add]
          rw [Multiset.coe_reverse, List.map_reverse, List.map_reverse] at hcall
          exact hcall
      | _ => exact .throw _
  | condition start outer =>
      rw [Hole.map, Hole.map, complete, Awaiting.complete]
      exact @follows_startExpression l (.yes start x outer)
  | yes start c outer =>
      have hrest : Follows (x ::ₘ (Hole.yes start c outer).trees)
          (makeTo start x.identity (.cond c.identity x.identity none) >>= fun k =>
            complete k l (outer.map identity))
          (Awaiting.complete (.cond (start.merge (plain x).note) (plain c) (plain x) none) l
            (outer.map plain)) Stands := by
        refine .makeTo outer.trees (.cond c x none) (by simp [Kind.children]) ?_ fun z hz => ?_
        · rw [Hole.trees, Multiset.cons_swap]
          simp [Kind.children, ← Multiset.cons_coe]
        · have hz : plain z = .cond (start.merge (plain x).note) (plain c) (plain x) none := hz
          rw [← hz]
          exact follows_complete z outer
      rw [Hole.map, Hole.map, complete, Awaiting.complete]
      generalize l.token = t
      cases t with
      | elseWord =>
          refine .pure ⟨.expression (.no start c x outer), ?_, rfl, rfl⟩
          exact Multiset.cons_swap _ _ _
      | _ => exact hrest
  | no start c yes outer =>
      rw [Hole.map, Hole.map, complete, Awaiting.complete]
      refine .makeTo outer.trees (.cond c yes (some x)) (by simp [Kind.children]) ?_ fun z hz => ?_
      · rw [Hole.trees, Multiset.cons_swap x c, Multiset.cons_swap x yes]
        simp [Kind.children, ← Multiset.cons_coe]
      · have hz : plain z =
            .cond (start.merge (plain x).note) (plain c) (plain yes) (some (plain x)) := hz
        rw [← hz]
        exact follows_complete z outer
  | loopCondition start outer =>
      rw [Hole.map, Hole.map, complete, Awaiting.complete]
      exact @follows_startExpression l (.loopBody start x outer)
  | loopBody start c outer =>
      rw [Hole.map, Hole.map, complete, Awaiting.complete]
      refine .makeTo outer.trees (.loop c x) (by simp [Kind.children]) ?_ fun z hz => ?_
      · rw [Hole.trees, Multiset.cons_swap]
        simp [Kind.children, ← Multiset.cons_coe]
      · have hz : plain z = .loop (start.merge (plain x).note) (plain c) (plain x) := hz
        rw [← hz]
        exact follows_complete z outer
  | functionBody start p done =>
      rw [Hole.map, Hole.map, complete, Awaiting.complete]
      refine .makeTo ↑done (.define p x) (by simp [Kind.children]) ?_ fun z hz => ?_
      · rw [Hole.trees, Multiset.cons_swap]
        simp [Kind.children, ← Multiset.cons_coe]
      · have hz : plain z = .define (start.merge (plain x).note) (plain p) (plain x) := hz
        rw [← hz]
        exact @follows_inBody l (.unit (z :: done))

theorem follows_operate (x : Node Mark) :
    Follows (x ::ₘ (chain.trees + hole.trees))
      (operate x.identity l (chain.map identity) (hole.map identity))
      (Awaiting.operate (plain x) l (chain.map plain) (hole.map plain)) Stands := by
  refine .closeSigns fun z hz => ?_
  have hz : plain z = Chain.closeSigns (plain x) (chain.map plain).signs := hz
  rw [Awaiting.operate, ← hz]
  cases BinaryOp.ofToken? l.token with
  | some op =>
      refine .push fun qs hqs => ?_
      have hqs : qs.map (Pending.map plain) = Chain.push op (plain z) (chain.map plain).pending :=
        hqs
      dsimp only
      rw [← hqs]
      exact .pure ⟨.operand ⟨[], qs⟩ hole, rfl, rfl, rfl⟩
  | none =>
      refine .closeAll fun w hw => ?_
      have hw : plain w = Chain.closeAll (plain z) (chain.map plain).pending := hw
      dsimp only
      rw [← hw]
      exact follows_complete w hole

/-- A name is read, or it is not one on both sides. -/
theorem follows_name {us : Multiset (Node Mark)} {f : String → Awaiting Nat}
    {g : String → Awaiting} (hf : ∀ name, Stands us (f name) (g name)) :
    Follows us (do return f (← name l)) (l.name.map g) Stands := by
  unfold name
  cases l.name with
  | ok name => exact .pure (hf name)
  | error e => exact .throw e

theorem follows_heading {h : Heading (Node Mark)} :
    Follows ↑h.done (heading l (h.map identity))
      (.ok (.expression (.functionBody h.start ((h.map plain).prototype l.span)
        (h.map plain).done))) Stands := by
  refine .make ↑h.done (.prototype h.name h.params.reverse) (zero_add _).symm fun z hz => ?_
  have hz : plain z = (h.map plain).prototype l.span := hz
  rw [← hz]
  exact .pure ⟨.expression (.functionBody h.start z h.done), rfl, rfl, rfl⟩

/-- **Reading a word into an arena follows the parser.** -/
theorem follows_step (c : Awaiting (Node Mark)) :
    Follows c.trees (step l (c.map identity)) (Awaiting.step l (c.map plain)) Stands := by
  cases c with
  | statement body => exact follows_inBody
  | expression hole => exact follows_startExpression
  | operand chain hole => exact follows_startOperand
  | afterOperand x callable chain hole =>
      rw [Awaiting.map, Awaiting.map, step, Awaiting.step]
      split
      · exact .pure ⟨.firstArgument x chain hole, rfl, rfl, rfl⟩
      · exact follows_operate x
  | afterExpression x hole => exact follows_complete x hole
  | firstArgument callee chain hole =>
      have hcall := @follows_call l chain hole callee []
      have hfirst := @follows_startExpression l (.argument callee [] chain hole)
      rw [Multiset.coe_nil, zero_add] at hcall
      rw [Hole.trees, Multiset.coe_nil, zero_add] at hfirst
      rw [Awaiting.map, Awaiting.map, step, Awaiting.step]
      generalize l.token = t
      cases t with
      | rightParen => exact hcall
      | _ => exact hfirst
  | assemblyText start body =>
      rw [Awaiting.map, Awaiting.map, step, Awaiting.step]
      generalize l.token = t
      cases t with
      | stringLiteral s => exact @follows_add body (.assembly s) rfl (start.merge l.span)
      | _ => exact .throw _
  | functionName start done =>
      exact follows_name fun name => ⟨.params ⟨start, l.span, name, [], done⟩, rfl, rfl, rfl⟩
  | params h =>
      rw [Awaiting.map, Awaiting.map, step, Awaiting.step]
      generalize l.token = t
      cases t with
      | leftParen => exact .pure ⟨.firstParam h, rfl, rfl, rfl⟩
      | _ => exact .throw _
  | firstParam h =>
      have hname : Follows ↑h.done (do return .afterParam ((h.map identity).addParam (← name l)))
          (l.name.map fun p => .afterParam ((h.map plain).addParam p)) Stands :=
        follows_name fun p => ⟨.afterParam (h.addParam p), rfl, rfl, rfl⟩
      rw [Awaiting.map, Awaiting.map, step, Awaiting.step]
      generalize l.token = t
      cases t with
      | rightParen => exact follows_heading
      | _ => exact hname
  | param h => exact follows_name fun p => ⟨.afterParam (h.addParam p), rfl, rfl, rfl⟩
  | afterParam h =>
      rw [Awaiting.map, Awaiting.map, step, Awaiting.step]
      generalize l.token = t
      cases t with
      | comma => exact .pure ⟨.param h, rfl, rfl, rfl⟩
      | rightParen => exact follows_heading
      | _ => exact .throw _

/-- **Reading words into an arena follows the parser.** -/
theorem follows_run (ls : List Lexeme) (c : Awaiting (Node Mark)) :
    Follows c.trees (run ls (c.map identity)) (Awaiting.run ls (c.map plain)) Stands := by
  induction ls generalizing c with
  | nil => exact .pure ⟨c, rfl, rfl, rfl⟩
  | cons l ls ih =>
      rw [run, Awaiting.run]
      split
      · exact follows_step c
      · refine (follows_step c).bind fun vs a b _ h => ?_
        obtain ⟨d, rfl, rfl, rfl⟩ := h
        exact ih d

end Reading

namespace Cursor

open Reading

/-- When the text is over, its items are all that is held. -/
theorem trees_of_isOver {a : Awaiting (Node Mark)} (h : (a.map plain).IsOver) :
    a.trees = ↑a.items := by
  cases a with
  | statement body =>
      cases body with
      | unit done => exact (Multiset.coe_reverse done).symm
      | block start done outer => exact h.elim
  | _ => exact h.elim

/-- **The root is made** of some items. -/
theorem follows_makeRoot (c : Cursor) (xs : List (Node Mark)) :
    Follows ↑xs (c.makeRoot (xs.map identity))
      (.ok (.unit (c.spanOf (xs.map plain)) (xs.map plain)))
      fun vs k t => ∃ z, vs = {z} ∧ k = z.identity ∧ t = plain z := by
  have hend : ∀ z, plain z = .unit (c.spanOf (xs.map plain)) (xs.map plain) →
      Follows (z ::ₘ 0) (pure z.identity) (.ok (.unit (c.spanOf (xs.map plain)) (xs.map plain)))
        fun vs k t => ∃ z, vs = {z} ∧ k = z.identity ∧ t = plain z :=
    fun z hz => .pure ⟨z, rfl, rfl, hz.symm⟩
  rw [makeRoot, List.getLast?_map]
  cases hlast : xs.getLast? with
  | none =>
      dsimp only [Option.map_none]
      rw [← bind_pure (make _ _)]
      refine .make 0 (.unit xs) (add_zero _).symm fun z hz => hend z ?_
      rw [hz, spanOf, List.getLast?_map, hlast]
      rfl
  | some x =>
      dsimp only [Option.map_some]
      rw [← bind_pure (makeTo _ _ _)]
      refine .makeTo 0 (.unit xs) (List.mem_of_getLast? hlast) (add_zero _).symm
        fun z hz => hend z ?_
      rw [hz, spanOf, List.getLast?_map, hlast]
      rfl

/-- **Reading a text follows the parser.** -/
theorem follows_readRoot {c : Cursor} (heof : ∃ l ∈ c.lexemes, l.token = .eof) :
    Follows 0 c.readRoot c.parse fun vs k t => ∃ z, vs = {z} ∧ k = z.identity ∧ t = plain z := by
  refine (follows_run c.lexemes (.statement (.unit []))).bind fun vs a b hrun h => ?_
  obtain ⟨d, rfl, rfl, rfl⟩ := h
  rw [trees_of_isOver (Awaiting.isOver_run hrun heof), Awaiting.items_map, Awaiting.items_map]
  exact follows_makeRoot c d.items

variable {ls : List Lexeme} {t : Node Span} {e : ParseError}

/-- A text that cannot be read as a tree cannot be read into an arena, for the same reason. -/
theorem read_of_error (h : (ofLexemes ls).parse = .error e) :
    (ofLexemes ls).read .empty = some (.error e) := by
  rcases follows_readRoot (lexemes_ofLexemes ls ▸ exists_eof_close ls) _ Arena.isFullOf_empty with
    ⟨e', he', hread⟩ | ⟨t, k, A, vs, ht, -⟩
  · cases he'.symm.trans h
    exact bind_of_eq_error hread
  · cases ht.symm.trans h

/-- **The arena of a text** holds its tree, and nothing else, and nothing is recorded. -/
theorem read_of_parse (h : (ofLexemes ls).parse = .ok t) : ∃ A x,
    (ofLexemes ls).read .empty = some (.ok ((), A)) ∧ A.IsTree x ∧ plain x = t ∧
      x.identities.Perm (List.range A.size) ∧ ∀ c ∈ A.cells, c.annotations = .empty := by
  rcases follows_readRoot (lexemes_ofLexemes ls ▸ exists_eof_close ls) _ Arena.isFullOf_empty with
    ⟨e, he, -⟩ | ⟨t', k, A, vs, ht, hread, hA, x, rfl, rfl, rfl⟩
  · cases he.symm.trans h
  · cases ht.symm.trans h
    obtain ⟨xs, hxs, hfull⟩ := hA
    obtain rfl : xs = [x] := by simpa using hxs
    have hperm : x.identities.Perm (List.range A.size) := by simpa using hfull.perm
    refine ⟨{ A with root := some x.identity }, x, bind_of_eq_ok hread, ⟨rfl, ?_, ?_⟩, rfl, hperm,
      hfull.blank⟩
    · exact (hfull.holds x List.mem_cons_self).congr fun _ _ => rfl
    · exact hperm.nodup_iff.2 List.nodup_range

end Cursor

end StackLang
