/-
**Trees of source texts.**

The parser puts functions among the items of a text and nowhere else, and every name that it finds
is a word of the text, made of letters, digits and underscores.  Folding keeps this.

Main definitions:

* `Node.IsPlain` — an expression of a source text;
* `Node.IsItem`, `Node.IsSource` — an item and the whole of a source text.

Main results:

* `Lexeme.isSource_ofText` — words that are names are names of the source;
* `Cursor.isSource_parse`, `Compile.isSource_tree` — the parser makes the tree of a source text;
* `Node.isSource_fold` — folding a source text leaves one.
-/

import StackLang.Compile
import StackLang.Proofs.Tree.Fold
import StackLang.Proofs.Typing.Names

set_option relaxedAutoImplicit false
set_option autoImplicit false

namespace StackLang

namespace Node

variable {α β : Type}

/-- The root is one of an expression, and a name of the source if it is a name. -/
def IsPlainHead : Node α → Prop
  | identifier _ x => IsSourceName x
  | define .. | prototype .. | unit .. => False
  | _ => True

/-- An expression of a source text. -/
def IsPlain (x : Node α) : Prop := x.Every IsPlainHead

/-- An item of a source text. -/
def IsItem : Node α → Prop
  | define _ (prototype _ f ps) b => IsSourceName f ∧ (∀ p ∈ ps, IsSourceName p) ∧ b.IsPlain
  | x => x.IsPlain

/-- The tree of a source text. -/
def IsSource : Node α → Prop
  | unit _ is => ∀ x ∈ is, x.IsItem
  | _ => False

theorem IsPlain.isItem {x : Node α} (h : x.IsPlain) : x.IsItem := by
  cases x with
  | define n p b => exact absurd h.self (by simp [IsPlainHead])
  | _ => exact h

theorem isPlainHead_shape (x : Node α) : x.shape.IsPlainHead ↔ x.IsPlainHead := by
  cases x <;> simp [shape, map, IsPlainHead]

/-- Whether a tree is an expression of a source text depends on its shape. -/
@[simp] theorem isPlain_shape {x : Node α} : x.shape.IsPlain ↔ x.IsPlain := by
  rw [IsPlain, every_shape, IsPlain]
  simp only [isPlainHead_shape]

theorem IsPlain.of_shape {x : Node α} {y : Node β} (h : x.IsPlain) (hxy : y.shape = x.shape) :
    y.IsPlain := by
  rw [← isPlain_shape, hxy, isPlain_shape]
  exact h

theorem isItem_define {n : α} {p b : Node α} :
    (define n p b).IsItem ↔
      ∃ m f ps, p = prototype m f ps ∧ IsSourceName f ∧ (∀ x ∈ ps, IsSourceName x) ∧ b.IsPlain := by
  cases p with
  | prototype m f ps => simp [IsItem]
  | _ => simp [IsItem, IsPlain, IsPlainHead]

theorem isDefinition_number {β : Type} (f : Nat → α → β) (k : Nat) (x : Node α) :
    (x.number f k).1.isDefinition = x.isDefinition := by
  cases x <;> rfl

theorem isItem_of_not_isDefinition {x : Node α} (h : x.isDefinition = false) :
    x.IsItem ↔ x.IsPlain := by
  cases x <;> simp [isDefinition, IsItem] at h ⊢

/-- Whether a tree is an item of a source text depends on its shape. -/
@[simp] theorem isItem_shape {x : Node α} : x.shape.IsItem ↔ x.IsItem := by
  cases x with
  | define n p b =>
      have hb : (b.map fun _ => ()).IsPlain ↔ b.IsPlain := isPlain_shape
      cases p <;> simp [shape, map, isItem_define, hb]
  | _ => exact isPlain_shape

/-- Whether a tree is a source text depends on its shape. -/
@[simp] theorem isSource_shape {x : Node α} : x.shape.IsSource ↔ x.IsSource := by
  cases x with
  | unit n is =>
      have his : ∀ y : Node α, (y.map fun _ => ()).IsItem ↔ y.IsItem := fun y => isItem_shape
      simp [shape, map, IsSource, mapList_eq_map, his]
  | _ => simp [shape, map, IsSource]

theorem IsSource.of_shape {x : Node α} {y : Node β} (h : x.IsSource) (hxy : y.shape = x.shape) :
    y.IsSource := by
  rw [← isSource_shape, hxy, isSource_shape]
  exact h

/-! ### Folding -/

theorem isOfRoot_isPlainHead : IsOfRoot (@IsPlainHead α) := by
  constructor <;> intros <;> trivial

/-- Folding an expression leaves one. -/
theorem isPlain_fold (x : Node α) (h : x.IsPlain) : x.fold.1.IsPlain :=
  every_fold isOfRoot_isPlainHead x h

/-- An expression without the return at its end is one. -/
theorem isPlain_unwrapTail (x : Node α) (h : x.IsPlain) : x.unwrapTail.1.IsPlain :=
  every_unwrapTail isOfRoot_isPlainHead.isOfStem x h

theorem isItem_fold {x : Node α} (h : x.IsItem) : x.fold.1.IsItem := by
  cases x with
  | define n p b =>
      obtain ⟨m, f, ps, rfl, hf, hps, hb⟩ := isItem_define.1 h
      exact isItem_define.2 ⟨m, f, ps, rfl, hf, hps, isPlain_unwrapTail _ (isPlain_fold b hb)⟩
  | _ => exact (isPlain_fold _ h).isItem

/-- **Folding a source text leaves one.** -/
theorem isSource_fold {x : Node α} (h : x.IsSource) : x.fold.1.IsSource := by
  cases x with
  | unit n is =>
      have key : ∀ is : List (Node α), (∀ x ∈ is, x.IsItem) → ∀ x ∈ (foldList is).1, x.IsItem := by
        intro is
        induction is with
        | nil => exact fun h => h
        | cons x is ih =>
            intro h
            rw [List.forall_mem_cons] at h
            have hx := isItem_fold h.1
            have his := ih h.2
            simpa [foldList] using ⟨hx, his⟩
      exact key is h
  | _ => exact h.elim

end Node

/-! ### Words -/

namespace Lexeme

/-- A word that is a name is a name of the source. -/
def IsSource (l : Lexeme) : Prop := ∀ name, l.token = .identifier name → IsSourceName name

theorem isSourceName_ofName {c : Char} {cs : List Char} {name : String}
    (hc : Piece.isNameStart c = true) (hcs : ∀ d ∈ cs, Piece.isNamePart d = true)
    (h : Piece.ofName (c :: cs) = .word (.identifier name)) : IsSourceName name := by
  have hname : name = String.ofList (c :: cs) := by
    simp only [Piece.ofName, Piece.word.injEq] at h
    cases hk : Token.keyword? (String.ofList (c :: cs)) with
    | none =>
        rw [hk] at h
        exact (Token.identifier.inj h).symm
    | some t =>
        rw [hk, Option.getD_some] at h
        subst h
        unfold Token.keyword? at hk
        split at hk <;> cases hk
  exact ⟨c, cs, by rw [hname, String.toList_ofList], hc, hcs⟩

theorem ofNumber_ne_identifier {cs : List Char} {name : String} :
    Piece.ofNumber cs ≠ .word (.identifier name) := by
  unfold Piece.ofNumber
  simp only
  split <;> split_ifs <;> simp

theorem ofSymbol_ne_identifier {c : Char} {cs : List Char} {n : Nat} {name : String} :
    Piece.ofSymbol c cs ≠ (.word (.identifier name), n) := by
  intro h
  have hpair : ∀ d, Piece.pair? c d ≠ some (.identifier name) := by
    intro d hd
    unfold Piece.pair? at hd
    split_ifs at hd <;> cases hd
  have hsingle : Piece.single? c ≠ some (.identifier name) := by
    intro hd
    unfold Piece.single? at hd
    split at hd <;> cases hd
  unfold Piece.ofSymbol at h
  cases hb : cs.head?.bind (Piece.pair? c) with
  | some t =>
      rw [hb] at h
      obtain ⟨d, -, hd⟩ := Option.bind_eq_some_iff.1 hb
      obtain ⟨rfl, -⟩ : t = .identifier name ∧ 1 = n := by simpa using h
      exact hpair d hd
  | none =>
      cases hs : Piece.single? c with
      | none => simp [hb, hs] at h
      | some t =>
          obtain ⟨rfl, -⟩ : t = .identifier name ∧ 0 = n := by simpa [hb, hs] using h
          exact hsingle hs

theorem isSourceName_scan {c : Char} {cs : List Char} {n : Nat} {name : String}
    (h : Piece.scan c cs = (.word (.identifier name), n)) : IsSourceName name := by
  unfold Piece.scan at h
  split_ifs at h with h₁ h₂ h₃ h₄ h₅ h₆
  · cases h
  · cases h
  · exact absurd (Prod.mk.inj h).1 ofNumber_ne_identifier
  · exact isSourceName_ofName h₄ (fun d hd => (List.mem_takeWhile_imp hd)) (Prod.mk.inj h).1
  · have hword := (Prod.mk.inj h).1
    split_ifs at hword
    all_goals cases hword
  · split at h
    all_goals cases h
  · exact absurd h ofSymbol_ne_identifier

theorem isSource_itemsFrom {p : Position} {text : List Char} {l : Lexeme}
    (h : .ok l ∈ itemsFrom p text) : l.IsSource := by
  induction hn : text.length using Nat.strong_induction_on generalizing p text with
  | _ n ih =>
      cases text with
      | nil =>
          rw [itemsFrom] at h
          cases h
      | cons c cs =>
          have hlt : (cs.drop (Piece.scan c cs).2).length < n := by
            rw [← hn, List.length_cons, List.length_drop]
            omega
          rw [itemsFrom] at h
          cases hpiece : (Piece.scan c cs).1 with
          | skipped =>
              simp only [hpiece] at h
              exact ih _ hlt h rfl
          | fault cause =>
              simp only [hpiece, List.mem_cons, reduceCtorEq, false_or] at h
              exact ih _ hlt h rfl
          | word t =>
              simp only [hpiece, List.mem_cons, Except.ok.injEq] at h
              rcases h with rfl | h
              · rintro name rfl
                exact isSourceName_scan (Prod.ext hpiece rfl)
              · exact ih _ hlt h rfl

/-- **Words that are names are names of the source.** -/
theorem isSource_ofText {text : String} {ls : List Lexeme} (h : ofText text = .ok ls) :
    ∀ l ∈ ls, l.IsSource := by
  unfold ofText at h
  simp only at h
  split_ifs at h
  cases h
  intro l hl
  rcases List.mem_append.1 hl with hl | hl
  · obtain ⟨item, hitem, hok⟩ := List.mem_filterMap.1 hl
    cases item with
    | error e => cases hok
    | ok l' =>
        cases hok
        exact isSource_itemsFrom hitem
  · rw [List.mem_singleton.1 hl]
    rintro name hname
    cases hname

end Lexeme

/-! ### The parser -/

open Node

/-- The operators that await an operand have expressions of the source on their left. -/
def Chain.IsSource (c : Chain) : Prop := ∀ p ∈ c.pending, p.left.IsPlain

/-- The heading of a function, as a tree. -/
def Node.IsHeading {α : Type} : Node α → Prop
  | .prototype _ f ps => IsSourceName f ∧ ∀ p ∈ ps, IsSourceName p
  | _ => False

mutual

/-- The complete statements of an open list are those of a source text. -/
def Body.IsSource : Body → Prop
  | .unit done => ∀ x ∈ done, x.IsItem
  | .block _ done outer => (∀ x ∈ done, x.IsPlain) ∧ outer.IsSource

/-- What is complete around a place is that of a source text. -/
def Hole.IsSource : Hole → Prop
  | .statement body | .returned _ body => body.IsSource
  | .group chain outer => chain.IsSource ∧ outer.IsSource
  | .argument callee done chain outer =>
    callee.IsPlain ∧ (∀ x ∈ done, x.IsPlain) ∧ chain.IsSource ∧ outer.IsSource
  | .condition _ outer | .loopCondition _ outer => outer.IsSource
  | .yes _ c outer | .loopBody _ c outer => c.IsPlain ∧ outer.IsSource
  | .no _ c yes outer => c.IsPlain ∧ yes.IsPlain ∧ outer.IsSource
  | .functionBody _ p done => p.IsHeading ∧ ∀ x ∈ done, x.IsItem

end

/-- What is complete of a heading is that of a source text. -/
def Heading.IsSource (h : Heading) : Prop :=
  IsSourceName h.name ∧ (∀ p ∈ h.params, IsSourceName p) ∧ ∀ x ∈ h.done, x.IsItem

/-- What has been read is the start of a source text. -/
def Awaiting.IsSource : Awaiting → Prop
  | .statement body | .assemblyText _ body => body.IsSource
  | .expression hole => hole.IsSource
  | .operand chain hole => chain.IsSource ∧ hole.IsSource
  | .afterOperand x _ chain hole => x.IsPlain ∧ chain.IsSource ∧ hole.IsSource
  | .afterExpression x hole => x.IsPlain ∧ hole.IsSource
  | .firstArgument callee chain hole => callee.IsPlain ∧ chain.IsSource ∧ hole.IsSource
  | .functionName _ done => ∀ x ∈ done, x.IsItem
  | .params h | .firstParam h | .param h | .afterParam h => h.IsSource

section Parser

variable {l : Lexeme} {x : Node Span} {a : Awaiting}

theorem Body.IsSource.add {body : Body} (h : body.IsSource) (hx : x.IsPlain) :
    (body.add x).IsSource := by
  cases body with
  | unit done =>
      intro y hy
      rcases List.mem_cons.1 hy with rfl | hy
      · exact hx.isItem
      · exact h y hy
  | block start done outer =>
      refine ⟨fun y hy => ?_, h.2⟩
      rcases List.mem_cons.1 hy with rfl | hy
      · exact hx
      · exact h.1 y hy

theorem isPlain_closeSigns {signs : List (Span × UnaryOp)} (hx : x.IsPlain) :
    (Chain.closeSigns x signs).IsPlain := by
  induction signs generalizing x with
  | nil => exact hx
  | cons s signs ih => exact ih (by simpa [IsPlain, IsPlainHead] using hx)

theorem isPlain_close {p : Pending} (hp : p.left.IsPlain) (hx : x.IsPlain) :
    (p.close x).IsPlain := by
  simpa [Pending.close, IsPlain, IsPlainHead] using ⟨hp, hx⟩

theorem isPlain_closeAll {ps : List Pending} (hps : ∀ p ∈ ps, p.left.IsPlain) (hx : x.IsPlain) :
    (Chain.closeAll x ps).IsPlain := by
  induction ps generalizing x with
  | nil => exact hx
  | cons p ps ih =>
      rw [List.forall_mem_cons] at hps
      exact ih hps.2 (isPlain_close hps.1 hx)

theorem isPlain_settle {op : BinaryOp} {floor : Nat} {ps : List Pending}
    (hps : ∀ p ∈ ps, p.left.IsPlain) (hx : x.IsPlain) :
    ∀ p ∈ Chain.settle op x floor ps, p.left.IsPlain := by
  induction ps generalizing x floor with
  | nil => simpa [Chain.settle] using hx
  | cons p ps ih =>
      rw [Chain.settle]
      rw [List.forall_mem_cons] at hps
      split
      · simpa using ⟨hx, hps⟩
      · exact ih hps.2 (isPlain_close hps.1 hx)

theorem isPlain_push {op : BinaryOp} {ps : List Pending}
    (hps : ∀ p ∈ ps, p.left.IsPlain) (hx : x.IsPlain) :
    ∀ p ∈ Chain.push op x ps, p.left.IsPlain := by
  cases ps with
  | nil => simpa [Chain.push] using hx
  | cons p ps =>
      rw [Chain.push]
      rw [List.forall_mem_cons] at hps
      split
      · simpa using ⟨hx, hps⟩
      · split
        · simpa using ⟨hx, hps⟩
        · exact isPlain_settle hps.2 (isPlain_close hps.1 hx)

theorem isSource_startOperand {chain : Chain} {hole : Hole} (hl : l.IsSource)
    (hchain : chain.IsSource) (hhole : hole.IsSource)
    (h : Awaiting.startOperand l chain hole = .ok a) : a.IsSource := by
  have hoperand : ∀ signs, (Awaiting.operand { chain with signs } hole).IsSource :=
    fun _ => ⟨hchain, hhole⟩
  cases htoken : l.token with
  | plus | minus | bang =>
      simp only [Awaiting.startOperand, htoken, Except.ok.injEq] at h
      exact h ▸ hoperand _
  | intLiteral n | floatLiteral x | charLiteral c =>
      simp only [Awaiting.startOperand, htoken, Except.ok.injEq] at h
      subst h
      exact ⟨by simp [IsPlain, IsPlainHead], hchain, hhole⟩
  | identifier name =>
      simp only [Awaiting.startOperand, htoken, Except.ok.injEq] at h
      subst h
      exact ⟨by simpa [IsPlain, IsPlainHead] using hl name htoken, hchain, hhole⟩
  | leftParen =>
      simp only [Awaiting.startOperand, htoken, Except.ok.injEq] at h
      subst h
      rw [Awaiting.IsSource, Hole.IsSource]
      exact ⟨hchain, hhole⟩
  | _ => simp only [Awaiting.startOperand, htoken, reduceCtorEq] at h

theorem isSource_startExpression {hole : Hole} (hl : l.IsSource) (hhole : hole.IsSource)
    (h : Awaiting.startExpression l hole = .ok a) : a.IsSource := by
  unfold Awaiting.startExpression at h
  split at h
  · cases h
    exact ⟨by simp, hhole⟩
  · cases h
    exact hhole
  · cases h
    exact hhole
  · exact isSource_startOperand hl (by simp [Chain.IsSource, Chain.empty]) hhole h

theorem isSource_startStatement {body : Body} (hl : l.IsSource) (hbody : body.IsSource)
    (h : Awaiting.startStatement l body = .ok a) : a.IsSource := by
  unfold Awaiting.startStatement at h
  split at h
  · cases h
    exact hbody.add (by simp [IsPlain, IsPlainHead])
  · cases h
    exact hbody.add (by simp [IsPlain, IsPlainHead])
  · cases h
    exact hbody
  · cases h
    exact hbody
  · refine isSource_startExpression hl ?_ h
    rw [Hole.IsSource]
    exact hbody

theorem isSource_inBody {body : Body} (hl : l.IsSource) (hbody : body.IsSource)
    (h : Awaiting.inBody l body = .ok a) : a.IsSource := by
  cases body with
  | unit done =>
      simp only [Awaiting.inBody] at h
      split at h
      · cases h
        exact hbody
      · cases h
        exact hbody
      · exact isSource_startStatement hl hbody h
  | block start done outer =>
      simp only [Awaiting.inBody] at h
      split at h
      · cases h
        refine ⟨?_, hbody.2⟩
        simpa [IsPlain, IsPlainHead] using hbody.1
      · cases h
      · exact isSource_startStatement hl hbody h

theorem isSource_complete {x : Node Span} {hole : Hole} (hl : l.IsSource) (hx : x.IsPlain)
    (hhole : hole.IsSource) (h : Awaiting.complete x l hole = .ok a) : a.IsSource := by
  match hole with
  | .statement body =>
      rw [Awaiting.complete] at h
      exact isSource_inBody hl (Body.IsSource.add (by simpa [Hole.IsSource] using hhole) hx) h
  | .returned start body =>
      rw [Awaiting.complete] at h
      refine isSource_inBody hl (Body.IsSource.add (by simpa [Hole.IsSource] using hhole) ?_) h
      simpa [IsPlain, IsPlainHead] using hx
  | .group chain outer =>
      simp only [Awaiting.complete] at h
      rw [Hole.IsSource] at hhole
      split at h
      · cases h
        exact ⟨hx, hhole⟩
      · cases h
  | .argument callee done chain outer =>
      simp only [Awaiting.complete] at h
      rw [Hole.IsSource] at hhole
      obtain ⟨hcallee, hdone, hchain, houter⟩ := hhole
      split at h
      · cases h
        refine ⟨hcallee, ?_, hchain, houter⟩
        simpa using ⟨hx, hdone⟩
      · cases h
        refine ⟨?_, hchain, houter⟩
        simpa [IsPlain, IsPlainHead, or_imp, forall_and] using ⟨hcallee, hdone, hx⟩
      · cases h
  | .condition start outer =>
      rw [Awaiting.complete] at h
      rw [Hole.IsSource] at hhole
      exact isSource_startExpression hl (by rw [Hole.IsSource]; exact ⟨hx, hhole⟩) h
  | .yes start c outer =>
      simp only [Awaiting.complete] at h
      rw [Hole.IsSource] at hhole
      split at h
      · cases h
        exact ⟨hhole.1, hx, hhole.2⟩
      · refine isSource_complete hl ?_ hhole.2 h
        simpa [IsPlain, IsPlainHead] using ⟨hhole.1, hx⟩
  | .no start c yes outer =>
      rw [Awaiting.complete] at h
      rw [Hole.IsSource] at hhole
      refine isSource_complete hl ?_ hhole.2.2 h
      simpa [IsPlain, IsPlainHead] using ⟨hhole.1, hhole.2.1, hx⟩
  | .loopCondition start outer =>
      rw [Awaiting.complete] at h
      rw [Hole.IsSource] at hhole
      exact isSource_startExpression hl (by rw [Hole.IsSource]; exact ⟨hx, hhole⟩) h
  | .loopBody start c outer =>
      rw [Awaiting.complete] at h
      rw [Hole.IsSource] at hhole
      refine isSource_complete hl ?_ hhole.2 h
      simpa [IsPlain, IsPlainHead] using ⟨hhole.1, hx⟩
  | .functionBody start p done =>
      rw [Awaiting.complete] at h
      rw [Hole.IsSource] at hhole
      refine isSource_inBody hl ?_ h
      intro y hy
      rcases List.mem_cons.1 hy with rfl | hy
      · cases p with
        | prototype n f ps => exact ⟨hhole.1.1, hhole.1.2, hx⟩
        | _ => exact hhole.1.elim
      · exact hhole.2 y hy

theorem isSource_operate {chain : Chain} {hole : Hole} (hl : l.IsSource) (hx : x.IsPlain)
    (hchain : chain.IsSource) (hhole : hole.IsSource)
    (h : Awaiting.operate x l chain hole = .ok a) : a.IsSource := by
  simp only [Awaiting.operate] at h
  split at h
  · cases h
    exact ⟨isPlain_push hchain (isPlain_closeSigns hx), hhole⟩
  · exact isSource_complete hl (isPlain_closeAll hchain (isPlain_closeSigns hx)) hhole h

theorem isSourceName_name {name : String} (hl : l.IsSource) (h : l.name = .ok name) :
    IsSourceName name := by
  unfold Lexeme.name at h
  split at h
  case h_1 name' htoken =>
    cases h
    exact hl _ htoken
  case h_2 => cases h

theorem Heading.IsSource.addParam {head : Heading} {p : String} (h : head.IsSource)
    (hp : IsSourceName p) : (head.addParam p).IsSource :=
  ⟨h.1, by simpa [Heading.addParam] using ⟨hp, h.2.1⟩, h.2.2⟩

theorem Heading.IsSource.functionBody {head : Heading} (h : head.IsSource) (start stop : Span) :
    (Hole.functionBody start (head.prototype stop) head.done).IsSource := by
  rw [Hole.IsSource]
  exact ⟨⟨h.1, by simpa using h.2.1⟩, h.2.2⟩

/-- **A word that is read leaves the start of a source text.** -/
theorem isSource_step {b : Awaiting} (hl : l.IsSource) (hb : b.IsSource) (h : b.step l = .ok a) :
    a.IsSource := by
  cases b with
  | statement body => exact isSource_inBody hl hb h
  | expression hole => exact isSource_startExpression hl hb h
  | operand chain hole => exact isSource_startOperand hl hb.1 hb.2 h
  | afterOperand x callable chain hole =>
      rw [Awaiting.step] at h
      split at h
      · cases h
        exact hb
      · exact isSource_operate hl hb.1 hb.2.1 hb.2.2 h
  | afterExpression x hole => exact isSource_complete hl hb.1 hb.2 h
  | firstArgument callee chain hole =>
      simp only [Awaiting.step] at h
      split at h
      · cases h
        refine ⟨?_, hb.2⟩
        simpa [IsPlain, IsPlainHead] using hb.1
      · exact isSource_startExpression hl
          (by rw [Hole.IsSource]; exact ⟨hb.1, by simp, hb.2⟩) h
  | assemblyText start body =>
      simp only [Awaiting.step] at h
      split at h
      · cases h
        exact Body.IsSource.add hb (by simp [IsPlain, IsPlainHead])
      · cases h
  | functionName start done =>
      simp only [Awaiting.step] at h
      cases hname : l.name with
      | error e => simp [hname, Except.map] at h
      | ok name =>
          simp only [hname, Except.map, Except.ok.injEq] at h
          subst h
          exact ⟨isSourceName_name hl hname, by simp, hb⟩
  | params head =>
      simp only [Awaiting.step] at h
      split at h
      · cases h
        exact hb
      · cases h
  | firstParam head =>
      simp only [Awaiting.step] at h
      split at h
      · cases h
        exact Heading.IsSource.functionBody hb head.start l.span
      · cases hname : l.name with
        | error e => simp [hname, Except.map] at h
        | ok name =>
            simp only [hname, Except.map, Except.ok.injEq] at h
            subst h
            exact hb.addParam (isSourceName_name hl hname)
  | param head =>
      simp only [Awaiting.step] at h
      cases hname : l.name with
      | error e => simp [hname, Except.map] at h
      | ok name =>
          simp only [hname, Except.map, Except.ok.injEq] at h
          subst h
          exact hb.addParam (isSourceName_name hl hname)
  | afterParam head =>
      simp only [Awaiting.step] at h
      split at h
      · cases h
        exact hb
      · cases h
        exact Heading.IsSource.functionBody hb head.start l.span
      · cases h

theorem isSource_run {ls : List Lexeme} {b : Awaiting} (hls : ∀ l ∈ ls, l.IsSource)
    (hb : b.IsSource) (h : Awaiting.run ls b = .ok a) : a.IsSource := by
  induction ls generalizing b with
  | nil =>
      cases h
      exact hb
  | cons l ls ih =>
      rw [List.forall_mem_cons] at hls
      rw [Awaiting.run] at h
      split at h
      · exact isSource_step hls.1 hb h
      · cases hstep : b.step l with
        | error e =>
            rw [hstep] at h
            cases h
        | ok b' =>
            rw [hstep] at h
            exact ih hls.2 (isSource_step hls.1 hb hstep) h

/-- **The parser makes the tree of a source text.** -/
theorem Cursor.isSource_parse {c : Cursor} {t : Node Span} (hc : ∀ l ∈ c.lexemes, l.IsSource)
    (h : c.parse = .ok t) : t.IsSource := by
  unfold Cursor.parse at h
  cases hrun : Awaiting.run c.lexemes .start with
  | error e =>
      rw [hrun] at h
      cases h
  | ok a =>
      rw [hrun] at h
      cases h
      have ha : a.IsSource := isSource_run hc (by simp [Awaiting.start, Awaiting.IsSource,
        Body.IsSource]) hrun
      intro x hx
      cases a with
      | statement body =>
          cases body with
          | unit done =>
              rw [Awaiting.IsSource, Body.IsSource] at ha
              exact ha x (by simpa [Awaiting.items] using hx)
          | block start done outer => simp [Awaiting.items] at hx
      | _ => simp [Awaiting.items] at hx

theorem isSource_close {ls : List Lexeme} (hls : ∀ l ∈ ls, l.IsSource) :
    ∀ l ∈ Cursor.close ls, l.IsSource := by
  have heof : ∀ s, Lexeme.IsSource ⟨.eof, s⟩ := by
    intro s name hname
    cases hname
  unfold Cursor.close
  split
  · simpa using heof _
  · split
    · exact hls
    · intro l hl
      rcases List.mem_append.1 hl with hl | hl
      · exact hls l hl
      · rw [List.mem_singleton.1 hl]
        exact heof _

/-- **A text that is parsed has the tree of a source text.** -/
theorem Compile.isSource_tree {source : String} {t : Node Span} (h : Compile.tree source = .ok t) :
    t.IsSource := by
  unfold Compile.tree at h
  split at h
  · cases h
  · case h_2 ls hls =>
    have hclose := isSource_close (Lexeme.isSource_ofText hls)
    split at h
    · cases h
    · case h_2 t' hparse =>
      cases h
      refine Cursor.isSource_parse ?_ hparse
      unfold Cursor.ofLexemes
      split
      · simp [Cursor.lexemes, Lexeme.IsSource]
      · case h_2 l rest hcl =>
        rw [hcl] at hclose
        exact hclose

end Parser

/-- The tree that is compiled is that of a source text. -/
theorem Compile.isSource_prepare {fold : Bool} {t : Node Span} (h : t.IsSource) :
    (Compile.prepare fold t).IsSource := by
  cases fold with
  | false => exact h
  | true => exact Node.isSource_fold h

/-- The document of a source text has its shape. -/
theorem Document.isSource_ofTree {t : Node Span} (h : t.IsSource) :
    (Document.ofTree t).root.IsSource :=
  h.of_shape (Node.shape_number _ 0 t)

end StackLang
