/-
**Chains of operands.**

An operand is a literal, a name, a call, an expression in parentheses, or one of these behind signs.
What the parser makes of its words depends neither on the operators in front of it nor on what is
around it, and so it is with the words of a whole chain of operands and binary operators.

Main definitions:

* `Awaiting.IsOperand`, `Awaiting.IsExpression` — words that are read as an operand, and as an
  expression, wherever one is awaited;
* `Awaiting.IsChain` — operands with binary operators between them.

Main results:

* `Awaiting.IsChain.exists_levels` — what the parser holds behind a chain;
* `Cursor.groups_chain` — the tree of a chain, and when it is grouped by precedence.
-/

import StackLang.Proofs.Tree.Operators
import StackLang.Proofs.Tree.Viable

set_option relaxedAutoImplicit false
set_option autoImplicit false

namespace StackLang

namespace Awaiting

open Grouping (Level IsRead)

variable {ls ms : List Lexeme} {l : Lexeme} {a b c : Awaiting} {x y : Node Span} {chain : Chain}
  {hole : Hole} {op : BinaryOp} {links : List (BinaryOp × Node Span)}

/-! ### First words -/

/-- There is no end mark among words behind which something is open. -/
theorem ne_eof_of_run (h : run ls a = .ok b) (hb : ¬ b.IsOver) : ∀ m ∈ ls, m.token ≠ .eof :=
  fun m hm heof => hb (isOver_run h ⟨m, hm, heof⟩)

/-- Behind an operand the reading goes on: no end mark stands in front of it. -/
theorem run_append_of_operand {callable : Bool}
    (h : run ls a = .ok (.afterOperand x callable chain hole)) :
    run (ls ++ ms) a = run ms (.afterOperand x callable chain hole) :=
  Awaiting.run_append (ne_eof_of_run h nofun) h

/-- States that read the same first words as another one read the same words. -/
theorem run_of_step (hls : ls ≠ []) (h : run ls a = .ok c)
    (hstep : ∀ l d, a.step l = .ok d → b.step l = .ok d) : run ls b = .ok c := by
  cases ls with
  | nil => exact absurd rfl hls
  | cons l ls =>
      rw [run] at h ⊢
      split at h
      · case isTrue heof =>
        rw [if_pos heof]
        exact hstep l c h
      · case isFalse heof =>
        obtain ⟨d, hd, hrun⟩ := Step.except_bind_eq_ok.1 h
        rw [if_neg heof, hstep l d hd]
        exact hrun

theorem run_singleton (l : Lexeme) (a : Awaiting) : run [l] a = a.step l := by
  rw [run]
  split
  · rfl
  · cases a.step l <;> rfl

theorem run_cons (hl : l.token ≠ .eof) (h : a.step l = .ok b) : run (l :: ls) a = run ls b := by
  rw [run, if_neg hl, h]
  rfl

/-- A word that starts an operand starts an expression. -/
theorem startExpression_of_startOperand (h : startOperand l .empty hole = .ok a) :
    startExpression l hole = .ok a := by
  unfold startExpression
  split
  case h_4 => exact h
  all_goals
    rename_i htoken
    simp [startOperand, htoken] at h

/-- A word that starts an expression starts a statement. -/
theorem inBody_of_startExpression {body : Body}
    (h : startExpression l (.statement body) = .ok a) : inBody l body = .ok a := by
  have hstatement : startStatement l body = .ok a := by
    unfold startStatement
    split
    case h_5 => exact h
    all_goals
      rename_i htoken
      simp [startExpression, startOperand, htoken] at h
  cases body with
  | unit done =>
      rw [inBody]
      split
      case h_3 => exact hstatement
      all_goals
        rename_i htoken
        simp [startExpression, startOperand, htoken] at h
  | block start done outer =>
      rw [inBody]
      split
      case h_3 => exact hstatement
      all_goals
        rename_i htoken
        simp [startExpression, startOperand, htoken] at h

/-! ### Operands and expressions -/

/-- **The words are an operand**: wherever an operand is awaited they are read as `x`, once the
signs among them are closed. -/
def IsOperand (ls : List Lexeme) (x : Node Span) : Prop :=
  ∀ chain hole, ∃ y callable signs, Chain.closeSigns y signs = x ∧
    run ls (.operand chain hole)
      = .ok (.afterOperand y callable ⟨signs ++ chain.signs, chain.pending⟩ hole)

/-- The words are an operand that can be called. -/
def IsCallee (ls : List Lexeme) (x : Node Span) : Prop :=
  ∀ chain hole, run ls (.operand chain hole) = .ok (.afterOperand x true chain hole)

/-- **The words are an expression**: wherever an expression is awaited they are read as `x`, in
front of any word that neither goes on with a chain nor calls its last operand. -/
def IsExpression (ls : List Lexeme) (x : Node Span) : Prop :=
  ∀ hole, ∃ a, run ls (.expression hole) = .ok a ∧
    ∀ l : Lexeme, BinaryOp.ofToken? l.token = none → l.token ≠ .leftParen →
      a.step l = complete x l hole

/-- The words of arguments, with commas between them. -/
inductive IsArguments : List Lexeme → List (Node Span) → Prop where
  | last {ls : List Lexeme} {x : Node Span} (h : IsExpression ls x) : IsArguments ls [x]
  | more {ls ms : List Lexeme} {l : Lexeme} {x : Node Span} {ys : List (Node Span)}
      (h : IsExpression ls x) (hl : l.token = .comma) (hms : IsArguments ms ys) :
      IsArguments (ls ++ l :: ms) (x :: ys)

/-- **A chain**: operands with binary operators between them. -/
inductive IsChain : List Lexeme → Node Span → List (BinaryOp × Node Span) → Prop where
  | operand {ls : List Lexeme} {x : Node Span} (hx : IsOperand ls x) : IsChain ls x []
  | more {ls ms : List Lexeme} {l : Lexeme} {x y : Node Span} {op : BinaryOp}
      {links : List (BinaryOp × Node Span)} (h : IsChain ls x links)
      (hop : BinaryOp.ofToken? l.token = some op) (hy : IsOperand ms y) :
      IsChain (ls ++ l :: ms) x (links ++ [(op, y)])

theorem IsCallee.isOperand (h : IsCallee ls x) : IsOperand ls x := fun chain hole =>
  ⟨x, true, [], rfl, h chain hole⟩

/-! ### What an operand can be -/

theorem IsOperand.ne_nil (h : IsOperand ls x) : ls ≠ [] := by
  rintro rfl
  obtain ⟨y, callable, signs, -, hrun⟩ := h .empty (.statement (.unit []))
  cases hrun

/-- The words of an operand start an expression. -/
theorem IsOperand.run_expression (h : IsOperand ls x) (hole : Hole) :
    run ls (.expression hole) = run ls (.operand .empty hole) := by
  obtain ⟨y, callable, signs, -, hrun⟩ := h .empty hole
  rw [hrun]
  exact run_of_step h.ne_nil hrun fun _ _ => startExpression_of_startOperand

theorem isOperand_literal {v : Literal} (hl : l.token = v.token) :
    IsOperand [l] (.literal l.span v) := fun chain hole => by
  refine ⟨_, false, [], rfl, ?_⟩
  cases v <;> simp [run_singleton, step, startOperand, hl, Literal.token]

theorem isCallee_name {name : String} (hl : l.token = .identifier name) :
    IsCallee [l] (.identifier l.span name) := fun chain hole => by
  simp [run_singleton, step, startOperand, hl]

/-- An operand behind a sign. -/
theorem IsOperand.signed {sign : UnaryOp} (h : IsOperand ls x) (hl : l.token = sign.token) :
    IsOperand (l :: ls) (.unary (l.span.merge x.note) sign x) := fun chain hole => by
  obtain ⟨y, callable, signs, hx, hrun⟩ :=
    h { chain with signs := (l.span, sign) :: chain.signs } hole
  refine ⟨y, callable, signs ++ [(l.span, sign)], ?_, ?_⟩
  · rw [Chain.closeSigns, List.foldl_append] at *
    simp [hx]
  · have heof : l.token ≠ .eof := by cases sign <;> simp [hl, UnaryOp.token]
    have hstep : (operand chain hole).step l
        = .ok (.operand { chain with signs := (l.span, sign) :: chain.signs } hole) := by
      cases sign <;> simp [step, startOperand, hl, UnaryOp.token]
    rw [run_cons heof hstep, hrun, List.append_assoc]
    rfl

/-- There is no end mark in an expression: in parentheses there could not be one. -/
theorem IsExpression.ne_eof (h : IsExpression ls x) : ∀ m ∈ ls, m.token ≠ .eof := by
  obtain ⟨a, ha, hnext⟩ := h (.group .empty (.statement (.unit [])))
  refine ne_eof_of_run ha fun hover => ?_
  have hclose := hnext Token.rightParen.anywhere rfl nofun
  match a, hover with
  | statement (.unit done), _ => cases hclose

/-- The word behind an expression. -/
theorem IsExpression.run_append (h : IsExpression ls x)
    (hoperator : BinaryOp.ofToken? l.token = none) (hcall : l.token ≠ .leftParen)
    (heof : l.token ≠ .eof) (hnext : complete x l hole = .ok b) :
    run (ls ++ l :: ms) (.expression hole) = run ms b := by
  obtain ⟨a, ha, hstep⟩ := h hole
  rw [Awaiting.run_append h.ne_eof ha, run_cons heof ((hstep l hoperator hcall).trans hnext)]

/-- **An expression in parentheses** is an operand that can be called. -/
theorem IsExpression.isCallee {l' : Lexeme} (h : IsExpression ls x) (hl : l.token = .leftParen)
    (hl' : l'.token = .rightParen) : IsCallee (l :: (ls ++ [l'])) x := fun chain hole => by
  have hopen : (operand chain hole).step l = .ok (.expression (.group chain hole)) := by
    simp [step, startOperand, hl]
  have hclose : complete x l' (.group chain hole) = .ok (.afterOperand x true chain hole) := by
    simp [complete, hl']
  rw [run_cons (by simp [hl]) hopen, h.run_append (by rw [hl']; rfl) (by simp [hl']) (by simp [hl'])
    hclose]
  rfl

/-- Arguments up to the parenthesis behind them. -/
theorem IsArguments.run_expression {ys : List (Node Span)} (h : IsArguments ls ys)
    (hl : l.token = .rightParen) (callee : Node Span) (done : List (Node Span)) (chain : Chain)
    (hole : Hole) : run (ls ++ [l]) (.expression (.argument callee done chain hole))
      = .ok (.afterOperand (.call (callee.note.merge l.span) callee (done.reverse ++ ys)) false
        chain hole) := by
  induction h generalizing done with
  | last h =>
      refine h.run_append (by rw [hl]; rfl) (by simp [hl]) (by simp [hl]) ?_
      simp [complete, hl]
  | @more ls ms l' x ys h hl' hms ih =>
      have hnext : complete x l' (.argument callee done chain hole)
          = .ok (.expression (.argument callee (x :: done) chain hole)) := by
        simp [complete, hl']
      rw [List.append_assoc, List.cons_append, h.run_append (by rw [hl']; rfl) (by simp [hl'])
        (by simp [hl']) hnext, ih (x :: done)]
      simp

/-- **A call** is an operand. -/
theorem IsCallee.call {l' : Lexeme} {ys : List (Node Span)} (h : IsCallee ls x)
    (hl : l.token = .leftParen) (hms : IsArguments ms ys) (hl' : l'.token = .rightParen) :
    IsOperand (ls ++ l :: (ms ++ [l'])) (.call (x.note.merge l'.span) x ys) := fun chain hole => by
  refine ⟨_, false, [], rfl, ?_⟩
  have hopen : (afterOperand x true chain hole).step l = .ok (.firstArgument x chain hole) := by
    simp [step, hl]
  have harguments := hms.run_expression hl' x [] chain hole
  rw [run_append_of_operand (h chain hole), run_cons (by simp [hl]) hopen]
  refine run_of_step (by simp) harguments fun l d hd => ?_
  have hne : l.token ≠ .rightParen := by
    intro hl
    simp [step, startExpression, startOperand, hl] at hd
  simpa [step, hne] using hd

/-! ### Reading a chain -/

/-- **What the parser holds behind a chain**: the last operand, and the operators that are open. -/
theorem IsChain.exists_levels (h : IsChain ls x links) : ∃ z levels, IsRead x links z levels ∧
    ∀ hole, ∃ y callable signs, Chain.closeSigns y signs = z ∧ run ls (.expression hole)
      = .ok (.afterOperand y callable ⟨signs, levels.map Level.pending⟩ hole) := by
  induction h with
  | @operand ls x hx =>
      refine ⟨x, [], Grouping.isRead_operand x, fun hole => ?_⟩
      obtain ⟨y, callable, signs, hy, hrun⟩ := hx .empty hole
      refine ⟨y, callable, signs, hy, (hx.run_expression hole).trans (hrun.trans ?_)⟩
      simp [Chain.empty]
  | @more ls ms l x y op links h hop hy ih =>
      obtain ⟨z, levels, hread, hruns⟩ := ih
      obtain ⟨levels', hlevels, hread'⟩ := hread.exists_push op
      refine ⟨y, levels', hread' y, fun hole => ?_⟩
      obtain ⟨w, callable, signs, rfl, hrun⟩ := hruns hole
      obtain ⟨w', callable', signs', hw', hrun'⟩ := hy ⟨[], levels'.map Level.pending⟩ hole
      have hcall : l.token ≠ .leftParen := fun hl => by simp [hl, BinaryOp.ofToken?] at hop
      have heof : l.token ≠ .eof := fun hl => by simp [hl, BinaryOp.ofToken?] at hop
      have hstep : (afterOperand w callable ⟨signs, levels.map Level.pending⟩ hole).step l
          = .ok (.operand ⟨[], levels'.map Level.pending⟩ hole) := by
        simp [step, operate, hcall, hop, hlevels]
      refine ⟨w', callable', signs', hw', ?_⟩
      rw [run_append_of_operand hrun, run_cons heof hstep, hrun', List.append_nil]

end Awaiting

namespace Cursor

open Awaiting

variable {ls : List Lexeme} {x : Node Span}

/-- **A text that is one expression** has its tree as its only item. -/
theorem parse_of_isExpression {mark : Lexeme} (h : IsExpression ls x) (hmark : mark.token = .eof) :
    ∃ span, (ofLexemes (ls ++ [mark])).parse = .ok (.unit span [x]) := by
  have hclose : close (ls ++ [mark]) = ls ++ [mark] := by simp [close, hmark]
  obtain ⟨a, ha, hnext⟩ := h (.statement (.unit []))
  have hend : run (ls ++ [mark]) (.expression (.statement (.unit [])))
      = .ok (.statement (.unit [x])) := by
    rw [run_append h.ne_eof ha, run_singleton, hnext mark (by rw [hmark]; rfl) (by simp [hmark])]
    simp [complete, inBody, Body.add, hmark]
  have hrun : run (close (ls ++ [mark])) .start = .ok (.statement (.unit [x])) := by
    rw [hclose]
    exact run_of_step (by simp) hend fun _ _ => inBody_of_startExpression
  rw [parse, lexemes_ofLexemes, hrun]
  exact ⟨_, rfl⟩

variable {links : List (BinaryOp × Node Span)}

/-- **The tree of a chain.** The parser groups a chain, wherever an expression is awaited and in a
text of its own.  Every operator has operands as precedence has it, except that an assignment can
have another one as its left operand; and there is none such, which makes the tree the only one that
is grouped by precedence, exactly if no other operator stands between two assignments. -/
theorem groups_chain (h : IsChain ls x links) : ∃ g : Grouping, g.first = x ∧ g.links = links ∧
    IsExpression ls g.tree ∧ (∀ mark : Lexeme, mark.token = .eof →
      ∃ span, (ofLexemes (ls ++ [mark])).parse = .ok (.unit span [g.tree])) ∧
    g.Fits Grouping.ReadsLeft ∧
    (g.IsByPrecedence ↔ Grouping.AssignsTogether (links.map Prod.fst)) ∧
    ∃! g' : Grouping, g'.first = x ∧ g'.links = links ∧ g'.IsByPrecedence := by
  obtain ⟨z, levels, hread, hruns⟩ := h.exists_levels
  have hexpression : IsExpression ls (Grouping.closeAll (.operand z) levels).tree := by
    intro hole
    obtain ⟨y, callable, signs, rfl, hrun⟩ := hruns hole
    refine ⟨_, hrun, fun l hoperator hcall => ?_⟩
    simp [step, operate, hoperator, hcall, Grouping.tree_closeAll, Grouping.tree]
  exact ⟨_, hread.first_eq, hread.links_eq, hexpression,
    fun _ hmark => parse_of_isExpression hexpression hmark, hread.fits, hread.isByPrecedence,
    Grouping.existsUnique_isByPrecedence x links⟩

/-- A sum in parentheses, a sign and a call in a chain with an assignment. -/
theorem groups_chain_call : ∃ (x : Node Span) (links : List (BinaryOp × Node Span)) (g : Grouping),
    IsChain ([.identifier "a", .equal, .leftParen, .identifier "b", .plus, .identifier "c",
      .rightParen, .star, .minus, .identifier "f", .leftParen, .intLiteral 1,
      .rightParen].map Token.anywhere) x links ∧ g.first = x ∧ g.links = links ∧
    links.map Prod.fst = [.assign, .multiply] ∧ g.IsByPrecedence := by
  have hname (name : String) : IsCallee [(Token.identifier name).anywhere] _ := isCallee_name rfl
  -- the sum in parentheses
  have hsum := IsChain.more (l := Token.plus.anywhere) (.operand (hname "b").isOperand) rfl
    (hname "c").isOperand
  obtain ⟨sum, -, -, hexpression, -⟩ := groups_chain hsum
  have hgroup : IsCallee (Token.leftParen.anywhere :: ([(Token.identifier "b").anywhere,
    Token.plus.anywhere, (Token.identifier "c").anywhere] ++ [Token.rightParen.anywhere]))
    sum.tree := hexpression.isCallee rfl rfl
  -- the call behind its sign
  obtain ⟨one, -, -, hone, -⟩ := groups_chain
    (.operand (isOperand_literal (l := (Token.intLiteral 1).anywhere) (v := .int 1) rfl))
  have hcall : IsOperand ([(Token.identifier "f").anywhere] ++ Token.leftParen.anywhere ::
    ([(Token.intLiteral 1).anywhere] ++ [Token.rightParen.anywhere])) _ :=
    (hname "f").call rfl (.last hone) rfl
  have hsigned : IsOperand (Token.minus.anywhere :: _) (.unary _ .minus _) := hcall.signed rfl
  -- the whole chain
  have hassign := IsChain.more (l := Token.equal.anywhere) (.operand (hname "a").isOperand) rfl
    hgroup.isOperand
  have hchain := hassign.more (l := Token.star.anywhere) rfl hsigned
  obtain ⟨g, hfirst, hlinks, -, -, -, hprecedence, -⟩ := groups_chain hchain
  refine ⟨_, _, g, hchain, hfirst, hlinks, rfl, hprecedence.2 fun o ho => ?_⟩
  exact absurd ho.length_le (by simp)

/-- Behind a sum an assignment overtakes the one before it: `a = b + c = d` assigns `d` to the
assignment `a = b + c`, while by precedence it is assigned to the sum, and that to `a`. -/
theorem not_isByPrecedence_overtaken : ∃ (ls : List Lexeme) (a b c d : Node Span),
    Lexeme.ofText "a = b + c = d" = .ok ls ∧ (ofLexemes ls).parse = .ok (.unit ⟨0, 13, 1, 1⟩
      [(Grouping.node (.node (.operand a) .assign (.node (.operand b) .add (.operand c))) .assign
        (.operand d)).tree]) ∧
    ¬ (Grouping.node (.node (.operand a) .assign (.node (.operand b) .add (.operand c))) .assign
      (.operand d)).IsByPrecedence ∧
    (Grouping.node (.operand a) .assign (.node (.node (.operand b) .add (.operand c)) .assign
      (.operand d))).IsByPrecedence := by
  have hlex : (Lexeme.ofText "a = b + c = d").toOption = some [⟨.identifier "a", ⟨0, 1, 1, 1⟩⟩,
      ⟨.equal, ⟨2, 3, 1, 3⟩⟩, ⟨.identifier "b", ⟨4, 5, 1, 5⟩⟩, ⟨.plus, ⟨6, 7, 1, 7⟩⟩,
      ⟨.identifier "c", ⟨8, 9, 1, 9⟩⟩, ⟨.equal, ⟨10, 11, 1, 11⟩⟩,
      ⟨.identifier "d", ⟨12, 13, 1, 13⟩⟩, ⟨.eof, ⟨13, 13, 1, 14⟩⟩] := by
    decide +kernel
  refine ⟨_, .identifier ⟨0, 1, 1, 1⟩ "a", .identifier ⟨4, 5, 1, 5⟩ "b",
    .identifier ⟨8, 9, 1, 9⟩ "c", .identifier ⟨12, 13, 1, 13⟩ "d",
    Step.eq_ok_of_toOption hlex, rfl, fun h => ?_,
    .node (.operand _) (.node (.node (.operand _) (.operand _) nofun nofun) (.operand _) ?_ nofun)
      nofun ?_⟩
  · obtain ⟨-, -, hleft, -⟩ := Grouping.fits_node.1 h
    exact absurd (hleft .assign rfl) (by decide)
  · rintro _ ⟨⟩
    decide
  · rintro _ ⟨⟩
    decide

end Cursor

end StackLang
