/-
**The first word that cannot follow.**

Whatever the parser has read can be completed: every construct that is open has words that close it,
and a number can stand wherever an expression is awaited.  So the words in front of a parse error
begin some text that has a tree.  And as the parser does not look ahead, no word behind the one at
which it stands can undo the error.

Main definitions:

* `Hole.closing`, `Body.closing`, `Awaiting.closing` — words that close everything that is open;
* `Closes` — some words are read up to the end of the text.

Main results:

* `Awaiting.closes_closing` — from every state the text can be completed;
* `Awaiting.isOk_step_congr` — whether a word can follow does not depend on its place in the text;
* `Cursor.exists_first_of_parse_error` — a parse error stands at the first word that cannot follow.
-/

import StackLang.Proofs.Tree.Words

set_option relaxedAutoImplicit false
set_option autoImplicit false

namespace StackLang

/-! ### Words that close what is open -/

/-- A number, which is an expression of its own. -/
def Token.one : Token := .intLiteral 1

/-- A word somewhere. -/
def Token.anywhere (t : Token) : Lexeme := ⟨t, ⟨0, 0, 1, 1⟩⟩

mutual

/-- Words that close a list of statements and everything around it, up to the end of the text. -/
def Body.closing : Body → List Token
  | .unit _ => [.eof]
  | .block _ _ outer => .rightBrace :: Hole.closing outer

/-- Words that close everything around a complete expression, up to the end of the text.  A
condition is followed by an expression. -/
def Hole.closing : Hole → List Token
  | .statement body | .returned _ body => Body.closing body
  | .group _ outer | .argument _ _ _ outer => .rightParen :: Hole.closing outer
  | .condition _ outer | .loopCondition _ outer => .one :: Hole.closing outer
  | .yes _ _ outer | .no _ _ _ outer | .loopBody _ _ outer => Hole.closing outer
  | .functionBody _ _ _ => [.eof]

end

namespace Awaiting

/-- Words behind what was read, up to the end of the text. -/
def closing : Awaiting → List Token
  | statement body => body.closing
  | expression hole | operand _ hole => .one :: hole.closing
  | afterOperand _ _ _ hole | afterExpression _ hole => hole.closing
  | firstArgument _ _ hole => .rightParen :: hole.closing
  | assemblyText _ body => .stringLiteral "" :: body.closing
  | functionName _ _ => [.identifier "f", .leftParen, .rightParen, .one, .eof]
  | params _ => [.leftParen, .rightParen, .one, .eof]
  | firstParam _ | afterParam _ => [.rightParen, .one, .eof]
  | param _ => [.identifier "p", .rightParen, .one, .eof]

/-- The words are read up to the end of the text, which is among them. -/
def Closes (ts : List Token) (a : Awaiting) : Prop :=
  ∃ b, ∀ more, run (ts.map Token.anywhere ++ more) a = .ok b

section Closes

variable {t : Token} {ts : List Token} {a b : Awaiting} {x : Node Span} {chain : Chain}
  {hole : Hole} {body : Body}

/-- The end mark is the last word that is read. -/
theorem closes_eof (h : a.step (Token.anywhere .eof) = .ok b) : Closes [.eof] a := ⟨b, fun _ => h⟩

theorem closes_cons (ht : t ≠ .eof) (hstep : a.step t.anywhere = .ok b) (h : Closes ts b) :
    Closes (t :: ts) a := by
  obtain ⟨c, hc⟩ := h
  refine ⟨c, fun more => ?_⟩
  have htoken : t.anywhere.token ≠ .eof := ht
  rw [List.map_cons, List.cons_append, run, if_neg htoken, hstep]
  exact hc more

/-- States that read the next word alike go on alike. -/
theorem closes_congr (h : a.step t.anywhere = b.step t.anywhere) (hb : Closes (t :: ts) b) :
    Closes (t :: ts) a := by
  obtain ⟨c, hc⟩ := hb
  refine ⟨c, fun more => ?_⟩
  rw [← hc more, List.map_cons, List.cons_append, run, run, h]

/-- A word that ends the expression in front of it: it neither continues nor calls it. -/
structure EndsExpression (t : Token) : Prop where
  operator : BinaryOp.ofToken? t = none
  call : t ≠ .leftParen
  branch : t ≠ .elseWord

theorem endsExpression_eof : EndsExpression .eof := ⟨rfl, nofun, nofun⟩

theorem endsExpression_one : EndsExpression .one := ⟨rfl, nofun, nofun⟩

theorem endsExpression_rightParen : EndsExpression .rightParen := ⟨rfl, nofun, nofun⟩

theorem endsExpression_rightBrace : EndsExpression .rightBrace := ⟨rfl, nofun, nofun⟩

mutual

theorem exists_closing_body : (body : Body) → ∃ t ts, body.closing = t :: ts ∧ EndsExpression t
  | .unit _ => ⟨_, _, by rw [Body.closing], endsExpression_eof⟩
  | .block _ _ _ => ⟨_, _, by rw [Body.closing], endsExpression_rightBrace⟩

/-- The words behind an expression start with one that ends it. -/
theorem exists_closing_hole : (hole : Hole) → ∃ t ts, hole.closing = t :: ts ∧ EndsExpression t
  | .statement body | .returned _ body => by
      rw [Hole.closing]
      exact exists_closing_body body
  | .group _ _ | .argument _ _ _ _ => ⟨_, _, by rw [Hole.closing], endsExpression_rightParen⟩
  | .condition _ _ | .loopCondition _ _ => ⟨_, _, by rw [Hole.closing], endsExpression_one⟩
  | .functionBody _ _ _ => ⟨_, _, by rw [Hole.closing], endsExpression_eof⟩
  | .yes _ _ outer | .no _ _ _ outer | .loopBody _ _ outer => by
      rw [Hole.closing]
      exact exists_closing_hole outer

end

/-- An operand is a complete expression in front of a word that ends it. -/
theorem step_afterOperand (ht : EndsExpression t) {callable : Bool} {l : Lexeme}
    (hl : l.token = t) :
    (afterOperand x callable chain hole).step l
      = (afterExpression (Chain.closeAll (Chain.closeSigns x chain.signs) chain.pending) hole).step
          l := by
  subst hl
  simp [step, operate, ht.operator, ht.call]

/-- The words that close everything around a place for an expression do so behind each one. -/
def ClosesBehind (hole : Hole) : Prop := ∀ x, Closes hole.closing (.afterExpression x hole)

theorem closes_afterOperand (h : ClosesBehind hole) (x : Node Span) (callable : Bool)
    (chain : Chain) : Closes hole.closing (.afterOperand x callable chain hole) := by
  obtain ⟨t, ts, hclosing, ht⟩ := exists_closing_hole hole
  have hx := h (Chain.closeAll (Chain.closeSigns x chain.signs) chain.pending)
  rw [hclosing] at hx ⊢
  exact closes_congr (step_afterOperand ht rfl) hx

/-- A number can stand where an expression is awaited. -/
theorem closes_one (h : ClosesBehind hole) : Closes (.one :: hole.closing) (.expression hole) :=
  closes_cons nofun rfl (closes_afterOperand h _ false .empty)

/-- An expression that is complete with the one in it is closed by the same words. -/
theorem closesBehind_of_complete {outer : Hole} (f : Node Span → Node Span)
    (hclosing : hole.closing = outer.closing)
    (hcomplete : ∀ x (l : Lexeme), l.token ≠ .elseWord →
      complete x l hole = complete (f x) l outer) (h : ClosesBehind outer) : ClosesBehind hole := by
  intro x
  obtain ⟨t, ts, houter, ht⟩ := exists_closing_hole outer
  have hx := h (f x)
  rw [hclosing, houter]
  rw [houter] at hx
  have hstep : (afterExpression x hole).step t.anywhere
      = (afterExpression (f x) outer).step t.anywhere := hcomplete x t.anywhere ht.branch
  exact closes_congr hstep hx

theorem closesBehind_yes (start : Span) (c : Node Span) (h : ClosesBehind hole) :
    ClosesBehind (.yes start c hole) :=
  closesBehind_of_complete (fun x => .cond (start.merge x.note) c x none) (by rw [Hole.closing])
    (fun x l hl => by simp only [complete]) h

theorem closesBehind_no {start : Span} {c yes : Node Span} (h : ClosesBehind hole) :
    ClosesBehind (.no start c yes hole) :=
  closesBehind_of_complete (fun x => .cond (start.merge x.note) c yes (some x))
    (by rw [Hole.closing]) (fun x l _ => by rw [complete]) h

theorem closesBehind_loopBody (start : Span) (c : Node Span) (h : ClosesBehind hole) :
    ClosesBehind (.loopBody start c hole) :=
  closesBehind_of_complete (fun x => .loop (start.merge x.note) c x) (by rw [Hole.closing])
    (fun x l _ => by rw [complete]) h

/-- A complete statement is one more of its list. -/
theorem closesBehind_of_body (f : Node Span → Node Span) (hclosing : hole.closing = body.closing)
    (hcomplete : ∀ x l, complete x l hole = inBody l (body.add (f x)))
    (h : ∀ x, Closes body.closing (.statement (body.add x))) : ClosesBehind hole := by
  intro x
  obtain ⟨t, ts, hbody, -⟩ := exists_closing_body body
  have hx := h (f x)
  rw [hclosing, hbody]
  rw [hbody] at hx
  have hstep : (afterExpression x hole).step t.anywhere
      = (statement (body.add (f x))).step t.anywhere := hcomplete x t.anywhere
  exact closes_congr hstep hx

mutual

theorem closes_add : (body : Body) → (x : Node Span) →
    Closes body.closing (.statement (body.add x))
  | .unit _, _ => by
      rw [Body.closing]
      exact closes_eof rfl
  | .block _ _ outer, _ => by
      rw [Body.closing]
      exact closes_cons nofun rfl (closesBehind outer _)

/-- **Everything around a complete expression can be closed.** -/
theorem closesBehind : (hole : Hole) → ClosesBehind hole
  | .statement body =>
      closesBehind_of_body id (by rw [Hole.closing]) (fun _ _ => by rw [complete]; rfl)
        (closes_add body)
  | .returned start body =>
      closesBehind_of_body (fun x => .returnValue (start.merge x.note) x) (by rw [Hole.closing])
        (fun _ _ => by rw [complete]) (closes_add body)
  | .group chain outer => fun x => by
      rw [Hole.closing]
      exact closes_cons nofun rfl (closes_afterOperand (closesBehind outer) x true chain)
  | .argument callee done chain outer => fun x => by
      rw [Hole.closing]
      exact closes_cons nofun rfl (closes_afterOperand (closesBehind outer) _ false chain)
  | .condition start outer => fun x => by
      have hyes : Closes (.one :: outer.closing) (.expression (.yes start x outer)) := by
        have h := closes_one (closesBehind_yes start x (closesBehind outer))
        rwa [Hole.closing] at h
      rw [Hole.closing]
      exact closes_congr (by simp only [step, complete]) hyes
  | .yes start c outer => closesBehind_yes start c (closesBehind outer)
  | .no _ _ _ outer => closesBehind_no (closesBehind outer)
  | .loopCondition start outer => fun x => by
      have hbody : Closes (.one :: outer.closing) (.expression (.loopBody start x outer)) := by
        have h := closes_one (closesBehind_loopBody start x (closesBehind outer))
        rwa [Hole.closing] at h
      rw [Hole.closing]
      exact closes_congr (by simp only [step, complete]) hbody
  | .loopBody start c outer => closesBehind_loopBody start c (closesBehind outer)
  | .functionBody _ _ _ => fun x => by
      rw [Hole.closing]
      exact closes_eof rfl

end

theorem closes_statement (body : Body) : Closes body.closing (.statement body) := by
  cases body with
  | unit done =>
      rw [Body.closing]
      exact closes_eof rfl
  | block start done outer =>
      rw [Body.closing]
      exact closes_cons nofun rfl (closesBehind outer _)

/-- The body of a function can be a number. -/
theorem closes_functionBody (start : Span) (prototype : Node Span) (done : List (Node Span)) :
    Closes [.one, .eof] (.expression (.functionBody start prototype done)) := by
  have h := closes_one (closesBehind (.functionBody start prototype done))
  rwa [Hole.closing] at h

theorem closes_afterParam (h : Heading) : Closes [.rightParen, .one, .eof] (.afterParam h) :=
  closes_cons nofun rfl (closes_functionBody _ _ _)

theorem closes_params (h : Heading) : Closes [.leftParen, .rightParen, .one, .eof] (.params h) :=
  closes_cons nofun rfl (closes_cons nofun rfl (closes_functionBody _ _ _))

/-- **From every state the text can be completed.** -/
theorem closes_closing (a : Awaiting) : Closes a.closing a := by
  cases a with
  | statement body => exact closes_statement body
  | expression hole => exact closes_one (closesBehind hole)
  | operand chain hole =>
      exact closes_cons nofun rfl (closes_afterOperand (closesBehind hole) _ false chain)
  | afterOperand x callable chain hole =>
      exact closes_afterOperand (closesBehind hole) x callable chain
  | afterExpression x hole => exact closesBehind hole x
  | firstArgument callee chain hole =>
      exact closes_cons nofun rfl (closes_afterOperand (closesBehind hole) _ false chain)
  | assemblyText start body =>
      have hadd := closes_add body (.assembly (start.merge ⟨0, 0, 1, 1⟩) "")
      exact closes_cons nofun rfl hadd
  | functionName start done => exact closes_cons nofun rfl (closes_params _)
  | params h => exact closes_params h
  | firstParam h => exact closes_cons nofun rfl (closes_functionBody _ _ _)
  | param h => exact closes_cons nofun rfl (closes_afterParam _)
  | afterParam h => exact closes_afterParam h

end Closes

/-! ### Whether a word can follow -/

section Place

variable {l l' : Lexeme}

theorem isOk_startOperand_congr (h : l.token = l'.token) (chain : Chain) (hole : Hole) :
    (startOperand l chain hole).isOk = (startOperand l' chain hole).isOk := by
  unfold startOperand
  rw [h]
  cases l'.token <;> rfl

theorem isOk_startExpression_congr (h : l.token = l'.token) (hole : Hole) :
    (startExpression l hole).isOk = (startExpression l' hole).isOk := by
  unfold startExpression
  rw [h]
  split
  case h_4 => exact isOk_startOperand_congr h _ _
  all_goals rfl

theorem isOk_startStatement_congr (h : l.token = l'.token) (body : Body) :
    (startStatement l body).isOk = (startStatement l' body).isOk := by
  unfold startStatement
  rw [h]
  split
  case h_5 => exact isOk_startExpression_congr h _
  all_goals rfl

theorem isOk_inBody_congr (h : l.token = l'.token) (body : Body) :
    (inBody l body).isOk = (inBody l' body).isOk := by
  cases body with
  | unit done =>
      simp only [inBody, h]
      split
      case h_3 => exact isOk_startStatement_congr h _
      all_goals rfl
  | block start done outer =>
      simp only [inBody, h]
      split
      case h_3 => exact isOk_startStatement_congr h _
      all_goals rfl

theorem isOk_complete_congr (h : l.token = l'.token) : (hole : Hole) → (x : Node Span) →
    (complete x l hole).isOk = (complete x l' hole).isOk
  | .statement body, x => by
      simp only [complete]
      exact isOk_inBody_congr h _
  | .returned start body, x => by
      simp only [complete]
      exact isOk_inBody_congr h _
  | .group chain outer, x => by
      simp only [complete, h]
      cases l'.token <;> rfl
  | .argument callee done chain outer, x => by
      simp only [complete, h]
      cases l'.token <;> rfl
  | .condition start outer, x => by
      simp only [complete]
      exact isOk_startExpression_congr h _
  | .yes start c outer, x => by
      simp only [complete, h]
      split
      · rfl
      · exact isOk_complete_congr h outer _
  | .no start c yes outer, x => by
      simp only [complete]
      exact isOk_complete_congr h outer _
  | .loopCondition start outer, x => by
      simp only [complete]
      exact isOk_startExpression_congr h _
  | .loopBody start c outer, x => by
      simp only [complete]
      exact isOk_complete_congr h outer _
  | .functionBody start prototype done, x => by
      simp only [complete]
      exact isOk_inBody_congr h _

theorem isOk_name_congr (h : l.token = l'.token) (f f' : String → Awaiting) :
    (l.name.map f).isOk = (l'.name.map f').isOk := by
  unfold Lexeme.name
  rw [h]
  cases l'.token <;> rfl

/-- **Whether a word can follow** does not depend on its place in the text. -/
theorem isOk_step_congr (h : l.token = l'.token) (a : Awaiting) :
    (a.step l).isOk = (a.step l').isOk := by
  cases a with
  | statement body => exact isOk_inBody_congr h body
  | expression hole => exact isOk_startExpression_congr h hole
  | operand chain hole => exact isOk_startOperand_congr h chain hole
  | afterOperand x callable chain hole =>
      simp only [step, operate, h]
      split
      · rfl
      · split
        · rfl
        · exact isOk_complete_congr h hole _
  | afterExpression x hole => exact isOk_complete_congr h hole x
  | firstArgument callee chain hole =>
      simp only [step, h]
      split
      · rfl
      · exact isOk_startExpression_congr h _
  | assemblyText start body | params heading | afterParam heading =>
      simp only [step, h]
      cases l'.token <;> rfl
  | functionName start done => exact isOk_name_congr h _ _
  | firstParam heading =>
      simp only [step, h]
      split
      · rfl
      · exact isOk_name_congr h _ _
  | param heading => exact isOk_name_congr h _ _

end Place

/-- A run fails at a first word that cannot be read. -/
theorem run_cons_error {ls : List Lexeme} {l : Lexeme} {b : Awaiting} {e : ParseError}
    (h : b.step l = .error e) : run (l :: ls) b = .error e := by
  rw [run]
  split
  · exact h
  · rw [h]
    rfl

end Awaiting

/-! ### Texts -/

namespace Cursor

variable {ls before more : List Lexeme} {l : Lexeme} {e : ParseError}

theorem parse_eq_error (h : (ofLexemes ls).parse = .error e) :
    Awaiting.run (close ls) .start = .error e := by
  rw [← lexemes_ofLexemes]
  cases hrun : Awaiting.run (ofLexemes ls).lexemes .start with
  | error e' =>
      rw [parse, hrun] at h
      cases h
      rfl
  | ok a =>
      rw [parse, hrun] at h
      cases h

theorem exists_parse_iff :
    (∃ x, (ofLexemes ls).parse = .ok x) ↔ ∃ a, Awaiting.run (close ls) .start = .ok a := by
  rw [parse, lexemes_ofLexemes]
  constructor
  · rintro ⟨x, hx⟩
    obtain ⟨a, ha, -⟩ := Step.except_bind_eq_ok.1 hx
    exact ⟨a, ha⟩
  · rintro ⟨a, ha⟩
    rw [ha]
    exact ⟨_, rfl⟩

/-- An end mark is added behind the last word or not at all. -/
theorem exists_close (ls : List Lexeme) : ∃ mark, close ls = ls ++ mark := by
  unfold close
  split
  · case h_1 hnil => exact ⟨_, by rw [List.getLast?_eq_none_iff.1 hnil, List.nil_append]⟩
  · split
    · exact ⟨[], (List.append_nil ls).symm⟩
    · exact ⟨_, rfl⟩

theorem exists_close_of_ne_eof (h : ∀ m ∈ ls, m.token ≠ .eof) :
    ∃ mark : Lexeme, mark.token = .eof ∧ close ls = ls ++ [mark] := by
  unfold close
  split
  · case h_1 hnil => exact ⟨_, rfl, by rw [List.getLast?_eq_none_iff.1 hnil, List.nil_append]⟩
  · case h_2 m hlast =>
    rw [if_neg (h m (List.mem_of_getLast? hlast))]
    exact ⟨_, rfl, rfl⟩

/-- **The words begin a text that has a tree.** -/
def IsViable (ls : List Lexeme) : Prop := ∃ more x, (ofLexemes (ls ++ more)).parse = .ok x

variable {a : Awaiting}

/-- **What the parser has read can be completed.** -/
theorem isViable_of_run (hbefore : ∀ m ∈ before, m.token ≠ .eof)
    (h : Awaiting.run before .start = .ok a) : IsViable before := by
  obtain ⟨b, hb⟩ := a.closes_closing
  obtain ⟨mark, hmark⟩ := exists_close (before ++ a.closing.map Token.anywhere)
  refine ⟨a.closing.map Token.anywhere, exists_parse_iff.2 ⟨b, ?_⟩⟩
  rw [hmark, List.append_assoc, Awaiting.run_append hbefore h]
  exact hb mark

/-- **No later word undoes an error.** -/
theorem not_isViable_of_step_error (hbefore : ∀ m ∈ before, m.token ≠ .eof)
    (h : Awaiting.run before .start = .ok a) (hstep : a.step l = .error e) :
    ¬ IsViable (before ++ [l]) := by
  rintro ⟨more, hmore⟩
  obtain ⟨b, hb⟩ := exists_parse_iff.1 hmore
  obtain ⟨mark, hmark⟩ := exists_close (before ++ [l] ++ more)
  rw [hmark, List.append_assoc, List.append_assoc, Awaiting.run_append hbefore h,
    List.singleton_append, Awaiting.run_cons_error hstep] at hb
  cases hb

/-- Words have no tree where the end of the text cannot follow them. -/
theorem not_parse_of_step_eof (hbefore : ∀ m ∈ before, m.token ≠ .eof)
    (h : Awaiting.run before .start = .ok a) (hstep : a.step l = .error e)
    (heof : l.token = .eof) (x : Node Span) : (ofLexemes before).parse ≠ .ok x := by
  intro hx
  obtain ⟨b, hb⟩ := exists_parse_iff.1 ⟨x, hx⟩
  obtain ⟨mark, hmark, hclose⟩ := exists_close_of_ne_eof hbefore
  rw [hclose, Awaiting.run_append hbefore h, Awaiting.run, if_pos hmark] at hb
  have hsame := Awaiting.isOk_step_congr (heof.trans hmark.symm) a
  rw [hstep, hb] at hsame
  cases hsame

/-- **A parse error stands at the first word that cannot follow.** The parser has read the words in
front of it, and these begin a text that has a tree; with the word at which the parser stands they
do not, whatever follows.  If that word is the end mark, the words in front of it are no text. -/
theorem exists_first_of_parse_error (h : (ofLexemes ls).parse = .error e) :
    ∃ before l after a, (ofLexemes ls).lexemes = before ++ l :: after ∧
      (∀ m ∈ before, m.token ≠ .eof) ∧ Awaiting.run before .start = .ok a ∧
      a.step l = .error e ∧ e.span = l.span ∧ IsViable before ∧
      ¬ IsViable (before ++ [l]) ∧ (l.token = .eof → ∀ x, (ofLexemes before).parse ≠ .ok x) := by
  obtain ⟨before, l, after, a, hls, hbefore, hrun, hstep⟩ :=
    Awaiting.exists_step_of_run_error (parse_eq_error h)
  have hspan : e.span = l.span := by
    have hreads := Awaiting.reads_step l a
    rw [hstep] at hreads
    exact hreads
  exact ⟨before, l, after, a, (lexemes_ofLexemes ls).trans hls, hbefore, hrun, hstep, hspan,
    isViable_of_run hbefore hrun, not_isViable_of_step_error hbefore hrun hstep,
    not_parse_of_step_eof hbefore hrun hstep⟩

/-- The call of a function whose second argument is missing. -/
theorem exists_first_of_parse_error_call :
    ∃ e, (ofLexemes ([.identifier "f", .leftParen, .one, .comma, .rightParen].map
      Token.anywhere)).parse = .error e ∧
    ∃ before l after a, (ofLexemes ([.identifier "f", .leftParen, .one, .comma, .rightParen].map
      Token.anywhere)).lexemes = before ++ l :: after ∧
      (∀ m ∈ before, m.token ≠ .eof) ∧ Awaiting.run before .start = .ok a ∧
      a.step l = .error e ∧ e.span = l.span ∧ IsViable before ∧
      ¬ IsViable (before ++ [l]) ∧ (l.token = .eof → ∀ x, (ofLexemes before).parse ≠ .ok x) :=
  ⟨_, rfl, exists_first_of_parse_error rfl⟩

end Cursor

end StackLang
