/-
**The words of a tree.**

Reading a tree in source order gives back the words that it was made of.  Parentheses, braces and
commas leave no trace in a tree, and a character is kept as its code point; every other word has
one place.

The parser never looks back, so what it has read is what it holds: the constructs that are open and
the complete parts of them.  The words of what it holds are the words read so far, and each step
adds the word that it reads.  A step that fails names the place of the word that it was to read.

Main definitions:

* `Token.trace` — what a tree keeps of a word;
* `Node.words` — a tree in source order;
* `Awaiting.words` — what the parser holds in source order.

Main results:

* `Awaiting.reads_step` — a step adds the word that it reads, or fails at it;
* `Awaiting.reads_run` — a run adds the words before the first end mark, or fails at a word;
* `Cursor.parse_outcome` — the tree of a text holds its words, or the text has a word that cannot
  follow.
-/

import StackLang.Proofs.Step
import StackLang.Tree.Parser

set_option relaxedAutoImplicit false
set_option autoImplicit false

namespace StackLang

/-! ### Words and their traces -/

/-- What a tree keeps of a word: a character is its code point, and words that only group are
dropped. -/
def Token.trace : Token → List Token
  | leftParen | rightParen | leftBrace | rightBrace | comma | eof => []
  | charLiteral c => [intLiteral (Int32.ofNat c.toNat)]
  | t => [t]

/-- The word of an operator between two operands. -/
def BinaryOp.token : BinaryOp → Token
  | assign => .equal
  | add => .plus
  | subtract => .minus
  | multiply => .star
  | divide => .slash
  | equal => .equalEqual
  | notEqual => .bangEqual
  | less => .less
  | lessEqual => .lessEqual
  | greater => .greater
  | greaterEqual => .greaterEqual

/-- The word of an operator before its operand. -/
def UnaryOp.token : UnaryOp → Token
  | plus => .plus
  | minus => .minus
  | not => .bang

/-- The word of a literal. -/
def Literal.token : Literal → Token
  | int n => .intLiteral n
  | float x => .floatLiteral x

theorem BinaryOp.token_of_ofToken? {t : Token} {op : BinaryOp} (h : ofToken? t = some op) :
    op.token = t := by
  cases t <;> cases h <;> rfl

@[simp] theorem BinaryOp.trace_token (op : BinaryOp) : op.token.trace = [op.token] := by
  cases op <;> rfl

/-! ### Trees in source order -/

namespace Node

variable {α : Type}

mutual

/-- **The words of a tree**, in source order. -/
def words : Node α → List Token
  | literal _ v => [v.token]
  | identifier _ x => [.identifier x]
  | binary _ op l r => words l ++ op.token :: words r
  | unary _ op x => op.token :: words x
  | call _ f as => words f ++ wordsList as
  | cond _ c t e => .ifWord :: (words c ++ words t ++ wordsElse e)
  | loop _ c b => .whileWord :: (words c ++ words b)
  | breakLoop _ => [.breakWord]
  | continueLoop _ => [.continueWord]
  | returnValue _ v => .returnWord :: words v
  | define _ p b => .defWord :: (words p ++ words b)
  | prototype _ f ps => .identifier f :: ps.map .identifier
  | block _ is => wordsList is
  | assembly _ t => [.asmWord, .stringLiteral t]
  | unit _ is => wordsList is
  | nop _ => []

/-- The words of the trees of a list. -/
def wordsList : List (Node α) → List Token
  | [] => []
  | x :: xs => words x ++ wordsList xs

/-- The words of the other branch of a condition, if there is one. -/
def wordsElse : Option (Node α) → List Token
  | none => []
  | some x => .elseWord :: words x

end

@[simp] theorem wordsList_append (xs ys : List (Node α)) :
    wordsList (xs ++ ys) = wordsList xs ++ wordsList ys := by
  induction xs with
  | nil => rfl
  | cons x xs ih => simp [wordsList, ih]

@[simp] theorem wordsList_singleton (x : Node α) : wordsList [x] = x.words := by
  simp [wordsList]

end Node

/-! ### Open constructs in source order -/

/-- The words of the operators that await an operand, given innermost first. -/
def pendingWords : List Pending → List Token
  | [] => []
  | p :: ps => pendingWords ps ++ p.left.words ++ [p.op.token]

/-- The words of the signs before an operand, given innermost first. -/
def signWords : List (Span × UnaryOp) → List Token
  | [] => []
  | (_, op) :: signs => signWords signs ++ [op.token]

namespace Chain

/-- The words of the operators of a chain. -/
def words (chain : Chain) : List Token := pendingWords chain.pending ++ signWords chain.signs

@[simp] theorem words_empty : empty.words = [] := rfl

/-- Signs stand before what they are closed with. -/
@[simp] theorem words_closeSigns (x : Node Span) (signs : List (Span × UnaryOp)) :
    (closeSigns x signs).words = signWords signs ++ x.words := by
  induction signs generalizing x with
  | nil => rfl
  | cons s signs ih =>
      change (closeSigns (.unary (s.1.merge x.note) s.2 x) signs).words = _
      simp [ih, signWords, Node.words]

@[simp] theorem words_close (x : Node Span) (p : Pending) :
    (p.close x).words = p.left.words ++ p.op.token :: x.words := by
  simp [Pending.close, Node.words]

/-- Operators stand before what they are closed with. -/
@[simp] theorem words_closeAll (x : Node Span) (pending : List Pending) :
    (closeAll x pending).words = pendingWords pending ++ x.words := by
  induction pending generalizing x with
  | nil => rfl
  | cons p ps ih =>
      change (closeAll (p.close x) ps).words = _
      simp [ih, pendingWords]

/-- Wherever the levels end, the words of the operators are those before them with the operand and
the operator. -/
theorem words_settle (op : BinaryOp) (x : Node Span) (floor : Nat) (pending : List Pending) :
    pendingWords (settle op x floor pending) = pendingWords pending ++ x.words ++ [op.token] := by
  induction pending generalizing x floor with
  | nil => rfl
  | cons p ps ih =>
      rw [settle]
      split
      · rfl
      · simp [ih, pendingWords]

@[simp] theorem words_push (op : BinaryOp) (x : Node Span) (pending : List Pending) :
    pendingWords (push op x pending) = pendingWords pending ++ x.words ++ [op.token] := by
  cases pending with
  | nil => rfl
  | cons p ps =>
      rw [push]
      split
      · rfl
      · split
        · rfl
        · simp [words_settle, pendingWords]

end Chain

mutual

/-- The words read up to a place in a list of statements. -/
def Body.words : Body → List Token
  | .unit done => Node.wordsList done.reverse
  | .block _ done outer => Hole.words outer ++ Node.wordsList done.reverse

/-- The words read up to a place for an expression. -/
def Hole.words : Hole → List Token
  | .statement body => Body.words body
  | .returned _ body => Body.words body ++ [.returnWord]
  | .group chain outer => Hole.words outer ++ chain.words
  | .argument callee done chain outer =>
    Hole.words outer ++ chain.words ++ callee.words ++ Node.wordsList done.reverse
  | .condition _ outer => Hole.words outer ++ [.ifWord]
  | .yes _ c outer => Hole.words outer ++ .ifWord :: c.words
  | .no _ c yes outer => Hole.words outer ++ .ifWord :: (c.words ++ yes.words ++ [.elseWord])
  | .loopCondition _ outer => Hole.words outer ++ [.whileWord]
  | .loopBody _ c outer => Hole.words outer ++ .whileWord :: c.words
  | .functionBody _ prototype done =>
    Node.wordsList done.reverse ++ .defWord :: prototype.words

end

@[simp] theorem Body.words_add (x : Node Span) (body : Body) :
    (body.add x).words = body.words ++ x.words := by
  cases body <;> simp [Body.add, Body.words]

/-- The words of the heading of a function, after the items before it. -/
def Heading.words (h : Heading) : List Token :=
  Node.wordsList h.done.reverse ++ .defWord :: .identifier h.name ::
    h.params.reverse.map .identifier

@[simp] theorem Heading.words_addParam (p : String) (h : Heading) :
    (h.addParam p).words = h.words ++ [.identifier p] := by
  simp [Heading.addParam, Heading.words]

theorem Heading.words_functionBody (start stop : Span) (h : Heading) :
    (Hole.functionBody start (h.prototype stop) h.done).words = h.words := by
  simp [Hole.words, Heading.prototype, Heading.words, Node.words]

namespace Awaiting

/-- **The words of what was read so far.** -/
def words : Awaiting → List Token
  | statement body => body.words
  | expression hole => hole.words
  | operand chain hole => hole.words ++ chain.words
  | afterOperand x _ chain hole => hole.words ++ chain.words ++ x.words
  | afterExpression x hole => hole.words ++ x.words
  | firstArgument callee chain hole => hole.words ++ chain.words ++ callee.words
  | assemblyText _ body => body.words ++ [.asmWord]
  | functionName _ done => Node.wordsList done.reverse ++ [.defWord]
  | params h | firstParam h | param h | afterParam h => h.words

/-- The end of the text can stand here: nothing is open. -/
def IsOver : Awaiting → Prop
  | statement (.unit _) => True
  | _ => False

/-- The items of a text that is over have its words. -/
theorem IsOver.words_items {a : Awaiting} (h : a.IsOver) : Node.wordsList a.items = a.words := by
  cases a with
  | statement body =>
      cases body with
      | unit done => rfl
      | block start done outer => exact h.elim
  | _ => exact h.elim

/-! ### Reading a word -/

/-- **The outcome of reading `l` after the words `before`** is what holds one word more, or an error
at that word; nothing is open behind the end mark. -/
def Reads (before : List Token) (l : Lexeme) : Except ParseError Awaiting → Prop
  | .ok a => a.words = before ++ l.token.trace ∧ (l.token = .eof → a.IsOver)
  | .error e => e.span = l.span

section Step

variable {l : Lexeme} {t : Token} {x : Node Span} {chain : Chain} {hole : Hole} {body : Body}
  {before : List Token} {a : Awaiting}

theorem reads_ok (ht : l.token = t) (heof : t ≠ .eof) (ha : a.words = before ++ t.trace) :
    Reads before l (.ok a) := by
  subst ht
  exact ⟨ha, fun h => absurd h heof⟩

theorem reads_unexpected (expected : List Token) :
    Reads before l (.error (.unexpected expected l)) := by
  change (ParseError.unexpected expected l).span = l.span
  unfold ParseError.unexpected
  split <;> rfl

theorem reads_startOperand (l : Lexeme) (chain : Chain) (hole : Hole) :
    Reads (hole.words ++ chain.words) l (startOperand l chain hole) := by
  cases ht : l.token with
  | plus | minus | bang =>
      simp only [startOperand, ht]
      exact reads_ok ht (by simp) (by simp [words, Chain.words, signWords, Token.trace,
        UnaryOp.token])
  | intLiteral n | floatLiteral y | charLiteral c =>
      simp only [startOperand, ht]
      exact reads_ok ht (by simp) (by simp [words, Node.words, Token.trace, Literal.token])
  | identifier name =>
      simp only [startOperand, ht]
      exact reads_ok ht (by simp) (by simp [words, Node.words, Token.trace])
  | leftParen =>
      simp only [startOperand, ht]
      exact reads_ok ht (by simp) (by simp [words, Hole.words, Token.trace])
  | stringLiteral s | defWord =>
      simp only [startOperand, ht]
      rfl
  | _ =>
      simp only [startOperand, ht]
      exact reads_unexpected _

theorem reads_startExpression (l : Lexeme) (hole : Hole) :
    Reads hole.words l (startExpression l hole) := by
  unfold startExpression
  split
  case h_4 => simpa using reads_startOperand l .empty hole
  all_goals
    rename_i ht
    exact reads_ok ht (by simp) (by simp [words, Body.words, Hole.words, Node.wordsList,
      Token.trace])

theorem reads_startStatement (l : Lexeme) (body : Body) :
    Reads body.words l (startStatement l body) := by
  unfold startStatement
  split
  case h_5 => simpa [Hole.words] using reads_startExpression l (.statement body)
  all_goals
    rename_i ht
    exact reads_ok ht (by simp) (by simp [words, Hole.words, Node.words, Token.trace])

theorem reads_inBody (l : Lexeme) (body : Body) : Reads body.words l (inBody l body) := by
  cases body with
  | unit done =>
      simp only [inBody]
      split
      · case h_1 ht => exact ⟨by simp [words, ht, Token.trace], fun _ => trivial⟩
      · case h_2 ht => exact reads_ok ht (by simp) (by simp [words, Body.words, Token.trace])
      · exact reads_startStatement l _
  | block start done outer =>
      simp only [inBody]
      split
      · case h_1 ht =>
          exact reads_ok ht (by simp) (by simp [words, Body.words, Node.words, Token.trace])
      · exact reads_unexpected _
      · exact reads_startStatement l _

/-- The word behind a complete expression is read where a construct goes on. -/
theorem reads_complete (x : Node Span) (l : Lexeme) (hole : Hole) :
    Reads (hole.words ++ x.words) l (complete x l hole) := by
  match hole with
  | .statement body =>
      simpa [complete, Hole.words] using reads_inBody l (body.add x)
  | .returned start body =>
      simpa [complete, Hole.words, Node.words] using
        reads_inBody l (body.add (.returnValue (start.merge x.note) x))
  | .group chain outer =>
      simp only [complete]
      split
      · simp_all [Reads, words, Hole.words, Token.trace]
      · exact reads_unexpected _
  | .argument callee done chain outer =>
      simp only [complete]
      split
      · simp_all [Reads, words, Hole.words, Token.trace]
      · simp_all [Reads, words, Hole.words, Node.words, Token.trace]
      · exact reads_unexpected _
  | .condition start outer =>
      simpa [complete, Hole.words] using
        reads_startExpression l (.yes start x outer)
  | .yes start c outer =>
      simp only [complete]
      split
      · simp_all [Reads, words, Hole.words, Token.trace]
      · simpa [Hole.words, Node.words, Node.wordsElse] using
          reads_complete (.cond (start.merge x.note) c x none) l outer
  | .no start c yes outer =>
      simpa [complete, Hole.words, Node.words, Node.wordsElse] using
        reads_complete (.cond (start.merge x.note) c yes (some x)) l outer
  | .loopCondition start outer =>
      simpa [complete, Hole.words] using
        reads_startExpression l (.loopBody start x outer)
  | .loopBody start c outer =>
      simpa [complete, Hole.words, Node.words] using
        reads_complete (.loop (start.merge x.note) c x) l outer
  | .functionBody start prototype done =>
      simpa [complete, Hole.words, Body.words, Node.words] using
        reads_inBody l (.unit (.define (start.merge x.note) prototype x :: done))

theorem reads_operate :
    Reads (hole.words ++ chain.words ++ x.words) l (operate x l chain hole) := by
  simp only [operate]
  split
  case h_1 op hop =>
    refine reads_ok (BinaryOp.token_of_ofToken? hop).symm ?_ ?_
    · cases op <;> simp [BinaryOp.token]
    · simp [words, Chain.words, signWords]
  case h_2 =>
    simpa [Chain.words] using
      reads_complete (Chain.closeAll (Chain.closeSigns x chain.signs) chain.pending) l hole

/-- A name that is read is the word that it was read from. -/
theorem reads_name {before : List Token} {f : String → Awaiting}
    (hf : ∀ name, (f name).words = before ++ [.identifier name]) :
    Reads before l (l.name.map f) := by
  unfold Lexeme.name
  split
  · case h_1 name htoken => simp [Except.map, Reads, hf, htoken, Token.trace]
  · exact reads_unexpected _

/-- **A step adds the word that it reads**, or fails at that word. -/
theorem reads_step (l : Lexeme) (a : Awaiting) : Reads a.words l (a.step l) := by
  cases a with
  | statement body => exact reads_inBody l body
  | expression hole => exact reads_startExpression l hole
  | operand chain hole => exact reads_startOperand l chain hole
  | afterOperand x callable chain hole =>
      rw [step]
      split
      · simp_all [Reads, words, Token.trace]
      · exact reads_operate
  | afterExpression x hole => exact reads_complete x l hole
  | firstArgument callee chain hole =>
      simp only [step]
      split
      · simp_all [Reads, words, Node.words, Node.wordsList, Token.trace]
      · simpa [words, Hole.words, Node.wordsList] using
          reads_startExpression l (.argument callee [] chain hole)
  | assemblyText start body =>
      simp only [step]
      split
      · simp_all [Reads, words, Node.words, Token.trace]
      · exact reads_unexpected _
  | functionName start done => exact reads_name (by simp [words, Heading.words])
  | params h =>
      simp only [step]
      split
      · simp_all [Reads, words, Token.trace]
      · exact reads_unexpected _
  | firstParam h =>
      simp only [step]
      split
      · simp_all [Reads, words, Token.trace, Heading.words_functionBody]
      · exact reads_name (by simp [words])
  | param h => exact reads_name (by simp [words])
  | afterParam h =>
      simp only [step]
      split
      · simp_all [Reads, words, Token.trace]
      · simp_all [Reads, words, Token.trace, Heading.words_functionBody]
      · exact reads_unexpected _

end Step

/-! ### Reading all words -/

section Run

variable {ls : List Lexeme} {a b : Awaiting}

theorem words_run (h : run ls a = .ok b) :
    b.words = a.words
      ++ (ls.takeWhile fun l => l.token ≠ .eof).flatMap fun l => l.token.trace := by
  induction ls generalizing a with
  | nil =>
      cases h
      simp
  | cons l ls ih =>
      have hreads := reads_step l a
      rw [run] at h
      split at h
      · case isTrue heof =>
        rw [h] at hreads
        simpa [heof, Token.trace] using hreads.1
      · case isFalse heof =>
        obtain ⟨c, hc, hrun⟩ := Step.except_bind_eq_ok.1 h
        rw [hc] at hreads
        rw [ih hrun, hreads.1]
        simp [heof]

/-- Nothing is open where the words ended. -/
theorem isOver_run (h : run ls a = .ok b) (hend : ∃ l ∈ ls, l.token = .eof) : b.IsOver := by
  induction ls generalizing a with
  | nil => simp at hend
  | cons l ls ih =>
      rw [run] at h
      split at h
      · case isTrue heof =>
        have hreads := reads_step l a
        rw [h] at hreads
        exact hreads.2 heof
      · case isFalse heof =>
        obtain ⟨c, -, hrun⟩ := Step.except_bind_eq_ok.1 h
        refine ih hrun ?_
        simpa [heof] using hend

/-- Words in front of the end mark are read one behind the other. -/
theorem run_append {before : List Lexeme} (hbefore : ∀ m ∈ before, m.token ≠ .eof)
    (h : run before a = .ok b) : run (before ++ ls) a = run ls b := by
  induction before generalizing a with
  | nil =>
      cases h
      rfl
  | cons m before ih =>
      rw [List.forall_mem_cons] at hbefore
      rw [run, if_neg hbefore.1] at h
      obtain ⟨c, hc, hrun⟩ := Step.except_bind_eq_ok.1 h
      rw [List.cons_append, run, if_neg hbefore.1, hc]
      exact ih hbefore.2 hrun

/-- A run fails at a word that cannot follow those in front of it, which are no end marks. -/
theorem exists_step_of_run_error {e : ParseError} (h : run ls a = .error e) :
    ∃ before l after b, ls = before ++ l :: after ∧ (∀ m ∈ before, m.token ≠ .eof) ∧
      run before a = .ok b ∧ b.step l = .error e := by
  induction ls generalizing a with
  | nil => cases h
  | cons l ls ih =>
      rw [run] at h
      split at h
      · exact ⟨[], l, ls, a, rfl, by simp, rfl, h⟩
      · case isFalse heof =>
        cases hc : a.step l with
        | error e' =>
            rw [hc] at h
            cases h
            exact ⟨[], l, ls, a, rfl, by simp, rfl, hc⟩
        | ok c =>
            rw [hc] at h
            obtain ⟨before, m, after, b, rfl, hbefore, hrun, hstep⟩ := ih h
            refine ⟨l :: before, m, after, b, rfl, by simpa [heof] using hbefore, ?_, hstep⟩
            rw [run, if_neg heof, hc]
            exact hrun

/-- A run fails at a word up to the first end mark. -/
theorem exists_of_run_error {e : ParseError} (h : run ls a = .error e) :
    ∃ before l after, ls = before ++ l :: after ∧ (∀ m ∈ before, m.token ≠ .eof) ∧
      e.span = l.span := by
  obtain ⟨before, l, after, b, hls, hbefore, -, hstep⟩ := exists_step_of_run_error h
  have hreads := reads_step l b
  rw [hstep] at hreads
  exact ⟨before, l, after, hls, hbefore, hreads⟩

end Run

end Awaiting

/-! ### The tree of a text -/

namespace Cursor

variable (ls : List Lexeme)

theorem lexemes_ofLexemes : (ofLexemes ls).lexemes = close ls := by
  unfold ofLexemes
  split
  · case h_1 hnil => exact absurd hnil (close_ne_nil ls)
  · case h_2 l rest hclose => exact hclose.symm

theorem exists_eof_close : ∃ l ∈ close ls, l.token = .eof := by
  unfold close
  split
  · simp
  · case h_2 l hlast =>
    split
    · case isTrue heof => exact ⟨l, List.mem_of_getLast? hlast, heof⟩
    · simp

/-- The end mark that is added is no word before the end. -/
theorem takeWhile_close : ((close ls).takeWhile fun l => l.token ≠ .eof)
    = ls.takeWhile fun l => l.token ≠ .eof := by
  unfold close
  split
  · case h_1 hnil => simp [List.getLast?_eq_none_iff.1 hnil]
  · split
    · rfl
    · rw [List.takeWhile_append]
      split
      · case isTrue hlength =>
        simpa using ((List.takeWhile_prefix _).eq_of_length hlength).symm
      · rfl

/-- **The tree of a text holds its words**: read in source order, it gives the words before the
first end mark with their traces only.  A text that has no tree has a word that cannot follow, at
the latest its first end mark. -/
theorem parse_outcome :
    (∃ x, (ofLexemes ls).parse = .ok x ∧
      x.words = (ls.takeWhile fun l => l.token ≠ .eof).flatMap fun l => l.token.trace) ∨
    ∃ e before l after, (ofLexemes ls).parse = .error e ∧
      (ofLexemes ls).lexemes = before ++ l :: after ∧ (∀ m ∈ before, m.token ≠ .eof) ∧
      e.span = l.span := by
  unfold parse
  rw [lexemes_ofLexemes]
  cases hrun : Awaiting.run (close ls) .start with
  | error e =>
      obtain ⟨before, l, after, hls, hbefore, hspan⟩ := Awaiting.exists_of_run_error hrun
      exact .inr ⟨e, before, l, after, rfl, hls, hbefore, hspan⟩
  | ok a =>
      have hwords := Awaiting.words_run hrun
      have hover := Awaiting.isOver_run hrun (exists_eof_close ls)
      refine .inl ⟨_, rfl, ?_⟩
      rw [Node.words, hover.words_items, hwords, takeWhile_close]
      rfl

end Cursor

end StackLang
