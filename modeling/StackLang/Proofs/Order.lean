/-
**The order of the definitions.**

Units that are the same but for the order of their definitions are compiled alike: to the same text,
or to errors with the same cause at places that correspond.

Main definitions:

* `Compile.ofTree` — the stages behind the parser.

Main results:

* `Compile.agree_ofTree` — trees that are the same but for the order of their definitions are
  compiled alike;
* `Compile.agree_of_isMoved` — so are texts with such trees.
-/

import StackLang.Proofs.Lower.Moved

set_option relaxedAutoImplicit false
set_option autoImplicit false

namespace StackLang

open Step

namespace Compile

variable {same : Span → Span → Prop}

/-- The outcome of compiling a tree. -/
def ofTree (optimize : Bool) (t : Node Span) : Except CompileError Compiled := do
  let (typing, c) ← lowered (prepare optimize t)
  let (code, stats) := finish optimize c
  match code.text with
  | .error e => throw (.internal e)
  | .ok text => pure ⟨text ++ typing.round.symbols.reservations, code, stats⟩

/-- A text is compiled by way of its tree. -/
theorem compile_eq (optimize : Bool) (source : String) :
    compile optimize source = tree source >>= ofTree optimize := rfl

theorem compile_of_tree {source : String} {t : Node Span} (h : tree source = .ok t)
    (optimize : Bool) : compile optimize source = ofTree optimize t := by
  rw [compile_eq, h]
  rfl

/-- The typings of such trees stand side by side, and have the same code. -/
theorem lowered_moved {x y : Node Span} (h : Node.IsMoved same x y) :
    ∃ ρ, Agree (CompileError.Alike same)
      (fun p p' => Typing.Moved same ρ p.1 p'.1 ∧ p'.2 = p.2) (lowered x) (lowered y) := by
  obtain ⟨ρ, hinfer⟩ := Document.infer_moved (Document.isMoved_ofTree h)
  refine ⟨ρ, hinfer.bind ?_⟩
  intro t t' ht
  have hcode := ht.lower
  revert hcode
  generalize t.lower = o, t'.lower = o'
  intro hcode
  cases hcode with
  | ok hc => exact .ok ⟨ht, hc.symm⟩
  | error he => exact .error (.internal he)

/-- **Trees that are the same but for the order of their definitions are compiled alike.** -/
theorem agree_ofTree {x y : Node Span} (hx : x.IsSource) (h : Node.IsMoved same x y)
    (optimize : Bool) :
    Agree (CompileError.Alike same) Eq (ofTree optimize x) (ofTree optimize y) := by
  obtain ⟨ρ, hlowered⟩ := lowered_moved (Node.isMoved_prepare hx h optimize)
  refine hlowered.bind ?_
  rintro ⟨typing, c⟩ ⟨typing', c'⟩ ⟨htyping, hc⟩
  dsimp only at htyping hc ⊢
  rw [hc, htyping.round.symbols.reservations_eq]
  cases (finish optimize c).1.text with
  | error e => exact .error (.internal (.same e))
  | ok text => exact .ok rfl

/-- **The order of the definitions does not matter.**  Texts whose trees are the same but for the
order of their definitions come to the same assembly, or to errors with the same cause at places
that correspond, for whichever relation `same` the places of the trees stand in. -/
theorem agree_of_isMoved {source source' : String} {t t' : Node Span} (ht : tree source = .ok t)
    (ht' : tree source' = .ok t') (h : Node.IsMoved same t t') (optimize : Bool) :
    Agree (CompileError.Alike same) Eq (compile optimize source) (compile optimize source') := by
  rw [compile_of_tree ht, compile_of_tree ht']
  exact agree_ofTree (isSource_tree ht) h optimize

/-- Stretches of the same length that begin in the same column. -/
def sameColumns (s s' : Span) : Bool := s.column == s'.column && s.length == s'.length

/-- Three definitions before and between two statements, or behind them in another order. -/
theorem agree_of_isMoved_three : ∃ t t', tree "def f(x) g(x) + h(x)
y = f(2)
def g(x) x * 3
def h(x) g(x / 2.0)
f(y)" = .ok t ∧ tree "y = f(2)
f(y)
def h(x) g(x / 2.0)
def f(x) g(x) + h(x)
def g(x) x * 3" = .ok t' ∧ Node.IsMoved (fun s s' => sameColumns s s' = true) t t' ∧
    Agree (CompileError.Alike fun s s' => sameColumns s s' = true) Eq
      (compile true "def f(x) g(x) + h(x)
y = f(2)
def g(x) x * 3
def h(x) g(x / 2.0)
f(y)") (compile true "y = f(2)
f(y)
def h(x) g(x / 2.0)
def f(x) g(x) + h(x)
def g(x) x * 3") := by
  have hboth : (tree "def f(x) g(x) + h(x)
y = f(2)
def g(x) x * 3
def h(x) g(x / 2.0)
f(y)").toOption.any (fun t => (tree "y = f(2)
f(y)
def h(x) g(x / 2.0)
def f(x) g(x) + h(x)
def g(x) x * 3").toOption.any fun t' => Node.checkMoved sameColumns t t') = true := by
    decide +kernel
  simp only [Option.any_eq_true] at hboth
  obtain ⟨t, ht, t', ht', hmoved⟩ := hboth
  have hsame := Node.isMoved_of_check _ hmoved
  have htree := eq_ok_of_toOption ht
  have htree' := eq_ok_of_toOption ht'
  exact ⟨t, t', htree, htree', hsame, agree_of_isMoved htree htree' hsame true⟩

end Compile

end StackLang
