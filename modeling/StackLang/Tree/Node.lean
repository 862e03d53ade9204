/-
**Syntax trees.**

A compilation unit as a tree.  Every node carries a note of a type of the reader's choice: the
parser leaves the span there, later analyses add a type, a symbol or an identity.

Main definitions:

* `Node` — a tree whose nodes carry notes of type `α`;
* `Node.note`, `Node.withNote` — the note of the root;
* `Node.map` — the same tree with other notes;
* `Node.number` — the same tree with numbered notes;
* `Node.children` — the trees directly below the root, in the order of evaluation;
* `Node.notes`, `Node.subtrees` — all notes and all subtrees, a node before what is below it.
-/

import StackLang.Tree.Literal

set_option relaxedAutoImplicit false
set_option autoImplicit false

namespace StackLang

/-- A syntax tree whose nodes carry notes of type `α`. -/
inductive Node (α : Type) where
  | literal (note : α) (value : Literal)
  | identifier (note : α) (name : String)
  | binary (note : α) (op : BinaryOp) (left right : Node α)
  | unary (note : α) (op : UnaryOp) (operand : Node α)
  | call (note : α) (callee : Node α) (args : List (Node α))
  /-- `if condition yes else no`, where the last branch may be missing. -/
  | cond (note : α) (condition yes : Node α) (no : Option (Node α))
  | loop (note : α) (condition body : Node α)
  | breakLoop (note : α)
  | continueLoop (note : α)
  | returnValue (note : α) (value : Node α)
  | define (note : α) (prototype body : Node α)
  | prototype (note : α) (name : String) (params : List String)
  /-- Statements in braces. -/
  | block (note : α) (items : List (Node α))
  /-- A text of target code. -/
  | assembly (note : α) (text : String)
  /-- The items of a whole text. -/
  | unit (note : α) (items : List (Node α))
  /-- What is left where a statement was dropped. -/
  | nop (note : α)
deriving BEq, Repr, Inhabited

namespace Node

variable {α β : Type}

/-! ### Notes -/

/-- The note of the root. -/
def note : Node α → α
  | literal n _ | identifier n _ | binary n _ _ _ | unary n _ _ | call n _ _ | cond n _ _ _
  | loop n _ _ | breakLoop n | continueLoop n | returnValue n _ | define n _ _ | prototype n _ _
  | block n _ | assembly n _ | unit n _ | nop n => n

/-- The same tree with another note at the root. -/
def withNote (n : α) : Node α → Node α
  | literal _ v => literal n v
  | identifier _ x => identifier n x
  | binary _ op l r => binary n op l r
  | unary _ op x => unary n op x
  | call _ f as => call n f as
  | cond _ c t e => cond n c t e
  | loop _ c b => loop n c b
  | breakLoop _ => breakLoop n
  | continueLoop _ => continueLoop n
  | returnValue _ v => returnValue n v
  | define _ p b => define n p b
  | prototype _ f ps => prototype n f ps
  | block _ is => block n is
  | assembly _ t => assembly n t
  | unit _ is => unit n is
  | nop _ => nop n

@[simp] theorem note_withNote (n : α) (x : Node α) : (x.withNote n).note = n := by
  cases x <;> rfl

@[simp] theorem withNote_note (x : Node α) : x.withNote x.note = x := by
  cases x <;> rfl

mutual

/-- The same tree with other notes. -/
def map (f : α → β) : Node α → Node β
  | literal n v => literal (f n) v
  | identifier n x => identifier (f n) x
  | binary n op l r => binary (f n) op (map f l) (map f r)
  | unary n op x => unary (f n) op (map f x)
  | call n g as => call (f n) (map f g) (mapList f as)
  | cond n c t e => cond (f n) (map f c) (map f t) (mapOption f e)
  | loop n c b => loop (f n) (map f c) (map f b)
  | breakLoop n => breakLoop (f n)
  | continueLoop n => continueLoop (f n)
  | returnValue n v => returnValue (f n) (map f v)
  | define n p b => define (f n) (map f p) (map f b)
  | prototype n g ps => prototype (f n) g ps
  | block n is => block (f n) (mapList f is)
  | assembly n t => assembly (f n) t
  | unit n is => unit (f n) (mapList f is)
  | nop n => nop (f n)

/-- `Node.map` on every tree of a list. -/
def mapList (f : α → β) : List (Node α) → List (Node β)
  | [] => []
  | x :: xs => map f x :: mapList f xs

/-- `Node.map` on a tree that may be missing. -/
def mapOption (f : α → β) : Option (Node α) → Option (Node β)
  | none => none
  | some x => some (map f x)

end

mutual

/-- The same tree with notes that take the numbers from `k` on, a node before what is below it, and
the first number that was not used. -/
def number (f : Nat → α → β) (k : Nat) : Node α → Node β × Nat
  | literal n v => (literal (f k n) v, k + 1)
  | identifier n x => (identifier (f k n) x, k + 1)
  | binary n op l r =>
    let (l, i) := number f (k + 1) l
    let (r, j) := number f i r
    (binary (f k n) op l r, j)
  | unary n op x =>
    let (x, i) := number f (k + 1) x
    (unary (f k n) op x, i)
  | call n g as =>
    let (g, i) := number f (k + 1) g
    let (as, j) := numberList f i as
    (call (f k n) g as, j)
  | cond n c t e =>
    let (c, i) := number f (k + 1) c
    let (t, j) := number f i t
    let (e, m) := numberOption f j e
    (cond (f k n) c t e, m)
  | loop n c b =>
    let (c, i) := number f (k + 1) c
    let (b, j) := number f i b
    (loop (f k n) c b, j)
  | breakLoop n => (breakLoop (f k n), k + 1)
  | continueLoop n => (continueLoop (f k n), k + 1)
  | returnValue n v =>
    let (v, i) := number f (k + 1) v
    (returnValue (f k n) v, i)
  | define n p b =>
    let (p, i) := number f (k + 1) p
    let (b, j) := number f i b
    (define (f k n) p b, j)
  | prototype n g ps => (prototype (f k n) g ps, k + 1)
  | block n is =>
    let (is, i) := numberList f (k + 1) is
    (block (f k n) is, i)
  | assembly n t => (assembly (f k n) t, k + 1)
  | unit n is =>
    let (is, i) := numberList f (k + 1) is
    (unit (f k n) is, i)
  | nop n => (nop (f k n), k + 1)

/-- `Node.number` along a list. -/
def numberList (f : Nat → α → β) (k : Nat) : List (Node α) → List (Node β) × Nat
  | [] => ([], k)
  | x :: xs =>
    let (x, i) := number f k x
    let (xs, j) := numberList f i xs
    (x :: xs, j)

/-- `Node.number` on a tree that may be missing. -/
def numberOption (f : Nat → α → β) (k : Nat) : Option (Node α) → Option (Node β) × Nat
  | none => (none, k)
  | some x =>
    let (x, i) := number f k x
    (some x, i)

end

/-! ### Shape -/

/-- The word for the kind of the root. -/
def kindName : Node α → String
  | literal .. => "literal"
  | identifier .. => "identifier"
  | binary .. => "binary expression"
  | unary .. => "unary expression"
  | call .. => "call"
  | cond .. => "if"
  | loop .. => "while"
  | breakLoop .. => "break"
  | continueLoop .. => "continue"
  | returnValue .. => "return"
  | define .. => "function definition"
  | prototype .. => "prototype"
  | block .. => "statement list"
  | assembly .. => "inline assembly"
  | unit .. => "compilation unit"
  | nop .. => "no-op"

/-- The trees directly below the root, in the order of evaluation. -/
def children : Node α → List (Node α)
  | binary _ _ l r => [l, r]
  | unary _ _ x => [x]
  | call _ f as => f :: as
  | cond _ c t e => c :: t :: e.toList
  | loop _ c b => [c, b]
  | returnValue _ v => [v]
  | define _ p b => [p, b]
  | block _ is | unit _ is => is
  | literal .. | identifier .. | breakLoop .. | continueLoop .. | prototype .. | assembly ..
  | nop .. => []

/-- Whether evaluating the tree leaves a cell on the stack: jumps, target code and definitions leave
none. -/
def yieldsCell : Node α → Bool
  | breakLoop .. | continueLoop .. | returnValue .. | assembly .. | define .. | prototype .. =>
    false
  | _ => true

mutual

/-- All notes, that of a node before those below it. -/
def notes : Node α → List α
  | literal n _ | identifier n _ | breakLoop n | continueLoop n | prototype n _ _ | assembly n _
  | nop n => [n]
  | binary n _ l r => n :: (notes l ++ notes r)
  | unary n _ x => n :: notes x
  | call n f as => n :: (notes f ++ notesList as)
  | cond n c t e => n :: (notes c ++ notes t ++ notesOption e)
  | loop n c b => n :: (notes c ++ notes b)
  | returnValue n v => n :: notes v
  | define n p b => n :: (notes p ++ notes b)
  | block n is => n :: notesList is
  | unit n is => n :: notesList is

/-- All notes of the trees of a list. -/
def notesList : List (Node α) → List α
  | [] => []
  | x :: xs => notes x ++ notesList xs

/-- All notes of a tree that may be missing. -/
def notesOption : Option (Node α) → List α
  | none => []
  | some x => notes x

end

mutual

/-- The tree and everything below it, a node before what is below it. -/
def subtrees : Node α → List (Node α)
  | literal n v => [literal n v]
  | identifier n x => [identifier n x]
  | binary n op l r => binary n op l r :: (subtrees l ++ subtrees r)
  | unary n op x => unary n op x :: subtrees x
  | call n f as => call n f as :: (subtrees f ++ subtreesList as)
  | cond n c t e => cond n c t e :: (subtrees c ++ subtrees t ++ subtreesOption e)
  | loop n c b => loop n c b :: (subtrees c ++ subtrees b)
  | breakLoop n => [breakLoop n]
  | continueLoop n => [continueLoop n]
  | returnValue n v => returnValue n v :: subtrees v
  | define n p b => define n p b :: (subtrees p ++ subtrees b)
  | prototype n f ps => [prototype n f ps]
  | block n is => block n is :: subtreesList is
  | assembly n t => [assembly n t]
  | unit n is => unit n is :: subtreesList is
  | nop n => [nop n]

/-- The trees of a list and everything below them. -/
def subtreesList : List (Node α) → List (Node α)
  | [] => []
  | x :: xs => subtrees x ++ subtreesList xs

/-- `Node.subtrees` of a tree that may be missing. -/
def subtreesOption : Option (Node α) → List (Node α)
  | none => []
  | some x => subtrees x

end

/-- The number of nodes. -/
def size (x : Node α) : Nat := x.notes.length

end Node

end StackLang
