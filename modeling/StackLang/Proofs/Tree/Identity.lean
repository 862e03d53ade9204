/-
**The identities of the nodes of a tree.**

Numbering a tree gives its nodes the numbers from the first free one on, without a gap, a node
before what is below it.  So the nodes of a copy have identities that no node had before.

Main definitions:

* `Node.identities` — the identities of all nodes of a tree.

Main results:

* `Node.isRun_number` — the numbers that a tree takes;
* `Node.identities_copy`, `Document.identities_ofTree` — the identities of a copy and of a document.
-/

import StackLang.Proofs.Tree.Shape
import StackLang.Tree.Function

set_option relaxedAutoImplicit false
set_option autoImplicit false

namespace StackLang

/-! ### Runs of numbers -/

/-- The numbers of the notes are those from `k` on, below `m`. -/
structure IsRun {β : Type} (g : β → Nat) (k m : Nat) (ns : List β) : Prop where
  le : k ≤ m
  numbers : ns.map g = List.range' k (m - k)

namespace IsRun

variable {β : Type} {g : β → Nat} {k l m : Nat} {ns ms : List β}

theorem nil : IsRun g k k [] := by
  constructor
  · exact Nat.le_refl k
  · rw [Nat.sub_self]
    rfl

theorem cons {n : β} (hn : g n = k) (h : IsRun g (k + 1) m ns) : IsRun g k m (n :: ns) := by
  have hle := h.le
  have hsucc : m - k = m - (k + 1) + 1 := by omega
  constructor
  · omega
  · rw [List.map_cons, hn, h.numbers, hsucc, List.range'_succ]

theorem append (h : IsRun g k l ns) (h' : IsRun g l m ms) : IsRun g k m (ns ++ ms) := by
  have hle := h.le
  have hle' := h'.le
  have hsum : m - k = l - k + (m - l) := by omega
  have hfirst : l = k + (l - k) := by omega
  constructor
  · omega
  · rw [List.map_append, h.numbers, h'.numbers, hsum, ← List.range'_append_1, ← hfirst]

theorem single {n : β} (hn : g n = k) : IsRun g k (k + 1) [n] := .cons hn .nil

theorem nodup (h : IsRun g k m ns) : (ns.map g).Nodup := by
  rw [h.numbers]
  exact List.nodup_range'

theorem mem_iff (h : IsRun g k m ns) {j : Nat} : j ∈ ns.map g ↔ k ≤ j ∧ j < m := by
  have hle := h.le
  rw [h.numbers, List.mem_range'_1]
  omega

end IsRun

/-! ### Numbering -/

namespace Node

variable {α β : Type} {f : Nat → α → β} {g : β → Nat}

mutual

/-- **The numbers that a tree takes** are those from the first free one on. -/
theorem isRun_number (hg : ∀ i a, g (f i a) = i) (k : Nat) (x : Node α) :
    IsRun g k (x.number f k).2 (x.number f k).1.notes := by
  cases x with
  | binary n op l r =>
      exact .cons (hg k n) ((isRun_number hg (k + 1) l).append (isRun_number hg _ r))
  | unary n op x => exact .cons (hg k n) (isRun_number hg (k + 1) x)
  | call n c as =>
      exact .cons (hg k n) ((isRun_number hg (k + 1) c).append (isRun_numberList hg _ as))
  | cond n c t e =>
      exact .cons (hg k n) (((isRun_number hg (k + 1) c).append (isRun_number hg _ t)).append
        (isRun_numberOption hg _ e))
  | loop n c b =>
      exact .cons (hg k n) ((isRun_number hg (k + 1) c).append (isRun_number hg _ b))
  | returnValue n v => exact .cons (hg k n) (isRun_number hg (k + 1) v)
  | define n p b =>
      exact .cons (hg k n) ((isRun_number hg (k + 1) p).append (isRun_number hg _ b))
  | block n is => exact .cons (hg k n) (isRun_numberList hg (k + 1) is)
  | unit n is => exact .cons (hg k n) (isRun_numberList hg (k + 1) is)
  | _ => exact .single (hg k _)

theorem isRun_numberList (hg : ∀ i a, g (f i a) = i) (k : Nat) (xs : List (Node α)) :
    IsRun g k (numberList f k xs).2 (notesList (numberList f k xs).1) := by
  cases xs with
  | nil => exact .nil
  | cons x xs => exact (isRun_number hg k x).append (isRun_numberList hg _ xs)

theorem isRun_numberOption (hg : ∀ i a, g (f i a) = i) (k : Nat) (x : Option (Node α)) :
    IsRun g k (numberOption f k x).2 (notesOption (numberOption f k x).1) := by
  cases x with
  | none => exact .nil
  | some x => exact isRun_number hg k x

end

/-! ### Identities -/

/-- The identities of all nodes of a tree. -/
def identities (x : Node Mark) : List Nat := x.notes.map Mark.id

/-- The nodes of a copy have new identities. -/
theorem identities_copy (k : Nat) (x : Node Mark) :
    IsRun Mark.id k (x.copy k).2 (x.copy k).1.notes :=
  isRun_number (fun _ _ => rfl) k x

end Node

/-- The nodes of a copy of a function have new identities. -/
theorem Function.identities_copy (f : Function) (k : Nat) (name : String) :
    IsRun Mark.id k (f.copy k name).2 (f.copy k name).1.toNode.notes :=
  .cons rfl (.cons rfl (f.body.identities_copy (k + 2)))

/-- The nodes of a document have the identities below the first free one. -/
theorem Document.identities_ofTree (x : Node Span) :
    IsRun Mark.id 0 (Document.ofTree x).fresh (Document.ofTree x).root.notes :=
  Node.isRun_number (fun _ _ => rfl) 0 x

end StackLang
