/-
**The arena always holds a tree.**

The arena into which a text is read holds the tree of the text, with no node besides.  It is folded,
parts of it are copied and put in the place of other parts, and the node above each node is
recorded, in any order and as often as one likes: there is a tree below the root at every moment.

Main definitions:

* `Arena.Serves` — an arena always holds a tree, that of a text first.

Main results:

* `Compile.carries_tree` — **the arena always holds a tree**, and so does every document.
-/

import StackLang.Proofs.Tree.Nested
import StackLang.Proofs.Arena.Documents
import StackLang.Proofs.Arena.Follows
import StackLang.Proofs.Arena.Rewrite

set_option relaxedAutoImplicit false
set_option autoImplicit false

namespace StackLang

open Relation (ReflTransGen)

/-- **An arena always holds a tree**, that of a text first. -/
structure Arena.Serves (A : Arena) (t : Node Span) : Prop where
  /-- Every node is reached from the root, in one way. -/
  once : ∀ k < A.size, ∃! ps, A.Path k ps
  /-- What is below the root is the tree of the text. -/
  tree : ∃ x, A.IsTree x ∧ x.map Mark.span = t
  /-- Whatever is done to the arena, it holds a tree and can be worked with. -/
  carries : ∀ B, ReflTransGen Arena.Changes A B → ∃ x, B.Carries x
  /-- What is done to the document of the text can be done to the arena, with the same outcome up to
  names. -/
  mirrors : ∀ d, ReflTransGen Document.Changes (.ofTree t) d →
    ∃ B x f, ReflTransGen Arena.Changes A B ∧ B.Mirrors x d f

/-- An arena that is full with the tree of a text always holds a tree. -/
theorem Arena.IsTree.serves {A : Arena} {x : Node Mark} {t : Node Span} (hA : A.IsTree x)
    (hx : x.map Mark.span = t) (hperm : x.identities.Perm (List.range A.size))
    (hblank : ∀ c ∈ A.cells, c.annotations = .empty) : A.Serves t := by
  constructor
  case once =>
    exact fun k hk => hA.carries.once k (hA.reaches_iff.2 (hperm.mem_iff.2 (List.mem_range.2 hk)))
  case tree => exact ⟨x, hA, hx⟩
  case carries =>
    intro B hB
    obtain ⟨y, hy⟩ := Arena.isTree_of_changes hB hA
    exact ⟨y, hy.carries⟩
  case mirrors =>
    intro d hd
    obtain ⟨f, hf⟩ := Arena.exists_mirrors_ofTree hA hx hblank
    exact hf.of_changes hd

namespace Compile

variable {source : String} {t : Node Span}

/-- **The arena always holds a tree.**  The arena into which a text is read holds its tree and
nothing else, and always a tree from then on; and so does every arena in which the nodes of the text
are made one after the other, each out of the last trees that are complete. -/
theorem carries_tree (h : tree source = .ok t) : ∃ ls, Lexeme.ofText source = .ok ls ∧
    (∃ A, (Cursor.ofLexemes ls).read .empty = some (.ok ((), A)) ∧ A.Serves t) ∧
    (∃ ms, (Cursor.ofLexemes ls).Makes ms t) ∧
    ∀ ms, (Cursor.ofLexemes ls).Makes ms t → ∃ A, Arena.build ms = some A ∧ A.Serves t := by
  obtain ⟨ls, hls, hparse⟩ := exists_of_tree h
  refine ⟨ls, hls, ?_, Cursor.exists_makes hparse, fun ms hms => ?_⟩
  · obtain ⟨A, x, hread, hA, hx, hperm, hblank⟩ := Cursor.read_of_parse hparse
    exact ⟨A, hread, hA.serves hx hperm hblank⟩
  · obtain ⟨A, x, hbuild, hA, hx, hperm, hblank⟩ := Arena.build_eq hms.of_nothing
    exact ⟨A, hbuild, hA.serves hx hperm hblank⟩

/-- A condition and operators that fold, and a `return` at the end of a branch. -/
theorem carries_tree_branches : ∃ t,
    tree "def f(x) { if 1 < 2 { return x } else -3 }\nf(4 * 5)" = .ok t ∧
    ∃ ls, Lexeme.ofText "def f(x) { if 1 < 2 { return x } else -3 }\nf(4 * 5)" = .ok ls ∧
      (∃ A, (Cursor.ofLexemes ls).read .empty = some (.ok ((), A)) ∧ A.Serves t) ∧
      (∃ ms, (Cursor.ofLexemes ls).Makes ms t) ∧
      ∀ ms, (Cursor.ofLexemes ls).Makes ms t → ∃ A, Arena.build ms = some A ∧ A.Serves t := by
  have hrun : (tree "def f(x) { if 1 < 2 { return x } else -3 }\nf(4 * 5)").toOption.isSome =
      true := by decide +kernel
  obtain ⟨t, ht⟩ := Option.isSome_iff_exists.1 hrun
  have ht := Step.eq_ok_of_toOption ht
  exact ⟨t, ht, carries_tree ht⟩

end Compile

end StackLang
