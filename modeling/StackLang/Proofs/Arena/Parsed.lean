/-
**The arena of a text.**

While it reads, the parser holds complete trees, and it makes a node when the last of these are what
is directly below it.  So it takes every tree that it made into another one, but for the last: in an
arena every node that is made is a part of the tree.

Main definitions:

* `Makes` — some nodes are made, one after the other, each out of the last trees;
* `Awaiting.Run`, `Cursor.Makes` — what the parser makes, word by word and for a whole text;
* `Arena.make`, `Arena.build` — making a node in an arena, and the arena in which all are made;
* `Arena.IsFull` — an arena holds some trees, and nothing else.

Main results:

* `Cursor.Makes.of_nothing` — **what the parser makes** ends up in the tree of the text;
* `Arena.build_eq` — the arena in which a tree is made is full with it.
-/

import StackLang.Proofs.Tree.Spans
import StackLang.Proofs.Arena.Becomes

set_option relaxedAutoImplicit false
set_option autoImplicit false

namespace StackLang

/-! ### Making nodes -/

/-- **Some nodes are made, one after the other**: each takes the last of the trees that are there,
which are those directly below it, and is then the last one. -/
inductive Makes : List (Node Span) → List (Node Span) → List (Node Span) → Prop where
  | nil (ts : List (Node Span)) : Makes ts [] ts
  | cons {us ms ts : List (Node Span)} {x : Node Span} (h : Makes (us ++ [x]) ms ts) :
      Makes (us ++ x.children) (x :: ms) ts

namespace Makes

variable {ss ts us ms ns : List (Node Span)}

theorem append (h : Makes ss ms ts) (h' : Makes ts ns us) : Makes ss (ms ++ ns) us := by
  induction h with
  | nil => exact h'
  | cons _ ih => exact .cons (ih h')

/-- What is in front stays. -/
theorem behind (us : List (Node Span)) (h : Makes ss ms ts) : Makes (us ++ ss) ms (us ++ ts) := by
  induction h with
  | nil ts => exact .nil _
  | @cons vs ms ts x _ ih =>
      rw [← List.append_assoc] at ih ⊢
      exact .cons ih

end Makes

/-- What is joined is made. -/
theorem Joins.exists_makes {vs ws : List Held} (h : Joins vs ws) :
    ∃ ms, Makes (completed vs) ms (completed ws) := by
  induction h with
  | refl hs => exact ⟨[], .nil _⟩
  | drop s => exact ⟨[], .nil _⟩
  | @join x hs h =>
      have hmade : Makes ([] ++ x.children) [x] [x] := .cons (.nil _)
      exact ⟨[x], h.children ▸ hmade⟩
  | behind us _ ih =>
      obtain ⟨ms, hms⟩ := ih
      exact ⟨ms, by simpa using hms.behind (completed us)⟩
  | before s _ ih =>
      obtain ⟨ms, hms⟩ := ih
      exact ⟨ms, by simpa using hms⟩
  | trans _ _ ih ih' =>
      obtain ⟨ms, hms⟩ := ih
      obtain ⟨ns, hns⟩ := ih'
      exact ⟨ms ++ ns, hms.append hns⟩

namespace Awaiting

variable {l : Lexeme} {ls : List Lexeme} {a b : Awaiting}

/-- **Reading a word makes some nodes.** -/
theorem exists_makes_step (h : a.step l = .ok b) :
    ∃ ms, Makes (completed a.held) ms (completed b.held) := by
  have hjoins := gathers_step l a
  rw [h] at hjoins
  simpa using hjoins.exists_makes

/-- **A run with what it makes**: words are read up to the first end mark, and each of them makes
some nodes out of the trees that are complete then. -/
inductive Run : List Lexeme → Awaiting → List (Node Span) → Awaiting → Prop where
  | done (a : Awaiting) : Run [] a [] a
  | last {l : Lexeme} {ls : List Lexeme} {a b : Awaiting} {ms : List (Node Span)}
      (heof : l.token = .eof) (h : a.step l = .ok b)
      (hms : Makes (completed a.held) ms (completed b.held)) : Run (l :: ls) a ms b
  | next {l : Lexeme} {ls : List Lexeme} {a b c : Awaiting} {ms ns : List (Node Span)}
      (heof : l.token ≠ .eof) (h : a.step l = .ok b)
      (hms : Makes (completed a.held) ms (completed b.held)) (hrun : Run ls b ns c) :
      Run (l :: ls) a (ms ++ ns) c

/-- **Every run makes some nodes.** -/
theorem exists_run (h : run ls a = .ok b) : ∃ ms, Run ls a ms b := by
  induction ls generalizing a with
  | nil =>
      cases h
      exact ⟨[], .done _⟩
  | cons l ls ih =>
      rw [run] at h
      split at h
      case isTrue heof =>
        obtain ⟨ms, hms⟩ := exists_makes_step h
        exact ⟨ms, .last heof h hms⟩
      case isFalse heof =>
        obtain ⟨c, hc, hrun⟩ := Step.except_bind_eq_ok.1 h
        obtain ⟨ms, hms⟩ := exists_makes_step hc
        obtain ⟨ns, hns⟩ := ih hrun
        exact ⟨ms ++ ns, .next heof hc hms hns⟩

namespace Run

variable {ms : List (Node Span)}

theorem run_eq (h : Run ls a ms b) : run ls a = .ok b := by
  induction h with
  | done a => rfl
  | last heof h _ => rw [run, if_pos heof, h]
  | next heof h _ _ ih =>
      rw [run, if_neg heof, h]
      exact ih

/-- What a whole run makes it makes out of the trees that are complete before it. -/
theorem makes (h : Run ls a ms b) : Makes (completed a.held) ms (completed b.held) := by
  induction h with
  | done a => exact .nil _
  | last _ _ hms => exact hms
  | next _ _ hms _ ih => exact hms.append ih

end Run

/-- The items of a text that is over are all that is complete. -/
theorem IsOver.completed_held (h : a.IsOver) : completed a.held = a.items := by
  cases a with
  | statement body =>
      cases body with
      | unit done => simp [held, Body.held, items]
      | block start done outer => exact h.elim
  | _ => exact h.elim

end Awaiting

namespace Cursor

/-- **The nodes that the parser makes** for a text: those of its run, and then the root. -/
def Makes (c : Cursor) (ms : List (Node Span)) (t : Node Span) : Prop :=
  ∃ ns a, Awaiting.Run c.lexemes .start ns a ∧ ms = ns ++ [t] ∧ t = .unit (c.spanOf a.items) a.items

variable {ls : List Lexeme} {ms : List (Node Span)} {t : Node Span}

theorem exists_makes (h : (ofLexemes ls).parse = .ok t) : ∃ ms, (ofLexemes ls).Makes ms t := by
  obtain ⟨a, hrun, h⟩ := Step.except_bind_eq_ok.1 h
  obtain ⟨ns, hns⟩ := Awaiting.exists_run hrun
  exact ⟨_, ns, a, hns, rfl, (Except.ok.inj h).symm⟩

/-- **What the parser makes**: it starts with nothing and ends with the tree of the text. -/
theorem Makes.of_nothing (h : (ofLexemes ls).Makes ms t) : StackLang.Makes [] ms [t] := by
  obtain ⟨ns, a, hrun, rfl, rfl⟩ := h
  have hover := Awaiting.isOver_run hrun.run_eq (lexemes_ofLexemes ls ▸ exists_eof_close ls)
  have hns := hrun.makes
  rw [hover.completed_held] at hns
  have hroot : StackLang.Makes
      ([] ++ (Node.unit ((ofLexemes ls).spanOf a.items) a.items).children) _ _ := .cons (.nil _)
  exact hns.append hroot

end Cursor

/-! ### Making nodes in an arena -/

namespace Arena

open Node (identity identities)

variable {A B : Arena} {x t : Node Span} {xs us ys : List (Node Mark)} {ms ss ts : List (Node Span)}

/-- Makes the root of a tree out of the last of some nodes, which are those directly below it. -/
def make (x : Node Span) (ks : List Nat) : Pass (List Nat) := do
  let n := ks.length - x.children.length
  -- no place in the kind is used, as all are filled
  let k ← alloc ((x.kind.map fun _ => 0).refill (ks.drop n)) x.note
  return ks.take n ++ [k]

/-- Makes some nodes, one after the other. -/
def makeAll (ms : List (Node Span)) (ks : List Nat) : Pass (List Nat) :=
  ms.foldlM (fun ks x => make x ks) ks

/-- **The arena in which some nodes are made**; the one that is left is the root. -/
def build (ms : List (Node Span)) : Option Arena := do
  match ← makeAll ms [] empty with
  | ([k], A) => return { A with root := some k }
  | _ => none

/-- **An arena is full with some trees**: it holds them without sharing, and nothing else, and
nothing is recorded. -/
structure IsFull (A : Arena) (xs : List (Node Mark)) : Prop where
  holds : ∀ x ∈ xs, A.Holds x
  perm : (xs.flatMap identities).Perm (List.range A.size)
  blank : ∀ c ∈ A.cells, c.annotations = .empty

/-- **A new node** takes the last trees, and the arena is full with it and the rest. -/
theorem IsFull.made {kind : Kind (Node Mark)} (h : A.IsFull (us ++ kind.children)) (s : Span) :
    (A.push ⟨kind.map identity, s, .empty⟩).IsFull (us ++ [.ofKind ⟨A.size, s⟩ kind]) := by
  have hall := Becomes.refl h.holds (h.perm.nodup_iff.2 List.nodup_range)
  have hmade := (hall.of_sublist (fun z hz => h.holds z (List.mem_append_right _ hz))
    (by simp)).made rfl s
  constructor
  case holds =>
    refine fun w hw => (List.mem_append.1 hw).elim (fun hw => ?_) (hmade.holds w)
    have hheld := h.holds w (List.mem_append_left _ hw)
    exact hheld.congr fun k hk => getElem?_push_of_lt (hheld.lt_size k hk)
  case perm =>
    have hsize : (A.push ⟨kind.map identity, s, .empty⟩).size = A.size + 1 := by
      simp [push, size]
    rw [hsize, List.range_succ, List.flatMap_append, List.flatMap_singleton, Node.identities_ofKind]
    refine List.perm_middle.trans (((h.perm.symm.append_right _).trans ?_).symm)
    rw [List.flatMap_append]
    exact List.perm_append_singleton _ _
  case blank => exact List.forall_mem_append.2 ⟨h.blank, List.forall_mem_singleton.2 rfl⟩

/-- **A node that is made** takes the last trees. -/
theorem make_eq (h : A.IsFull (us ++ ys)) (hys : ys.map (Node.map Mark.span) = x.children) :
    ∃ z B, make x ((us ++ ys).map identity) A = some ((us ++ [z]).map identity, B) ∧
      z.map Mark.span = x ∧ B.IsFull (us ++ [z]) := by
  have hlength : ys.length = x.children.length := by simpa using congrArg List.length hys
  let kind : Kind (Node Mark) := (x.kind.map fun _ => .nop ⟨0, x.note⟩).refill ys
  have hchildren : kind.children = ys := Kind.children_refill (by simpa using hlength)
  have hplaces : kind.map identity = (x.kind.map fun _ => 0).refill (ys.map identity) := by
    rw [Kind.map_refill, Kind.map_map]
    rfl
  have hspans : kind.map (Node.map Mark.span) = x.kind := by
    rw [Kind.map_refill, Kind.map_map, hys, ← Node.children_kind]
    exact x.kind.refill_map_children _
  refine ⟨.ofKind ⟨A.size, x.note⟩ kind, A.push ⟨kind.map identity, x.note, .empty⟩, ?_, ?_, ?_⟩
  · have htaken : (us.map identity ++ ys.map identity).length - x.children.length =
        (us.map identity).length := by simp [hlength]
    rw [make, List.map_append, List.map_append]
    simp only [htaken, List.drop_left, List.take_left]
    rw [← hplaces, bind_of_eq_some alloc_eq, List.map_singleton, Node.identity_ofKind]
    rfl
  · rw [Node.map_ofKind, hspans, Node.ofKind_kind]
  · exact (hchildren ▸ h : A.IsFull (us ++ kind.children)).made x.note

/-- **Nodes that are made one after the other** leave the arena full. -/
theorem makeAll_eq (h : Makes ss ms ts) (hA : A.IsFull xs)
    (hxs : xs.map (Node.map Mark.span) = ss) : ∃ zs B,
      makeAll ms (xs.map identity) A = some (zs.map identity, B) ∧
      zs.map (Node.map Mark.span) = ts ∧ B.IsFull zs := by
  induction h generalizing xs A with
  | nil ts => exact ⟨xs, A, rfl, hxs, hA⟩
  | @cons us ms ts x _ ih =>
      obtain ⟨us, ys, rfl, rfl, hys⟩ := List.map_eq_append_iff.1 hxs
      obtain ⟨z, B, hrun, hz, hB⟩ := make_eq hA hys
      obtain ⟨zs, C, hruns, hzs, hC⟩ := ih hB (by rw [List.map_append, List.map_singleton, hz])
      refine ⟨zs, C, ?_, hzs, hC⟩
      rw [makeAll, List.foldlM_cons, bind_of_eq_some hrun]
      exact hruns

/-- **The arena in which a tree is made** holds it, and nothing else, and nothing is recorded. -/
theorem build_eq (h : Makes [] ms [t]) : ∃ A x, build ms = some A ∧ A.IsTree x ∧
    x.map Mark.span = t ∧ x.identities.Perm (List.range A.size) ∧
    ∀ c ∈ A.cells, c.annotations = .empty := by
  obtain ⟨zs, A, hrun, hzs, hA⟩ := @makeAll_eq empty [] ms [] [t] h ⟨nofun, .nil, nofun⟩ rfl
  obtain ⟨x, rfl, rfl⟩ := List.map_eq_singleton_iff.1 hzs
  have hperm : x.identities.Perm (List.range A.size) := by simpa using hA.perm
  refine ⟨{ A with root := some x.identity }, x, ?_, ⟨rfl, ?_, ?_⟩, rfl, hperm, hA.blank⟩
  · rw [List.map_nil] at hrun
    rw [build, hrun]
    rfl
  · exact (hA.holds x List.mem_cons_self).congr fun _ _ => rfl
  · exact hperm.nodup_iff.2 List.nodup_range

end Arena

end StackLang
