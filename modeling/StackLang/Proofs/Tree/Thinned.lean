/-
**What is lost and what is hidden when uses are dropped.**

A unit from which uses of names are dropped does not fare worse or better at random.  A name that is
assigned in what is dropped may become unknown: this is all that is lost.  A failure may be gone, or
another one may be reported instead of it: then it is that of a use that is dropped, or it stands in
a function that is called from there, directly or through others.

The functions that are called are worked off in a different order, since calls are missing.  But no
function that is reached from what is dropped comes later with the uses than without them, and the
others stay in order.  So up to the first failure the functions that are done without the uses are
done with them.

Main definitions:

* `Behind` — the functions that are reached from what is dropped;
* `SemanticCause.IsLost`, `SemanticCause.IsHidden` — the causes that dropping adds and takes away;
* `Thinned` — an outcome and the outcome without the uses;
* `Ahead` — a list of functions in which what is reached from the uses comes no later.

Main results:

* `check_thinned`, `body_thinned` — uses and functions;
* `Drains.thinned` — the functions that are called;
* `Resolves.thinned` — a unit and what is left of it.
-/

import StackLang.Proofs.Tree.Resolves

set_option relaxedAutoImplicit false
set_option autoImplicit false

namespace StackLang

/-! ### What folding leaves of definitions -/

/-- A definition and what folding leaves of it. -/
structure Outline.Thins (P : Use → Prop) (veiled : SemanticCause → Prop) (o o' : Outline) :
    Prop where
  name : o'.name = o.name
  params : o'.params = o.params
  uses : StackLang.Thins P veiled o.uses o'.uses

section

variable {P : Use → Prop} {veiled : SemanticCause → Prop} {os os' : List Outline}

theorem map_name_thins (h : List.Forall₂ (Outline.Thins P veiled) os os') :
    os'.map Outline.name = os.map Outline.name := by
  induction h with
  | nil => rfl
  | cons ho _ ih => rw [List.map_cons, List.map_cons, ho.name, ih]

/-- Definitions of the same name stand side by side. -/
theorem find?_thins (h : List.Forall₂ (Outline.Thins P veiled) os os') (name : String) :
    Option.Rel (Outline.Thins P veiled) (os.find? fun o => o.name = name)
      (os'.find? fun o => o.name = name) := by
  induction h with
  | nil => exact .none
  | @cons o o' _ _ ho _ ih =>
      rw [List.find?_cons, List.find?_cons, ho.name]
      cases decide (o.name = name) with
      | true => exact .some ho
      | false => exact ih

theorem arity_thins (h : List.Forall₂ (Outline.Thins P veiled) os os') :
    Outline.arity os' = Outline.arity os := by
  funext name
  have hfound := find?_thins h name
  unfold Outline.arity
  revert hfound
  generalize (os.find? fun o => o.name = name) = found
  generalize (os'.find? fun o => o.name = name) = found'
  intro hfound
  cases hfound with
  | none => rfl
  | some ho => rw [Option.map_some, Option.map_some, ho.params]

end

/-! ### Causes -/

/-- A use fails with a cause, for something that may be known. -/
def Use.CanFail (u : Use) (c : SemanticCause) : Prop := ∃ arity k, u.check arity k = .error c

/-- The parameters of a definition fail with a cause, or a use in its body does. -/
def Outline.CanFail (o : Outline) (c : SemanticCause) : Prop :=
  distinct [] o.params = .error c ∨ ∃ u ∈ o.uses, u.CanFail c

/-- **The functions that are reached from the uses in `P`**: those that are called there, and those
that such a function calls. -/
inductive Behind (P : Use → Prop) (os : List Outline) : String → Prop
  | call {f : String} {n : Nat} (h : P (.call f n)) : Behind P os f
  | next {o : Outline} {f : String} {n : Nat} (ho : o ∈ os) (h : Behind P os o.name)
      (hf : .call f n ∈ o.uses) : Behind P os f

namespace SemanticCause

/-- **The causes that dropping uses adds**: a name is unknown that is assigned in one of them. -/
def IsLost (P : Use → Prop) (c : SemanticCause) : Prop :=
  ∃ x, c = .unknownIdentifier x ∧ P (.write x)

/-- **The causes that dropping uses takes away**: that of one of them, or one in a function that is
reached from them, or that of a fault where a name is unveiled, for what was a fault is a call or an
assignment then. -/
def IsHidden (P : Use → Prop) (veiled : SemanticCause → Prop) (os : List Outline)
    (c : SemanticCause) : Prop :=
  veiled c ∨ (∃ u, P u ∧ u.CanFail c) ∨ ∃ o ∈ os, Behind P os o.name ∧ o.CanFail c

end SemanticCause

section

variable {P : Use → Prop} {veiled : SemanticCause → Prop} {os : List Outline}

theorem Behind.exists_call {f : String} (h : Behind P os f) : ∃ g n, P (.call g n) := by
  induction h with
  | call h => exact ⟨_, _, h⟩
  | next _ _ _ ih => exact ih

/-- Where nothing is dropped, nothing is lost. -/
theorem not_isLost (hP : ∀ u, ¬ P u) (c : SemanticCause) : ¬ c.IsLost P :=
  fun ⟨_, _, hx⟩ => hP _ hx

/-- Where nothing is dropped and no name is unveiled, nothing is hidden. -/
theorem not_isHidden (hP : ∀ u, ¬ P u) (hveiled : ∀ c, ¬ veiled c) (c : SemanticCause) :
    ¬ c.IsHidden P veiled os := by
  rintro (h | ⟨u, hu, -⟩ | ⟨o, -, ho, -⟩)
  · exact hveiled c h
  · exact hP u hu
  · obtain ⟨f, n, hf⟩ := ho.exists_call
    exact hP _ hf

end

/-! ### Uses one after the other -/

section

variable {arity : String → Option Nat} {us : List Use} {k : Known}

/-- Behind a use only its own call is new. -/
theorem calls_of_use {u : Use} {p : Unit × Known} (h : u.check arity k = .ok p) :
    ∀ f ∈ p.2.calls, f ∈ k.calls ∨ ∃ n, u = .call f n := by
  intro f hf
  cases u with
  | read x =>
      simp only [Use.check] at h
      split at h
      · cases h
        exact .inl hf
      · split at h <;> cases h
  | write x =>
      simp only [Use.check] at h
      split at h
      · cases h
        exact .inl hf
      · split at h
        · cases h
          exact .inl hf
        · cases h
  | call g n =>
      simp only [Use.check] at h
      split at h
      · cases h
      · split at h
        · cases h
        · split at h
          · cases h
            rcases List.mem_append.1 hf with hf | hf
            · exact .inl hf
            · exact .inr ⟨n, by rw [List.mem_singleton.1 hf]⟩
          · cases h
  | fault c => cases h

/-- **What uses call stands among them.** -/
theorem calls_of_check {p : Unit × Known} (h : check arity us k = .ok p) :
    ∀ f ∈ p.2.calls, f ∈ k.calls ∨ ∃ n, .call f n ∈ us := by
  induction us generalizing k with
  | nil =>
      cases h
      exact fun f hf => .inl hf
  | cons u us ih =>
      cases hu : u.check arity k with
      | error c =>
          rw [check_cons_error hu] at h
          cases h
      | ok q =>
          rw [check_cons_ok hu] at h
          intro f hf
          rcases ih h f hf with hf | ⟨n, hn⟩
          · exact (calls_of_use hu f hf).imp_right fun ⟨n, hn⟩ => ⟨n, by simp [hn]⟩
          · exact .inr ⟨n, List.mem_cons_of_mem _ hn⟩

/-- **Uses fail with the cause of one of them.** -/
theorem canFail_of_check {c : SemanticCause} (h : check arity us k = .error c) :
    ∃ u ∈ us, u.CanFail c := by
  induction us generalizing k with
  | nil => cases h
  | cons u us ih =>
      cases hu : u.check arity k with
      | error c' =>
          rw [check_cons_error hu] at h
          cases h
          exact ⟨u, List.mem_cons_self, arity, k, hu⟩
      | ok q =>
          rw [check_cons_ok hu] at h
          obtain ⟨v, hv, hfail⟩ := ih h
          exact ⟨v, List.mem_cons_of_mem _ hv, hfail⟩

end

/-- **A function that is reached from what is dropped** calls others that are, and what it fails
with is hidden. -/
theorem Behind.body {P : Use → Prop} {veiled : SemanticCause → Prop} {os : List Outline}
    {f : String} (h : Behind P os f) (globals : List String) :
    (∀ c, Outline.body os globals f = .error c → c.IsHidden P veiled os) ∧
      ∀ calls, Outline.body os globals f = .ok calls → ∀ g ∈ calls, Behind P os g := by
  unfold Outline.body
  cases hfound : os.find? fun o => o.name = f with
  | none =>
      refine ⟨fun c hc => (nomatch hc), fun calls hcalls g hg => ?_⟩
      cases hcalls
      cases hg
  | some o =>
      have ho := List.mem_of_find?_eq_some hfound
      have hname : o.name = f := by simpa using List.find?_some hfound
      have hbehind : Behind P os o.name := hname ▸ h
      simp only
      cases hparams : distinct [] o.params with
      | error c =>
          refine ⟨fun c' hc' => ?_, fun calls hcalls => (nomatch hcalls)⟩
          cases hc'
          exact .inr (.inr ⟨o, ho, hbehind, .inl hparams⟩)
      | ok _ =>
          cases hcheck : check (Outline.arity os) o.uses ⟨o.params ++ globals, []⟩ with
          | error c =>
              refine ⟨fun c' hc' => ?_, fun calls hcalls => (nomatch hcalls)⟩
              cases hc'
              exact .inr (.inr ⟨o, ho, hbehind, .inr (canFail_of_check hcheck)⟩)
          | ok p =>
              refine ⟨fun c' hc' => (nomatch hc'), fun calls hcalls g hg => ?_⟩
              cases hcalls
              rcases calls_of_check hcheck g hg with hg | ⟨n, hn⟩
              · cases hg
              · exact .next ho hbehind hn

/-! ### Lists of functions -/

/-- A prefix of two lists ends in the first one or in the second one. -/
theorem prefix_append_cases {α : Type} {xs ys front : List α} (h : front <+: xs ++ ys) :
    front <+: xs ∨ ∃ last, front = xs ++ last ∧ last <+: ys := by
  rcases List.prefix_or_prefix_of_prefix h (List.prefix_append xs ys) with h' | ⟨last, rfl⟩
  · exact .inl h'
  · exact .inr ⟨last, rfl, (List.prefix_append_right_inj _).1 h⟩

/-- **A list of functions with the uses and one without them**: what waits behind some functions
without the uses is done with them or waits behind the same functions, but for those in `B`, of
which there may be more. -/
structure Ahead (B : String → Prop) (seen queue queue' : List String) : Prop where
  waits : ∀ f ∈ queue, ¬ B f → f ∈ queue'
  order : ∀ front', front' <+: queue' → ∃ front, front <+: queue ∧
    (∀ f ∈ front, ¬ B f → f ∈ front') ∧ ∀ f ∈ front', f ∈ seen ∨ f ∈ front

namespace Ahead

variable {B : String → Prop} {seen seen' queue queue' calls calls' : List String}

theorem refl (B : String → Prop) (seen queue : List String) : Ahead B seen queue queue :=
  ⟨fun _ hf _ => hf, fun front hfront => ⟨front, hfront, fun _ hf _ => hf, fun _ hf => .inr hf⟩⟩

/-- Functions in `B` wait only with the uses. -/
theorem of_forall (h : ∀ f ∈ queue, B f) : Ahead B seen queue [] := by
  refine ⟨fun f hf hB => absurd (h f hf) hB, fun front' hfront' => ⟨[], List.nil_prefix, ?_⟩⟩
  rw [List.prefix_nil.1 hfront']
  exact ⟨fun _ hf => absurd hf List.not_mem_nil, fun _ hf => absurd hf List.not_mem_nil⟩

theorem mono (h : Ahead B seen queue queue') (hseen : ∀ f ∈ seen, f ∈ seen') :
    Ahead B seen' queue queue' := by
  refine ⟨h.waits, fun front' hfront' => ?_⟩
  obtain ⟨front, hfront, hback, hforth⟩ := h.order front' hfront'
  exact ⟨front, hfront, hback, fun f hf => (hforth f hf).imp_left (hseen f)⟩

/-- What waits without the uses is done or waits with them. -/
theorem mem (h : Ahead B seen queue queue') {f : String} (hf : f ∈ queue') :
    f ∈ seen ∨ f ∈ queue := by
  obtain ⟨front, hfront, -, hforth⟩ := h.order queue' List.prefix_rfl
  exact (hforth f hf).imp_right fun hf => hfront.subset hf

/-- **Calls go to the end of both lists.** -/
theorem append (h : Ahead B seen queue queue') (hcalls : Ahead B seen calls calls') :
    Ahead B seen (queue ++ calls) (queue' ++ calls') := by
  refine ⟨fun f hf hB => ?_, fun front' hfront' => ?_⟩
  · exact List.mem_append.2 ((List.mem_append.1 hf).imp (h.waits f · hB) (hcalls.waits f · hB))
  · rcases prefix_append_cases hfront' with hfront' | ⟨last', rfl, hlast'⟩
    · obtain ⟨front, hfront, hback, hforth⟩ := h.order front' hfront'
      exact ⟨front, hfront.trans (List.prefix_append _ _), hback, hforth⟩
    · obtain ⟨last, hlast, hback, hforth⟩ := hcalls.order last' hlast'
      refine ⟨queue ++ last, (List.prefix_append_right_inj _).2 hlast, fun f hf hB => ?_,
        fun f hf => ?_⟩
      · exact List.mem_append.2 ((List.mem_append.1 hf).imp (h.waits f · hB) (hback f · hB))
      · rcases List.mem_append.1 hf with hf | hf
        · exact (h.mem hf).imp_right (List.mem_append_left _)
        · exact (hforth f hf).imp_right (List.mem_append_right _)

/-- What is done or waits with the uses may come to wait without them. -/
theorem late (h : Ahead B seen queue queue') (hcalls : ∀ f ∈ calls', f ∈ seen ∨ f ∈ queue) :
    Ahead B seen queue (queue' ++ calls') := by
  refine ⟨fun f hf hB => List.mem_append_left _ (h.waits f hf hB), fun front' hfront' => ?_⟩
  rcases prefix_append_cases hfront' with hfront' | ⟨last', rfl, hlast'⟩
  · exact h.order front' hfront'
  · refine ⟨queue, List.prefix_rfl, fun f hf hB => List.mem_append_left _ (h.waits f hf hB),
      fun f hf => ?_⟩
    rcases List.mem_append.1 hf with hf | hf
    · exact h.mem hf
    · exact hcalls f (hlast'.subset hf)

end Ahead

/-! ### Outcomes -/

/-- **An outcome and the outcome without the uses in `P`.**  A failure is added by what is lost and
taken away by what is hidden, and it differs in kind for no other reason. -/
inductive Thinned (P : Use → Prop) (veiled : SemanticCause → Prop) (os : List Outline) {α β : Type}
    (R : α → β → Prop) : Except SemanticCause α → Except SemanticCause β → Prop
  | ok {a : α} {b : β} (h : R a b) : Thinned P veiled os R (.ok a) (.ok b)
  | lost {a : α} {c' : SemanticCause} (hc : c'.IsLost P) :
      Thinned P veiled os R (.ok a) (.error c')
  | hidden {c : SemanticCause} {b : β} (hc : c.IsHidden P veiled os) :
      Thinned P veiled os R (.error c) (.ok b)
  | fault {c c' : SemanticCause} (h : c.SameKind c' ∨ c'.IsLost P ∨ c.IsHidden P veiled os) :
      Thinned P veiled os R (.error c) (.error c')

namespace Thinned

variable {P : Use → Prop} {veiled : SemanticCause → Prop} {os : List Outline} {α β α' β' : Type}
  {R : α → β → Prop} {Q : α' → β' → Prop}

theorem of_lost {c' : SemanticCause} (hc : c'.IsLost P) (x : Except SemanticCause α) :
    Thinned P veiled os R x (.error c') := by
  cases x with
  | ok => exact .lost hc
  | error => exact .fault (.inr (.inl hc))

theorem of_hidden {c : SemanticCause} (hc : c.IsHidden P veiled os)
    (y : Except SemanticCause β) : Thinned P veiled os R (.error c) y := by
  cases y with
  | ok => exact .hidden hc
  | error => exact .fault (.inr (.inr hc))

theorem bind {x : Except SemanticCause α} {y : Except SemanticCause β}
    {f : α → Except SemanticCause α'} {g : β → Except SemanticCause β'}
    (hx : Thinned P veiled os R x y) (hf : ∀ a b, R a b → Thinned P veiled os Q (f a) (g b)) :
    Thinned P veiled os Q (x >>= f) (y >>= g) := by
  cases hx with
  | ok h => exact hf _ _ h
  | lost hc => exact .of_lost hc _
  | hidden hc => exact .of_hidden hc _
  | fault h => exact .fault h

/-- A step that uses no names. -/
theorem same (x : Except SemanticCause α) : Thinned P veiled os Eq x x := by
  cases x with
  | ok => exact .ok rfl
  | error c => exact .fault (.inl (.same c))

end Thinned

/-! ### Uses are dropped -/

/-- What is known after uses were dropped: the variables that are assigned and the functions that
are called there may be missing. -/
structure Known.Lost (P : Use → Prop) (os : List Outline) (k k' : Known) : Prop where
  vars : ∀ x ∈ k'.vars, x ∈ k.vars
  missing : ∀ x ∈ k.vars, x ∈ k'.vars ∨ P (.write x) ∧ Outline.arity os x = none
  calls : Ahead (Behind P os) [] k.calls k'.calls

section

variable {P : Use → Prop} {veiled : SemanticCause → Prop} {os os' : List Outline}
  {us us' : List Use} {k k' : Known}

namespace Known.Lost

theorem empty : Known.Lost P os ⟨[], []⟩ ⟨[], []⟩ :=
  ⟨fun _ hx => hx, fun _ hx => .inl hx, .refl _ _ _⟩

/-- A variable is made on both sides. -/
theorem write (h : k.Lost P os k') (x : String) :
    Known.Lost P os { k with vars := x :: k.vars } { k' with vars := x :: k'.vars } := by
  refine ⟨fun y hy => ?_, fun y hy => ?_, h.calls⟩
  · exact List.mem_cons.2 ((List.mem_cons.1 hy).imp_right (h.vars y))
  · rcases List.mem_cons.1 hy with rfl | hy
    · exact .inl List.mem_cons_self
    · exact (h.missing y hy).imp_left (List.mem_cons_of_mem _)

/-- A variable is made that is there on the other side. -/
theorem rewrite (h : k.Lost P os k') {x : String} (hx : x ∈ k.vars) :
    Known.Lost P os k { k' with vars := x :: k'.vars } := by
  refine ⟨List.forall_mem_cons.2 ⟨hx, h.vars⟩, fun y hy => ?_, h.calls⟩
  exact (h.missing y hy).imp_left (List.mem_cons_of_mem _)

/-- A function is called on both sides. -/
theorem call (h : k.Lost P os k') (f : String) :
    Known.Lost P os { k with calls := k.calls ++ [f] } { k' with calls := k'.calls ++ [f] } :=
  ⟨h.vars, h.missing, h.calls.append (.refl _ _ _)⟩

/-- **A use that is dropped** makes its variable and its call missing. -/
theorem drop (h : k.Lost P os k') {u : Use} (hu : P u) {k₁ : Known}
    (hcheck : u.check (Outline.arity os) k = .ok ((), k₁)) : k₁.Lost P os k' := by
  cases u with
  | read x =>
      simp only [Use.check] at hcheck
      split at hcheck
      · cases hcheck
        exact h
      · split at hcheck <;> cases hcheck
  | write x =>
      simp only [Use.check] at hcheck
      split at hcheck
      · cases hcheck
        exact h
      · split at hcheck
        · rename_i hnew
          cases hcheck
          refine ⟨fun y hy => List.mem_cons_of_mem _ (h.vars y hy), fun y hy => ?_, h.calls⟩
          rcases List.mem_cons.1 hy with rfl | hy
          · exact .inr ⟨hu, hnew⟩
          · exact h.missing y hy
        · cases hcheck
  | call f n =>
      simp only [Use.check] at hcheck
      split at hcheck
      · cases hcheck
      · split at hcheck
        · cases hcheck
        · split at hcheck
          · cases hcheck
            have hcall : Ahead (Behind P os) [] [f] [] :=
              .of_forall fun g hg => .call ((List.mem_singleton.1 hg).symm ▸ hu)
            have hcalls := h.calls.append hcall
            rw [List.append_nil] at hcalls
            exact ⟨h.vars, h.missing, hcalls⟩
          · cases hcheck
  | fault c => cases hcheck

end Known.Lost

/-- **A use that is kept** fares as it did, unless it reads a variable that is missing. -/
theorem use_thinned (h : k.Lost P os k') (u : Use) :
    Thinned P veiled os (fun p p' => p.2.Lost P os p'.2) (u.check (Outline.arity os) k)
      (u.check (Outline.arity os) k') := by
  cases u with
  | read x =>
      simp only [Use.check]
      by_cases hx' : x ∈ k'.vars
      · rw [if_pos hx', if_pos (h.vars x hx')]
        exact .ok h
      · rw [if_neg hx']
        by_cases hx : x ∈ k.vars
        · obtain ⟨hwrite, hnone⟩ := (h.missing x hx).resolve_left hx'
          rw [if_pos hx, if_pos hnone]
          exact .lost ⟨x, rfl, hwrite⟩
        · rw [if_neg hx]
          split <;> exact .fault (.inl (.same _))
  | write x =>
      simp only [Use.check]
      by_cases hx' : x ∈ k'.vars
      · rw [if_pos hx', if_pos (h.vars x hx')]
        exact .ok h
      · rw [if_neg hx']
        by_cases hx : x ∈ k.vars
        · obtain ⟨-, hnone⟩ := (h.missing x hx).resolve_left hx'
          rw [if_pos hx, if_pos hnone]
          exact .ok (h.rewrite hx)
        · rw [if_neg hx]
          split
          · exact .ok (h.write x)
          · exact .fault (.inl (.same _))
  | call f n =>
      simp only [Use.check]
      by_cases hf : f ∈ k.vars
      · -- the function that the variable would hide does not exist
        rw [if_pos hf]
        by_cases hf' : f ∈ k'.vars
        · rw [if_pos hf']
          exact .fault (.inl (.same _))
        · obtain ⟨hwrite, hnone⟩ := (h.missing f hf).resolve_left hf'
          rw [if_neg hf', hnone]
          exact .of_lost ⟨f, rfl, hwrite⟩ _
      · rw [if_neg hf, if_neg fun hf' => hf (h.vars f hf')]
        cases Outline.arity os f with
        | none => exact .fault (.inl (.same _))
        | some m =>
            by_cases hn : m = n
            · simp only [if_pos hn]
              exact .ok (h.call f)
            · simp only [if_neg hn]
              exact .fault (.inl (.same _))
  | fault c => exact .fault (.inl (.same c))

/-- **Uses that are thinned** fare as they did, but for what is lost and hidden. -/
theorem check_thinned (h : Thins P veiled us us') (hk : k.Lost P os k') :
    Thinned P veiled os (fun p p' => p.2.Lost P os p'.2) (check (Outline.arity os) us k)
      (check (Outline.arity os) us' k') := by
  induction h generalizing k k' with
  | nil => exact .ok hk
  | keep u _ ih => exact (use_thinned hk u).bind fun _ _ hp => ih hp
  | @drop u us us' hu _ ih =>
      cases hcheck : u.check (Outline.arity os) k with
      | ok p =>
          rw [check_cons_ok hcheck]
          exact ih (hk.drop hu hcheck)
      | error c =>
          rw [check_cons_error hcheck]
          exact .of_hidden (.inr (.inl ⟨u, hu, _, k, hcheck⟩)) _
  | fault hc => exact .fault (.inl hc)
  | unveil hveiled => exact .of_hidden (.inl hveiled) _

/-- **A function of which uses are dropped.** -/
theorem body_thinned (hos : List.Forall₂ (Outline.Thins P veiled) os os') (hk : k.Lost P os k')
    (name : String) :
    Thinned P veiled os (Ahead (Behind P os) []) (Outline.body os k.vars name)
      (Outline.body os' k'.vars name) := by
  have hfound := find?_thins hos name
  unfold Outline.body
  rw [arity_thins hos]
  revert hfound
  generalize (os.find? fun o => o.name = name) = found
  generalize (os'.find? fun o => o.name = name) = found'
  intro hfound
  cases hfound with
  | none => exact .ok (.refl _ _ _)
  | @some o o' ho =>
      simp only [ho.params]
      have hstart : Known.Lost P os ⟨o.params ++ k.vars, []⟩ ⟨o.params ++ k'.vars, []⟩ := by
        refine ⟨fun x hx => ?_, fun x hx => ?_, .refl _ _ _⟩
        · exact List.mem_append.2 ((List.mem_append.1 hx).imp_right (hk.vars x))
        · rcases List.mem_append.1 hx with hx | hx
          · exact .inl (List.mem_append_left _ hx)
          · exact (hk.missing x hx).imp_left (List.mem_append_right _)
      refine (Thinned.same _).bind fun _ _ _ => ?_
      exact (check_thinned ho.uses hstart).bind fun _ _ hp => .ok hp.calls

/-- **The statements of a unit of which uses are dropped.** -/
theorem start_thinned (hos : List.Forall₂ (Outline.Thins P veiled) os os')
    (hus : Thins P veiled us us') :
    Thinned P veiled os (Known.Lost P os) (Outline.start os us) (Outline.start os' us') := by
  unfold Outline.start
  rw [map_name_thins hos, arity_thins hos]
  refine (Thinned.same _).bind fun _ _ _ => ?_
  exact (check_thinned hus .empty).bind fun _ _ hp => .ok hp

end

/-! ### Functions are worked off -/

/-- **The functions with the uses and those without them**, while both are worked off: of those that
are not in `B` the same are done. -/
structure Tracks (B : String → Prop) (body : String → Except SemanticCause (List String))
    (seen queue seen' queue' : List String) : Prop where
  settled : Settled body seen queue
  done : ∀ f, ¬ B f → (f ∈ seen ↔ f ∈ seen')
  ahead : Ahead B seen queue queue'

section

variable {P : Use → Prop} {veiled : SemanticCause → Prop} {os : List Outline}
  {body body' : String → Except SemanticCause (List String)}
  {seen queue seen' queue' calls calls' : List String} {f : String}
  {o o' : Except SemanticCause Unit}

/-- A function that waits succeeds. -/
theorem Settled.step (h : Settled body seen queue) (hbody : body f = .ok calls) :
    Settled body (f :: seen) (queue ++ calls) := by
  intro g hg
  rcases List.mem_cons.1 hg with rfl | hg
  · exact ⟨calls, hbody, fun g' hg' => .inr (List.mem_append_right _ hg')⟩
  · obtain ⟨calls', hcalls', hknown⟩ := h g hg
    refine ⟨calls', hcalls', fun g' hg' => ?_⟩
    exact (hknown g' hg').imp (List.mem_cons_of_mem _) (List.mem_append_left _)

namespace Tracks

variable {B : String → Prop}

/-- A function is done on both sides. -/
theorem both (h : Tracks B body seen queue seen' queue') (hbody : body f = .ok calls)
    (hcalls : Ahead B [] calls calls') :
    Tracks B body (f :: seen) (queue ++ calls) (f :: seen') (queue' ++ calls') := by
  refine ⟨h.settled.step hbody, fun g hg => ?_, ?_⟩
  · rw [List.mem_cons, List.mem_cons, h.done g hg]
  · have hlater : Ahead B (f :: seen) queue queue' :=
      h.ahead.mono fun _ hg => List.mem_cons_of_mem _ hg
    exact hlater.append (hcalls.mono fun _ hg => absurd hg List.not_mem_nil)

/-- A function in `B` is done with the uses. -/
theorem early (h : Tracks B body seen queue seen' queue') (hf : B f) (hbody : body f = .ok calls)
    (hcalls : ∀ g ∈ calls, B g) : Tracks B body (f :: seen) (queue ++ calls) seen' queue' := by
  refine ⟨h.settled.step hbody, fun g hg => ?_, ?_⟩
  · have hne : g ≠ f := fun heq => hg (heq ▸ hf)
    rw [List.mem_cons, or_iff_right hne, h.done g hg]
  · have hlater := (h.ahead.append (.of_forall hcalls)).mono
      fun _ hg => List.mem_cons_of_mem f hg
    rwa [List.append_nil] at hlater

/-- A function in `B` that is done with the uses is done without them. -/
theorem late (h : Tracks B body seen queue seen' queue') (hf : B f) (hseen : f ∈ seen)
    (hbody : body f = .ok calls) (hcalls : Ahead B [] calls calls') :
    Tracks B body seen queue (f :: seen') (queue' ++ calls') := by
  obtain ⟨calls₁, hcalls₁, hknown⟩ := h.settled f hseen
  cases hbody.symm.trans hcalls₁
  refine ⟨h.settled, fun g hg => ?_, h.ahead.late fun g hg => ?_⟩
  · have hne : g ≠ f := fun heq => hg (heq ▸ hf)
    rw [List.mem_cons, or_iff_right hne, h.done g hg]
  · exact hknown g ((hcalls.mem hg).resolve_left List.not_mem_nil)

end Tracks

namespace Drains

/-- Where only functions wait that are reached from the uses, a failure is hidden. -/
theorem hidden_of_behind
    (hbehind : ∀ f, Behind P os f → (∀ c, body f = .error c → c.IsHidden P veiled os) ∧
      ∀ calls, body f = .ok calls → ∀ g ∈ calls, Behind P os g)
    (hwaits : ∀ f ∈ queue, ¬ Behind P os f → f ∈ seen) (h : Drains body seen queue o) :
    o = .ok () ∨ ∃ c, o = .error c ∧ c.IsHidden P veiled os := by
  have hnext : ∀ {seen queue : List String} {f : String},
      (∀ f ∈ queue, ¬ Behind P os f → f ∈ seen) →
        (queue.find? fun f => f ∉ seen) = some f → Behind P os f := by
    intro seen queue f hwaits hf
    obtain ⟨hmem, hnew⟩ := mem_of_find?_eq_some hf
    exact not_not.1 fun hB => hnew (hwaits f hmem hB)
  induction h with
  | done => exact .inl rfl
  | @fault _ _ f c hf hfault => exact .inr ⟨c, rfl, (hbehind f (hnext hwaits hf)).1 c hfault⟩
  | @step _ _ calls f _ hf hcalls _ ih =>
      refine ih fun g hg hB => List.mem_cons_of_mem _ ?_
      rcases List.mem_append.1 hg with hg | hg
      · exact hwaits g hg hB
      · exact absurd ((hbehind f (hnext hwaits hf)).2 calls hcalls g hg) hB

/-- **With the uses, what is reached from them is worked off** until a function is done or is the
next one, if all that stands before it otherwise is done. -/
theorem reach
    (hbehind : ∀ f, Behind P os f → (∀ c, body f = .error c → c.IsHidden P veiled os) ∧
      ∀ calls, body f = .ok calls → ∀ g ∈ calls, Behind P os g)
    {front : List String} (hfront : front <+: queue)
    (hdone : ∀ g ∈ front, ¬ Behind P os g → g = f ∨ g ∈ seen) (hf : f ∈ seen ∨ f ∈ front)
    (ht : Tracks (Behind P os) body seen queue seen' queue') (h : Drains body seen queue o) :
    (∃ c, o = .error c ∧ c.IsHidden P veiled os) ∨
      ∃ seen₁ queue₁, Tracks (Behind P os) body seen₁ queue₁ seen' queue' ∧
        Drains body seen₁ queue₁ o ∧
        (f ∈ seen₁ ∨ (queue₁.find? fun g => g ∉ seen₁) = some f) := by
  have hnext : ∀ {seen queue : List String} {g : String}, front <+: queue → f ∉ seen → f ∈ front →
      (queue.find? fun g => g ∉ seen) = some g → g ∈ front := by
    rintro seen queue g ⟨back, rfl⟩ hnew hf hg
    rw [List.find?_append] at hg
    cases hfound : front.find? fun g => g ∉ seen with
    | none => exact absurd (mem_of_find?_eq_none hfound hf) hnew
    | some g' =>
        rw [hfound] at hg
        cases hg
        exact List.mem_of_find?_eq_some hfound
  induction h with
  | @done seen queue hnone =>
      refine .inr ⟨seen, queue, ht, .done hnone, .inl ?_⟩
      exact hf.elim id fun hf => mem_of_find?_eq_none hnone (hfront.subset hf)
  | @fault seen queue g c hg hfault =>
      by_cases hseen : f ∈ seen
      · exact .inr ⟨seen, queue, ht, .fault hg hfault, .inl hseen⟩
      by_cases hB : Behind P os g
      · exact .inl ⟨c, rfl, (hbehind g hB).1 c hfault⟩
      have hmem := hnext hfront hseen (hf.resolve_left hseen) hg
      obtain rfl := (hdone g hmem hB).resolve_right (mem_of_find?_eq_some hg).2
      exact .inr ⟨seen, queue, ht, .fault hg hfault, .inr hg⟩
  | @step seen queue calls g o hg hcalls hrest ih =>
      by_cases hseen : f ∈ seen
      · exact .inr ⟨seen, queue, ht, .step hg hcalls hrest, .inl hseen⟩
      by_cases hB : Behind P os g
      · refine ih (hfront.trans (List.prefix_append _ _))
          (fun g' hg' hB' => (hdone g' hg' hB').imp_right (List.mem_cons_of_mem _))
          (hf.imp_left (List.mem_cons_of_mem _))
          (ht.early hB hcalls ((hbehind g hB).2 calls hcalls))
      have hmem := hnext hfront hseen (hf.resolve_left hseen) hg
      obtain rfl := (hdone g hmem hB).resolve_right (mem_of_find?_eq_some hg).2
      exact .inr ⟨seen, queue, ht, .step hg hcalls hrest, .inr hg⟩

/-- **Without the uses a function is next**: with them it is done or it becomes the next one, or a
failure is hidden. -/
theorem reach_next
    (hbehind : ∀ f, Behind P os f → (∀ c, body f = .error c → c.IsHidden P veiled os) ∧
      ∀ calls, body f = .ok calls → ∀ g ∈ calls, Behind P os g)
    (ht : Tracks (Behind P os) body seen queue seen' queue') (h : Drains body seen queue o)
    (hf : (queue'.find? fun g => g ∉ seen') = some f) :
    (∃ c, o = .error c ∧ c.IsHidden P veiled os) ∨
      ∃ seen₁ queue₁, Tracks (Behind P os) body seen₁ queue₁ seen' queue' ∧
        Drains body seen₁ queue₁ o ∧
        (f ∈ seen₁ ∨ (queue₁.find? fun g => g ∉ seen₁) = some f) := by
  obtain ⟨-, before, after, rfl, hbefore⟩ := List.find?_eq_some_iff_append.1 hf
  obtain ⟨front, hfront, hback, hforth⟩ := ht.ahead.order (before ++ [f]) ⟨after, by simp⟩
  refine h.reach hbehind hfront (fun g hg hB => ?_) (hforth f (by simp)) ht
  rcases List.mem_append.1 (hback g hg hB) with hg | hg
  · exact .inr ((ht.done g hB).2 (by simpa using hbefore g hg))
  · exact .inl (List.mem_singleton.1 hg)

/-- **Functions of which uses are dropped** are worked off with the same outcome, but for what is
lost and hidden. -/
theorem thinned
    (hbehind : ∀ f, Behind P os f → (∀ c, body f = .error c → c.IsHidden P veiled os) ∧
      ∀ calls, body f = .ok calls → ∀ g ∈ calls, Behind P os g)
    (hbody : ∀ f, Thinned P veiled os (Ahead (Behind P os) []) (body f) (body' f))
    (ht : Tracks (Behind P os) body seen queue seen' queue') (h : Drains body seen queue o)
    (h' : Drains body' seen' queue' o') : Thinned P veiled os (fun _ _ => True) o o' := by
  induction h' generalizing seen queue with
  | @done seen' queue' hnone =>
      have hwaits : ∀ f ∈ queue, ¬ Behind P os f → f ∈ seen := fun f hf hB =>
        (ht.done f hB).2 (mem_of_find?_eq_none hnone (ht.ahead.waits f hf hB))
      rcases h.hidden_of_behind hbehind hwaits with rfl | ⟨c, rfl, hc⟩
      · exact .ok trivial
      · exact .hidden hc
  | @fault seen' queue' f c' hf hfault =>
      rcases h.reach_next hbehind ht hf with ⟨c, rfl, hc⟩ | ⟨seen₁, queue₁, ht₁, h₁, hseen | hnext⟩
      · exact .of_hidden hc _
      · obtain ⟨calls, hcalls, -⟩ := ht₁.settled f hseen
        have hthinned := hbody f
        rw [hcalls, hfault] at hthinned
        cases hthinned with
        | lost hc => exact .of_lost hc _
      · have hthinned := hbody f
        rw [hfault] at hthinned
        cases h₁ with
        | done hnone => rw [hnone] at hnext; cases hnext
        | fault hf₁ hfault₁ =>
            cases hnext.symm.trans hf₁
            rw [hfault₁] at hthinned
            cases hthinned with
            | fault hc => exact .fault hc
        | step hf₁ hcalls₁ =>
            cases hnext.symm.trans hf₁
            rw [hcalls₁] at hthinned
            cases hthinned with
            | lost hc => exact .of_lost hc _
  | @step seen' queue' calls' f o' hf hcalls' _ ih =>
      rcases h.reach_next hbehind ht hf with ⟨c, rfl, hc⟩ | ⟨seen₁, queue₁, ht₁, h₁, hseen | hnext⟩
      · exact .of_hidden hc _
      · -- with the uses the function was done before, so it is reached from them
        have hB : Behind P os f := not_not.1 fun hB =>
          (mem_of_find?_eq_some hf).2 ((ht₁.done f hB).1 hseen)
        obtain ⟨calls, hcalls, -⟩ := ht₁.settled f hseen
        have hthinned := hbody f
        rw [hcalls, hcalls'] at hthinned
        cases hthinned with
        | ok hahead => exact ih (ht₁.late hB hseen hcalls hahead) h₁
      · have hthinned := hbody f
        rw [hcalls'] at hthinned
        cases h₁ with
        | done hnone => rw [hnone] at hnext; cases hnext
        | fault hf₁ hfault₁ =>
            cases hnext.symm.trans hf₁
            rw [hfault₁] at hthinned
            cases hthinned with
            | hidden hc => exact .of_hidden hc _
        | step hf₁ hcalls₁ hrest₁ =>
            cases hnext.symm.trans hf₁
            rw [hcalls₁] at hthinned
            cases hthinned with
            | ok hahead => exact ih (ht₁.both hcalls₁ hahead) hrest₁

end Drains

end

/-! ### Units -/

/-- **A unit of which uses are dropped** fares as with them, but for what is lost and hidden. -/
theorem Resolves.thinned {P : Use → Prop} {veiled : SemanticCause → Prop} {os os' : List Outline}
    {us us' : List Use} (hos : List.Forall₂ (Outline.Thins P veiled) os os')
    (hus : Thins P veiled us us') {o o' : Except SemanticCause Unit} (h : Resolves os us o)
    (h' : Resolves os' us' o') : Thinned P veiled os (fun _ _ => True) o o' := by
  have hstart := start_thinned hos hus
  cases h with
  | fault hc =>
      rw [hc] at hstart
      cases h' with
      | fault hc' =>
          rw [hc'] at hstart
          cases hstart with
          | fault hkind => exact .fault hkind
      | drains hk' =>
          rw [hk'] at hstart
          cases hstart with
          | hidden hc => exact .of_hidden hc _
  | drains hk hcalls =>
      rw [hk] at hstart
      cases h' with
      | fault hc' =>
          rw [hc'] at hstart
          cases hstart with
          | lost hc => exact .of_lost hc _
      | drains hk' hcalls' =>
          rw [hk'] at hstart
          cases hstart with
          | ok hlost =>
              refine hcalls.thinned (fun f hf => hf.body _) (body_thinned hos hlost)
                ⟨fun f hf => absurd hf List.not_mem_nil, fun _ _ => Iff.rfl, hlost.calls⟩ hcalls'

end StackLang
