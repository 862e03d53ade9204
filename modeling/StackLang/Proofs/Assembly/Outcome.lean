/-
**Why a text has no image.**

A text is refused at the first of its lines that cannot be taken, or at its end, where a label is
missing that an instruction refers to.  Nothing else is in the way of an image: whatever was
assembled line by line has one as soon as its references are defined, wherever it is put and however
large it is.

Main definitions:

* `Item.label?`, `Item.reference?` — the label that an item defines or refers to;
* `Resolves` — items that define all that they refer to.

Main results:

* `Assembler.exists_finish` — **what resolves has an image**;
* `Assembler.exists_refused` — the first line that is refused;
* `Row.Breaks.encodingOf_eq` — a line that is refused behind its label has no encoding.
-/

import StackLang.Proofs.Assembly.Image
import StackLang.Proofs.Assembly.Refused

set_option relaxedAutoImplicit false
set_option autoImplicit false

namespace StackLang

namespace Assembly

/-! ### Labels and references -/

namespace Item

/-- The label that an item defines. -/
def label? : Item → Option String
  | label name => some name
  | _ => none

/-- The label that an item refers to. -/
def reference? : Item → Option String
  | address name _ _ | jump _ name _ _ => some name
  | _ => none

@[simp] theorem label?_withForm (form : JumpForm) (item : Item) :
    (item.withForm form).label? = item.label? := by
  cases item <;> rfl

@[simp] theorem reference?_withForm (form : JumpForm) (item : Item) :
    (item.withForm form).reference? = item.reference? := by
  cases item <;> rfl

end Item

/-- Every label that an item refers to is defined by one. -/
def Resolves (items : List Item) : Prop :=
  ∀ name ∈ items.filterMap Item.reference?, name ∈ items.filterMap Item.label?

variable {items xs : List Item} {table : List (String × Nat)} {name : String}

theorem map_fst_labelTableFrom (here : Nat) (items : List Item) :
    (labelTableFrom here items).map Prod.fst = items.filterMap Item.label? := by
  induction items generalizing here with
  | nil => rfl
  | cons x xs ih =>
      cases x with
      | label name => exact congrArg (name :: ·) (ih here)
      | _ => exact ih _

theorem exists_findLabel (h : name ∈ table.map Prod.fst) (line : Nat) :
    ∃ place, findLabel table name line = .ok place := by
  cases hlookup : table.lookup name with
  | some place => exact ⟨place, by rw [findLabel, hlookup]⟩
  | none =>
      obtain ⟨p, hp, rfl⟩ := List.mem_map.1 h
      have hne := List.lookup_eq_none_iff.1 hlookup p hp
      simp at hne

/-- Only the forms of jumps change, so what items refer to stays defined. -/
theorem Resolves.relax (h : Resolves items) : Resolves (relax items) := by
  have hmap : ∀ f : Item → Option String, (∀ x, f (x.withForm .wide) = f x) →
      (Assembly.relax items).filterMap f = items.filterMap f := by
    intro f hf
    have := congrArg (List.filterMap f) (@map_withForm_relax .wide items)
    simpa only [List.filterMap_map, Function.comp_def, hf] using this
  rw [Resolves, hmap _ (Item.reference?_withForm .wide), hmap _ (Item.label?_withForm .wide)]
  exact h

/-! ### Images of what resolves -/

theorem undefinedJump?_eq_none
    (h : ∀ name ∈ xs.filterMap Item.reference?, name ∈ table.map Prod.fst) :
    undefinedJump? table xs = none := by
  induction xs with
  | nil => rfl
  | cons x xs ih =>
      cases x with
      | jump condition name line form =>
          obtain ⟨place, hplace⟩ := exists_findLabel (h name List.mem_cons_self) line
          rw [undefinedJump?, hplace]
          exact ih fun name hname => h name (List.mem_cons_of_mem _ hname)
      | address name offset line => exact ih fun name hname => h name (List.mem_cons_of_mem _ hname)
      | _ => exact ih h

theorem Item.exists_write {item : Item}
    (h : ∀ name, item.reference? = some name → name ∈ table.map Prod.fst) (origin here : Nat) :
    ∃ bs, item.write origin table here = .ok bs := by
  cases item with
  | address name offset line =>
      obtain ⟨place, hplace⟩ := exists_findLabel (h name rfl) line
      exact ⟨_, Step.except_bind_eq_ok.2 ⟨place, hplace, rfl⟩⟩
  | jump condition name line form =>
      obtain ⟨place, hplace⟩ := exists_findLabel (h name rfl) line
      cases form <;> exact ⟨_, Step.except_bind_eq_ok.2 ⟨place, hplace, rfl⟩⟩
  | _ => exact ⟨_, rfl⟩

theorem exists_writeFrom
    (h : ∀ x ∈ xs, ∀ name, x.reference? = some name → name ∈ table.map Prod.fst)
    (origin here : Nat) : ∃ bs, writeFrom origin table here xs = .ok bs := by
  induction xs generalizing here with
  | nil => exact ⟨[], rfl⟩
  | cons x xs ih =>
      rw [List.forall_mem_cons] at h
      obtain ⟨first, hfirst⟩ := x.exists_write h.1 origin here
      obtain ⟨rest, hrest⟩ := ih h.2 (here + x.size)
      exact ⟨_, Step.except_bind_eq_ok.2 ⟨first, hfirst,
        Step.except_bind_eq_ok.2 ⟨rest, hrest, rfl⟩⟩⟩

/-- The items up to the last one with a value are among all items. -/
theorem dropVacant_subset (items : List Item) : dropVacant items ⊆ items := by
  intro x hx
  have hx := (List.dropWhile_sublist _).subset (List.mem_reverse.1 hx)
  exact List.mem_reverse.1 hx

theorem Resolves.exists_write (h : Resolves items) (origin : Nat) :
    ∃ bs, write origin items = .ok bs := by
  refine exists_writeFrom (fun x hx name hname => ?_) origin 0
  rw [labelTable, map_fst_labelTableFrom]
  exact h name (List.mem_filterMap.2 ⟨x, dropVacant_subset items hx, hname⟩)

namespace Assembler

variable {a a' : Assembler} {e : Error}

/-- **What resolves has an image.** -/
theorem exists_finish (h : Resolves a.items.toList) : ∃ image, a.finish = .ok image := by
  have hjumps : undefinedJump? (labelTable a.items.toList) a.items.toList = none := by
    refine undefinedJump?_eq_none fun name hname => ?_
    rw [labelTable, map_fst_labelTableFrom]
    exact h name hname
  obtain ⟨bs, hbs⟩ := h.relax.exists_write a.origin
  rw [finish_eq, undefinedWide?_eq_none hjumps]
  exact ⟨_, Step.except_bind_eq_ok.2 ⟨bs, hbs, rfl⟩⟩

/-! ### The first refused line -/

/-- **The first line that is refused**, with the assembler in front of it. -/
theorem exists_refused {number : Nat} {texts : List (List Char)}
    (h : a.assembleLines number texts = .error e) :
    ∃ before text after taken left, texts = before ++ text :: after ∧
      a.assembleLines number before = .ok taken ∧
      taken.assembleLine (number + before.length) text = (left, some e) := by
  induction texts generalizing a number with
  | nil => cases h
  | cons first texts ih =>
      rw [assembleLines] at h
      split at h
      · case h_1 a₁ hfirst =>
        obtain ⟨before, text, after, taken, left, rfl, htaken, hleft⟩ := ih h
        refine ⟨first :: before, text, after, taken, left, rfl, ?_, ?_⟩
        · rw [assembleLines, hfirst]
          exact htaken
        · rw [List.length_cons, ← hleft]
          congr 1
          omega
      · case h_2 a₁ e' hfirst =>
        cases h
        exact ⟨[], first, texts, a, a₁, rfl, rfl, hfirst⟩

end Assembler

/-- A line that is refused behind its label has no encoding. -/
theorem Row.Breaks.encodingOf_eq {scope : Option String} {number : Nat} {parts : SourceLine}
    {cause : Cause} {items : List Item} (h : Row.Breaks scope number parts cause items) :
    Row.encodingOf scope number parts = .error cause := by
  cases h with
  | unknown hname h => simp only [encodingOf, hname, h]
  | reserve hname hmnemonic h => simp only [encodingOf, hname, hmnemonic, h, Except.map]
  | noData hname hmnemonic h => simp only [encodingOf, hname, hmnemonic, h]
  | data hname hmnemonic hoperand hsplit htaken h =>
      have hdata := encodeData_eq_error_iff.2 ⟨_, _, _, hsplit, htaken, h⟩
      simp only [encodingOf, hname, hmnemonic, hoperand, hdata]
  | instruction hname hmnemonic h =>
      simp only [encodingOf, hname, hmnemonic]
      cases hoperand : parts.operand.mapM (Operand.parse scope) with
      | error found =>
          rw [hoperand] at h
          cases h
          rfl
      | ok operand =>
          rw [hoperand] at h
          change (encode number _ operand >>= _) = _
          rw [show encode number _ operand = .error cause from h]
          rfl

end Assembly

end StackLang
