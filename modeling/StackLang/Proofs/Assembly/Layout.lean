/-
**Layouts and where they are put.**

Lines are assembled into the same items at every address, and the passes that make jumps short come
to the same jumps.  So every text has one layout, the items with as many short jumps as can be, and
an image is that layout put at an address.

Main definitions:

* `layout` — the items of a text with as many short jumps as can be.

Main results:

* `assemble_eq_layout` — an image is the layout of its text, put at its origin;
* `exists_rows_of_layout` — a layout holds the rows of its text in some forms;
* `lookup_labels_ofItems` — the labels of an image are those of its items, moved to the origin.
-/

import StackLang.Proofs.Assembly.Image

set_option relaxedAutoImplicit false
set_option autoImplicit false

namespace StackLang

namespace Assembly

/-! ### Assemblers elsewhere -/

namespace Assembler

/-- The same assembler with another origin. -/
def moved (origin : Nat) (a : Assembler) : Assembler := { a with origin }

/-- The outcome of a line in an assembler with another origin. -/
def movedResult {α : Type} (origin : Nat) (r : Assembler × α) : Assembler × α :=
  (r.1.moved origin, r.2)

variable (origin : Nat) (a : Assembler)

theorem moved_empty (origin' : Nat) : (empty origin').moved origin = empty origin := rfl

theorem moved_defineLabel? (label : Option (List Char)) :
    (a.moved origin).defineLabel? label = movedResult origin (a.defineLabel? label) := by
  cases label with
  | none => rfl
  | some name =>
      simp only [defineLabel?, defineLabel]
      split <;> split <;> simp_all [moved, movedResult, push]

theorem moved_pushResult (result : Except Cause (List Item)) :
    (a.moved origin).pushResult result = movedResult origin (a.pushResult result) := by
  cases result <;> rfl

theorem moved_assembleMnemonic (line : Nat) (mnemonic : Mnemonic) (operand : Option (List Char)) :
    (a.moved origin).assembleMnemonic line mnemonic operand
      = movedResult origin (a.assembleMnemonic line mnemonic operand) := by
  cases mnemonic with
  | instruction instruction => exact moved_pushResult origin (a.push [.line line]) _
  | directive directive =>
      cases directive with
      | reserve width => exact moved_pushResult origin a _
      | data => cases operand <;> rfl

theorem moved_assembleParts (line : Nat) (parts : SourceLine) :
    (a.moved origin).assembleParts line parts
      = movedResult origin (a.assembleParts line parts) := by
  unfold assembleParts
  rw [moved_defineLabel?]
  rcases a.defineLabel? parts.label with ⟨a', _ | cause⟩
  · simp only [movedResult]
    split
    · rfl
    · split
      · rfl
      · exact moved_assembleMnemonic origin a' _ _ _
  · rfl

theorem moved_assembleLine (line : Nat) (text : List Char) :
    (a.moved origin).assembleLine line text = movedResult origin (a.assembleLine line text) := by
  unfold assembleLine
  cases SourceLine.parse text with
  | error cause => rfl
  | ok parts =>
      simp only [moved_assembleParts]
      rfl

/-- **Assembling lines does not look at the origin.** -/
theorem moved_assembleLines (line : Nat) (texts : List (List Char)) :
    (a.moved origin).assembleLines line texts
      = (a.assembleLines line texts).map (moved origin) := by
  induction texts generalizing a line with
  | nil => rfl
  | cons text texts ih =>
      rw [assembleLines, assembleLines, moved_assembleLine]
      rcases a.assembleLine line text with ⟨a', _ | e⟩
      · exact ih a' (line + 1)
      · rfl

end Assembler

/-! ### Layouts -/

/-- The items of a text with as many short jumps as can be. -/
def layout (text : String) : Except Error (List Item) := do
  let a ← (Assembler.empty 0).assembleLines 0 (Text.lines text.toList)
  match undefinedJump? (labelTable a.items.toList) a.items.toList with
  | some e => .error e
  | none => .ok (relax a.items.toList)

/-- Where every jump is wide, none is short. -/
theorem short_notMem_of_wide {items : List Item} (h : items.map (Item.withForm .wide) = items)
    (condition : Condition) (name : String) (line : Nat) :
    .jump condition name line .short ∉ items := by
  intro hmem
  rw [← h] at hmem
  obtain ⟨item, -, hitem⟩ := List.mem_map.1 hmem
  cases item <;> cases hitem

/-- **An image is the layout of its text**, put at its origin. -/
theorem assemble_eq_layout (text : String) (origin : Nat) :
    assemble text origin = layout text >>= Image.ofItems origin := by
  unfold assemble layout
  rw [← Assembler.moved_empty origin 0, Assembler.moved_assembleLines]
  cases ha : (Assembler.empty 0).assembleLines 0 (Text.lines text.toList) with
  | error e => rfl
  | ok a =>
      -- all jumps of the lines are wide
      obtain ⟨rows, -, htakes⟩ := Assembler.takes_assembleLines ha
      have hitems : a.items.toList = itemsOf (fun _ => .wide) rows := by
        simpa [Assembler.empty] using htakes.items
      have hwide := short_notMem_of_wide (hitems ▸ map_withForm_itemsOf (fun _ => .wide) .wide rows)
      change (a.moved origin).finish = (match undefinedJump? (labelTable a.items.toList)
          a.items.toList with
        | some e => Except.error e
        | none => Except.ok (relax a.items.toList)) >>= Image.ofItems origin
      rw [Assembler.finish_eq, Assembler.moved, undefinedWide?_eq hwide]
      cases undefinedJump? (labelTable a.items.toList) a.items.toList <;> rfl

/-- **A layout holds the rows of its text**, the jump on each line in some form. -/
theorem exists_rows_of_layout {text : String} {items : List Item} (h : layout text = .ok items) :
    ∃ rows forms, readLines none 0 (Text.lines text.toList) = .ok rows ∧
      (∀ row ∈ rows, row.IsWell) ∧ (rows.filterMap Row.label).Nodup ∧
      relax (itemsOf (fun _ => .wide) rows) = items ∧ items = itemsOf forms rows := by
  obtain ⟨a, ha, h⟩ := Step.except_bind_eq_ok.1 h
  obtain ⟨rows, hrows, htakes⟩ := Assembler.takes_assembleLines ha
  obtain ⟨hnumbers, hwell⟩ := isWell_readLines hrows
  have hitems : a.items.toList = itemsOf (fun _ => .wide) rows := by
    simpa [Assembler.empty] using htakes.items
  have hnames : (rows.filterMap Row.label).Nodup := by
    have := htakes.nodup List.nodup_nil
    rw [htakes.defined] at this
    exact List.nodup_reverse.1 ((List.nodup_append.1 this).1.of_map _)
  have hrelax : relax a.items.toList = items := by
    split at h
    · cases h
    · exact Except.ok.inj h
  -- relaxation changes nothing but forms, so the items are the rows in other forms
  have hsame : (relax a.items.toList).map (Item.withForm .wide)
      = itemsOf (fun _ => .wide) rows := by
    rw [map_withForm_relax, hitems, map_withForm_itemsOf]
  obtain ⟨forms, hforms⟩ := exists_forms hwell (hnumbers ▸ List.nodup_range') hsame
  refine ⟨rows, forms, hrows, hwell, hnames, ?_, ?_⟩
  · rw [← hitems, hrelax]
  · rw [← hforms, hrelax]

/-- **The labels of an image** are those of its items, moved to the origin. -/
theorem lookup_labels_ofItems {origin : Nat} {items : List Item} {image : Image}
    (hnodup : ((labelTable items).map Prod.fst).Nodup)
    (h : Image.ofItems origin items = .ok image) (name : String) :
    image.labels.lookup name = ((labelTable items).lookup name).map (origin + ·) := by
  obtain ⟨bs, -, h⟩ := Step.except_bind_eq_ok.1 h
  cases h
  -- no name stands twice, so sorting does not change what is found
  have hperm := List.mergeSort_perm
    ((labelTable items).map fun x => (x.1, origin + x.2)) fun x y => x.1 ≤ y.1
  have hnames : (((labelTable items).map fun x => (x.1, origin + x.2)).map Prod.fst).Nodup := by
    rwa [List.map_map]
  cases hlookup : (labelTable items).lookup name with
  | some place =>
      refine lookup_of_mem ((hperm.map Prod.fst).nodup_iff.2 hnames) (hperm.mem_iff.2 ?_)
      exact List.mem_map_of_mem (mem_of_lookup hlookup)
  | none =>
      refine List.lookup_eq_none_iff.2 fun p hp => ?_
      obtain ⟨q, hq, rfl⟩ := List.mem_map.1 (hperm.mem_iff.1 hp)
      exact List.lookup_eq_none_iff.1 hlookup q hq

theorem isShifted_ofItems {origin : Nat} {items : List Item} {image : Image}
    (hnodup : ((labelTable items).map Prod.fst).Nodup)
    (h : Image.ofItems origin items = .ok image) :
    IsShifted origin (labelTable items) image.labels := by
  intro name place hplace
  rw [lookup_labels_ofItems hnodup h, hplace]
  rfl

end Assembly

end StackLang
