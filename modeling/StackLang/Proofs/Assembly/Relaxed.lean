/-
**Layouts are local minima.**

Relaxation stops: every pass but the last makes a jump short, and no pass makes one wide again.
Where it stops, each short jump holds the distance to its target in its byte, and no wide jump could
be made short on its own.

Main definitions:

* `IsMinimal` — the jumps of an image are short where they can be, and right where they are short.

Main results:

* `cells_of_jump` — what an image holds for a jump;
* `isMinimal_of_assemble` — the jumps of an image are relaxed in as many passes as there are jumps,
  and one more, to a local minimum.
-/

import StackLang.Proofs.Assembly.Decode

set_option relaxedAutoImplicit false
set_option autoImplicit false

namespace StackLang

namespace Assembly

/-! ### Bytes of jumps -/

/-- A number within the range of a signed byte is read back from its byte. -/
theorem toInt_ofNat_emod {value : Int} (h : -128 ≤ value ∧ value ≤ 127) :
    (UInt8.ofNat (value % 256).toNat).toInt8.toInt = value := by
  rw [UInt8.toInt8_ofNat', Int8.toInt_ofNat', Int.toNat_of_nonneg (Int.emod_nonneg _ (by decide))]
  change (value % ((256 : Nat) : Int)).bmod 256 = value
  rw [Int.emod_bmod]
  exact Int.bmod_eq_of_le (by omega) (by omega)

/-- A cell with a value is no cell that is left out at the end. -/
theorem getElem?_rdropWhile {cells : List Cell} {k : Nat} {b : UInt8}
    (h : cells[k]? = some (some b)) : (cells.rdropWhile Option.isNone)[k]? = some (some b) := by
  induction cells using List.reverseRecOn with
  | nil => cases h
  | append_singleton cells c ih =>
      cases c with
      | some v => rwa [List.rdropWhile_concat_neg _ _ _ (by simp)]
      | none =>
          rw [List.rdropWhile_concat_pos _ _ _ rfl]
          refine ih ?_
          rw [List.getElem?_append] at h
          split at h
          · exact h
          · have := List.mem_of_getElem? h
            simp at this

variable {origin : Nat} {items xs ys : List Item} {image : Image} {condition : Condition}
  {name : String} {line : Nat}

/-- **What an image holds for a jump** is a reference to a label that it has. -/
theorem cells_of_jump {form : JumpForm} (hnodup : ((labelTable items).map Prod.fst).Nodup)
    (h : Image.ofItems origin items = .ok image)
    (hitems : items = xs ++ .jump condition name line form :: ys) :
    ∃ place cells, (labelTable items).lookup name = some place ∧
      image.labels.lookup name = some (origin + place) ∧
      (Item.jump condition name line form).cells image.labels (origin + totalSize xs) = some cells ∧
      ∀ k b, cells[k]? = some (some b) → image.bytes[totalSize xs + k]? = some b := by
  have hlabels := lookup_labels_ofItems hnodup h name
  obtain ⟨bs, hbs, himage⟩ := Step.except_bind_eq_ok.1 h
  have hbytes : image.bytes = bs := by
    cases himage
    rfl
  obtain ⟨all, hall, rfl⟩ := cells_of_write (isShifted_ofItems hnodup h) hbs
  -- the cells of the jump, behind those of the items before it
  rw [hitems, cellsFrom_append] at hall
  obtain ⟨before, hbefore, hall⟩ := Option.bind_eq_some_iff.1 hall
  obtain ⟨behind, hbehind, rfl⟩ := Option.map_eq_some_iff.1 hall
  obtain ⟨cells, hcells, hbehind⟩ := Option.bind_eq_some_iff.1 hbehind
  obtain ⟨rest, -, rfl⟩ := Option.map_eq_some_iff.1 hbehind
  have htarget : ∃ target, image.labels.lookup name = some target := by
    cases htarget : image.labels.lookup name with
    | none => cases form <;> simp [Item.cells, htarget] at hcells
    | some target => exact ⟨target, rfl⟩
  obtain ⟨target, htarget⟩ := htarget
  rw [htarget] at hlabels
  obtain ⟨place, hplace, rfl⟩ := Option.map_eq_some_iff.1 hlabels.symm
  refine ⟨place, cells, hplace, htarget, hcells, fun k b hk => ?_⟩
  have hcell : (before ++ (cells ++ rest))[totalSize xs + k]? = some (some b) := by
    have hlt := (List.getElem?_eq_some_iff.1 hk).1
    rw [← length_cellsFrom hbefore, List.getElem?_append_right (by omega), Nat.add_sub_cancel_left,
      List.getElem?_append_left hlt, hk]
  rw [hbytes, List.getElem?_map, getElem?_rdropWhile hcell]
  rfl

/-! ### Local minima -/

/-- **The jumps of an image are short where they can be**, and right where they are short.  The
operand of a jump stands one byte behind the items before the jump. -/
structure IsMinimal (origin : Nat) (items : List Item) (image : Image) : Prop where
  /-- The byte of a short jump is the distance from the operand to the label. -/
  short : ∀ xs condition name line ys, items = xs ++ .jump condition name line .short :: ys →
    ∃ target b, image.labels.lookup name = some target ∧
      IsNear (origin + totalSize xs + 1) target ∧
      image.bytes[totalSize xs + 1]? = some b ∧
      b.toInt8.toInt = (target : Int) - (origin + totalSize xs + 1 : Nat)
  /-- A jump that is left wide is too far from its label, also if it alone were made short. -/
  wide : ∀ xs condition name line ys, items = xs ++ .jump condition name line .wide :: ys →
    ∃ target, image.labels.lookup name = some target ∧
      (origin + totalSize xs + 1 < target →
        127 < (target : Int) - 1 - (origin + totalSize xs + 1 : Nat)) ∧
      (target ≤ origin + totalSize xs + 1 →
        (target : Int) - (origin + totalSize xs + 1 : Nat) < -128)

theorem isMinimal_of_relax {start : List Item} (hstart : AreNear start)
    (hnodup : ((labelTable (relax start)).map Prod.fst).Nodup)
    (h : Image.ofItems origin (relax start) = .ok image) :
    IsMinimal origin (relax start) image where
  short xs condition name line ys hitems := by
    obtain ⟨place, cells, hplace, htarget, hcells, hbytes⟩ := cells_of_jump hnodup h hitems
    have hnear : IsNear (origin + totalSize xs + 1) (origin + place) := by
      have := areNear_relax hstart _ _ _ _ _ hitems place hplace
      unfold IsNear at this ⊢
      omega
    rw [Item.cells, htarget] at hcells
    cases hcells
    refine ⟨_, _, htarget, hnear, hbytes 1 _ rfl, ?_⟩
    unfold IsNear at hnear
    rw [toInt_ofNat_emod (by omega)]
    omega
  wide xs condition name line ys hitems := by
    obtain ⟨place, cells, hplace, htarget, -, -⟩ := cells_of_jump hnodup h hitems
    have hfar := not_reaches_of_relax hitems hplace
    unfold Reaches shortDistance at hfar
    refine ⟨_, htarget, fun hforward => ?_, fun hbackward => ?_⟩
    · rw [if_pos (by omega)] at hfar
      omega
    · rw [if_neg (by omega)] at hfar
      omega

section Texts

variable {text : String}

/-- The image of a text is that of its items, as relaxation leaves them. -/
theorem exists_of_assemble (h : assemble text origin = .ok image) :
    ∃ a, (Assembler.empty origin).assembleLines 0 (Text.lines text.toList) = .ok a ∧
      undefinedWide? a.items.toList = none ∧ layout text = .ok (relax a.items.toList) ∧
      Image.ofItems origin (relax a.items.toList) = .ok image := by
  rw [assemble_eq_layout] at h
  obtain ⟨items, hlayout, himage⟩ := Step.except_bind_eq_ok.1 h
  obtain ⟨a, ha, hrelax⟩ := Step.except_bind_eq_ok.1 hlayout
  split at hrelax
  · cases hrelax
  case h_2 hdefined =>
  obtain rfl := Except.ok.inj hrelax
  refine ⟨a.moved origin, ?_, undefinedWide?_eq_none hdefined, hlayout, himage⟩
  rw [← Assembler.moved_empty origin 0, Assembler.moved_assembleLines, ha]
  rfl

/-- **The jumps of an image are relaxed to a local minimum**, in as many passes as there are jumps
and one more. -/
theorem isMinimal_of_assemble (h : assemble text origin = .ok image) :
    ∃ a n, (Assembler.empty origin).assembleLines 0 (Text.lines text.toList) = .ok a ∧
      n + 1 ≤ wideJumps a.items.toList + 1 ∧ IsLastPass a.items.toList n ∧
      (∀ k, (Draft.ofItems origin (pass^[k] a.items.toList)).pass
        = .ok (Draft.ofItems origin (pass^[k + 1] a.items.toList),
          wideJumps (pass^[k] a.items.toList) - wideJumps (pass^[k + 1] a.items.toList))) ∧
      relax a.items.toList = pass^[n] a.items.toList ∧
      a.draft.relax = .ok (Draft.ofItems origin (relax a.items.toList)) ∧
      Image.ofItems origin (relax a.items.toList) = .ok image ∧
      IsMinimal origin (relax a.items.toList) image := by
  obtain ⟨a, ha, hdefined, hlayout, himage⟩ := exists_of_assemble h
  obtain ⟨n, hn, hlast, hrelax⟩ := exists_isLastPass a.items.toList
  obtain ⟨rows, -, htakes⟩ := Assembler.takes_assembleLines ha
  have hdraft : a.draft.relax = .ok (Draft.ofItems origin (relax a.items.toList)) := by
    rw [Assembler.draft, Draft.relax_ofItems hdefined, htakes.origin]
    rfl
  refine ⟨a, n, ha, Nat.succ_le_succ hn, hlast, Draft.pass_iterate hdefined origin, hrelax, hdraft,
    himage, ?_⟩
  -- all jumps start wide, and no label is defined twice
  have hstart : AreNear a.items.toList := by
    have hitems : a.items.toList = itemsOf (fun _ => .wide) rows := by
      simpa [Assembler.empty] using htakes.items
    exact areNear_of_wide (hitems ▸ map_withForm_itemsOf _ .wide rows)
  obtain ⟨rows', forms, -, hwell, hnames, -, hforms⟩ := exists_rows_of_layout hlayout
  have hnodup : ((labelTable (relax a.items.toList)).map Prod.fst).Nodup := by
    rwa [hforms, labelTable, labelTableFrom_itemsOf hwell, map_fst_labelEntries]
  exact isMinimal_of_relax hstart hnodup himage

/-- Two jumps, one over reserved cells that is too long to be short, and one back. -/
theorem isMinimal_of_assemble_skip : ∃ image a n,
    assemble "start: JMP end
 RESB 200
end: HLT
 JMP end" 256 = .ok image ∧
      image.bytes.length = 206 ∧
      (Assembler.empty 256).assembleLines 0
        (Text.lines "start: JMP end
 RESB 200
end: HLT
 JMP end".toList) = .ok a ∧
      n + 1 ≤ wideJumps a.items.toList + 1 ∧ IsLastPass a.items.toList n ∧
      (∀ k, (Draft.ofItems 256 (pass^[k] a.items.toList)).pass
        = .ok (Draft.ofItems 256 (pass^[k + 1] a.items.toList),
          wideJumps (pass^[k] a.items.toList) - wideJumps (pass^[k + 1] a.items.toList))) ∧
      relax a.items.toList = pass^[n] a.items.toList ∧
      a.draft.relax = .ok (Draft.ofItems 256 (relax a.items.toList)) ∧
      Image.ofItems 256 (relax a.items.toList) = .ok image ∧
      IsMinimal 256 (relax a.items.toList) image := by
  have hrun : (assemble "start: JMP end
 RESB 200
end: HLT
 JMP end" 256).toOption.map
      (List.length ∘ Image.bytes) = some 206 := by decide +kernel
  obtain ⟨image, himage, hbytes⟩ := Option.map_eq_some_iff.1 hrun
  have himage := Step.eq_ok_of_toOption himage
  obtain ⟨a, n, h⟩ := isMinimal_of_assemble himage
  exact ⟨image, a, n, himage, hbytes, h⟩

end Texts

end Assembly

end StackLang
