/-
**Drafts at other addresses.**

A draft notes addresses, a pass compares the address of a jump with that of its label and moves the
addresses behind a cell that is taken out, and a short jump is written as a difference of addresses.
Nothing of this asks where the first cell is: when all addresses of a draft are raised by the same
amount, every jump has its label as near as before, every address is moved if and only if it was
before, and the passes make the same jumps short.

Main definitions:

* `Draft.raise` — a draft with all its addresses raised by the same amount.

Main results:

* `Draft.ofItems_add` — the draft of some items at a higher address;
* `Draft.scanFrom_raise` — the same jumps are made short by a pass;
* `Draft.relax_raise` — **the same jumps are short in the end**.
-/

import StackLang.Assembly.Layout
import StackLang.Proofs.Step

set_option relaxedAutoImplicit false
set_option autoImplicit false

namespace StackLang

namespace Assembly

/-! ### Addresses that are raised -/

/-- Labels whose addresses are raised by `k`. -/
def raiseLabels (k : Nat) (table : List (String × Nat)) : List (String × Nat) :=
  table.map fun (name, place) => (name, k + place)

/-- Lines whose addresses are raised by `k`. -/
def raiseLines (k : Nat) (lines : List (Nat × Nat)) : List (Nat × Nat) :=
  lines.map fun (address, number) => (k + address, number)

section Addresses

variable (k here : Nat)

theorem lookup_raiseLabels (table : List (String × Nat)) (name : String) :
    (raiseLabels k table).lookup name = (table.lookup name).map (k + ·) := by
  induction table with
  | nil => rfl
  | cons entry table ih =>
      change List.lookup name (_ :: raiseLabels k table) = _
      rw [List.lookup_cons, List.lookup_cons, ih]
      split <;> rfl

theorem findLabel_raiseLabels (table : List (String × Nat)) (name : String) (line : Nat) :
    findLabel (raiseLabels k table) name line = (findLabel table name line).map (k + ·) := by
  unfold findLabel
  rw [lookup_raiseLabels]
  cases table.lookup name <;> rfl

/-- A jump is as near to its target as before. -/
theorem reaches_add_iff (target : Nat) : Reaches (k + here) (k + target) ↔ Reaches here target := by
  unfold Reaches shortDistance
  split <;> split <;> omega

/-- An address is moved if and only if it was before. -/
theorem shifted_add (address : Nat) :
    (if k + here < k + address then k + address - 1 else k + address)
      = k + (if here < address then address - 1 else address) := by
  split <;> split <;> omega

theorem shiftDown_raiseLabels (table : List (String × Nat)) :
    shiftDown (k + here) (raiseLabels k table) = raiseLabels k (shiftDown here table) := by
  simp only [shiftDown, raiseLabels, List.map_map]
  exact List.map_congr_left fun entry _ => Prod.ext rfl (shifted_add k here entry.2)

theorem noteLine_raiseLines (address number : Nat) (lines : List (Nat × Nat)) :
    noteLine (k + address) number (raiseLines k lines)
      = raiseLines k (noteLine address number lines) := by
  cases lines with
  | nil => rfl
  | cons entry lines =>
      by_cases hlast : entry.1 = address
      · simp [noteLine, raiseLines, hlast]
      · simp [noteLine, raiseLines, hlast]

theorem shiftNotes_raiseLines (lines : List (Nat × Nat)) :
    shiftNotes (k + here) (raiseLines k lines) = raiseLines k (shiftNotes here lines) := by
  induction lines with
  | nil => rfl
  | cons entry lines ih =>
      change noteLine (if k + here < k + entry.1 then _ else _) entry.2
        (shiftNotes (k + here) (raiseLines k lines)) = _
      rw [ih, shifted_add, noteLine_raiseLines]
      rfl

end Addresses

namespace Draft

/-! ### Origins -/

theorem origin_ofItems (origin : Nat) (items : List Item) :
    (ofItems origin items).origin = origin := by
  induction items using List.reverseRecOn with
  | nil => rfl
  | append_singleton items item ih =>
      rw [ofItems, List.foldl_concat, ← ofItems]
      cases item <;> exact ih

/-- What becomes of a draft is said by its next pass. -/
theorem relax_eq (d : Draft) :
    d.relax = d.pass >>= fun (next, shrunk) => if shrunk = 0 then .ok next else next.relax := by
  rw [relax]
  split
  · case h_1 e hpass =>
    rw [hpass]
    rfl
  · case h_2 next shrunk hpass =>
    conv_rhs => rw [hpass]
    rfl

theorem origin_of_pass {d next : Draft} {shrunk : Nat} (h : d.pass = .ok (next, shrunk)) :
    next.origin = d.origin := by
  obtain ⟨s, -, h⟩ := Step.except_bind_eq_ok.1 h
  cases h
  rfl

/-- A draft stays where it is. -/
theorem origin_of_relax {d final : Draft} (h : d.relax = .ok final) : final.origin = d.origin := by
  induction d using relax.induct with
  | case1 d e hpass =>
      rw [relax_eq, hpass] at h
      cases h
  | case2 d next hpass =>
      rw [relax_eq, hpass] at h
      cases h
      exact origin_of_pass hpass
  | case3 d next shrunk hpass hmore hsize ih =>
      rw [relax_eq, hpass] at h
      change (if shrunk = 0 then _ else next.relax) = _ at h
      rw [if_neg hmore] at h
      rw [ih h, origin_of_pass hpass]

/-! ### Drafts that are raised -/

/-- **The draft with all addresses raised by `k`.** -/
def raise (k : Nat) (d : Draft) : Draft :=
  ⟨k + d.origin, d.cells, raiseLabels k d.labels, raiseLines k d.lines⟩

/-- A draft during a pass, with all addresses raised by `k`. -/
def Scan.raise (k : Nat) (s : Scan) : Scan :=
  ⟨s.before, raiseLabels k s.labels, raiseLines k s.lines, s.shrunk⟩

variable (k : Nat)

theorem position_raise (d : Draft) : (d.raise k).position = k + d.position :=
  Nat.add_assoc k d.origin d.cells.size

/-- What is noted for an item is raised with the draft. -/
theorem push_raise (d : Draft) (item : Item) : (d.raise k).push item = (d.push item).raise k := by
  cases item with
  | label name =>
      simp only [push, position_raise]
      simp [raise, raiseLabels]
  | line number =>
      simp only [push, position_raise]
      simp only [raise, noteLine_raiseLines]
  | _ => rfl

theorem foldl_push_raise (d : Draft) (items : List Item) :
    items.foldl push (d.raise k) = (items.foldl push d).raise k := by
  induction items generalizing d with
  | nil => rfl
  | cons item items ih => rw [List.foldl_cons, List.foldl_cons, push_raise, ih]

/-- **The draft of some items at a higher address.** -/
theorem ofItems_add (origin : Nat) (items : List Item) :
    ofItems (k + origin) items = (ofItems origin items).raise k :=
  foldl_push_raise k (empty origin) items

/-- **A pass makes the same jumps short.** -/
theorem scanFrom_raise (here : Nat) (s : Scan) (cells : List Cell) :
    scanFrom (k + here) (s.raise k) cells = (scanFrom here s cells).map (Scan.raise k) := by
  fun_induction scanFrom here s cells with
  | case1 here s name line second cells e hlabel =>
      rw [scanFrom, Scan.raise, findLabel_raiseLabels, hlabel]
      rfl
  | case2 here s name line second cells target hlabel hreaches ih =>
      have hshrink : (s.raise k).shrink (k + here) name line
          = (s.shrink here name line).raise k := by
        simp only [Scan.shrink, Scan.raise, shiftDown_raiseLabels, shiftNotes_raiseLines]
      have hfound : findLabel (s.raise k).labels name line = .ok (k + target) := by
        rw [Scan.raise, findLabel_raiseLabels, hlabel]
        rfl
      rw [scanFrom, hfound]
      dsimp only
      rw [if_pos ((reaches_add_iff k here target).2 hreaches), hshrink]
      exact ih
  | case3 here s name line second cells target hlabel hreaches ih =>
      have hfound : findLabel (s.raise k).labels name line = .ok (k + target) := by
        rw [Scan.raise, findLabel_raiseLabels, hlabel]
        rfl
      rw [scanFrom, hfound]
      dsimp only
      rw [if_neg fun h => hreaches ((reaches_add_iff k here target).1 h)]
      exact ih
  | case4 here s cell cells hcell ih =>
      rw [scanFrom]
      · exact ih
      · exact hcell
  | case5 => rfl

theorem pass_raise (d : Draft) :
    (d.raise k).pass = d.pass.map fun (next, shrunk) => (next.raise k, shrunk) := by
  have hscan := scanFrom_raise k d.origin ⟨[], d.labels, d.lines, 0⟩ d.cells.toList
  change scanFrom (d.raise k).origin ⟨[], (d.raise k).labels, (d.raise k).lines, 0⟩
    (d.raise k).cells.toList = _ at hscan
  unfold pass
  rw [hscan]
  cases scanFrom d.origin ⟨[], d.labels, d.lines, 0⟩ d.cells.toList <;> rfl

/-- **The same jumps are short in the end.** -/
theorem relax_raise (d : Draft) : (d.raise k).relax = d.relax.map (raise k) := by
  induction d using relax.induct with
  | case1 d e hpass =>
      rw [relax_eq, relax_eq d, pass_raise, hpass]
      rfl
  | case2 d next hpass =>
      rw [relax_eq, relax_eq d, pass_raise, hpass]
      rfl
  | case3 d next shrunk hpass hmore hsize ih =>
      rw [relax_eq, relax_eq d, pass_raise, hpass]
      change (if shrunk = 0 then _ else (next.raise k).relax)
        = Except.map (raise k) (if shrunk = 0 then _ else next.relax)
      rw [if_neg hmore, if_neg hmore]
      exact ih

end Draft

end Assembly

end StackLang
