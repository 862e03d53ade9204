/-
**Numbers in the fields of an image.**

A number that is written as an operand goes into a field of the image: behind the opcode, or, for a
small depth, into the opcode.  A field holds an integer if it is read as that integer, without a
sign or with one in two's complement.  Every field holds the number that is written for it, with two
exceptions: the sum of a base and an offset in brackets is reduced to sixty-four bits before its
range is checked, and a hexadecimal number in a data directive that takes more than a byte has only
its digits counted, so one with a minus sign may be too large for its bytes.

Main definitions:

* `Represents` — some bytes are read as an integer;
* `Writes` — the integer that an operand is written for;
* `IsField`, `IsDatum` — what is put into an image for an operand.

Main results:

* `represents_littleEndian_iff` — the integers that a field can hold;
* `Writes.written?_eq` — an operand is read as the integer that it is written for;
* `represents_of_assembleLine` — the fields of a line hold the numbers that are written for them.
-/

import StackLang.Proofs.Text.Reading
import StackLang.Proofs.Assembly.Decode

set_option relaxedAutoImplicit false
set_option autoImplicit false

namespace StackLang

namespace Assembly

/-! ### Fields -/

/-- Some bytes hold an integer: they are read as it, without a sign or in two's complement. -/
def Represents (bytes : List UInt8) (value : Int) : Prop :=
  value = Form.number bytes ∨ value = Int.bmod (Form.number bytes) (256 ^ bytes.length)

instance (bytes : List UInt8) (value : Int) : Decidable (Represents bytes value) :=
  inferInstanceAs (Decidable (_ ∨ _))

theorem natCast_field (width : Nat) (value : Int) :
    (field width value : Int) = value % 256 ^ width :=
  Int.toNat_of_nonneg (Int.emod_nonneg _ (by positivity))

/-- **A field can hold what is in the range of one of its two readings.** -/
theorem represents_littleEndian_iff {width : Nat} (hwidth : 0 < width) {value : Int} :
    Represents (littleEndian width value) value ↔
      -(256 ^ width / 2) ≤ value ∧ value < 256 ^ width := by
  obtain ⟨half, hhalf⟩ : ∃ half : Int, (256 : Int) ^ width = 2 * half := by
    obtain ⟨n, rfl⟩ := Nat.exists_eq_succ_of_ne_zero hwidth.ne'
    exact ⟨128 * 256 ^ n, by rw [pow_succ]; ring⟩
  have hpos : (0 : Int) < 256 ^ width := by positivity
  have hsmall : 0 ≤ value % 256 ^ width := Int.emod_nonneg _ hpos.ne'
  have hlt : value % 256 ^ width < 256 ^ width := Int.emod_lt_of_pos _ hpos
  rw [Represents, number_littleEndian, natCast_field, length_littleEndian, Int.bmod_def]
  push_cast
  rw [Int.emod_emod_of_dvd _ dvd_rfl]
  rw [hhalf] at *
  constructor
  · rintro (h | h)
    · omega
    · split at h <;> omega
  · rintro ⟨hleast, hgreatest⟩
    by_cases hsign : 0 ≤ value
    · exact .inl (Int.emod_eq_of_lt hsign hgreatest).symm
    · -- a negative number has the top bit set
      have hmod : value % (2 * half) = value + 2 * half := by
        rw [← Int.add_emod_right, Int.emod_eq_of_lt (by omega) (by omega)]
      rw [hmod]
      refine .inr ?_
      rw [if_neg (by omega)]
      omega

/-! ### Numerals as operands -/

namespace Numeral

variable {x : Numeral} {text : List Char}

/-- No character of a numeral is a blank. -/
theorem isBlank_spelling (x : Numeral) : ∀ c ∈ x.spelling, Text.isBlank c = false := by
  have hdigit : ∀ d < 16, Text.isBlank (Nat.digitChar d) = false := by decide
  have hdigits : ∀ c ∈ x.digits.map Nat.digitChar, Text.isBlank c = false := by
    intro c hc
    obtain ⟨d, hd, rfl⟩ := List.mem_map.1 hc
    exact hdigit d ((x.lt_base d hd).trans_le x.radix.base_le)
  intro c hc
  rcases List.mem_append.1 hc with hsign | hmark
  · cases hx : x.sign <;> simp [hx, Sign.chars] at hsign <;> subst hsign <;> decide
  · cases hx : x.radix <;>
      simp only [hx, Radix.mark, List.mem_append, List.mem_cons, List.not_mem_nil,
        or_false] at hmark
    case decimal => exact hdigits c hmark
    case binary | marked =>
      rcases hmark with hmark | rfl
      · exact hdigits c hmark
      · decide
    case octal | hexadecimal =>
      rcases hmark with rfl | rfl | hmark
      · decide
      · decide
      · exact hdigits c hmark

theorem not_isUpper_of_isBlank {c : Char} (h : Text.isBlank c = true) : ¬ c.isUpper = true := by
  intro hupper
  simp only [Char.isUpper, decide_eq_true_eq] at hupper
  have hleast : 65 ≤ c.toNat := UInt32.le_iff_toNat_le.1 hupper.1
  have hgreatest : c.toNat ≤ 90 := UInt32.le_iff_toNat_le.1 hupper.2
  simp only [Text.isBlank, Bool.or_eq_true, Bool.and_eq_true, decide_eq_true_eq] at h
  omega

theorem IsSpelled.isBlank (h : x.IsSpelled text) : ∀ c ∈ text, Text.isBlank c = false := by
  intro c hc
  rw [← Bool.not_eq_true]
  intro hblank
  have hmem : c ∈ x.spelling := by
    rw [← h, ← Char.toLower_eq_of_not_isUpper (not_isUpper_of_isBlank hblank)]
    exact List.mem_map_of_mem hc
  simp [x.isBlank_spelling c hmem] at hblank

theorem IsSpelled.ne_nil (h : x.IsSpelled text) : text ≠ [] := by
  rintro rfl
  have hchars : ([] : List Char) = x.spelling := h
  have hmark := (List.append_eq_nil_iff.1 hchars.symm).2
  cases hx : x.radix <;> simp [hx, Radix.mark, x.ne_nil] at hmark

theorem IsSpelled.isTrimmed (h : x.IsSpelled text) : Text.IsTrimmed text :=
  Text.isTrimmed_of_forall h.ne_nil h.isBlank

theorem exists_digitChar_of_isDigit {c : Char} (h : c.isDigit = true) :
    ∃ d < 10, c = Nat.digitChar d := by
  simp only [Char.isDigit, Bool.and_eq_true, decide_eq_true_eq] at h
  have hleast : 48 ≤ c.toNat := UInt32.le_iff_toNat_le.1 h.1
  have hgreatest : c.toNat ≤ 57 := UInt32.le_iff_toNat_le.1 h.2
  refine ⟨c.toNat - 48, by omega, Char.toNat_inj.1 ?_⟩
  rw [Nat.toNat_digitChar_of_lt_ten (by omega)]
  omega

/-- A numeral starts with its sign or with a decimal digit. -/
theorem IsSpelled.startsNumber (h : x.IsSpelled text) :
    ∀ c ∈ text.head?, StackLang.Operand.StartsNumber c := by
  intro c hc
  obtain ⟨rest, rfl⟩ : ∃ rest, text = c :: rest := List.head?_eq_some_iff.1 hc
  have hhead : x.spelling.head? = some c.toLower := by rw [← h]; rfl
  rw [spelling] at hhead
  cases hx : x.sign with
  | none =>
      rw [hx] at hhead
      have hten : ∀ d < 10, (Nat.digitChar d).isAlpha = false ∧
          StackLang.Operand.StartsNumber (Nat.digitChar d) := by decide
      obtain ⟨d, hd, hc⟩ := exists_digitChar_of_isDigit (x.head?_mark _ hhead)
      rw [Number.eq_of_toLower hc (hten d hd).1]
      exact (hten d hd).2
  | plus =>
      rw [hx] at hhead
      rw [Number.eq_of_toLower (Option.some.inj hhead).symm (by decide)]
      decide
  | minus =>
      rw [hx] at hhead
      rw [Number.eq_of_toLower (Option.some.inj hhead).symm (by decide)]
      decide

end Numeral

/-! ### Sums in brackets -/

/-- What stands in brackets is a base with an offset behind it: the offset starts with the first
sign behind the first character. -/
structure IsSplit (inner base offset : List Char) : Prop where
  eq_append : Text.trim inner = base ++ offset
  ne_nil : base ≠ []
  unsigned : ∀ c ∈ base.tail, c ≠ '+' ∧ c ≠ '-'
  signed : ∀ c ∈ offset.head?, c = '+' ∨ c = '-'

/-- The integer that an offset stands for: its blanks do not matter, and none is zero. -/
inductive IsOffset : List Char → Int → Prop where
  | missing : IsOffset [] 0
  | written {offset : List Char} {x : Numeral}
      (h : x.IsSpelled (offset.filter fun c => !Text.isBlank c)) : IsOffset offset x.value

/-- **The integer that an operand is written for**: a number, the sum of the base and the offset of
an address, or an offset in the frame. -/
inductive Writes : List Char → Int → Prop where
  | number {text : List Char} {x : Numeral} (h : x.IsSpelled text) : Writes text x.value
  | absolute {inner base offset : List Char} {x : Numeral} {k : Int}
      (hsplit : IsSplit inner base offset) (hbase : x.IsSpelled (Text.trim base))
      (hoffset : IsOffset offset k) : Writes ('[' :: inner ++ [']']) (x.value + k)
  | frame {inner base offset : List Char} {k : Int} (hsplit : IsSplit inner base offset)
      (hbase : (Text.trim base).map Char.toUpper = ['S', 'F', 'P'])
      (hoffset : IsOffset offset k) : Writes ('[' :: inner ++ [']']) k

/-- The integer that was read for an operand. -/
def Operand.written? : Operand → Option Int
  | .number n => some n.value
  | .memory (.absolute address) => some address
  | .memory (.frame offset) => some offset
  | _ => none

theorem IsSplit.splitOffset_eq {inner base offset : List Char} (h : IsSplit inner base offset) :
    splitOffset (Text.trim inner) = (base, if offset = [] then none else some offset) := by
  obtain ⟨first, rest, rfl⟩ := List.exists_cons_of_ne_nil h.ne_nil
  have hrest : ∀ c ∈ rest, (!(decide (c = '+') || decide (c = '-'))) = true := by
    intro c hc
    simp [h.unsigned c hc]
  have hbehind :
      (rest ++ offset).takeWhile (fun c => !(decide (c = '+') || decide (c = '-'))) = rest ∧
      (rest ++ offset).dropWhile (fun c => !(decide (c = '+') || decide (c = '-'))) = offset := by
    rw [List.takeWhile_append_of_pos hrest, List.dropWhile_append_of_pos hrest]
    cases offset with
    | nil => simp
    | cons c cs =>
        have hc : (!(decide (c = '+') || decide (c = '-'))) = false := by
          rcases h.signed c rfl with rfl | rfl <;> decide
        rw [List.takeWhile_cons, List.dropWhile_cons, hc]
        simp
  rw [h.eq_append]
  unfold splitOffset
  simp only [List.cons_append, List.take_succ_cons, List.take_zero, List.drop_succ_cons,
    List.drop_zero, hbehind.1, hbehind.2, List.nil_append]
  cases offset <;> rfl

/-- A number of a magnitude that can be read is not changed by a reduction to sixty-four bits. -/
theorem Numeral.bmod_value {x : Numeral} (h : x.magnitude < 0x8000000000000000) :
    Int.bmod x.value 0x10000000000000000 = x.value := by
  rw [value, Int.bmod_def]
  split <;> split <;> omega

/-- What is read as an offset is the integer that it stands for. -/
theorem IsOffset.eq_of_parseOffset {offset : List Char} {k k' : Int} (h : IsOffset offset k)
    (hread : parseOffset (if offset = [] then none else some offset) = .ok k') :
    k' = k ∧ Int.bmod k 0x10000000000000000 = k := by
  cases h with
  | missing =>
      cases hread
      exact ⟨rfl, by decide⟩
  | @written offset x h =>
      have hne : offset ≠ [] := by
        rintro rfl
        exact h.ne_nil rfl
      rw [if_neg hne] at hread
      obtain ⟨n, hn, rfl⟩ := Step.except_map_eq_ok.1 hread
      obtain ⟨rfl, hsmall⟩ := h.eq_of_parse hn
      exact ⟨rfl, Numeral.bmod_value hsmall⟩

/-- A numeral is no name. -/
theorem Numeral.IsSpelled.not_name {x : Numeral} {text : List Char} (h : x.IsSpelled text) :
    isLabel text = false ∧ text.map Char.toUpper ≠ ['S', 'F', 'P'] := by
  obtain ⟨c, cs, rfl⟩ := List.exists_cons_of_ne_nil h.ne_nil
  have hstart := (h.startsNumber c rfl).1
  refine ⟨by rw [isLabel, hstart, Bool.false_and], fun hframe => ?_⟩
  have hupper : c.toUpper = 'S' := (List.cons.inj hframe).1
  have halpha : c.isAlpha = true := by
    rw [← Char.isAlpha_toUpper_eq_isAlpha, hupper]
    decide
  simp [isLabelStart, halpha] at hstart

/-- The address that stands in brackets. -/
theorem IsSplit.parseAddress_eq {inner base offset : List Char} {k : Int} {address : Address}
    (hsplit : IsSplit inner base offset) (hoffset : IsOffset offset k) {scope : Option String}
    (h : parseAddress scope inner = .ok address) :
    Int.bmod k 0x10000000000000000 = k ∧
      ((Text.trim base).map Char.toUpper = ['S', 'F', 'P'] → address = .frame k) ∧
      ((Text.trim base).map Char.toUpper ≠ ['S', 'F', 'P'] → isLabel (Text.trim base) = false →
        ∃ n, Number.parse (Text.trim base) = .ok n ∧
          address = .absolute (Int.bmod (n.value + k) 0x10000000000000000)) := by
  unfold parseAddress at h
  rw [hsplit.splitOffset_eq] at h
  obtain ⟨k', hk', h⟩ := Step.except_bind_eq_ok.1 h
  obtain ⟨rfl, hsmall⟩ := hoffset.eq_of_parseOffset hk'
  dsimp only at h
  split at h
  · cases h
  · refine ⟨hsmall, fun hframe => ?_, fun hframe hlabel => ?_⟩
    · rw [if_pos hframe] at h
      exact (Except.ok.inj h).symm
    · rw [if_neg hframe, if_neg (by simp [hlabel])] at h
      obtain ⟨n, hn, h⟩ := Step.except_bind_eq_ok.1 h
      exact ⟨n, hn, (Except.ok.inj h).symm⟩

/-- **An operand is read as the integer that it is written for**, reduced to sixty-four bits. -/
theorem Writes.written?_eq {text : List Char} {v : Int} (h : Writes text v) {scope : Option String}
    {operand : Operand} (hread : Operand.parse scope text = .ok operand) :
    operand.written? = some (Int.bmod v 0x10000000000000000) := by
  have hmemory {inner : List Char} (h : Operand.parse scope ('[' :: inner ++ [']']) = .ok operand) :
      ∃ address, parseAddress scope inner = .ok address ∧ operand = .memory address := by
    rw [parse_bracket] at h
    obtain ⟨address, haddress, rfl⟩ := Step.except_map_eq_ok.1 h
    exact ⟨address, haddress, rfl⟩
  cases h with
  | number h =>
      rw [StackLang.Operand.parse_of_startsNumber h.isTrimmed h.startsNumber] at hread
      obtain ⟨n, hn, rfl⟩ := Step.except_map_eq_ok.1 hread
      obtain ⟨rfl, hsmall⟩ := h.eq_of_parse hn
      rw [Numeral.bmod_value hsmall]
      rfl
  | absolute hsplit hbase hoffset =>
      obtain ⟨address, haddress, rfl⟩ := hmemory hread
      obtain ⟨-, -, habsolute⟩ := hsplit.parseAddress_eq hoffset haddress
      obtain ⟨n, hn, rfl⟩ := habsolute hbase.not_name.2 hbase.not_name.1
      obtain ⟨rfl, -⟩ := hbase.eq_of_parse hn
      rfl
  | frame hsplit hbase hoffset =>
      obtain ⟨address, haddress, rfl⟩ := hmemory hread
      obtain ⟨hsmall, hframe, -⟩ := hsplit.parseAddress_eq hoffset haddress
      rw [hframe hbase, hsmall]
      rfl

/-- What a text is split into at its first sign. -/
theorem isSplit_splitOffset {inner : List Char} (h : Text.trim inner ≠ []) :
    ∃ base offset, IsSplit inner base offset ∧
      splitOffset (Text.trim inner) = (base, if offset = [] then none else some offset) := by
  obtain ⟨first, rest, htext⟩ := List.exists_cons_of_ne_nil h
  let isUnsigned : Char → Bool := fun c => !(decide (c = '+') || decide (c = '-'))
  have hsplit : IsSplit inner (first :: rest.takeWhile isUnsigned) (rest.dropWhile isUnsigned) :=
    { eq_append := by rw [htext, List.cons_append, List.takeWhile_append_dropWhile]
      ne_nil := nofun
      unsigned := fun c hc => by simpa [isUnsigned] using List.mem_takeWhile_imp hc
      signed := fun c hc => by
        have := List.head?_dropWhile_not isUnsigned rest
        rw [Option.mem_def.1 hc] at this
        simp [isUnsigned] at this
        tauto }
  exact ⟨_, _, hsplit, hsplit.splitOffset_eq⟩

/-- What is read as an offset is one. -/
theorem exists_isOffset {offset : List Char} {k : Int}
    (h : parseOffset (if offset = [] then none else some offset) = .ok k) : IsOffset offset k := by
  by_cases hoffset : offset = []
  · rw [if_pos hoffset] at h
    cases h
    rw [hoffset]
    exact .missing
  · rw [if_neg hoffset, parseOffset] at h
    obtain ⟨n, hn, rfl⟩ := Step.except_map_eq_ok.1 h
    obtain ⟨x, hx, rfl⟩ := Number.exists_of_parse hn
    exact .written hx

/-- What is read as an integer in brackets was written for one. -/
theorem exists_writes_bracket {inner : List Char} {scope : Option String} {address : Address}
    {k : Int} (h : parseAddress scope inner = .ok address)
    (hk : (Operand.memory address).written? = some k) : ∃ v, Writes ('[' :: inner ++ [']']) v := by
  have hne : Text.trim inner ≠ [] := by
    intro hnil
    unfold parseAddress at h
    rw [hnil] at h
    cases h
  obtain ⟨base, offset, hsplit, heq⟩ := isSplit_splitOffset hne
  unfold parseAddress at h
  rw [heq] at h
  obtain ⟨k', hk', h⟩ := Step.except_bind_eq_ok.1 h
  have hoffset := exists_isOffset hk'
  dsimp only at h
  split at h
  · cases h
  · split at h
    · case isTrue hframe => exact ⟨_, .frame hsplit hframe hoffset⟩
    · split at h
      · cases h
        cases hk
      · obtain ⟨n, hn, h⟩ := Step.except_bind_eq_ok.1 h
        obtain ⟨x, hx, rfl⟩ := Number.exists_of_parse hn
        exact ⟨_, .absolute hsplit hx hoffset⟩

/-- **What is read as an integer was written for one.** -/
theorem exists_writes {text : List Char} {scope : Option String} {operand : Operand} {k : Int}
    (h : Operand.parse scope text = .ok operand) (hk : operand.written? = some k) :
    ∃ v, Writes (Text.trim text) v := by
  unfold Operand.parse at h
  dsimp only at h
  split at h
  · case h_1 inner htext =>
    split at h
    · case isTrue hlast =>
      obtain ⟨inner, rfl⟩ := List.getLast?_eq_some_iff.1 hlast
      rw [List.dropLast_concat] at h
      rw [htext, ← List.cons_append]
      obtain ⟨address, haddress, rfl⟩ := Step.except_map_eq_ok.1 h
      exact exists_writes_bracket haddress hk
    · cases h
  · obtain ⟨bytes, -, rfl⟩ := Step.except_map_eq_ok.1 h
    cases hk
  · obtain ⟨bytes, -, h⟩ := Step.except_bind_eq_ok.1 h
    split at h
    · cases h
      cases hk
    · cases h
  · split at h
    · cases h
      cases hk
    · obtain ⟨n, hn, rfl⟩ := Step.except_map_eq_ok.1 h
      obtain ⟨x, hx, -⟩ := Number.exists_of_parse hn
      exact ⟨_, .number hx⟩

/-! ### Instructions -/

/-- A field of an instruction holds an integer: the bytes behind the opcode represent it, or there
are none and it is a depth in the opcode itself. -/
def IsField (op : UInt8) (bytes : List UInt8) (value : Int) : Prop :=
  (bytes = [] ∧ value = ((op >>> 2 &&& 3).toNat : Int)) ∨ (bytes ≠ [] ∧ Represents bytes value)

instance (op : UInt8) (bytes : List UInt8) (value : Int) : Decidable (IsField op bytes value) :=
  inferInstanceAs (Decidable (_ ∨ _))

/-- What is in a range that the bytes can hold is held by them. -/
theorem represents_of_checkRange {width : Nat} {least greatest value : Int}
    (hrange : checkRange least greatest value = .ok ()) (hwidth : 0 < width)
    (hleast : -(256 ^ width / 2) ≤ least) (hgreatest : greatest < 256 ^ width) :
    Represents (littleEndian width value) value :=
  have hvalue := checkRange_eq_ok_iff.1 hrange
  (represents_littleEndian_iff hwidth).2
    ⟨hleast.trans hvalue.1, lt_of_le_of_lt hvalue.2 hgreatest⟩

theorem isField_of_checkRange {op : UInt8} {width : Nat} {least greatest value : Int}
    (hrange : checkRange least greatest value = .ok ()) (hwidth : 0 < width)
    (hleast : -(256 ^ width / 2) ≤ least) (hgreatest : greatest < 256 ^ width) :
    IsField op (littleEndian width value) value := by
  refine .inr ⟨fun hnil => ?_, represents_of_checkRange hrange hwidth hleast hgreatest⟩
  have hlength := length_littleEndian width value
  rw [hnil] at hlength
  exact hwidth.ne' hlength.symm

/-- The range of a width is what its bytes can hold. -/
theorem range_width (width : Width) :
    0 < width.bytes ∧ -(256 ^ width.bytes / 2) ≤ width.least ∧
      width.greatest < 256 ^ width.bytes := by
  cases width <;> decide

section Instructions

variable {number : Nat} {operand : Operand} {items : List Item} {v : Int}

theorem isField_memory {transfer : Transfer} {width : Width}
    (hv : operand.written? = some v)
    (h : encodeMemory transfer width number (some operand) = .ok items) :
    ∃ op bytes, items = [.bytes (op :: bytes)] ∧ IsField op bytes v := by
  cases operand with
  | memory address =>
      cases address with
      | label => cases hv
      | frame offset =>
          obtain ⟨_, hrange, h⟩ := Step.except_bind_eq_ok.1 h
          cases hv
          cases h
          exact ⟨_, _, rfl, isField_of_checkRange hrange (by decide) (by decide) (by decide)⟩
      | absolute place =>
          obtain ⟨_, hrange, h⟩ := Step.except_bind_eq_ok.1 h
          cases hv
          cases h
          exact ⟨_, _, rfl, isField_of_checkRange hrange (by decide) (by decide) (by decide)⟩
  | number n =>
      simp only [encodeMemory, encodeValue, Operand.value?] at h
      split at h
      · case h_1 value hvalue =>
        obtain ⟨_, hrange, h⟩ := Step.except_bind_eq_ok.1 h
        obtain ⟨hbytes, hleast, hgreatest⟩ := range_width width
        cases hv
        cases h
        cases hvalue
        exact ⟨_, _, rfl, isField_of_checkRange hrange hbytes hleast hgreatest⟩
      · cases h
  | char => cases hv
  | string => cases hv
  | label => cases hv

theorem isField_depth {base : UInt8} {width : Width}
    (hbase : base = Opcode.dup ∨ base = Opcode.dig) (hv : operand.written? = some v)
    (h : encodeDepth base width (some operand) = .ok items) :
    ∃ op bytes, items = [.bytes (op :: bytes)] ∧ IsField op bytes v := by
  obtain ⟨depth, hdepth, h⟩ := Step.except_bind_eq_ok.1 h
  obtain ⟨_, hrange, h⟩ := Step.except_bind_eq_ok.1 h
  obtain rfl : depth = v := by
    cases operand with
    | number n =>
        cases hdepth
        exact Option.some.inj hv
    | _ => cases hdepth
  split at h
  · case isTrue hsmall =>
    -- the depth stands in two bits of the opcode
    cases h
    refine ⟨_, _, rfl, .inl ⟨rfl, ?_⟩⟩
    obtain ⟨k, rfl⟩ := Int.eq_ofNat_of_zero_le (checkRange_eq_ok_iff.1 hrange).1
    have hbits : ∀ k < 3, ((base ||| width.modifier ||| (UInt8.ofNat k <<< 2)) >>> 2 &&& 3).toNat
        = k := by
      rcases hbase with rfl | rfl <;> cases width <;> decide
    exact congrArg Int.ofNat (hbits k (by omega)).symm
  · cases h
    exact ⟨_, _, rfl, isField_of_checkRange hrange (by decide) (by decide) (by decide)⟩

theorem isField_interrupt (hv : operand.written? = some v)
    (h : encodeInterrupt (some operand) = .ok items) :
    ∃ op bytes, items = [.bytes (op :: bytes)] ∧ IsField op bytes v := by
  unfold encodeInterrupt at h
  split at h
  · case h_1 value hvalue =>
    obtain ⟨_, hrange, h⟩ := Step.except_bind_eq_ok.1 h
    obtain rfl : value = v := by
      cases operand with
      | number n => exact (Option.some.inj hvalue).symm.trans (Option.some.inj hv)
      | memory => cases hvalue
      | _ => cases hv
    cases h
    exact ⟨_, _, rfl, isField_of_checkRange hrange (by decide) (by decide) (by decide)⟩
  · cases h

/-- **The field of an instruction holds the number that was read for its operand.** -/
theorem isField_encode {instruction : Instruction} (hv : operand.written? = some v)
    (h : encode number instruction (some operand) = .ok items) :
    ∃ op bytes, items = [.bytes (op :: bytes)] ∧ IsField op bytes v := by
  cases instruction with
  | load width => exact isField_memory hv h
  | store width => exact isField_memory hv h
  | dup width => exact isField_depth (.inl rfl) hv h
  | dig width => exact isField_depth (.inr rfl) hv h
  | interrupt => exact isField_interrupt hv h
  | call =>
      cases operand with
      | label => cases hv
      | _ => cases h
  | jump condition =>
      cases operand with
      | label => cases hv
      | _ => cases h
  | _ => cases h

end Instructions

/-! ### Data -/

/-- The bytes that a data directive puts into an image for a numeral.  A hexadecimal numeral of more
than two digits takes a byte for each two digits, which hold it as far as they can: that is all of
it unless it has a minus sign and is too large for two's complement.  Another numeral takes one byte
and is held by it. -/
structure IsDatum (x : Numeral) (bytes : List UInt8) : Prop where
  wide (h : x.radix = .hexadecimal ∧ 2 < x.digits.length) :
    bytes.length = (x.digits.length + 1) / 2 ∧
      (Form.number bytes : Int) = x.value % 256 ^ bytes.length ∧
      (Represents bytes x.value ↔ -(256 ^ bytes.length / 2) ≤ x.value)
  narrow (h : ¬ (x.radix = .hexadecimal ∧ 2 < x.digits.length)) :
    bytes.length = 1 ∧ Represents bytes x.value

/-- A hexadecimal numeral is less than what its digits can be. -/
theorem Numeral.value_lt {x : Numeral} (hx : x.radix = .hexadecimal) :
    x.value < 256 ^ ((x.digits.length + 1) / 2) := by
  have hmagnitude : x.magnitude < 16 ^ x.digits.length := by
    rw [magnitude, hx, Radix.base]
    have hdigits : ∀ d ∈ x.digits.reverse, d < 16 := fun d hd => by
      simpa [hx, Radix.base] using x.lt_base d (List.mem_reverse.1 hd)
    have hlt := Nat.ofDigits_lt_base_pow_length (by norm_num : 1 < 16) hdigits
    rwa [List.length_reverse] at hlt
  have hpow : 16 ^ x.digits.length ≤ 256 ^ ((x.digits.length + 1) / 2) := by
    rw [show (256 : Nat) = 16 ^ 2 by norm_num, ← pow_mul]
    exact Nat.pow_le_pow_right (by norm_num) (by omega)
  have hcast : (x.magnitude : Int) < 256 ^ ((x.digits.length + 1) / 2) := by
    exact_mod_cast hmagnitude.trans_le hpow
  have hvalue : x.value ≤ x.magnitude := by
    unfold value
    split <;> omega
  omega

theorem isDatum_encodeDatum {text : List Char} {x : Numeral} {bytes : List UInt8}
    (h : encodeDatum text (.number x.number) = .ok bytes) : IsDatum x bytes := by
  have hbyte {value : Int} (h : encodeDatum.encodeByte value = .ok bytes) :
      bytes.length = 1 ∧ Represents bytes value := by
    obtain ⟨_, hrange, h⟩ := Step.except_bind_eq_ok.1 h
    cases h
    exact ⟨rfl, represents_of_checkRange hrange (by decide) (by decide) (by decide)⟩
  simp only [encodeDatum, Numeral.number] at h
  split at h
  · case h_1 digits hdigits =>
    obtain ⟨hx, rfl⟩ : x.radix = .hexadecimal ∧ x.digits.length = digits := by
      split at hdigits
      · exact ⟨‹_›, Option.some.inj hdigits⟩
      · cases hdigits
    split at h
    · case isTrue hwide =>
      split at h
      · cases h
      · cases h
        refine ⟨fun _ => ⟨length_littleEndian _ _, ?_, ?_⟩, fun hnot => absurd ⟨hx, hwide⟩ hnot⟩
        · rw [number_littleEndian, natCast_field, length_littleEndian]
        · rw [represents_littleEndian_iff (by omega), length_littleEndian]
          exact and_iff_left (Numeral.value_lt hx)
    · case isFalse hnarrow => exact ⟨fun h => absurd h.2 hnarrow, fun _ => hbyte h⟩
  · case h_2 hdigits =>
    refine ⟨fun hwide => ?_, fun _ => hbyte h⟩
    rw [if_pos hwide.1] at hdigits
    cases hdigits

/-- **The fields of a data directive** hold its numerals, one behind another. -/
theorem exists_fields_of_encodeData {scope : Option String} {texts : List (List Char)}
    {bytes : List UInt8} (h : encodeData scope texts = (bytes, none)) :
    ∃ fields, bytes = fields.flatten ∧
      List.Forall₂ (fun text field => ∀ x : Numeral, x.IsSpelled text → IsDatum x field)
        texts fields := by
  induction texts generalizing bytes with
  | nil =>
      cases h
      exact ⟨[], rfl, .nil⟩
  | cons text texts ih =>
      rw [encodeData] at h
      split at h
      · case h_1 first hfirst =>
        cases hrest : encodeData scope texts with
        | mk rest cause =>
          rw [hrest] at h
          cases h
          obtain ⟨fields, rfl, hfields⟩ := ih hrest
          refine ⟨first :: fields, rfl, .cons (fun x hx => ?_) hfields⟩
          obtain ⟨operand, hoperand, hdatum⟩ := Step.except_bind_eq_ok.1 hfirst
          rw [StackLang.Operand.parse_of_startsNumber hx.isTrimmed hx.startsNumber] at hoperand
          obtain ⟨n, hn, rfl⟩ := Step.except_map_eq_ok.1 hoperand
          obtain ⟨rfl, -⟩ := hx.eq_of_parse hn
          exact isDatum_encodeDatum hdatum
      · cases h

/-! ### Lines -/

/-- **The fields of a line hold the numbers that are written for them.** When an assembler takes a
line, it puts in the marks of the line and then its encoding.  The number that an operand of an
instruction is written for is held by the field of the instruction, if it is in the range of
sixty-four bits, and in any case the field holds it reduced to that range.  A data directive puts in
what belongs to each of its numerals. -/
theorem represents_of_assembleLine {a a' : Assembler} {number : Nat} {text : List Char}
    (h : a.assembleLine number text = (a', none)) :
    ∃ parts marks code, SourceLine.parse text = .ok parts ∧
      a'.items.toList = a.items.toList ++ marks ++ code ∧ totalSize marks = 0 ∧
      ∀ name operand, parts.mnemonic = some name → parts.operand = some operand →
        (∀ instruction v, Mnemonic.parse? name = some (.instruction instruction) →
          Writes operand v →
          ∃ op field, code = [.bytes (op :: field)] ∧
            IsField op field (Int.bmod v 0x10000000000000000) ∧
            (-0x8000000000000000 ≤ v → v < 0x8000000000000000 → IsField op field v)) ∧
        (Mnemonic.parse? name = some (.directive .data) →
          ∃ fields, code = [.bytes fields.flatten] ∧
            List.Forall₂ (fun piece field => ∀ x : Numeral, x.IsSpelled piece → IsDatum x field)
              (splitOperands operand) fields) := by
  obtain ⟨row, hrow, htakes⟩ := Assembler.takes_assembleLine h
  have hwell := (Row.isWell_read hrow).2.code_wide
  obtain ⟨parts, hparts, -, -, hencoding⟩ := Row.read_eq_ok hrow
  refine ⟨parts, (row.label.map Item.label).toList
    ++ (if row.isInstruction then [.line row.number] else []), row.encoding, hparts, ?_, ?_,
    fun name operand hname hoperand => ⟨fun instruction v hmnemonic hv => ?_, fun hmnemonic => ?_⟩⟩
  · rw [htakes.items]
    simp [itemsOf, Row.items, hwell]
  · cases row.label <;> cases row.isInstruction <;> rfl
  · simp only [Row.encodingOf, hname, hmnemonic, hoperand] at hencoding
    obtain ⟨read, hread, hencoding⟩ := Step.except_bind_eq_ok.1 hencoding
    obtain ⟨items, hitems, hencoding⟩ := Step.except_bind_eq_ok.1 hencoding
    obtain ⟨found, hfound, hread⟩ := Step.except_bind_eq_ok.1 hread
    cases hread
    obtain ⟨op, field, rfl, hfield⟩ := isField_encode (hv.written?_eq hfound) hitems
    refine ⟨op, field, (congrArg Prod.snd (Except.ok.inj hencoding)).symm, hfield,
      fun hleast hlt => ?_⟩
    have hreduced : Int.bmod v 0x10000000000000000 = v := by
      rw [Int.bmod_def]
      split <;> omega
    rwa [hreduced] at hfield
  · simp only [Row.encodingOf, hname, hmnemonic, hoperand] at hencoding
    split at hencoding
    · case h_1 bytes hdata =>
      obtain ⟨fields, rfl, hfields⟩ := exists_fields_of_encodeData hdata
      exact ⟨fields, (congrArg Prod.snd (Except.ok.inj hencoding)).symm, hfields⟩
    · cases hencoding

/-- A store to the sum of a hexadecimal base and a decimal offset. -/
theorem represents_of_assembleLine_store : ∃ a' marks op field,
    (Assembler.empty 0).assembleLine 0 "x: STORE32 [0x1F + 2]".toList = (a', none) ∧
      a'.items.toList = marks ++ [.bytes (op :: field)] ∧ totalSize marks = 0 ∧
      Writes "[0x1F + 2]".toList 33 ∧ IsField op field 33 := by
  let base : Numeral := ⟨.none, .hexadecimal, [1, 15], by simp, by decide⟩
  let two : Numeral := ⟨.plus, .decimal, [2], by simp, by decide⟩
  have hsplit : IsSplit "0x1F + 2".toList "0x1F ".toList "+ 2".toList :=
    ⟨by decide +kernel, by simp, by simp, by simp⟩
  have hbase : base.IsSpelled (Text.trim "0x1F ".toList) := by decide +kernel
  have htwo : two.IsSpelled ("+ 2".toList.filter fun c => !Text.isBlank c) := by decide +kernel
  have hwrites : Writes "[0x1F + 2]".toList 33 := .absolute hsplit hbase (.written htwo)
  have hparse : SourceLine.parse "x: STORE32 [0x1F + 2]".toList
      = .ok ⟨some "x".toList, some "STORE32".toList, some "[0x1F + 2]".toList⟩ := by decide +kernel
  have hline : ((Assembler.empty 0).assembleLine 0 "x: STORE32 [0x1F + 2]".toList).2 = none := by
    decide +kernel
  obtain ⟨parts, marks, code, hparts, hitems, hmarks, hfields⟩ :=
    represents_of_assembleLine (Prod.ext rfl hline)
  cases hparse.symm.trans hparts
  obtain ⟨op, field, rfl, -, hfield⟩ :=
    (hfields _ _ rfl rfl).1 (.store .word) 33 (by decide) hwrites
  exact ⟨_, marks, op, field, Prod.ext rfl hline, hitems, hmarks, hwrites,
    hfield (by decide) (by decide)⟩

/-- A hexadecimal number with a minus sign that two bytes cannot hold is taken by a data directive,
and a sum that sixty-four bits cannot hold is taken as an address. -/
theorem not_represents_wide : ∃ (a' a'' : Assembler) (x : Numeral),
    (Assembler.empty 0).assembleLine 0 "DB -0xFFFF".toList = (a', none) ∧
      x.IsSpelled "-0xFFFF".toList ∧ x.value = -65535 ∧ a'.items.toList = [.bytes [1, 0]] ∧
      ¬ Represents [1, 0] x.value ∧
    (Assembler.empty 0).assembleLine 0
        "LOAD16 [9223372036854775807 + 9223372036854775807]".toList = (a'', none) ∧
      Writes "[9223372036854775807 + 9223372036854775807]".toList 18446744073709551614 ∧
      a''.items.toList = [.line 0, .bytes [0x05, 0xfe, 0xff]] ∧
      ¬ IsField 0x05 [0xfe, 0xff] 18446744073709551614 := by
  have hdata : ((Assembler.empty 0).assembleLine 0 "DB -0xFFFF".toList).2 = none := by
    decide +kernel
  have hload : ((Assembler.empty 0).assembleLine 0
      "LOAD16 [9223372036854775807 + 9223372036854775807]".toList).2 = none := by decide +kernel
  -- the greatest number that is read, twice
  let base : Numeral := ⟨.none, .decimal, [9, 2, 2, 3, 3, 7, 2, 0, 3, 6, 8, 5, 4, 7, 7, 5, 8, 0, 7],
    by simp, by decide⟩
  let offset : Numeral := { base with sign := .plus }
  have hsplit : IsSplit "9223372036854775807 + 9223372036854775807".toList
      "9223372036854775807 ".toList "+ 9223372036854775807".toList :=
    ⟨by decide +kernel, by simp, by simp, by simp⟩
  have hbase : base.IsSpelled (Text.trim "9223372036854775807 ".toList) := by decide +kernel
  have hoffset : offset.IsSpelled
      ("+ 9223372036854775807".toList.filter fun c => !Text.isBlank c) := by decide +kernel
  have hwrites : Writes "[9223372036854775807 + 9223372036854775807]".toList
      (base.value + offset.value) := .absolute hsplit hbase (.written hoffset)
  have hvalue : base.value + offset.value = 18446744073709551614 := by decide
  exact ⟨_, _, ⟨.minus, .hexadecimal, [15, 15, 15, 15], by simp, by decide⟩, Prod.ext rfl hdata,
    by decide +kernel, by decide, by decide +kernel, by decide, Prod.ext rfl hload,
    hvalue ▸ hwrites, by decide +kernel, by decide⟩

end Assembly

end StackLang
