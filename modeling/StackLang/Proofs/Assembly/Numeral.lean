/-
**Which texts are numbers.**

A numeral is a sign, a radix and digits.  There are several ways to write one down: the letters may
be small or capital.  A text is read as a number exactly when it is a numeral written down, of a
magnitude below two to the sixty-third, and then the number is that of the numeral: the sum of its
digits times powers of the base.

Main definitions:

* `Numeral` — a sign, a radix and digits;
* `Numeral.spelling`, `Numeral.value` — how a numeral is written, and what it stands for;
* `Numeral.IsSpelled` — a text is a numeral written down.

Main results:

* `Number.parse?_eq_some_iff` — **the texts that are numbers, and the numbers that they are**;
* `Numeral.value_unique` — a text is one number at most.
-/

import StackLang.Assembly.Number
import Mathlib

set_option relaxedAutoImplicit false
set_option autoImplicit false

namespace StackLang

namespace Assembly

/-! ### Numerals -/

/-- The sign of a numeral. -/
inductive Sign where
  | none
  | plus
  | minus
deriving DecidableEq, Repr

/-- The sign as it is written. -/
def Sign.chars : Sign → List Char
  | none => []
  | plus => ['+']
  | minus => ['-']

/-- How the digits of a numeral are marked, and their base. -/
inductive Radix where
  | binary
  | octal
  | decimal
  /-- Decimal with a mark. -/
  | marked
  | hexadecimal
deriving DecidableEq, Repr

namespace Radix

def base : Radix → Nat
  | binary => 2
  | octal => 8
  | decimal => 10
  | marked => 10
  | hexadecimal => 16

/-- Some digits with their mark. -/
def mark (digits : List Char) : Radix → List Char
  | binary => digits ++ ['b']
  | octal => '0' :: 'o' :: digits
  | decimal => digits
  | marked => digits ++ ['d']
  | hexadecimal => '0' :: 'x' :: digits

theorem base_eq_iff {r : Radix} : r.base = 16 ↔ r = hexadecimal := by
  cases r <;> decide

theorem base_le (r : Radix) : r.base ≤ 16 := by
  cases r <;> decide

end Radix

/-- A sign, a radix and digits of the base, the highest first. -/
structure Numeral where
  sign : Sign
  radix : Radix
  digits : List Nat
  ne_nil : digits ≠ []
  lt_base : ∀ d ∈ digits, d < radix.base

namespace Numeral

variable (x : Numeral)

/-- The numeral as it is written in small letters. -/
def spelling : List Char := x.sign.chars ++ x.radix.mark (x.digits.map Nat.digitChar)

/-- A text is the numeral written down, in small letters or capitals. -/
def IsSpelled (text : List Char) : Prop := text.map Char.toLower = x.spelling

instance (text : List Char) : Decidable (x.IsSpelled text) := inferInstanceAs (Decidable (_ = _))

/-- The numeral without its sign. -/
def magnitude : Nat := Nat.ofDigits x.radix.base x.digits.reverse

/-- **The integer that a numeral stands for.** -/
def value : Int := if x.sign = .minus then -(x.magnitude : Int) else x.magnitude

/-- The numeral as a number, with its digits counted if they are hexadecimal. -/
def number : Number :=
  ⟨x.value, if x.radix = .hexadecimal then some x.digits.length else none⟩

end Numeral

namespace Number

/-! ### Digits -/

section Digits

variable {base n : Nat}

theorem digit?_digitChar {d : Nat} (h : d < 16) : digit? (Nat.digitChar d) = some d := by
  interval_cases d <;> decide

/-- A character that has the value of a digit is that digit, small or capital. -/
theorem toLower_of_digit? {c : Char} {d : Nat} (h : digit? c = some d) :
    c.toLower = Nat.digitChar d := by
  -- there are no more than a hundred characters to look at
  have hall : ∀ n < 103, (digit? (Char.ofNat n)).all
      fun d => (Char.ofNat n).toLower = Nat.digitChar d := by decide +kernel
  have hle : ∀ greatest : Char, greatest.toNat < 103 → c ≤ greatest → c.toNat < 103 :=
    fun greatest hgreatest hc => lt_of_le_of_lt (UInt32.le_iff_toNat_le.1 hc) hgreatest
  have hlt : c.toNat < 103 := by
    unfold digit? at h
    split at h
    · case isTrue hdigit =>
      simp only [Char.isDigit, Bool.and_eq_true, decide_eq_true_eq] at hdigit
      exact hle '9' (by decide) hdigit.2
    · split at h
      · case isTrue hsmall => exact hle 'f' (by decide) hsmall.2
      · split at h
        · case isTrue hcapital => exact hle 'F' (by decide) hcapital.2
        · cases h
  have hc := hall c.toNat hlt
  rw [Char.ofNat_toNat, h] at hc
  simpa using hc

/-- Digits are read as the number that they are written for. -/
theorem ofDigits?_map_digitChar (hbase : base ≤ 16) {ds : List Nat} (h : ∀ d ∈ ds, d < base) :
    ofDigits? base n (ds.map Nat.digitChar)
      = some (Nat.ofDigits base ds.reverse + base ^ ds.length * n) := by
  induction ds generalizing n with
  | nil => simp [ofDigits?]
  | cons d ds ih =>
      rw [List.forall_mem_cons] at h
      rw [List.map_cons, ofDigits?, digit?_digitChar (by omega)]
      dsimp only
      rw [if_pos h.1, ih h.2, List.reverse_cons, Nat.ofDigits_append, List.length_reverse,
        Nat.ofDigits_singleton, List.length_cons, pow_succ]
      congr 1
      ring

theorem exists_of_ofDigits? {m : Nat} {cs : List Char} (h : ofDigits? base n cs = some m) :
    ∃ ds : List Nat, (∀ d ∈ ds, d < base) ∧ cs.map Char.toLower = ds.map Nat.digitChar := by
  induction cs generalizing n with
  | nil => exact ⟨[], nofun, rfl⟩
  | cons c cs ih =>
      rw [ofDigits?] at h
      split at h
      · case h_1 d hd =>
        split at h
        · case isTrue hlt =>
          obtain ⟨ds, hds, hcs⟩ := ih h
          exact ⟨d :: ds, List.forall_mem_cons.2 ⟨hlt, hds⟩,
            by rw [List.map_cons, toLower_of_digit? hd, hcs, List.map_cons]⟩
        · cases h
      · cases h

end Digits

/-! ### Marks and signs -/

/-- A text is split into its digits and their base as they are marked. -/
theorem exists_mark_of_splitBase (cs : List Char) :
    ∃ r : Radix, r.base = (splitBase cs).2 ∧ cs = r.mark (splitBase cs).1 := by
  unfold splitBase
  split
  · exact ⟨.hexadecimal, rfl, rfl⟩
  · exact ⟨.octal, rfl, rfl⟩
  · split
    · case h_1 hlast =>
      obtain ⟨ds, rfl⟩ := List.getLast?_eq_some_iff.1 hlast
      exact ⟨.binary, rfl, by simp [Radix.mark]⟩
    · case h_2 hlast =>
      obtain ⟨ds, rfl⟩ := List.getLast?_eq_some_iff.1 hlast
      exact ⟨.marked, rfl, by simp [Radix.mark]⟩
    · exact ⟨.decimal, rfl, rfl⟩

/-- Digits below ten are no marks. -/
theorem not_mark_of_lt {ds : List Nat} (hds : ∀ d ∈ ds, d < 10) :
    ∀ c ∈ ds.map Nat.digitChar, c ≠ 'x' ∧ c ≠ 'o' ∧ c ≠ 'b' ∧ c ≠ 'd' := by
  intro c hc
  obtain ⟨d, hd, rfl⟩ := List.mem_map.1 hc
  have := hds d hd
  interval_cases d <;> decide

theorem splitBase_of_forall {cs : List Char} (h : ∀ c ∈ cs, c ≠ 'x' ∧ c ≠ 'o') :
    splitBase cs = match cs.getLast? with
      | some 'b' => (cs.dropLast, 2)
      | some 'd' => (cs.dropLast, 10)
      | _ => (cs, 10) := by
  unfold splitBase
  split
  · exact absurd rfl (h 'x' (by simp)).1
  · exact absurd rfl (h 'o' (by simp)).2
  · rfl

/-- **Marked digits are split off as they are marked.** -/
theorem splitBase_mark {r : Radix} {ds : List Nat} (hds : ∀ d ∈ ds, d < r.base) :
    splitBase (r.mark (ds.map Nat.digitChar)) = (ds.map Nat.digitChar, r.base) := by
  -- digits below ten are followed by a mark or by nothing
  have hbehind (hten : r.base ≤ 10) (c : Char) (hc : c ≠ 'x' ∧ c ≠ 'o') :
      ∀ c' ∈ ds.map Nat.digitChar ++ [c], c' ≠ 'x' ∧ c' ≠ 'o' := by
    intro c' hc'
    rcases List.mem_append.1 hc' with hdigit | hmark
    · obtain ⟨hx, ho, -⟩ := not_mark_of_lt (fun d hd => (hds d hd).trans_le hten) c' hdigit
      exact ⟨hx, ho⟩
    · rwa [List.mem_singleton.1 hmark]
  cases r with
  | hexadecimal => rfl
  | octal => rfl
  | binary =>
      rw [Radix.mark, splitBase_of_forall (hbehind (by decide) 'b' (by decide))]
      simp [Radix.base]
  | marked =>
      rw [Radix.mark, splitBase_of_forall (hbehind (by decide) 'd' (by decide))]
      simp [Radix.base]
  | decimal =>
      have hchars := not_mark_of_lt hds
      rw [Radix.mark, splitBase_of_forall fun c hc => ⟨(hchars c hc).1, (hchars c hc).2.1⟩]
      split
      · case h_1 hlast => exact absurd rfl (hchars 'b' (List.mem_of_getLast? hlast)).2.2.1
      · case h_2 hlast => exact absurd rfl (hchars 'd' (List.mem_of_getLast? hlast)).2.2.2
      · rfl

/-- What is no letter has no capital. -/
theorem eq_of_toLower {c d : Char} (h : c.toLower = d) (hd : d.isAlpha = false) : c = d := by
  have hupper : ¬ c.isUpper = true := fun hupper => by
    rw [← h, Char.isAlpha_toLower_eq_isAlpha, Char.isAlpha, hupper] at hd
    cases hd
  rwa [Char.toLower_eq_of_not_isUpper hupper] at h

/-- **A sign is split off as it is written.** -/
theorem splitSign_of_map_toLower {sign : Sign} {text body : List Char}
    (hbody : ∀ c ∈ body.head?, c.isDigit = true)
    (h : text.map Char.toLower = sign.chars ++ body) :
    ∃ rest, splitSign text = (decide (sign = .minus), rest) ∧ rest.map Char.toLower = body := by
  cases sign with
  | minus =>
      obtain ⟨c, rest, rfl, hc, hrest⟩ := List.map_eq_cons_iff.1 h
      cases eq_of_toLower hc (by decide)
      exact ⟨rest, rfl, hrest⟩
  | plus =>
      obtain ⟨c, rest, rfl, hc, hrest⟩ := List.map_eq_cons_iff.1 h
      cases eq_of_toLower hc (by decide)
      exact ⟨rest, rfl, hrest⟩
  | none =>
      refine ⟨text, ?_, h⟩
      unfold splitSign
      split
      · exact absurd (hbody '-' (congrArg List.head? h.symm)) (by decide)
      · exact absurd (hbody '+' (congrArg List.head? h.symm)) (by decide)
      · rfl

theorem exists_sign_of_splitSign (text : List Char) :
    ∃ sign : Sign, decide (sign = .minus) = (splitSign text).1 ∧
      text.map Char.toLower = sign.chars ++ (splitSign text).2.map Char.toLower := by
  unfold splitSign
  split
  · exact ⟨.minus, rfl, rfl⟩
  · exact ⟨.plus, rfl, rfl⟩
  · exact ⟨.none, rfl, rfl⟩

end Number

/-! ### Numerals and numbers -/

namespace Numeral

variable {x : Numeral} {text : List Char} {n : Number}

/-- Marked digits start with a decimal digit. -/
theorem head?_mark (x : Numeral) :
    ∀ c ∈ (x.radix.mark (x.digits.map Nat.digitChar)).head?, c.isDigit = true := by
  have hdigit : ∀ d < 10, (Nat.digitChar d).isDigit = true := by decide
  obtain ⟨sign, radix, digits, hne, hlt⟩ := x
  obtain ⟨d, ds, rfl⟩ := List.exists_cons_of_ne_nil hne
  have hd := hlt d List.mem_cons_self
  rintro c hc
  cases radix <;> cases hc
  · exact hdigit d (hd.trans (by decide))
  · rfl
  · exact hdigit d hd
  · exact hdigit d hd
  · rfl

/-- **A numeral that is written down is read as its number**, if its magnitude is small enough. -/
theorem IsSpelled.parse? (h : x.IsSpelled text) :
    Number.parse? text = if x.magnitude < 0x8000000000000000 then some x.number else none := by
  obtain ⟨rest, hsign, hrest⟩ := Number.splitSign_of_map_toLower x.head?_mark h
  have hne : x.digits.map Nat.digitChar ≠ [] := by simp [x.ne_nil]
  unfold Number.parse?
  rw [hsign]
  dsimp only
  rw [hrest, Number.splitBase_mark x.lt_base]
  dsimp only
  rw [if_neg hne, Number.ofDigits?_map_digitChar x.radix.base_le x.lt_base]
  simp only [Nat.mul_zero, Nat.add_zero, List.length_map, decide_eq_true_eq, Radix.base_eq_iff]
  rfl

/-- A numeral that is read is read as its number. -/
theorem IsSpelled.eq_of_parse (h : x.IsSpelled text) (hn : Number.parse text = .ok n) :
    n = x.number ∧ x.magnitude < 0x8000000000000000 := by
  rw [Number.parse, h.parse?] at hn
  by_cases hsmall : x.magnitude < 0x8000000000000000
  · rw [if_pos hsmall] at hn
    exact ⟨(Except.ok.inj hn).symm, hsmall⟩
  · rw [if_neg hsmall] at hn
    cases hn

/-- What is read as a number is a numeral written down. -/
theorem exists_isSpelled (h : Number.parse? text = some n) : ∃ x : Numeral, x.IsSpelled text := by
  obtain ⟨sign, -, hsign⟩ := Number.exists_sign_of_splitSign text
  obtain ⟨r, hbase, hmark⟩ :=
    Number.exists_mark_of_splitBase ((Number.splitSign text).2.map Char.toLower)
  unfold Number.parse? at h
  dsimp only at h
  generalize Number.splitBase ((Number.splitSign text).2.map Char.toLower) = split at h hbase hmark
  obtain ⟨digits, base⟩ := split
  -- the digits are in small letters, as the whole text is
  have hlower : digits.map Char.toLower = digits := by
    conv_rhs => rw [← List.map_id digits]
    refine List.map_congr_left fun c hc => ?_
    have hmem : c ∈ (Number.splitSign text).2.map Char.toLower := by
      rw [hmark]
      cases r <;> simp [Radix.mark, hc]
    obtain ⟨c', -, rfl⟩ := List.mem_map.1 hmem
    exact c'.toLower_toLower_eq_toLower
  split at h
  · cases h
  · case isFalse hne =>
    split at h
    · case h_1 m hm =>
      obtain ⟨ds, hds, hchars⟩ := Number.exists_of_ofDigits? hm
      rw [hlower] at hchars
      subst hchars
      refine ⟨⟨sign, r, ds, by simpa using hne, hbase ▸ hds⟩, ?_⟩
      rw [IsSpelled, hsign, hmark]
      rfl
    · cases h

end Numeral

/-- **The texts that are numbers**: the numerals of a magnitude below two to the sixty-third, each
written down for the number that it stands for. -/
theorem Number.parse?_eq_some_iff {text : List Char} {n : Number} :
    Number.parse? text = some n ↔
      ∃ x : Numeral, x.IsSpelled text ∧ x.magnitude < 0x8000000000000000 ∧ n = x.number := by
  constructor
  · intro h
    obtain ⟨x, hx⟩ := Numeral.exists_isSpelled h
    rw [hx.parse?] at h
    split at h
    · case isTrue hlt =>
      cases h
      exact ⟨x, hx, hlt, rfl⟩
    · cases h
  · rintro ⟨x, hx, hlt, rfl⟩
    rw [hx.parse?, if_pos hlt]

theorem Number.exists_of_parse {text : List Char} {n : Number} (h : Number.parse text = .ok n) :
    ∃ x : Numeral, x.IsSpelled text ∧ n = x.number := by
  unfold Number.parse at h
  split at h
  · case h_1 n' hn =>
    cases h
    obtain ⟨x, hx, -, rfl⟩ := Number.parse?_eq_some_iff.1 hn
    exact ⟨x, hx, rfl⟩
  · cases h

namespace Numeral

theorem map_digitChar_injective {base : Nat} (hbase : base ≤ 16) {ds ds' : List Nat}
    (hds : ∀ d ∈ ds, d < base) (hds' : ∀ d ∈ ds', d < base)
    (h : ds.map Nat.digitChar = ds'.map Nat.digitChar) : ds = ds' := by
  have hread : ∀ es : List Nat, (∀ d ∈ es, d < base) →
      (es.map Nat.digitChar).map Number.digit? = es.map some := by
    intro es hes
    rw [List.map_map]
    exact List.map_congr_left fun d hd => Number.digit?_digitChar ((hes d hd).trans_le hbase)
  have hsome := hread ds hds
  rw [h, hread ds' hds'] at hsome
  exact (List.map_injective_iff.2 (Option.some_injective _) hsome).symm

/-- **A text stands for one integer at most.** -/
theorem value_unique {x y : Numeral} {text : List Char} (hx : x.IsSpelled text)
    (hy : y.IsSpelled text) : x.value = y.value := by
  obtain ⟨rest, hsign, hrest⟩ := Number.splitSign_of_map_toLower x.head?_mark hx
  obtain ⟨rest', hsign', hrest'⟩ := Number.splitSign_of_map_toLower y.head?_mark hy
  rw [hsign] at hsign'
  obtain ⟨hminus, rfl⟩ := Prod.mk.inj hsign'
  -- what stands behind the sign tells the digits and the base
  have hsplit := Number.splitBase_mark x.lt_base
  rw [← hrest, hrest', Number.splitBase_mark y.lt_base] at hsplit
  obtain ⟨hchars, hbase⟩ := Prod.mk.inj hsplit
  have hdigits : y.digits = x.digits :=
    map_digitChar_injective x.radix.base_le (hbase ▸ y.lt_base) x.lt_base hchars
  have hsign : x.sign = .minus ↔ y.sign = .minus := decide_eq_decide.1 hminus
  simp only [value, magnitude, hdigits, hbase, hsign]

end Numeral

end Assembly

end StackLang
