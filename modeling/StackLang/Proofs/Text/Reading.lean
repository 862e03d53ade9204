/-
**The assembler reads what is written.**

Each line of a program is taken apart by the assembler into what it was made from: its label, or the
name of its instruction and the operand.  Numbers are read as they are written, in base ten with a
sign or in base sixteen with eight digits.  A made name has an at sign in it, so it is no number and
not the name of the frame; and it starts with a letter, so it does not depend on the labels before
it.  A remark stands behind a semicolon, and no quote stands before that.

Main definitions:

* `Line.IsWell` — the names of a line are made names, its remark is no more than one line, and an
  offset in it fits a number of the assembler;
* `Op.instruction?` — the instruction of the assembler that an instruction is;
* `Operand.IsReadAs`, `Line.IsRead` — an operand and a line are read as they were written.

Main results:

* `Assembly.parse?_signed`, `Assembly.parse?_hexDigits` — numbers are read as they are written;
* `Operand.isReadAs_parse` — operands are read as they are written;
* `Line.isRead_of_isWell` — so are lines.
-/

import StackLang.Assembly.Encode
import StackLang.Proofs.Assembly.Numeral
import StackLang.Proofs.Text.Listing

set_option relaxedAutoImplicit false
set_option autoImplicit false

namespace StackLang

/-! ### Blanks around a text -/

namespace Text

/-- A text that neither starts nor ends with a blank. -/
structure IsTrimmed (cs : List Char) : Prop where
  start : ∃ c ds, cs = c :: ds ∧ isBlank c = false
  stop : ∃ c ds, cs = ds ++ [c] ∧ isBlank c = false

theorem isTrimmed_of_forall {cs : List Char} (hne : cs ≠ []) (h : ∀ c ∈ cs, isBlank c = false) :
    IsTrimmed cs := by
  refine ⟨?_, cs.getLast hne, cs.dropLast, (List.dropLast_append_getLast hne).symm,
    h _ (List.getLast_mem hne)⟩
  cases cs with
  | nil => exact absurd rfl hne
  | cons c cs => exact ⟨c, cs, rfl, h c List.mem_cons_self⟩

theorem isTrimmed_minus : IsTrimmed ['-'] := isTrimmed_of_forall nofun (by simp [isBlank])

theorem IsTrimmed.append {cs ds : List Char} (hcs : IsTrimmed cs) (hds : IsTrimmed ds)
    (between : List Char) : IsTrimmed (cs ++ between ++ ds) := by
  obtain ⟨c, cs', rfl, hc⟩ := hcs.start
  obtain ⟨d, ds', rfl, hd⟩ := hds.stop
  exact ⟨⟨c, cs' ++ between ++ (ds' ++ [d]), by simp, hc⟩,
    d, c :: cs' ++ between ++ ds', by simp, hd⟩

theorem trimStart_append {bs : List Char} (hbs : ∀ b ∈ bs, isBlank b = true) (cs : List Char) :
    trimStart (bs ++ cs) = trimStart cs := List.dropWhile_append_of_pos hbs

theorem trimStart_cons {c : Char} (hc : isBlank c = false) (cs : List Char) :
    trimStart (c :: cs) = c :: cs := List.dropWhile_cons_of_neg (by simp [hc])

/-- Blanks around a text are cut off. -/
theorem trim_padded (bs : List Char) {cs : List Char} (bs' : List Char)
    (hbs : ∀ b ∈ bs, isBlank b = true) (hcs : IsTrimmed cs) (hbs' : ∀ b ∈ bs', isBlank b = true) :
    trim (bs ++ cs ++ bs') = cs := by
  obtain ⟨c, ds, rfl, hc⟩ := hcs.start
  obtain ⟨d, es, hend, hd⟩ := hcs.stop
  rw [trim, List.append_assoc, trimStart_append hbs, List.cons_append, trimStart_cons hc,
    ← List.cons_append, hend, trimEnd, List.reverse_append, List.reverse_append,
    List.dropWhile_append_of_pos (by simpa using hbs'), List.reverse_singleton,
    List.singleton_append, List.dropWhile_cons_of_neg (by simp [hd])]
  simp

theorem trim_of_isTrimmed {cs : List Char} (h : IsTrimmed cs) : trim cs = cs := by
  simpa using trim_padded [] [] nofun h nofun

end Text

namespace Assembly

open Text

/-! ### Characters of a line -/

/-- A character that ends neither the label nor the code of a line nor the line itself, and starts
no quote. -/
def IsInert (c : Char) : Prop :=
  (c ≠ ';' ∧ c ≠ '"' ∧ c ≠ '\'') ∧ c ≠ ':' ∧ c ≠ '\n' ∧ c ≠ '\r'

instance (c : Char) : Decidable (IsInert c) :=
  inferInstanceAs (Decidable ((_ ∧ _ ∧ _) ∧ _ ∧ _ ∧ _))

theorem isOneLine_of_isInert {cs : List Char} (h : ∀ c ∈ cs, IsInert c) : IsOneLine cs :=
  fun c hc => (h c hc).2.2

/-- A comment starts behind the inert characters of a line. -/
theorem stripComment_append {cs : List Char} (h : ∀ c ∈ cs, IsInert c) (rest : List Char) :
    stripComment (cs ++ rest) = cs ++ stripComment rest := by
  induction cs with
  | nil => rfl
  | cons c cs ih =>
      rw [List.forall_mem_cons] at h
      obtain ⟨⟨hsemicolon, hdouble, hsingle⟩, -⟩ := h.1
      have hnext : Quoting.outside.next c = .outside := if_neg (not_or.2 ⟨hdouble, hsingle⟩)
      rw [List.cons_append, stripComment, stripCommentFrom, if_neg fun hc => hsemicolon hc.2,
        hnext, List.cons_append, ← stripComment, ih h.2]

/-- A line without a colon has no label. -/
theorem splitLabel?_eq_none {cs : List Char} (h : ∀ c ∈ cs, IsInert c) : splitLabel? cs = none := by
  have hstart : ∀ d ∈ trimStart cs, IsInert d := fun d hd => h d ((trimStart_suffix cs).subset hd)
  unfold splitLabel?
  cases hcs : trimStart cs with
  | nil => rfl
  | cons c rest =>
      dsimp only
      split
      · split
        · case h_1 rest' hcolon =>
          have hmem : ':' ∈ trimStart (rest.dropWhile isLabelPart) := hcolon ▸ List.mem_cons_self
          have hmem' : ':' ∈ rest :=
            (List.dropWhile_suffix _).subset ((trimStart_suffix _).subset hmem)
          exact absurd rfl (hstart ':' (hcs ▸ List.mem_cons_of_mem _ hmem')).2.1
        · rfl
      · rfl

end Assembly

open Assembly Text

/-! ### Made names -/

section Names

variable {c : Char} {name : String}

theorem toNat_of_isNamePart (h : Piece.isNamePart c = true) :
    (48 ≤ c.toNat ∧ c.toNat ≤ 57) ∨ (65 ≤ c.toNat ∧ c.toNat ≤ 90) ∨ c.toNat = 95 ∨
      (97 ≤ c.toNat ∧ c.toNat ≤ 122) := by
  simp only [Piece.isNamePart, Char.isAlphanum, Char.isAlpha, Char.isUpper, Char.isLower,
    Char.isDigit, Bool.or_eq_true, Bool.and_eq_true, decide_eq_true_eq, ge_iff_le,
    UInt32.le_iff_toNat_le] at h
  rcases h with ((h | h) | h) | rfl
  · exact .inr (.inl h)
  · exact .inr (.inr (.inr h))
  · exact .inl h
  · exact .inr (.inr (.inl rfl))

/-- The characters of made names: those that names are made of, and the at sign. -/
def IsMadeChar (c : Char) : Prop := Piece.isNamePart c = true ∨ c = '@'

theorem toNat_of_isMadeChar (h : IsMadeChar c) :
    (48 ≤ c.toNat ∧ c.toNat ≤ 57) ∨ (64 ≤ c.toNat ∧ c.toNat ≤ 90) ∨ c.toNat = 95 ∨
      (97 ≤ c.toNat ∧ c.toNat ≤ 122) := by
  rcases h with h | rfl
  · have := toNat_of_isNamePart h
    omega
  · exact .inr (.inl (by decide))

theorem isBlank_of_isMadeChar (h : IsMadeChar c) : isBlank c = false := by
  have hc := toNat_of_isMadeChar h
  simp only [isBlank, Bool.or_eq_false_iff, Bool.and_eq_false_iff, decide_eq_false_iff_not]
  omega

theorem isInert_of_isMadeChar (h : IsMadeChar c) : IsInert c := by
  have hc := toNat_of_isMadeChar h
  refine ⟨⟨?_, ?_, ?_⟩, ?_, ?_, ?_⟩ <;> rintro rfl <;> simp at hc

theorem isLabelPart_of_isMadeChar (h : IsMadeChar c) : isLabelPart c = true := by
  rcases h with h | rfl
  · simp only [Piece.isNamePart, Bool.or_eq_true, decide_eq_true_eq] at h
    rcases h with h | h <;> simp [isLabelPart, isWord, h]
  · decide

/-- A made name starts with a letter or an underscore, and has an at sign in it. -/
theorem IsMadeName.exists_cons (h : IsMadeName name) : ∃ c cs, name.toList = c :: cs ∧
    Piece.isNameStart c = true ∧ '@' ∈ cs ∧ ∀ d ∈ c :: cs, IsMadeChar d := by
  obtain ⟨base, rest, ⟨c, cs, hbase, hc, hcs⟩, hname, hrest⟩ := h
  rw [hbase] at hname
  refine ⟨c, cs ++ '@' :: rest, hname, hc, by simp, ?_⟩
  simp only [List.forall_mem_cons, List.forall_mem_append]
  exact ⟨.inl (isNamePart_of_isNameStart hc), fun d hd => .inl (hcs d hd), .inr rfl, hrest⟩

theorem isLabelStart_of_isNameStart (h : Piece.isNameStart c = true) : isLabelStart c = true := by
  simp only [Piece.isNameStart, Bool.or_eq_true, decide_eq_true_eq] at h
  rcases h with h | h <;> simp [isLabelStart, h]

theorem IsMadeName.isTrimmed (h : IsMadeName name) : IsTrimmed name.toList := by
  obtain ⟨c, cs, hname, -, -, hall⟩ := exists_cons h
  refine isTrimmed_of_forall (by simp [hname]) fun d hd => ?_
  exact isBlank_of_isMadeChar (hall d (hname ▸ hd))

theorem IsMadeName.isInert (h : IsMadeName name) : ∀ c ∈ name.toList, IsInert c := by
  obtain ⟨c, cs, hname, -, -, hall⟩ := exists_cons h
  exact hname ▸ fun d hd => isInert_of_isMadeChar (hall d hd)

theorem IsMadeName.isLabel (h : IsMadeName name) : Assembly.isLabel name.toList = true := by
  obtain ⟨c, cs, hname, hc, -, hall⟩ := exists_cons h
  rw [List.forall_mem_cons] at hall
  rw [hname, Assembly.isLabel, isLabelStart_of_isNameStart hc, Bool.true_and, List.all_eq_true]
  exact fun d hd => isLabelPart_of_isMadeChar (hall.2 d hd)

/-- A made name does not depend on the labels before it. -/
theorem IsMadeName.qualify (h : IsMadeName name) (scope : Option String) :
    Assembly.qualify scope name.toList = name := by
  obtain ⟨c, cs, hname, hc, -, -⟩ := exists_cons h
  have hdot : c ≠ '.' := by
    rintro rfl
    exact absurd hc (by decide)
  have hne : ∀ ds : List Char, name.toList ≠ '.' :: ds := by
    rintro ds heq
    exact hdot (List.cons.inj (hname.symm.trans heq)).1
  unfold Assembly.qualify
  split
  · exact absurd ‹_› (hne _)
  · exact String.ofList_toList

/-- A line that starts with a made name and a colon has this name as its label. -/
theorem IsMadeName.splitLabel? (h : IsMadeName name) (rest : List Char) :
    Assembly.splitLabel? (name.toList ++ ':' :: rest) = some (name.toList, rest) := by
  obtain ⟨c, cs, hname, hc, -, hall⟩ := exists_cons h
  rw [List.forall_mem_cons] at hall
  have hparts : ∀ d ∈ cs, isLabelPart d = true :=
    fun d hd => isLabelPart_of_isMadeChar (hall.2 d hd)
  have hcolon : isLabelPart ':' = false := by decide
  have hblank : isBlank ':' = false := by decide
  unfold Assembly.splitLabel?
  rw [hname, List.cons_append, trimStart_cons (isBlank_of_isMadeChar hall.1)]
  simp only [isLabelStart_of_isNameStart hc, if_true]
  rw [List.dropWhile_append_of_pos hparts, List.takeWhile_append_of_pos hparts,
    List.dropWhile_cons_of_neg (by simp [hcolon]), List.takeWhile_cons_of_neg (by simp [hcolon]),
    trimStart_cons hblank]
  simp

/-- **A line of a made name and a colon is read as a label**, and what stands behind the colon as
if it stood alone. -/
theorem IsMadeName.parse_labelled (h : IsMadeName name) (rest : List Char)
    (hrest : stripComment (':' :: rest) = ':' :: rest) :
    SourceLine.parse (name.toList ++ ':' :: rest)
      = SourceLine.parseRest (some name.toList) rest := by
  rw [SourceLine.parse, stripComment_append h.isInert, hrest]
  simp only [h.splitLabel?]

end Names

/-! ### Numbers -/

namespace Assembly.Number

variable {base n : Nat}

theorem ofDigits?_append (cs ds : List Char) :
    ofDigits? base n (cs ++ ds) = (ofDigits? base n cs).bind fun m => ofDigits? base m ds := by
  induction cs generalizing n with
  | nil => rfl
  | cons c cs ih =>
      rw [List.cons_append, ofDigits?, ofDigits?]
      cases digit? c with
      | none => rfl
      | some d =>
          dsimp only
          split
          · exact ih
          · rfl

/-- Digits are read as the number that they are written for. -/
theorem ofDigits?_toDigits (hb : 1 < base) (hb' : base ≤ 16) (n : Nat) :
    ofDigits? base 0 (Nat.toDigits base n) = some n := by
  induction n using Nat.strong_induction_on with
  | _ n ih =>
      by_cases hn : n < base
      · rw [Nat.toDigits_of_lt_base hn, ofDigits?, digit?_digitChar (by omega)]
        simp [hn, ofDigits?]
      · have hmod : n % base < base := Nat.mod_lt _ (by omega)
        rw [Nat.toDigits_of_base_le hb (by omega), ofDigits?_append,
          ih (n / base) (Nat.div_lt_self (by omega) hb), Option.bind_some, ofDigits?,
          digit?_digitChar (by omega)]
        simp only [hmod, if_true, ofDigits?, Nat.div_add_mod]

theorem exists_digitChar (hb : 1 < base) {c : Char} (h : c ∈ Nat.toDigits base n) :
    ∃ d, d < base ∧ c = Nat.digitChar d := by
  induction n using Nat.strong_induction_on with
  | _ n ih =>
      by_cases hn : n < base
      · rw [Nat.toDigits_of_lt_base hn, List.mem_singleton] at h
        exact ⟨n, hn, h⟩
      · rw [Nat.toDigits_of_base_le hb (by omega), List.mem_append, List.mem_singleton] at h
        rcases h with h | h
        · exact ih (n / base) (Nat.div_lt_self (by omega) hb) h
        · exact ⟨n % base, Nat.mod_lt _ (by omega), h⟩

/-- What holds of the sixteen digits holds of all characters of a number. -/
theorem forall_toDigits (hb : 1 < base) (hb' : base ≤ 16) {P : Char → Prop}
    (h : ∀ d < 16, P (Nat.digitChar d)) : ∀ c ∈ Nat.toDigits base n, P c := by
  intro c hc
  obtain ⟨d, hd, rfl⟩ := exists_digitChar hb hc
  exact h d (by omega)

theorem forall_toDigits_ten {P : Char → Prop} (h : ∀ d < 10, P (Nat.digitChar d)) :
    ∀ c ∈ Nat.toDigits 10 n, P c := by
  intro c hc
  obtain ⟨d, hd, rfl⟩ := exists_digitChar (by norm_num) hc
  exact h d hd

/-- Digits in base ten show no other base. -/
theorem splitBase_toDigits :
    splitBase ((Nat.toDigits 10 n).map Char.toLower) = (Nat.toDigits 10 n, 10) := by
  have hlower : (Nat.toDigits 10 n).map Char.toLower = Nat.toDigits 10 n := by
    conv_rhs => rw [← List.map_id (Nat.toDigits 10 n)]
    exact List.map_congr_left (forall_toDigits_ten (by decide))
  have hmark : ∀ c ∈ Nat.toDigits 10 n, c ≠ 'x' ∧ c ≠ 'o' ∧ c ≠ 'b' ∧ c ≠ 'd' :=
    forall_toDigits_ten (by decide)
  rw [hlower]
  unfold splitBase
  split
  · case h_1 digits h => exact absurd rfl (hmark 'x' (h ▸ by simp)).1
  · case h_2 digits h => exact absurd rfl (hmark 'o' (h ▸ by simp)).2.1
  · split
    · case h_1 h => exact absurd rfl (hmark 'b' (List.mem_of_getLast? h)).2.2.1
    · case h_2 h => exact absurd rfl (hmark 'd' (List.mem_of_getLast? h)).2.2.2
    · rfl

/-- **A number in base ten is read as it is written**, with a sign or without one. -/
theorem parse?_signed {text : List Char} {negative : Bool}
    (hsign : splitSign text = (negative, Nat.toDigits 10 n)) (hn : n < 0x8000000000000000) :
    parse? text = some ⟨if negative then -(n : Int) else n, none⟩ := by
  unfold parse?
  rw [hsign]
  dsimp only
  rw [splitBase_toDigits]
  simp only [Nat.toDigits_ne_nil, if_false, ofDigits?_toDigits (by norm_num : 1 < 10) (by norm_num),
    hn, if_true]
  rfl

theorem splitSign_toDigits : splitSign (Nat.toDigits 10 n) = (false, Nat.toDigits 10 n) := by
  have hsign : ∀ c ∈ Nat.toDigits 10 n, c ≠ '-' ∧ c ≠ '+' := forall_toDigits_ten (by decide)
  unfold splitSign
  split
  · case h_1 cs h => exact absurd rfl (hsign '-' (h ▸ by simp)).1
  · case h_2 cs h => exact absurd rfl (hsign '+' (h ▸ by simp)).2
  · rfl

/-- **The digits of a cell are read as its bits.** -/
theorem parse?_hexDigits (bits : UInt32) :
    parse? ('0' :: 'x' :: (StackLang.Operand.hexDigits bits).toList)
      = some ⟨bits.toNat, some 8⟩ := by
  have hlower : (StackLang.Operand.hexDigits bits).toList.map Char.toLower
      = List.replicate (8 - (Nat.toDigits 16 bits.toNat).length) '0'
        ++ Nat.toDigits 16 bits.toNat := by
    rw [StackLang.Operand.hexDigits, String.toList_ofList, List.map_append, List.map_replicate,
      List.map_map, List.length_map]
    congr 1
    conv_rhs => rw [← List.map_id (Nat.toDigits 16 bits.toNat)]
    exact List.map_congr_left (forall_toDigits (by norm_num) (by norm_num) (by decide))
  have hlength : (Nat.toDigits 16 bits.toNat).length ≤ 8 :=
    (Nat.length_toDigits_le_iff (by norm_num) (by norm_num)).2 bits.toNat_lt
  -- zeros in front make the digits eight and change no value
  have hzeros : ∀ k, ofDigits? 16 0 (List.replicate k '0') = some 0 := by
    intro k
    induction k with
    | zero => rfl
    | succ k ih => exact ih
  have hbase : splitBase
      (('0' :: 'x' :: (StackLang.Operand.hexDigits bits).toList).map Char.toLower)
      = (List.replicate (8 - (Nat.toDigits 16 bits.toNat).length) '0'
        ++ Nat.toDigits 16 bits.toNat, 16) := by
    rw [List.map_cons, List.map_cons, hlower]
    rfl
  have hsign : splitSign ('0' :: 'x' :: (StackLang.Operand.hexDigits bits).toList)
      = (false, '0' :: 'x' :: (StackLang.Operand.hexDigits bits).toList) := rfl
  have hlt := bits.toNat_lt
  unfold parse?
  simp only [hsign, hbase, ofDigits?_append, hzeros, Option.bind_some,
    ofDigits?_toDigits (by norm_num : 1 < 16) (le_refl 16), List.append_eq_nil_iff,
    Nat.toDigits_ne_nil, and_false, if_false, List.length_append, List.length_replicate,
    Nat.sub_add_cancel hlength]
  rw [if_pos (by omega)]
  simp

end Assembly.Number

/-! ### Addresses -/

namespace Assembly

/-- What stands between brackets is read as an address. -/
theorem parse_bracket (scope : Option String) (inner : List Char) :
    Operand.parse scope ('[' :: inner ++ [']']) = (parseAddress scope inner).map .memory := by
  have htrimmed : IsTrimmed ('[' :: inner ++ [']']) :=
    ⟨⟨'[', inner ++ [']'], by simp, by decide⟩, ']', '[' :: inner, rfl, by decide⟩
  unfold Operand.parse
  rw [trim_of_isTrimmed htrimmed]
  simp

/-- A text without signs is an address without an offset. -/
theorem splitOffset_of_forall {c : Char} {cs : List Char}
    (h : ∀ d ∈ cs, d ≠ '+' ∧ d ≠ '-') : splitOffset (c :: cs) = (c :: cs, none) := by
  have hsign : ∀ d ∈ cs, (!(decide (d = '+') || decide (d = '-'))) = true := by
    intro d hd
    simp [h d hd]
  unfold splitOffset
  simp only [List.take_succ_cons, List.take_zero, List.drop_succ_cons, List.drop_zero]
  rw [List.takeWhile_eq_self_iff.2 hsign, List.dropWhile_eq_nil_iff.2 hsign]
  rfl

theorem isMadeChar_ne_sign {c : Char} (h : IsMadeChar c) : c ≠ '+' ∧ c ≠ '-' := by
  have hc := toNat_of_isMadeChar h
  constructor <;> rintro rfl <;> simp at hc

/-- **A made name between brackets is read as its address.** -/
theorem parseAddress_name {name : String} (h : IsMadeName name) (scope : Option String) :
    parseAddress scope name.toList = .ok (.label name 0) := by
  obtain ⟨c, cs, hname, hc, hat, hall⟩ := h.exists_cons
  rw [List.forall_mem_cons] at hall
  have hsplit : splitOffset name.toList = (name.toList, none) := by
    rw [hname]
    exact splitOffset_of_forall fun d hd => isMadeChar_ne_sign (hall.2 d hd)
  have hframe : name.toList.map Char.toUpper ≠ ['S', 'F', 'P'] := by
    intro heq
    have hmem : '@' ∈ name.toList.map Char.toUpper :=
      List.mem_map.2 ⟨'@', hname ▸ List.mem_cons_of_mem _ hat, by decide⟩
    simp [heq] at hmem
  have hne : name.toList ≠ [] := by simp [hname]
  unfold parseAddress
  rw [trim_of_isTrimmed h.isTrimmed, hsplit]
  simp only [parseOffset, trim_of_isTrimmed h.isTrimmed, hne, if_false, hframe, h.isLabel, if_true,
    h.qualify]
  rfl

/-- **The name of the frame with an offset is read as that offset.** -/
theorem parseAddress_frame {n : Nat} {sign : Char} {offset : Int} (hsign : sign = '+' ∨ sign = '-')
    (hread : Number.parse? (sign :: Nat.toDigits 10 n) = some ⟨offset, none⟩)
    (scope : Option String) :
    parseAddress scope ('S' :: 'F' :: 'P' :: ' ' :: sign :: ' ' :: Nat.toDigits 10 n)
      = .ok (.frame offset) := by
  have hdigits : ∀ c ∈ Nat.toDigits 10 n, isBlank c = false :=
    Number.forall_toDigits_ten (by decide)
  have hbase : IsTrimmed ['S', 'F', 'P'] := isTrimmed_of_forall nofun (by simp [isBlank])
  have htrimmed : IsTrimmed ('S' :: 'F' :: 'P' :: ' ' :: sign :: ' ' :: Nat.toDigits 10 n) :=
    hbase.append (isTrimmed_of_forall Nat.toDigits_ne_nil hdigits) [' ', sign, ' ']
  have hsplit : splitOffset ('S' :: 'F' :: 'P' :: ' ' :: sign :: ' ' :: Nat.toDigits 10 n)
      = (['S', 'F', 'P', ' '], some (sign :: ' ' :: Nat.toDigits 10 n)) := by
    rcases hsign with rfl | rfl <;> rfl
  have hfilter : (sign :: ' ' :: Nat.toDigits 10 n).filter (fun c => !isBlank c)
      = sign :: Nat.toDigits 10 n := by
    rw [List.filter_cons_of_pos (by rcases hsign with rfl | rfl <;> decide),
      List.filter_cons_of_neg (by decide),
      List.filter_eq_self.2 fun c hc => by simp [hdigits c hc]]
  have hbase : trim ['S', 'F', 'P', ' '] = ['S', 'F', 'P'] := by decide
  have hoffset : parseOffset (some (sign :: ' ' :: Nat.toDigits 10 n)) = .ok offset := by
    rw [parseOffset, hfilter, Number.parse, hread]
    rfl
  unfold parseAddress
  rw [trim_of_isTrimmed htrimmed, hsplit]
  simp only [hoffset, hbase]
  rfl

end Assembly

/-! ### Operands -/

/-- The four bytes of a cell, the lowest first. -/
def cellBytes (bits : UInt32) : List UInt8 :=
  [bits.toUInt8, (bits >>> 8).toUInt8, (bits >>> 16).toUInt8, (bits >>> 24).toUInt8]

/-- Numbers with the same remainder have the same four bytes. -/
theorem littleEndian_eq_cellBytes {bits : UInt32} {value : Int}
    (h : value % 0x100000000 = bits.toNat) : littleEndian 4 value = cellBytes bits := by
  have hlt := bits.toNat_lt
  simp only [littleEndian, cellBytes, List.cons.injEq, ← UInt8.toNat_inj, UInt8.toNat_ofNat',
    UInt32.toNat_toUInt8, UInt32.toNat_shiftRight, UInt32.reduceToNat, Nat.reduceMod,
    Nat.shiftRight_eq_div_pow, and_true]
  omega

namespace Operand

/-- An operand of the assembler is what the operand was written for. -/
def IsReadAs : Operand → Assembly.Operand → Prop
  | immediate bits _, .number n => littleEndian 4 n.value = cellBytes bits
  | frame offset, .memory (.frame offset') => offset' = offset
  | global name, .memory (.label name' offset) => name' = name ∧ offset = 0
  | label name, .label name' => name' = name
  | _, _ => False

/-- The names in an operand are made names. -/
def IsNamed : Operand → Prop
  | global name | label name => IsMadeName name
  | _ => True

/-- The operand is no offset beyond the numbers that the assembler reads. -/
def InRange : Operand → Prop
  | frame offset => offset.natAbs < 0x8000000000000000
  | _ => True

variable {a : Operand} {scope : Option String}

/-- An integer is written in digits, with a sign in front where it is negative. -/
theorem toList_toString_int (z : Int) : (toString z).toList
    = if z < 0 then '-' :: Nat.toDigits 10 z.natAbs else Nat.toDigits 10 z.natAbs := by
  cases z with
  | ofNat n =>
      have hn : ¬ (Int.ofNat n < 0) := by simp
      rw [if_neg hn]
      change (toString n).toList = _
      rw [Nat.toString_eq_ofList_toDigits, String.toList_ofList]
      rfl
  | negSucc n =>
      rw [if_pos (Int.negSucc_lt_zero n)]
      change ("-" ++ toString (n + 1)).toList = _
      rw [String.toList_append, Nat.toString_eq_ofList_toDigits, String.toList_ofList,
        String.toList_ofList]
      rfl

/-- The character starts neither a label nor an address nor a quote. -/
def StartsNumber (c : Char) : Prop := isLabelStart c = false ∧ c ≠ '[' ∧ c ≠ '"' ∧ c ≠ '\''

instance (c : Char) : Decidable (StartsNumber c) := inferInstanceAs (Decidable (_ ∧ _ ∧ _ ∧ _))

/-- A text that starts like a number is read as one or refused. -/
theorem parse_of_startsNumber {text : List Char} (htrimmed : IsTrimmed text)
    (hstart : ∀ c ∈ text.head?, StartsNumber c) (scope : Option String) :
    Assembly.Operand.parse scope text = (Number.parse text).map .number := by
  obtain ⟨c, cs, rfl, -⟩ := htrimmed.start
  obtain ⟨hlabel, hbracket, hdouble, hsingle⟩ := hstart c rfl
  unfold Assembly.Operand.parse
  rw [trim_of_isTrimmed htrimmed]
  dsimp only
  split
  · case h_1 h => exact absurd (List.cons.inj h).1 hbracket
  · case h_2 h => exact absurd (List.cons.inj h).1 hdouble
  · case h_3 h => exact absurd (List.cons.inj h).1 hsingle
  · rw [isLabel, hlabel, Bool.false_and, if_neg Bool.false_ne_true]

theorem parse_number {text : List Char} {n : Number} (htrimmed : IsTrimmed text)
    (hstart : ∀ c ∈ text.head?, StartsNumber c) (hn : Number.parse? text = some n)
    (scope : Option String) : Assembly.Operand.parse scope text = .ok (.number n) := by
  rw [parse_of_startsNumber htrimmed hstart, Number.parse, hn]
  rfl

/-- A made name is read as a label. -/
theorem parse_name {name : String} (h : IsMadeName name) (scope : Option String) :
    Assembly.Operand.parse scope name.toList = .ok (.label name) := by
  obtain ⟨c, cs, hname, hc, -, -⟩ := h.exists_cons
  have hne : ∀ d, Piece.isNameStart d = false → ∀ ds, name.toList ≠ d :: ds := by
    intro d hd ds heq
    obtain ⟨rfl, -⟩ := List.cons.inj (heq.symm.trans hname)
    simp [hc] at hd
  unfold Assembly.Operand.parse
  rw [trim_of_isTrimmed h.isTrimmed]
  dsimp only
  split
  · exact absurd ‹_› (hne _ (by decide) _)
  · exact absurd ‹_› (hne _ (by decide) _)
  · exact absurd ‹_› (hne _ (by decide) _)
  · rw [h.isLabel, if_pos rfl, h.qualify]

theorem digits_isTrimmed {n : Nat} : IsTrimmed (Nat.toDigits 10 n) :=
  isTrimmed_of_forall Nat.toDigits_ne_nil (Number.forall_toDigits_ten (by decide))

theorem parse_int (z : Int) (h : z.natAbs < 0x8000000000000000) (scope : Option String) :
    Assembly.Operand.parse scope (toString z).toList = .ok (.number ⟨z, Option.none⟩) := by
  rw [toList_toString_int]
  split
  · case isTrue hneg =>
    have hsign : Number.splitSign ('-' :: Nat.toDigits 10 z.natAbs)
        = (true, Nat.toDigits 10 z.natAbs) := rfl
    have hread := Number.parse?_signed hsign h
    rw [if_pos rfl, show -(z.natAbs : Int) = z by omega] at hread
    refine parse_number ?_ (by simp; decide) hread scope
    exact isTrimmed_minus.append digits_isTrimmed []
  · case isFalse hneg =>
    have hread := Number.parse?_signed (Number.splitSign_toDigits (n := z.natAbs)) h
    rw [if_neg Bool.false_ne_true, show (z.natAbs : Int) = z by omega] at hread
    refine parse_number digits_isTrimmed (fun c hc => ?_) hread scope
    exact Number.forall_toDigits_ten (P := StartsNumber) (by decide) c (List.mem_of_mem_head? hc)

/-- The integer of a cell, up to multiples of what a cell can count. -/
theorem toInt_toInt32 (bits : UInt32) :
    bits.toInt32.toInt % 0x100000000 = bits.toNat ∧ bits.toInt32.toInt.natAbs ≤ 0x80000000 := by
  have hlt := bits.toNat_lt
  have heq : bits.toInt32.toInt = (bits.toNat : Int).bmod 0x100000000 := by
    change bits.toBitVec.toInt = _
    rw [BitVec.toInt_eq_toNat_bmod]
    rfl
  rw [heq, Int.bmod_def]
  constructor
  · split <;> omega
  · split <;> omega

/-- The operand of a float is its bits in base sixteen. -/
theorem toList_text_float (bits : UInt32) :
    (immediate bits .float).text.toList = '0' :: 'x' :: (hexDigits bits).toList := by
  simp [text]

theorem isTrimmed_hexDigits (bits : UInt32) :
    IsTrimmed ('0' :: 'x' :: (hexDigits bits).toList) := by
  refine isTrimmed_of_forall (by simp) ?_
  simp only [List.forall_mem_cons, hexDigits, String.toList_ofList, List.forall_mem_append,
    List.forall_mem_map]
  refine ⟨by decide, by decide, fun c hc => ?_, ?_⟩
  · rw [List.eq_of_mem_replicate hc]
    decide
  · exact Number.forall_toDigits (by norm_num) (by norm_num) (by decide)

/-- An offset is written behind its sign. -/
theorem toList_text_frame (offset : Int) : ∃ sign, (sign = '+' ∨ sign = '-') ∧
    (frame offset).text.toList = '[' :: ('S' :: 'F' :: 'P' :: ' ' :: sign :: ' ' ::
      Nat.toDigits 10 offset.natAbs) ++ [']'] ∧
    Number.splitSign (sign :: Nat.toDigits 10 offset.natAbs)
      = (decide (offset < 0), Nat.toDigits 10 offset.natAbs) := by
  by_cases hneg : offset < 0
  · refine ⟨'-', .inr rfl, ?_, by simp [hneg, Number.splitSign]⟩
    have hdigits := toList_toString_int (-offset)
    rw [if_neg (by omega), Int.natAbs_neg] at hdigits
    simpa [text, hneg] using hdigits
  · refine ⟨'+', .inl rfl, ?_, by simp [hneg, Number.splitSign]⟩
    have hdigits := toList_toString_int offset
    rw [if_neg hneg] at hdigits
    simpa [text, hneg] using hdigits

/-- A value is read as a number that stands for its bits and fits in a cell. -/
theorem parse_immediate (bits : UInt32) (type : Scalar) (scope : Option String) :
    ∃ n, Assembly.Operand.parse scope (immediate bits type).text.toList = .ok (.number n) ∧
      n.value % 0x100000000 = bits.toNat ∧ -0x80000000 ≤ n.value ∧ n.value < 0x100000000 := by
  have hlt := bits.toNat_lt
  cases type with
  | int =>
      obtain ⟨hmod, hbound⟩ := toInt_toInt32 bits
      exact ⟨_, parse_int bits.toInt32.toInt (by omega) scope, hmod, by simp only; omega,
        by simp only; omega⟩
  | float =>
      refine ⟨⟨bits.toNat, some 8⟩, ?_, by simp only; omega, by simp only; omega,
        by simp only; omega⟩
      rw [toList_text_float]
      exact parse_number (isTrimmed_hexDigits bits) (by simp; decide)
        (Number.parse?_hexDigits bits) scope

/-- **Operands are read as they are written.** -/
theorem isReadAs_parse {a : Operand} (hne : a ≠ .none) (hnamed : a.IsNamed) (hrange : a.InRange)
    (scope : Option String) :
    ∃ o, Assembly.Operand.parse scope a.text.toList = .ok o ∧ a.IsReadAs o := by
  cases a with
  | none => exact absurd rfl hne
  | immediate bits type =>
      obtain ⟨n, hn, hmod, -⟩ := parse_immediate bits type scope
      exact ⟨_, hn, littleEndian_eq_cellBytes hmod⟩
  | frame offset =>
      -- the sign stands apart from the digits, and is read with them
      obtain ⟨sign, hsign, htext, hsplit⟩ := toList_text_frame offset
      have hread := Number.parse?_signed hsplit hrange
      have hvalue : (if decide (offset < 0) = true then -(offset.natAbs : Int) else offset.natAbs)
          = offset := by
        simp only [decide_eq_true_eq]
        split <;> omega
      rw [hvalue] at hread
      refine ⟨.memory (.frame offset), ?_, rfl⟩
      rw [htext, parse_bracket, parseAddress_frame hsign hread]
      rfl
  | global name =>
      refine ⟨.memory (.label name 0), ?_, rfl, rfl⟩
      have htext : (Operand.global name).text.toList = '[' :: name.toList ++ [']'] := by
        simp [text]
      rw [htext, parse_bracket, parseAddress_name hnamed]
      rfl
  | label name => exact ⟨.label name, parse_name hnamed scope, rfl⟩

end Operand

/-! ### Lines -/

/-- The arithmetic of the machine on values of a type. -/
def ArithOp.machineOp : ArithOp → Scalar → MachineOp
  | add, .int => .add
  | sub, .int => .sub
  | mul, .int => .mul
  | div, .int => .div
  | add, .float => .addF
  | sub, .float => .subF
  | mul, .float => .mulF
  | div, .float => .divF

/-- The instruction of the assembler that an instruction is.  Arithmetic on floats has no width. -/
def Op.instruction? : Op → Option Assembly.Instruction
  | load => some (.load .word)
  | store => some (.store .word)
  | pop => some (.pop .word)
  | dup => some (.dup .word)
  | arith op .int => some (.arith (op.machineOp .int) .word)
  | arith op .float => some (.arith (op.machineOp .float) .byte)
  | toFloat => some .toFloat
  | toInt => some .toInt
  | jump c => some (.jump c)
  | call => some .call
  | ret => some .ret
  | halt => some .halt
  | assembly _ | nop | entry _ => none

/-- **The name of an instruction is read as that instruction.** -/
theorem Op.parse?_mnemonic {op : Op} {m : String} (h : op.mnemonic? = some m) :
    isName m.toList = true ∧
      ∃ i, op.instruction? = some i ∧ Mnemonic.parse? m.toList = some (.instruction i) := by
  cases op with
  | arith op type => cases op <;> cases type <;> cases h <;> exact ⟨by decide, _, rfl, by decide⟩
  | jump c => cases c <;> cases h <;> exact ⟨by decide, _, rfl, by decide⟩
  | _ => cases h <;> exact ⟨by decide, _, rfl, by decide⟩

/-- The name of an instruction has at least one character, and the characters of names. -/
theorem isMadeChar_of_isName {cs : List Char} (h : isName cs = true) :
    cs ≠ [] ∧ ∀ c ∈ cs, IsMadeChar c := by
  cases cs with
  | nil => cases h
  | cons c cs =>
      simp only [isName, Bool.and_eq_true, List.all_eq_true] at h
      obtain ⟨⟨⟨hc, hcs⟩, -⟩, -⟩ := h
      refine ⟨List.cons_ne_nil c cs, ?_⟩
      rw [List.forall_mem_cons]
      exact ⟨.inl (by simp [Piece.isNamePart, Char.isAlphanum, hc]),
        fun d hd => .inl (by simp [Piece.isNamePart, hcs d hd])⟩

/-- **The name of an instruction with an operand is read as the two**, whatever the remark behind
them. -/
theorem parse_code {m a rest : List Char} (hm : isName m = true)
    (ha : a = [] ∨ IsTrimmed a) (hinert : ∀ c ∈ a, IsInert c)
    (hrest : ∀ b ∈ stripComment rest, b = ' ') :
    SourceLine.parse ('\t' :: m ++ (if a = [] then [] else ' ' :: a) ++ rest)
      = .ok ⟨none, some m, if a = [] then none else some a⟩ := by
  obtain ⟨hne, hmade⟩ := isMadeChar_of_isName hm
  have hsolid : ∀ c ∈ m, (!isBlank c) = true := fun c hc => by
    simp [isBlank_of_isMadeChar (hmade c hc)]
  have hmtrimmed : IsTrimmed m :=
    isTrimmed_of_forall hne fun c hc => isBlank_of_isMadeChar (hmade c hc)
  have hpad : ∀ b ∈ stripComment rest, isBlank b = true ∧ IsInert b := fun b hb => by
    rw [hrest b hb]
    decide
  -- the part of the line in front of its remark
  have hcode : ∀ c ∈ '\t' :: m ++ (if a = [] then [] else ' ' :: a), IsInert c := by
    simp only [List.forall_mem_append, List.forall_mem_cons]
    refine ⟨⟨by decide, fun c hc => isInert_of_isMadeChar (hmade c hc)⟩, ?_⟩
    split
    · simp
    · rw [List.forall_mem_cons]
      exact ⟨by decide, hinert⟩
  have htrimmed : IsTrimmed (m ++ (if a = [] then [] else ' ' :: a)) := by
    split
    · rwa [List.append_nil]
    · rename_i hane
      simpa using hmtrimmed.append (ha.resolve_left hane) [' ']
  have htrim : trim ('\t' :: m ++ (if a = [] then [] else ' ' :: a) ++ stripComment rest)
      = m ++ (if a = [] then [] else ' ' :: a) := by
    have := trim_padded ['\t'] _ (by simp [isBlank]) htrimmed fun b hb => (hpad b hb).1
    simpa using this
  have hnone : splitLabel? ('\t' :: m ++ (if a = [] then [] else ' ' :: a) ++ stripComment rest)
      = none := by
    refine splitLabel?_eq_none ?_
    rw [List.forall_mem_append]
    exact ⟨hcode, fun b hb => (hpad b hb).2⟩
  rw [SourceLine.parse, stripComment_append hcode]
  simp only [hnone, SourceLine.parseRest, htrim]
  split
  · case h_1 h => exact absurd (List.append_eq_nil_iff.1 h).1 hne
  · rw [List.takeWhile_append_of_pos hsolid, List.dropWhile_append_of_pos hsolid]
    by_cases hane : a = []
    · subst hane
      simp [hm, trim, trimStart, trimEnd]
    · have hblank : (!isBlank ' ') = false := by decide
      have hoperand : trim (' ' :: a) = a := by
        simpa using trim_padded [' '] [] (by simp [isBlank]) (ha.resolve_left hane) (by simp)
      simp only [if_neg hane, List.takeWhile_cons, List.dropWhile_cons, hblank,
        Bool.false_eq_true, if_false, List.append_nil, hm, if_true, hoperand]

/-- What an operand is written as keeps to itself in a line. -/
theorem Operand.isTrimmed_text {a : Operand} (hne : a ≠ .none) (hnamed : a.IsNamed) :
    IsTrimmed a.text.toList ∧ ∀ c ∈ a.text.toList, IsInert c := by
  have hten : ∀ n, ∀ c ∈ Nat.toDigits 10 n, IsInert c := fun n =>
    Number.forall_toDigits_ten (by decide)
  have hbracket : ∀ {cs : List Char}, (∀ c ∈ cs, IsInert c) →
      IsTrimmed ('[' :: cs ++ [']']) ∧ ∀ c ∈ '[' :: cs ++ [']'], IsInert c := by
    intro cs hcs
    refine ⟨⟨⟨'[', cs ++ [']'], by simp, by decide⟩, ']', '[' :: cs, rfl, by decide⟩, ?_⟩
    simp only [List.forall_mem_append, List.forall_mem_cons]
    exact ⟨⟨by decide, hcs⟩, by decide, by simp⟩
  cases a with
  | none => exact absurd rfl hne
  | immediate bits type =>
      cases type with
      | int =>
          rw [text, toList_toString_int]
          split
          · refine ⟨isTrimmed_minus.append digits_isTrimmed [], ?_⟩
            rw [List.forall_mem_cons]
            exact ⟨by decide, hten _⟩
          · exact ⟨digits_isTrimmed, hten _⟩
      | float =>
          rw [toList_text_float]
          refine ⟨isTrimmed_hexDigits bits, ?_⟩
          simp only [List.forall_mem_cons, hexDigits, String.toList_ofList, List.forall_mem_append,
            List.forall_mem_map]
          refine ⟨by decide, by decide, fun c hc => ?_, ?_⟩
          · rw [List.eq_of_mem_replicate hc]
            decide
          · exact Number.forall_toDigits (by norm_num) (by norm_num) (by decide)
  | frame offset =>
      obtain ⟨sign, hsign, htext, -⟩ := toList_text_frame offset
      rw [htext]
      refine hbracket ?_
      simp only [List.forall_mem_cons]
      refine ⟨by decide, by decide, by decide, by decide, ?_, by decide, hten _⟩
      rcases hsign with rfl | rfl <;> decide
  | global name =>
      have htext : (Operand.global name).text.toList = '[' :: name.toList ++ [']'] := by
        simp [text]
      rw [htext]
      exact hbracket hnamed.isInert
  | label name => exact ⟨hnamed.isTrimmed, hnamed.isInert⟩

/-- The remark of a line with the blanks in front of it. -/
def remarkText (remark : Option String) : String :=
  match remark with
  | some remark => "    ; " ++ remark
  | none => ""

/-- A line of an instruction: its name, its operand and its remark. -/
theorem toList_line (m a : String) (remark : Option String) :
    (Code.line m a remark).toList
      = '\t' :: m.toList ++ (if a.toList = [] then [] else ' ' :: a.toList)
        ++ (remarkText remark).toList := by
  have hempty : a.isEmpty = true ↔ a.toList = [] := by simp
  unfold Code.line remarkText
  by_cases ha : a.toList = []
  · cases remark <;> simp [hempty.2 ha, ha]
  · have hne : a.isEmpty = false := by simpa using hempty.not.2 ha
    cases remark <;> simp [hne, ha]

namespace Line

/-- The names of a line are made names, and its remark is no more than one line. -/
def IsWell : Line → Prop
  | label name | entry name | cell name => IsMadeName name
  | instr op a remark => op.mnemonic? ≠ none ∧ a.IsNamed ∧
      ∀ text, remark = some text → IsOneLine text.toList

/-- No offset of the line is beyond the numbers that the assembler reads. -/
def InRange : Line → Prop
  | instr _ a _ => a.InRange
  | _ => True

/-- The line is read as what it was written for: a label alone, an instruction with its operand, or
a labelled reservation of one cell. -/
def IsRead (l : Line) : Prop :=
  match l with
  | label name | entry name =>
    SourceLine.parse l.text.toList = .ok ⟨some name.toList, none, none⟩
  | instr op a _ => ∃ i m operand, op.instruction? = some i ∧
      SourceLine.parse l.text.toList = .ok ⟨none, some m, operand⟩ ∧
      Mnemonic.parse? m = some (.instruction i) ∧
      match operand with
      | none => a = .none
      | some text => ∀ scope, ∃ o, Assembly.Operand.parse scope text = .ok o ∧ a.IsReadAs o
  | cell name => ∃ m text,
      SourceLine.parse l.text.toList = .ok ⟨some name.toList, some m, some text⟩ ∧
      Mnemonic.parse? m = some (.directive (.reserve .word)) ∧
      ∀ scope, Assembly.Operand.parse scope text = .ok (.number ⟨1, none⟩)

variable {l : Line}

theorem isOneLine_of_isWell (h : l.IsWell) : IsOneLine l.text.toList := by
  have hname : ∀ {name rest : String}, IsMadeName name → IsOneLine rest.toList →
      IsOneLine (name ++ rest).toList := by
    intro name rest hname hrest
    rw [String.toList_append, IsOneLine, List.forall_mem_append]
    exact ⟨isOneLine_of_isInert hname.isInert, hrest⟩
  cases l with
  | label name => exact hname h (by simp [IsOneLine])
  | entry name => exact hname h (by simp [IsOneLine])
  | cell name => exact hname h (by simp [IsOneLine])
  | instr op a remark =>
      obtain ⟨hop, hnamed, hremark⟩ := h
      obtain ⟨m, hm⟩ := Option.ne_none_iff_exists'.1 hop
      obtain ⟨-, hmade⟩ := isMadeChar_of_isName (Op.parse?_mnemonic hm).1
      rw [text, hm, Option.getD_some, toList_line]
      simp only [IsOneLine, List.forall_mem_append, List.forall_mem_cons]
      refine ⟨⟨⟨by decide, isOneLine_of_isInert fun c hc => isInert_of_isMadeChar (hmade c hc)⟩,
        ?_⟩, ?_⟩
      · by_cases ha : a = .none
        · subst ha
          simp [Operand.text]
        · obtain ⟨-, hinert⟩ := Operand.isTrimmed_text ha hnamed
          split
          · simp
          · rw [List.forall_mem_cons]
            exact ⟨by decide, isOneLine_of_isInert hinert⟩
      · cases remark with
        | none => simp [remarkText]
        | some remark =>
            simp only [remarkText, String.toList_append, List.forall_mem_append]
            exact ⟨by simp, hremark remark rfl⟩

/-- In front of a remark there are blanks only. -/
theorem stripComment_remarkText (remark : Option String) :
    ∀ b ∈ stripComment (remarkText remark).toList, b = ' ' := by
  cases remark with
  | none => simp [remarkText, stripComment, stripCommentFrom]
  | some remark =>
      have hcut : stripComment (remarkText (some remark)).toList = [' ', ' ', ' ', ' '] := by
        simp [remarkText, stripComment, stripCommentFrom, Quoting.next]
      simp [hcut]

/-- The line of an instruction has its name and its operand as its parts. -/
theorem parse_instr {op : Op} {a : Operand} {remark : Option String}
    (h : (instr op a remark).IsWell) : ∃ i m, op.instruction? = some i ∧
      Mnemonic.parse? m = some (.instruction i) ∧
      SourceLine.parse (instr op a remark).text.toList
        = .ok ⟨none, some m, if a = .none then none else some a.text.toList⟩ := by
  obtain ⟨hop, hnamed, -⟩ := h
  obtain ⟨m, hm⟩ := Option.ne_none_iff_exists'.1 hop
  obtain ⟨hname, i, hi, hparse⟩ := Op.parse?_mnemonic hm
  have hrest := stripComment_remarkText remark
  refine ⟨i, m.toList, hi, hparse, ?_⟩
  rw [text, hm, Option.getD_some, toList_line]
  by_cases ha : a = .none
  · subst ha
    exact parse_code hname (.inl rfl) (by simp [Operand.text]) hrest
  · obtain ⟨htrimmed, hinert⟩ := Operand.isTrimmed_text ha hnamed
    have hne : a.text.toList ≠ [] := by
      obtain ⟨c, cs, heq, -⟩ := htrimmed.start
      simp [heq]
    rw [parse_code hname (.inr htrimmed) hinert hrest, if_neg hne, if_neg ha]

/-- The line of a name has it as its label. -/
theorem parse_label {name : String} (h : IsMadeName name) :
    SourceLine.parse (name ++ ":").toList = .ok ⟨some name.toList, none, none⟩ := by
  rw [String.toList_append]
  exact (h.parse_labelled [] (by decide)).trans rfl

/-- The line of a cell has its name as its label, and reserves one cell. -/
theorem parse_cell {name : String} (h : IsMadeName name) :
    SourceLine.parse (cell name).text.toList
      = .ok ⟨some name.toList, some "RESD".toList, some "1".toList⟩ := by
  rw [text, String.toList_append]
  exact (h.parse_labelled " RESD 1".toList (by decide)).trans rfl

/-- **Lines are read as they are written.** -/
theorem isRead_of_isWell (h : l.IsWell) (hrange : l.InRange) : l.IsRead := by
  cases l with
  | label name => exact parse_label h
  | entry name => exact parse_label h
  | instr op a remark =>
      obtain ⟨i, m, hi, hparse, hparts⟩ := parse_instr h
      by_cases ha : a = .none
      · exact ⟨i, m, none, hi, hparts.trans (by rw [if_pos ha]), hparse, ha⟩
      · exact ⟨i, m, some a.text.toList, hi, hparts.trans (by rw [if_neg ha]), hparse,
          Operand.isReadAs_parse ha h.2.1 hrange⟩
  | cell name =>
      exact ⟨"RESD".toList, "1".toList, parse_cell h, by decide,
        fun scope => Operand.parse_int 1 (by decide) scope⟩

end Line

end StackLang
