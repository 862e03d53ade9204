/-
**Data are read as they are written.**

A string is written in quotes, with a backslash before what would end it or the line.  Written so,
it is one literal to the scanner that cuts off comments and splits operands, and its inside stands
for the string again.  So a line that puts data into an image gets each of them through all the cuts
that are made in it: the comment, the label, the name of the directive, the commas and the quotes.

Main definitions:

* `escape` — a character as it is written inside of quotes;
* `Datum`, `Datum.written`, `Datum.bytes` — a string or a small number, how it is written, and the
  bytes that it is;
* `IsCode`, `IsPart` — a text that the scanner goes through, and one that it cuts nowhere;
* `DataLine`, `DataLine.text` — what stands in a line besides its data, and the line with them.

Main results:

* `splitOperands_join` — written data are split where they were joined;
* `Datum.bytes_of_parse` — a written datum is read as its bytes;
* `DataLine.parse_text` — the parts of a line with data;
* `assembleLine_data` — **a line puts in the bytes of its data**.
-/

import StackLang.Proofs.Assembly.Quoting
import StackLang.Proofs.Text.Reading

set_option relaxedAutoImplicit false
set_option autoImplicit false

namespace StackLang

namespace Assembly

open Quoting Text

/-! ### Characters -/

section Characters

variable {c : Char}

/-- The code points of the blanks. -/
def blankCodes : List Nat :=
  List.range' 9 5 ++ [32, 0x85, 0xA0, 0x1680] ++ List.range' 0x2000 11
    ++ [0x2028, 0x2029, 0x202F, 0x205F, 0x3000]

theorem toNat_of_isBlank (h : isBlank c = true) : c.toNat ∈ blankCodes := by
  simp only [isBlank, Bool.or_eq_true, Bool.and_eq_true, decide_eq_true_eq] at h
  simp only [blankCodes, List.mem_append, List.mem_range'_1, List.mem_cons, List.not_mem_nil,
    or_false]
  omega

/-- What holds of the twenty-five blanks holds of every blank. -/
theorem forall_isBlank {P : Char → Prop} (h : ∀ n ∈ blankCodes, P (Char.ofNat n))
    (hc : isBlank c = true) : P c := by
  have := h _ (toNat_of_isBlank hc)
  rwa [Char.ofNat_toNat] at this

/-- A blank is no part of a label. -/
theorem isLabelPart_of_isBlank (h : isBlank c = true) : isLabelPart c = false :=
  forall_isBlank (P := fun c => isLabelPart c = false) (by decide +kernel) h

theorem isLabelPart_of_isLabelStart (h : isLabelStart c = true) : isLabelPart c = true := by
  simp only [isLabelStart, Bool.or_eq_true, decide_eq_true_eq] at h
  rcases h with (h | rfl) | rfl
  · simp [isLabelPart, isWord, Char.isAlphanum, h]
  · decide
  · decide

theorem isBlank_of_isLabelPart (h : isLabelPart c = true) : isBlank c = false := by
  rw [← Bool.not_eq_true]
  intro hblank
  rw [isLabelPart_of_isBlank hblank] at h
  cases h

/-- A character that neither starts a quote nor ends the code of a line. -/
def IsPlain (c : Char) : Prop := ¬ IsQuote c ∧ c ≠ ';'

instance (c : Char) : Decidable (IsPlain c) := inferInstanceAs (Decidable (_ ∧ _))

theorem isPlain_of_isBlank (h : isBlank c = true) : IsPlain c :=
  forall_isBlank (P := IsPlain) (by decide) h

theorem isPlain_of_isLabelPart (h : isLabelPart c = true) : IsPlain c := by
  refine ⟨?_, ?_⟩
  · rintro (rfl | rfl) <;> revert h <;> decide
  · rintro rfl
    revert h
    decide

end Characters

/-! ### Written data -/

/-- A character as it is written inside of quotes. -/
def escape (c : Char) : List Char :=
  match escapes.find? (·.2 = c) with
  | some (e, _) => ['\\', e]
  | none => [c]

theorem escape_cases (c : Char) :
    (∃ e, (e, c) ∈ escapes ∧ escape c = ['\\', e]) ∨
      ((∀ p ∈ escapes, p.2 ≠ c) ∧ escape c = [c]) := by
  unfold escape
  split
  · case h_1 e d hfind =>
    obtain rfl : d = c := by simpa using List.find?_some hfind
    exact .inl ⟨e, List.mem_of_find?_eq_some hfind, rfl⟩
  · case h_2 hfind => exact .inr ⟨by simpa using hfind, rfl⟩

/-- A written character stands for itself, and shows no quote. -/
theorem spells_escape (c : Char) : Spells (escape c) [c] ∧ ¬ HasBare '"' (escape c) := by
  rcases escape_cases c with ⟨e, he, hescape⟩ | ⟨hnone, hescape⟩
  · refine ⟨hescape ▸ .escape he .nil, ?_⟩
    rw [hescape]
    have hall : ∀ p ∈ escapes, ¬ HasBare '"' ['\\', p.1] := by decide
    exact hall _ he
  · have hbackslash : c ≠ '\\' := (hnone ('\\', '\\') (by decide)).symm
    have hquote : c ≠ '"' := (hnone ('"', '"') (by decide)).symm
    refine ⟨hescape ▸ .plain hbackslash .nil, ?_⟩
    rw [hescape, hasBare_iff]
    simp [hquote]

/-- **A written text stands for itself**, and shows no quote. -/
theorem spells_flatMap_escape (cs : List Char) :
    Spells (cs.flatMap escape) cs ∧ ¬ HasBare '"' (cs.flatMap escape) := by
  induction cs with
  | nil => exact ⟨.nil, by simp [HasBare]⟩
  | cons c cs ih =>
      obtain ⟨hspells, hbare⟩ := spells_escape c
      refine ⟨hspells.append ih.1, fun h => ?_⟩
      rcases HasBare.of_append hspells.not_isEscapedBehind h with h | h
      · exact hbare h
      · exact ih.2 h

/-- What a data directive is given: a string, or a number that fits in one byte with a sign or
without one. -/
inductive Datum where
  | text (s : String)
  | number (n : Int) (least : -128 ≤ n) (greatest : n ≤ 255)

namespace Datum

/-- The datum as it is written: a string in quotes, a number in base ten. -/
def written : Datum → List Char
  | text s => '"' :: s.toList.flatMap escape ++ ['"']
  | number n _ _ => (toString n).toList

/-- **The bytes that a datum is**: a string is in UTF-8, and a negative number is in two's
complement. -/
def bytes : Datum → List UInt8
  | text s => s.toUTF8.data.toList
  | number n _ _ => [UInt8.ofNat (if n < 0 then n + 256 else n).toNat]

end Datum

/-- A text with only code in it: it ends outside of quotes and shows no semicolon there. -/
structure IsCode (text : List Char) : Prop where
  stop : outside.run text = outside
  shuns : Shuns ';' outside text

theorem IsCode.append {cs ds : List Char} (hcs : IsCode cs) (hds : IsCode ds) :
    IsCode (cs ++ ds) where
  stop := by rw [run_append, hcs.stop, hds.stop]
  shuns := hcs.shuns.append (hcs.stop.symm ▸ hds.shuns)

theorem isCode_of_isPlain {text : List Char} (h : ∀ c ∈ text, IsPlain c) : IsCode text where
  stop := run_outside fun c hc => (h c hc).1
  shuns := shuns_of_notMem fun hc => (h _ hc).2 rfl

/-- A text that keeps to itself among the operands of a line: it is code, shows no comma, and has no
blanks around it. -/
structure IsPart (text : List Char) : Prop where
  isCode : IsCode text
  shuns : Shuns ',' outside text
  isTrimmed : IsTrimmed text
  head_ne : text.head? ≠ some ':'

theorem IsLiteral.isPart {text : List Char} (h : IsLiteral text) (htrimmed : IsTrimmed text) :
    IsPart text where
  isCode := ⟨h.stop, h.shuns (by decide)⟩
  shuns := h.shuns (by decide)
  isTrimmed := htrimmed
  head_ne := by
    obtain ⟨q, hq, hquote⟩ := h.start
    rw [Option.mem_def.1 hq]
    rcases hquote with rfl | rfl <;> decide

theorem isPart_of_forall {text : List Char} (hne : text ≠ [])
    (h : ∀ c ∈ text, isBlank c = false ∧ IsPlain c ∧ c ≠ ',' ∧ c ≠ ':') : IsPart text where
  isCode := isCode_of_isPlain fun c hc => (h c hc).2.1
  shuns := shuns_of_notMem fun hc => (h _ hc).2.2.1 rfl
  isTrimmed := isTrimmed_of_forall hne fun c hc => (h c hc).1
  head_ne := fun hhead => (h ':' (List.mem_of_mem_head? hhead)).2.2.2 rfl

/-- **Written data keep to themselves.** -/
theorem Datum.isPart_written (d : Datum) : IsPart d.written := by
  cases d with
  | text s =>
      obtain ⟨hspells, hbare⟩ := spells_flatMap_escape s.toList
      refine ((isLiteral_iff (.inl rfl)).2 ⟨hbare, hspells.not_isEscapedBehind⟩).isPart ?_
      exact ⟨⟨'"', s.toList.flatMap escape ++ ['"'], rfl, by decide⟩,
        '"', '"' :: s.toList.flatMap escape, rfl, by decide⟩
  | number n least greatest =>
      have hdigits : ∀ c ∈ Nat.toDigits 10 n.natAbs,
          isBlank c = false ∧ IsPlain c ∧ c ≠ ',' ∧ c ≠ ':' :=
        Number.forall_toDigits_ten (by decide)
      rw [written, StackLang.Operand.toList_toString_int]
      split
      · refine isPart_of_forall nofun ?_
        rw [List.forall_mem_cons]
        exact ⟨by decide, hdigits⟩
      · exact isPart_of_forall Nat.toDigits_ne_nil hdigits

/-! ### Data in a row -/

/-- Texts with commas between them. -/
def join (texts : List (List Char)) : List Char := [','].intercalate texts

section Join

variable {texts : List (List Char)}

@[simp] theorem join_singleton (text : List Char) : join [text] = text := by simp [join]

theorem join_cons_cons (text text' : List Char) :
    join (text :: text' :: texts) = text ++ [','] ++ join (text' :: texts) :=
  List.intercalate_cons_cons

/-- Joined texts keep to themselves, but for the commas between them. -/
theorem isCode_join (hne : texts ≠ []) (h : ∀ text ∈ texts, IsPart text) :
    IsCode (join texts) ∧ IsTrimmed (join texts) ∧ (join texts).head? ≠ some ':' := by
  induction texts with
  | nil => exact absurd rfl hne
  | cons text texts ih =>
      rw [List.forall_mem_cons] at h
      obtain ⟨htext, htexts⟩ := h
      cases texts with
      | nil =>
          rw [join_singleton]
          exact ⟨htext.isCode, htext.isTrimmed, htext.head_ne⟩
      | cons text' texts =>
          obtain ⟨hcode, htrimmed, -⟩ := ih (List.cons_ne_nil _ _) htexts
          have hcomma : IsCode [','] := isCode_of_isPlain (List.forall_mem_singleton.2 (by decide))
          rw [join_cons_cons]
          refine ⟨(htext.isCode.append hcomma).append hcode, htext.isTrimmed.append htrimmed _, ?_⟩
          obtain ⟨c, cs, rfl, -⟩ := htext.isTrimmed.start
          exact htext.head_ne

/-- **Texts that keep to themselves are split where they were joined.** -/
theorem splitOperands_join (hne : texts ≠ []) (h : ∀ text ∈ texts, IsPart text) :
    splitOperands (join texts) = texts := by
  have hsplit : splitOperandsFrom outside (join texts) = texts := by
    induction texts with
    | nil => exact absurd rfl hne
    | cons text texts ih =>
        rw [List.forall_mem_cons] at h
        cases texts with
        | nil =>
            have := splitOperandsFrom_append h.1.shuns []
            rw [h.1.isCode.stop, List.append_nil] at this
            simp [this, splitOperandsFrom]
        | cons text' texts =>
            rw [join_cons_cons, List.append_assoc, splitOperandsFrom_append h.1.shuns,
              h.1.isCode.stop, List.singleton_append, splitOperandsFrom, if_pos ⟨rfl, rfl⟩,
              ih (List.cons_ne_nil _ _) h.2]
            simp
  rw [splitOperands, hsplit]
  conv_rhs => rw [← List.map_id texts]
  exact List.map_congr_left fun text htext => trim_of_isTrimmed (h text htext).isTrimmed

end Join

/-! ### What the data are read as -/

theorem utf8Encode_toList (s : String) :
    s.toList.flatMap String.utf8EncodeChar = s.toUTF8.data.toList := by
  have h : s.toList.utf8Encode = s.toUTF8 := String.utf8Encode_toList
  rw [← h, List.utf8Encode, List.data_toByteArray, List.toList_toArray]

/-- **A written datum is read as its bytes.** -/
theorem Datum.bytes_of_parse (d : Datum) (scope : Option String) :
    (Operand.parse scope d.written).bind (encodeDatum d.written) = .ok d.bytes := by
  have htrim : trim d.written = d.written := trim_of_isTrimmed d.isPart_written.isTrimmed
  cases d with
  | text s =>
      have hbody : unquoteBody (text s).written (s.toList.flatMap escape) = .ok s.toList :=
        unquoteBody_eq_ok_iff.2 (spells_flatMap_escape s.toList).1
      have hunquote : unquote '"' (text s).written (s.toList.flatMap escape ++ ['"'])
          = .ok (text s).bytes := by
        rw [unquote, if_pos List.getLast?_concat, List.dropLast_concat, hbody, bytes,
          ← utf8Encode_toList]
        rfl
      rw [Operand.parse, htrim]
      simp only [written, List.cons_append] at hunquote ⊢
      rw [hunquote]
      rfl
  | number n least greatest =>
      rw [written, StackLang.Operand.parse_int n (by omega)]
      have hrange : checkRange Width.byte.least Width.byte.greatest n = .ok () :=
        checkRange_eq_ok_iff.2 ⟨least, greatest⟩
      have hbyte : n % 256 = if n < 0 then n + 256 else n := by
        split <;> omega
      simp only [Except.bind, encodeDatum, encodeDatum.encodeByte, hrange, littleEndian, hbyte]
      rfl

/-- **Written data are read as their bytes**, one after the other. -/
theorem encodeData_written (scope : Option String) (items : List Datum) :
    encodeData scope (items.map Datum.written) = (items.flatMap Datum.bytes, none) := by
  induction items with
  | nil => rfl
  | cons d items ih =>
      rw [List.map_cons, encodeData, d.bytes_of_parse scope]
      simp only [ih, List.flatMap_cons]

/-! ### Lines with data -/

/-- Some blanks, or none. -/
def Blanks : Type := {bs : List Char // ∀ b ∈ bs, isBlank b = true}

/-- A label with the blanks around its colon. -/
structure LabelText where
  name : List Char
  isLabel : isLabel name = true
  before : Blanks
  after : Blanks

/-- What stands in a line besides its data. -/
structure DataLine where
  indent : Blanks
  label : Option LabelText
  /-- The blanks behind the name of the directive. -/
  gap : Blanks
  gap_ne : gap.1 ≠ []
  pad : Blanks
  /-- What stands behind a semicolon. -/
  comment : Option (List Char)

namespace LabelText

variable (l : LabelText)

/-- The label with its colon. -/
def text : List Char := l.name ++ l.before.1 ++ ':' :: l.after.1

theorem exists_cons : ∃ c cs, l.name = c :: cs ∧ isLabelStart c = true ∧
    ∀ d ∈ cs, isLabelPart d = true := by
  have h := l.isLabel
  cases hname : l.name with
  | nil =>
      rw [hname] at h
      cases h
  | cons c cs =>
      rw [hname, Assembly.isLabel, Bool.and_eq_true, List.all_eq_true] at h
      exact ⟨c, cs, rfl, h.1, h.2⟩

theorem isCode_text : IsCode l.text := by
  obtain ⟨c, cs, hname, hc, hcs⟩ := l.exists_cons
  refine isCode_of_isPlain fun d hd => ?_
  rw [text, hname, List.mem_append, List.mem_append, List.mem_cons, List.mem_cons] at hd
  rcases hd with ((rfl | hd) | hd) | rfl | hd
  · exact isPlain_of_isLabelPart (isLabelPart_of_isLabelStart hc)
  · exact isPlain_of_isLabelPart (hcs d hd)
  · exact isPlain_of_isBlank (l.before.2 d hd)
  · decide
  · exact isPlain_of_isBlank (l.after.2 d hd)

end LabelText

/-- Label parts end at a blank, and at a colon. -/
theorem span_isLabelPart {cs bs rest : List Char} (hcs : ∀ c ∈ cs, isLabelPart c = true)
    (hbs : ∀ b ∈ bs, isBlank b = true) (hrest : bs ≠ [] ∨ rest.head? = some ':') :
    (cs ++ (bs ++ rest)).takeWhile isLabelPart = cs ∧
      (cs ++ (bs ++ rest)).dropWhile isLabelPart = bs ++ rest := by
  obtain ⟨c, ds, hhead, hc⟩ : ∃ c ds, bs ++ rest = c :: ds ∧ isLabelPart c = false := by
    cases bs with
    | nil =>
        obtain ⟨ds, rfl⟩ := List.head?_eq_some_iff.1 (hrest.resolve_left fun h => h rfl)
        exact ⟨':', ds, rfl, by decide⟩
    | cons b bs => exact ⟨b, bs ++ rest, rfl, isLabelPart_of_isBlank (hbs b List.mem_cons_self)⟩
  rw [hhead, List.takeWhile_append_of_pos hcs, List.dropWhile_append_of_pos hcs,
    List.takeWhile_cons_of_neg (by simp [hc]), List.dropWhile_cons_of_neg (by simp [hc])]
  exact ⟨List.append_nil _, rfl⟩

/-- A text that starts with label parts and blanks has a label where a colon is behind them. -/
theorem splitLabel?_append (indent : Blanks) {c : Char} {cs : List Char}
    (hc : isLabelStart c = true) (hcs : ∀ d ∈ cs, isLabelPart d = true) (bs : Blanks)
    {rest : List Char} (hrest : bs.1 ≠ [] ∨ rest.head? = some ':') :
    (∀ rest', trimStart rest = ':' :: rest' →
        splitLabel? (indent.1 ++ (c :: cs ++ (bs.1 ++ rest))) = some (c :: cs, rest')) ∧
      ((trimStart rest).head? ≠ some ':' →
        splitLabel? (indent.1 ++ (c :: cs ++ (bs.1 ++ rest))) = none) := by
  obtain ⟨htake, hdrop⟩ := span_isLabelPart hcs bs.2 hrest
  have hblank : isBlank c = false := isBlank_of_isLabelPart (isLabelPart_of_isLabelStart hc)
  rw [splitLabel?, trimStart_append indent.2, List.cons_append, trimStart_cons hblank]
  dsimp only
  rw [if_pos hc, htake, hdrop, trimStart_append bs.2]
  constructor
  · intro rest' hcolon
    simp only [hcolon]
  · intro hhead
    split
    · case h_1 hcolon => exact absurd (congrArg List.head? hcolon) hhead
    · rfl

namespace DataLine

variable (l : DataLine) (items : List Datum)

/-- The name of the label of the line, if it has one. -/
def name? : Option (List Char) := l.label.map LabelText.name

/-- The name of the directive is one word. -/
theorem forall_directive : ∀ c ∈ ['D', 'B'], isBlank c = false ∧ IsPlain c := by
  simp only [List.forall_mem_cons, List.not_mem_nil, IsEmpty.forall_iff, implies_true, and_true]
  decide

/-- The directive of the line with its data. -/
def directive : List Char := ['D', 'B'] ++ (l.gap.1 ++ join (items.map Datum.written))

/-- The line without its comment. -/
def code : List Char :=
  l.indent.1 ++ (l.label.elim [] LabelText.text ++ (l.directive items ++ l.pad.1))

/-- **The line with the data `items`.** -/
def text : List Char := l.code items ++ l.comment.elim [] (';' :: ·)

variable {items}

theorem isCode_join_written (h : items ≠ []) :
    IsCode (join (items.map Datum.written)) ∧ IsTrimmed (join (items.map Datum.written)) ∧
      (join (items.map Datum.written)).head? ≠ some ':' :=
  isCode_join (by simpa using h) (by simpa using fun d _ => d.isPart_written)

theorem isCode_blanks (bs : Blanks) : IsCode bs.1 :=
  isCode_of_isPlain fun b hb => isPlain_of_isBlank (bs.2 b hb)

/-- The comment, and nothing else, is cut off. -/
theorem stripComment_text (h : items ≠ []) : stripComment (l.text items) = l.code items := by
  have hlabel : IsCode (l.label.elim [] LabelText.text) := by
    cases l.label with
    | none => exact isCode_of_isPlain nofun
    | some label => exact label.isCode_text
  have hdirective : IsCode (l.directive items) :=
    (isCode_of_isPlain fun c hc => (forall_directive c hc).2).append
      ((isCode_blanks l.gap).append (isCode_join_written h).1)
  have hcode : IsCode (l.code items) :=
    (isCode_blanks l.indent).append (hlabel.append (hdirective.append (isCode_blanks l.pad)))
  have hcomment : stripCommentFrom outside (l.comment.elim [] (';' :: ·)) = [] := by
    cases l.comment <;> simp [stripCommentFrom]
  rw [stripComment, text, stripCommentFrom_append hcode.shuns, hcode.stop, hcomment,
    List.append_nil]

/-- The label of the line is cut off, and nothing where the line has none. -/
theorem splitLabel?_code (h : items ≠ []) :
    splitLabel? (l.code items)
      = l.label.map fun label =>
          (label.name, label.after.1 ++ (l.directive items ++ l.pad.1)) := by
  cases hlabel : l.label with
  | some label =>
      obtain ⟨c, cs, hname, hc, hcs⟩ := label.exists_cons
      have hcode : l.code items = l.indent.1 ++ (c :: cs ++ (label.before.1
          ++ ':' :: (label.after.1 ++ (l.directive items ++ l.pad.1)))) := by
        simp [code, hlabel, LabelText.text, hname]
      rw [hcode, Option.map_some, hname]
      exact (splitLabel?_append l.indent hc hcs label.before (.inr rfl)).1 _
        (trimStart_cons (by decide) _)
  | none =>
      obtain ⟨-, htrimmed, hhead⟩ := isCode_join_written h
      obtain ⟨c, cs, hjoin, hc⟩ := htrimmed.start
      have hcode : l.code items = l.indent.1 ++ ('D' :: ['B'] ++ (l.gap.1
          ++ (join (items.map Datum.written) ++ l.pad.1))) := by
        simp [code, hlabel, directive]
      rw [hcode]
      refine (splitLabel?_append l.indent (by decide) (List.forall_mem_singleton.2 (by decide))
        l.gap (.inl l.gap_ne)).2 ?_
      rw [hjoin] at hhead ⊢
      rwa [List.cons_append, trimStart_cons hc]

/-- Behind the label, the line is the name of the directive and its data. -/
theorem parseRest_directive (h : items ≠ []) (label : Option (List Char)) (before : Blanks) :
    SourceLine.parseRest label (before.1 ++ (l.directive items ++ l.pad.1))
      = .ok ⟨label, some ['D', 'B'], some (join (items.map Datum.written))⟩ := by
  obtain ⟨-, htrimmed, -⟩ := isCode_join_written h
  have hname : IsTrimmed ['D', 'B'] :=
    isTrimmed_of_forall nofun fun c hc => (forall_directive c hc).1
  have htrim : trim (before.1 ++ (l.directive items ++ l.pad.1)) = l.directive items := by
    rw [← List.append_assoc]
    refine trim_padded before.1 l.pad.1 before.2 ?_ l.pad.2
    rw [directive, ← List.append_assoc]
    exact hname.append htrimmed l.gap.1
  have htrim' : trim (l.gap.1 ++ join (items.map Datum.written))
      = join (items.map Datum.written) := by
    simpa using trim_padded l.gap.1 [] l.gap.2 htrimmed nofun
  have hne : join (items.map Datum.written) ≠ [] := by
    obtain ⟨c, cs, hjoin, -⟩ := htrimmed.start
    exact hjoin ▸ List.cons_ne_nil c cs
  obtain ⟨b, bs, hgap, hb⟩ : ∃ b bs, l.gap.1 ++ join (items.map Datum.written) = b :: bs ∧
      isBlank b = true := by
    obtain ⟨b, bs, hgap⟩ := List.exists_cons_of_ne_nil l.gap_ne
    exact ⟨b, _, by rw [hgap, List.cons_append], l.gap.2 b (hgap ▸ List.mem_cons_self)⟩
  have hnonblank : ∀ c ∈ ['D', 'B'], (!isBlank c) = true :=
    fun c hc => by rw [(forall_directive c hc).1, Bool.not_false]
  have htake : (l.directive items).takeWhile (fun c => !isBlank c) = ['D', 'B'] := by
    rw [directive, List.takeWhile_append_of_pos hnonblank, hgap,
      List.takeWhile_cons_of_neg (by simp [hb]), List.append_nil]
  have hdrop : (l.directive items).dropWhile (fun c => !isBlank c)
      = l.gap.1 ++ join (items.map Datum.written) := by
    rw [directive, List.dropWhile_append_of_pos hnonblank, hgap,
      List.dropWhile_cons_of_neg (by simp [hb])]
  unfold SourceLine.parseRest
  rw [htrim]
  split
  · case h_1 hnil => simp [directive] at hnil
  · rw [htake, hdrop, htrim', if_pos (by decide), if_neg hne]

/-- **The parts of a line with data** are its label, the name of the directive, and the data. -/
theorem parse_text (h : items ≠ []) :
    SourceLine.parse (l.text items)
      = .ok ⟨l.name?, some ['D', 'B'], some (join (items.map Datum.written))⟩ := by
  rw [SourceLine.parse, l.stripComment_text h, l.splitLabel?_code h, name?]
  cases hlabel : l.label with
  | some label => exact l.parseRest_directive h (some label.name) label.after
  | none =>
      simp only [Option.map_none, code, hlabel, Option.elim_none, List.nil_append]
      exact l.parseRest_directive h none l.indent

end DataLine

/-! ### Assemblers -/

/-- **A line puts in the bytes of its data**, and nothing besides them but its label: whatever
blanks and whatever comment stand around them, and whatever characters are in them. -/
theorem assembleLine_data (a : Assembler) (number : Nat) (l : DataLine) (items : List Datum)
    (hitems : items ≠ [])
    (hlabel : ∀ name ∈ l.name?, (qualify a.scope name).toUpper ∉ a.defined) :
    a.assembleLine number (l.text items) =
      ({ origin := a.origin
         items := a.items ++ ((l.name?.map fun name => Item.label (qualify a.scope name)).toList
           ++ [Item.bytes (items.flatMap Datum.bytes)])
         defined := (l.name?.map fun name => (qualify a.scope name).toUpper).toList ++ a.defined
         scope := Row.scopeAfter a.scope l.name? }, none) := by
  have hdefine : a.defineLabel? l.name? =
      ({ origin := a.origin
         items := a.items ++ (l.name?.map fun name => Item.label (qualify a.scope name)).toList
         defined := (l.name?.map fun name => (qualify a.scope name).toUpper).toList ++ a.defined
         scope := Row.scopeAfter a.scope l.name? }, none) := by
    cases hname : l.name? with
    | none => simp [Assembler.defineLabel?, Row.scopeAfter]
    | some name =>
        have hfresh := hlabel name hname
        by_cases hdot : name.head? = some '.'
        all_goals
          simp [Assembler.defineLabel?, Assembler.defineLabel, Assembler.push, Row.scopeAfter,
            hdot, hfresh]
  have hsplit : splitOperands (join (items.map Datum.written)) = items.map Datum.written :=
    splitOperands_join (by simpa using hitems) (by simpa using fun d _ => d.isPart_written)
  have hmnemonic : Mnemonic.parse? ['D', 'B'] = some (.directive .data) := by decide
  rw [Assembler.assembleLine, l.parse_text hitems]
  simp only [Assembler.assembleParts, hdefine, hmnemonic, Assembler.assembleMnemonic, hsplit,
    encodeData_written, Assembler.push, Option.map_none]
  congr 2
  exact Array.ext' (by simp)

/-- A line with a label, blanks and a comment, whose string has every character that is escaped and
those that are cut at elsewhere. -/
theorem assembleLine_data_escaped :
    (Assembler.empty 0).assembleLine 7
        " x\t: DB  \"\\\\\\\"\\'\\n\\t\\r\\0 ,;:é\",-128,255,\"\"; \"".toList =
      (⟨0, #[.label "x", .bytes [0x5C, 0x22, 0x27, 0x0A, 0x09, 0x0D, 0x00, 0x20, 0x2C, 0x3B, 0x3A,
        0xC3, 0xA9, 0x80, 0xFF]], ["X"], some "x"⟩, none) := by
  let l : DataLine :=
    { indent := ⟨[' '], by simp [isBlank]⟩
      label := some ⟨['x'], by decide, ⟨['\t'], by simp [isBlank]⟩, ⟨[' '], by simp [isBlank]⟩⟩
      gap := ⟨[' ', ' '], by simp [isBlank]⟩
      gap_ne := List.cons_ne_nil _ _
      pad := ⟨[], List.forall_mem_nil _⟩
      comment := some [' ', '"'] }
  let items : List Datum := [.text "\\\"'\n\t\r\x00 ,;:é", .number (-128) (by decide) (by decide),
    .number 255 (by decide) (by decide), .text ""]
  have htext : " x\t: DB  \"\\\\\\\"\\'\\n\\t\\r\\0 ,;:é\",-128,255,\"\"; \"".toList
      = l.text items := by decide +kernel
  have hbytes : items.flatMap Datum.bytes = [0x5C, 0x22, 0x27, 0x0A, 0x09, 0x0D, 0x00, 0x20, 0x2C,
      0x3B, 0x3A, 0xC3, 0xA9, 0x80, 0xFF] := by decide +kernel
  have hname : qualify none ['x'] = "x" := by decide +kernel
  have hupper : "x".toUpper = "X" := by decide +kernel
  have hline := assembleLine_data (Assembler.empty 0) 7 l items (List.cons_ne_nil _ _)
    (by simp [Assembler.empty])
  rw [htext, hline, hbytes]
  simp [l, DataLine.name?, Assembler.empty, Row.scopeAfter, hname, hupper]

end Assembly

end StackLang
