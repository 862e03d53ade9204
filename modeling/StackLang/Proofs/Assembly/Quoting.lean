/-
**Where a quoted text ends.**

Comments and operands are cut off outside of quotes.  The scanner that tells where that is goes from
character to character: a literal ends at the first quote of its kind that is not escaped, and a
quote is escaped if an odd number of backslashes stands before it.  An operand, however, is taken
out of its quotes by its two ends: whatever stands between the first character and the last is its
inside, and a quote there stands for itself.  So the two agree on an operand exactly if no quote of
its kind stands bare inside; `"a" "b"` is one operand and two literals.

Main definitions:

* `Quoting.run`, `Quoting.Shuns` — where a text leads, and what it does not show outside of quotes;
* `IsEscapedBehind`, `HasBare` — a character that backslashes take along, and one that none does;
* `IsLiteral` — the scanner sees one literal;
* `Spells` — the inside of a quoted operand stands for some characters;
* `SourceLine.operands` — the operands that a line is read for.

Main results:

* `stripCommentFrom_append`, `splitOperandsFrom_append` — what is cut behind a text;
* `isLiteral_iff` — **the scanner sees one literal** where no quote stands bare;
* `unquoteBody_eq_ok_iff` — the insides that are taken, and what they stand for;
* `quotes_of_assembleLine` — the quoted operands of a line that is taken.
-/

import StackLang.Proofs.Assembly.Decode

set_option relaxedAutoImplicit false
set_option autoImplicit false

namespace StackLang

namespace Assembly

/-! ### The scanner -/

namespace Quoting

/-- Where the place after some characters stands. -/
def run (s : Quoting) (cs : List Char) : Quoting := cs.foldl next s

variable {s : Quoting} {c d q : Char} {cs ds : List Char}

@[simp] theorem run_nil : s.run [] = s := rfl

@[simp] theorem run_cons : s.run (c :: cs) = (s.next c).run cs := rfl

@[simp] theorem run_append : s.run (cs ++ ds) = (s.run cs).run ds := List.foldl_append

/-- The two characters that quotes are made of. -/
def IsQuote (q : Char) : Prop := q = '"' ∨ q = '\''

instance (q : Char) : Decidable (IsQuote q) := inferInstanceAs (Decidable (_ ∨ _))

theorem IsQuote.ne_backslash (hq : IsQuote q) : q ≠ '\\' := by
  rcases hq with rfl | rfl <;> decide

@[simp] theorem next_outside_of_isQuote (hq : IsQuote q) : outside.next q = inside q := if_pos hq

theorem next_outside (hc : ¬ IsQuote c) : outside.next c = outside := if_neg hc

/-- Without quotes a text leads nowhere. -/
theorem run_outside (h : ∀ c ∈ cs, ¬ IsQuote c) : outside.run cs = outside := by
  induction cs with
  | nil => rfl
  | cons c cs ih =>
      rw [List.forall_mem_cons] at h
      rw [run_cons, next_outside h.1, ih h.2]

/-- The character `c` does not stand outside of quotes. -/
def Shuns (c : Char) (s : Quoting) (cs : List Char) : Prop :=
  ∀ before after, cs = before ++ c :: after → s.run before ≠ outside

theorem shuns_cons : Shuns c s (d :: ds) ↔ ¬ (s = outside ∧ d = c) ∧ Shuns c (s.next d) ds := by
  constructor
  · intro h
    refine ⟨?_, fun before after hds => h (d :: before) after (by rw [hds, List.cons_append])⟩
    rintro ⟨rfl, rfl⟩
    exact h [] ds rfl rfl
  · rintro ⟨hd, h⟩ before after hds
    cases before with
    | nil =>
        obtain ⟨rfl, -⟩ := List.cons.inj hds
        exact fun hs => hd ⟨hs, rfl⟩
    | cons e before =>
        obtain ⟨rfl, rfl⟩ := List.cons.inj hds
        exact h before after rfl

theorem Shuns.append (h : Shuns c s cs) (h' : Shuns c (s.run cs) ds) : Shuns c s (cs ++ ds) := by
  induction cs generalizing s with
  | nil => exact h'
  | cons d cs ih =>
      rw [shuns_cons] at h
      rw [List.cons_append, shuns_cons]
      exact ⟨h.1, ih h.2 h'⟩

theorem shuns_of_notMem (h : c ∉ cs) : Shuns c s cs := by
  rintro before after rfl
  simp at h

end Quoting

open Quoting

/-- **A comment starts behind a text** that shows no semicolon. -/
theorem stripCommentFrom_append {s : Quoting} {cs : List Char} (h : Shuns ';' s cs)
    (rest : List Char) :
    stripCommentFrom s (cs ++ rest) = cs ++ stripCommentFrom (s.run cs) rest := by
  induction cs generalizing s with
  | nil => rfl
  | cons c cs ih =>
      rw [shuns_cons] at h
      rw [List.cons_append, stripCommentFrom, if_neg h.1, ih h.2, run_cons, List.cons_append]

/-- **A list of operands is split behind a text** that shows no comma. -/
theorem splitOperandsFrom_append {s : Quoting} {cs : List Char} (h : Shuns ',' s cs)
    (rest : List Char) :
    splitOperandsFrom s (cs ++ rest)
      = (splitOperandsFrom (s.run cs) rest).modifyHead (cs ++ ·) := by
  induction cs generalizing s with
  | nil =>
      rw [List.nil_append, run_nil]
      cases splitOperandsFrom s rest <;> rfl
  | cons c cs ih =>
      rw [shuns_cons] at h
      rw [List.cons_append, splitOperandsFrom, if_neg h.1, ih h.2, run_cons]
      cases hparts : splitOperandsFrom ((s.next c).run cs) rest with
      | nil => exact absurd hparts (splitOperandsFrom_ne_nil _ _)
      | cons part parts => rfl

/-! ### Bare characters -/

/-- What stands behind `before` is escaped: an odd number of backslashes stands right before it. -/
def IsEscapedBehind (before : List Char) : Prop := Odd (before.rtakeWhile (· = '\\')).length

instance (before : List Char) : Decidable (IsEscapedBehind before) :=
  inferInstanceAs (Decidable (Odd _))

/-- The character `q` stands somewhere in a text where it is not escaped. -/
def HasBare (q : Char) (cs : List Char) : Prop :=
  ∃ before after, cs = before ++ q :: after ∧ ¬ IsEscapedBehind before

section Bare

variable {q c : Char} {cs ds : List Char}

theorem isEscapedBehind_concat :
    IsEscapedBehind (cs ++ [c]) ↔ c = '\\' ∧ ¬ IsEscapedBehind cs := by
  by_cases hc : c = '\\'
  · simp [IsEscapedBehind, hc, Nat.odd_add_one]
  · simp [IsEscapedBehind, hc]

/-- Behind whole characters nothing is escaped that was not. -/
theorem isEscapedBehind_append (h : ¬ IsEscapedBehind cs) :
    IsEscapedBehind (cs ++ ds) ↔ IsEscapedBehind ds := by
  induction ds using List.reverseRecOn with
  | nil => simpa [IsEscapedBehind] using h
  | append_singleton ds d ih =>
      rw [← List.append_assoc, isEscapedBehind_concat, isEscapedBehind_concat, ih]

theorem HasBare.append_right (h : HasBare q cs) (ds : List Char) : HasBare q (cs ++ ds) := by
  obtain ⟨before, after, rfl, hbefore⟩ := h
  exact ⟨before, after ++ ds, by simp, hbefore⟩

theorem HasBare.of_append (hcs : ¬ IsEscapedBehind cs) (h : HasBare q (cs ++ ds)) :
    HasBare q cs ∨ HasBare q ds := by
  obtain ⟨before, after, heq, hbefore⟩ := h
  rcases List.append_eq_append_iff.1 heq with ⟨between, rfl, rfl⟩ | ⟨between, rfl, hds⟩
  · exact .inr ⟨between, after, rfl, by rwa [isEscapedBehind_append hcs] at hbefore⟩
  · cases between with
    | nil => exact .inr ⟨[], after, hds.symm, by simp [IsEscapedBehind]⟩
    | cons c between =>
        obtain ⟨rfl, -⟩ := List.cons.inj hds
        exact .inl ⟨before, between, rfl, hbefore⟩

theorem hasBare_iff : HasBare q cs ↔
    ∃ n ∈ List.range cs.length, cs[n]? = some q ∧ ¬ IsEscapedBehind (cs.take n) := by
  constructor
  · rintro ⟨before, after, rfl, hbefore⟩
    exact ⟨before.length, by simp, by simp, by simpa using hbefore⟩
  · rintro ⟨n, -, hn, hbefore⟩
    obtain ⟨hlt, rfl⟩ := List.getElem?_eq_some_iff.1 hn
    exact ⟨cs.take n, cs.drop (n + 1), by simp, hbefore⟩

instance (q : Char) (cs : List Char) : Decidable (HasBare q cs) :=
  decidable_of_iff _ hasBare_iff.symm

/-- **The scanner stays inside** as long as it meets no bare quote, and behind a backslash that is
not escaped the next character is. -/
theorem run_inside (hq : q ≠ '\\') (h : ¬ HasBare q cs) :
    (IsEscapedBehind cs → (inside q).run cs = escaped q) ∧
      (¬ IsEscapedBehind cs → (inside q).run cs = inside q) := by
  -- only the last character matters, so the induction goes from the end
  induction cs using List.reverseRecOn with
  | nil => exact ⟨fun h => by simp [IsEscapedBehind] at h, fun _ => rfl⟩
  | append_singleton cs c ih =>
      obtain ⟨hescaped, hplain⟩ := ih fun h' => h (h'.append_right [c])
      rw [isEscapedBehind_concat, run_append, run_cons, run_nil]
      by_cases hcs : IsEscapedBehind cs
      · rw [hescaped hcs]
        exact ⟨fun h => absurd hcs h.2, fun _ => rfl⟩
      · have hne : c ≠ q := by
          rintro rfl
          exact h ⟨cs, [], rfl, hcs⟩
        rw [hplain hcs]
        by_cases hc : c = '\\' <;> simp [next, hc, hcs, hne]

/-- Behind a bare quote the scanner is outside, or it was before. -/
theorem exists_outside_of_hasBare (hq : q ≠ '\\') (h : HasBare q cs) :
    ∃ before after, cs = before ++ after ∧ before ≠ [] ∧ (inside q).run before = outside := by
  induction cs using List.reverseRecOn with
  | nil =>
      obtain ⟨before, after, h, -⟩ := h
      simp at h
  | append_singleton cs c ih =>
      by_cases hcs : HasBare q cs
      · obtain ⟨before, after, rfl, hbefore, hrun⟩ := ih hcs
        exact ⟨before, after ++ [c], by simp, hbefore, hrun⟩
      · -- the first bare quote is the last character
        obtain ⟨before, after, heq, hbefore⟩ := h
        rcases List.eq_nil_or_concat' after with rfl | ⟨after, d, rfl⟩
        · obtain ⟨rfl, hc⟩ := List.append_inj' heq rfl
          obtain rfl := (List.cons.inj hc).1
          refine ⟨cs ++ [c], [], by simp, by simp, ?_⟩
          rw [run_append, (run_inside hq hcs).2 hbefore]
          simp [next, hq]
        · have heq' : cs ++ [c] = (before ++ q :: after) ++ [d] := by simpa using heq
          obtain ⟨rfl, -⟩ := List.append_inj' heq' rfl
          exact absurd ⟨before, after, rfl, hbefore⟩ hcs

end Bare

/-! ### Literals -/

/-- **The scanner sees one literal**: it goes inside at the first character and is outside again
behind the last one, and not before. -/
structure IsLiteral (text : List Char) : Prop where
  start : ∃ q ∈ text.head?, IsQuote q
  stop : outside.run text = outside
  inside : ∀ before after, text = before ++ after → before ≠ [] → after ≠ [] →
    outside.run before ≠ outside

namespace IsLiteral

variable {text : List Char} {c : Char}

/-- What is no quote is not seen outside of quotes in a literal. -/
theorem shuns (h : IsLiteral text) (hc : ¬ IsQuote c) : Shuns c outside text := by
  rintro before after rfl
  cases before with
  | nil =>
      obtain ⟨q, hq, hquote⟩ := h.start
      cases hq
      exact absurd hquote hc
  | cons d before => exact h.inside (d :: before) (c :: after) rfl nofun nofun

/-- A comment starts behind a literal. -/
theorem stripComment_append (h : IsLiteral text) (rest : List Char) :
    stripComment (text ++ rest) = text ++ stripComment rest := by
  rw [stripComment, stripCommentFrom_append (h.shuns (by decide)), h.stop, ← stripComment]

/-- Operands are split behind a literal. -/
theorem splitOperandsFrom_append (h : IsLiteral text) (rest : List Char) :
    splitOperandsFrom outside (text ++ rest)
      = (splitOperandsFrom outside rest).modifyHead (text ++ ·) := by
  rw [Assembly.splitOperandsFrom_append (h.shuns (by decide)), h.stop]

end IsLiteral

/-- **A text in quotes is one literal** to the scanner exactly if no quote of its kind stands bare
inside and its last quote is not escaped. -/
theorem isLiteral_iff {q : Char} {inner : List Char} (hq : IsQuote q) :
    IsLiteral (q :: inner ++ [q]) ↔ ¬ HasBare q inner ∧ ¬ IsEscapedBehind inner := by
  have hne := hq.ne_backslash
  constructor
  · intro h
    have hbare : ¬ HasBare q inner := by
      intro hbare
      obtain ⟨before, after, rfl, -, hrun⟩ := exists_outside_of_hasBare hne hbare
      refine h.inside (q :: before) (after ++ [q]) (by simp) nofun (by simp) ?_
      rw [run_cons, next_outside_of_isQuote hq, hrun]
    refine ⟨hbare, fun hescaped => ?_⟩
    have hstop := h.stop
    rw [List.cons_append, run_cons, next_outside_of_isQuote hq, run_append,
      (run_inside hne hbare).1 hescaped] at hstop
    cases hstop
  · rintro ⟨hbare, hescaped⟩
    refine ⟨⟨q, rfl, hq⟩, ?_, ?_⟩
    · rw [List.cons_append, run_cons, next_outside_of_isQuote hq, run_append,
        (run_inside hne hbare).2 hescaped]
      simp [next, hne]
    · intro before after heq hbefore hafter
      obtain ⟨d, before, rfl⟩ := List.exists_cons_of_ne_nil hbefore
      obtain ⟨after, e, rfl⟩ := (List.eq_nil_or_concat' after).resolve_left hafter
      have heq' : q :: inner ++ [q] = (d :: (before ++ after)) ++ [e] := by simpa using heq
      obtain ⟨heq', -⟩ := List.append_inj' heq' rfl
      obtain ⟨rfl, rfl⟩ := List.cons.inj heq'
      have hbefore : ¬ HasBare q before := fun h => hbare (h.append_right after)
      rw [run_cons, next_outside_of_isQuote hq]
      by_cases h : IsEscapedBehind before
      · simp [(run_inside hne hbefore).1 h]
      · simp [(run_inside hne hbefore).2 h]

/-! ### What the inside of quotes stands for -/

/-- The characters behind a backslash, and what they stand for with it. -/
def escapes : List (Char × Char) :=
  [('n', '\n'), ('t', '\t'), ('r', '\r'), ('0', '\x00'), ('\\', '\\'), ('\'', '\''), ('"', '"')]

/-- **The inside of a quoted operand stands for some characters**: every character stands for
itself, a quote too, but a backslash, which stands for something with the next one. -/
inductive Spells : List Char → List Char → Prop where
  | nil : Spells [] []
  | plain {c : Char} {cs ds : List Char} (hc : c ≠ '\\') (h : Spells cs ds) :
      Spells (c :: cs) (c :: ds)
  | escape {c d : Char} {cs ds : List Char} (hc : (c, d) ∈ escapes) (h : Spells cs ds) :
      Spells ('\\' :: c :: cs) (d :: ds)

theorem Spells.append {cs ds cs' ds' : List Char} (h : Spells cs ds) (h' : Spells cs' ds') :
    Spells (cs ++ cs') (ds ++ ds') := by
  induction h with
  | nil => exact h'
  | plain hc _ ih => exact .plain hc ih
  | escape hc _ ih => exact .escape hc ih

theorem unquoteBody_plain (text : List Char) {c : Char} (hc : c ≠ '\\') (cs : List Char) :
    unquoteBody text (c :: cs) = (unquoteBody text cs).map (c :: ·) := by
  rw [unquoteBody]
  · exact fun h => absurd h hc
  · exact fun _ _ h => absurd h hc

theorem unquoteBody_escape (text : List Char) {c d : Char} (hc : (c, d) ∈ escapes)
    (cs : List Char) :
    unquoteBody text ('\\' :: c :: cs) = (unquoteBody text cs).map (d :: ·) := by
  simp only [escapes, List.mem_cons, Prod.mk.injEq, List.not_mem_nil, or_false] at hc
  rcases hc with ⟨rfl, rfl⟩ | ⟨rfl, rfl⟩ | ⟨rfl, rfl⟩ | ⟨rfl, rfl⟩ | ⟨rfl, rfl⟩ | ⟨rfl, rfl⟩ |
    ⟨rfl, rfl⟩ <;> rfl

/-- **The insides that are taken**, and what they stand for. -/
theorem unquoteBody_eq_ok_iff {text cs ds : List Char} :
    unquoteBody text cs = .ok ds ↔ Spells cs ds := by
  constructor
  · intro h
    fun_induction unquoteBody text cs generalizing ds with
    | case1 =>
        cases h
        exact .nil
    | case2 | case10 => cases h
    | case3 cs ih | case4 cs ih | case5 cs ih | case6 cs ih | case7 cs ih | case8 cs ih
    | case9 cs ih =>
        obtain ⟨ds, hds, rfl⟩ := Step.except_map_eq_ok.1 h
        exact .escape (by decide) (ih hds)
    | case11 c cs hlast hnext ih =>
        obtain ⟨ds, hds, rfl⟩ := Step.except_map_eq_ok.1 h
        refine .plain (fun hc => ?_) (ih hds)
        cases cs with
        | nil => exact hlast hc rfl
        | cons d cs => exact hnext d cs hc rfl
  · intro h
    induction h with
    | nil => rfl
    | plain hc _ ih => rw [unquoteBody_plain text hc, ih]; rfl
    | escape hc _ ih => rw [unquoteBody_escape text hc, ih]; rfl

/-- A quote behind the inside of a quoted operand is not escaped. -/
theorem Spells.not_isEscapedBehind {cs ds : List Char} (h : Spells cs ds) :
    ¬ IsEscapedBehind cs := by
  induction h with
  | nil => simp [IsEscapedBehind]
  | @plain c cs ds hc _ ih =>
      have hfirst : ¬ IsEscapedBehind [c] := by simp [IsEscapedBehind, List.rtakeWhile, hc]
      rwa [← List.singleton_append, isEscapedBehind_append hfirst]
  | @escape c d cs ds _ _ ih =>
      have hfirst : ¬ IsEscapedBehind (['\\'] ++ [c]) := fun h =>
        (isEscapedBehind_concat.1 h).2 (by decide)
      rwa [show '\\' :: c :: cs = (['\\'] ++ [c]) ++ cs from rfl, isEscapedBehind_append hfirst]

/-- **The inside of a character** in quotes is a quote of its kind, or shows none bare. -/
theorem Spells.eq_of_hasBare {cs ds : List Char} {q : Char} {byte : UInt8} (h : Spells cs ds)
    (hq : q ≠ '\\') (hbyte : ds.flatMap String.utf8EncodeChar = [byte]) (hbare : HasBare q cs) :
    cs = [q] := by
  -- every character takes at least one byte, so there is no second one
  have hnil {d : Char} {ds : List Char}
      (hbyte : (d :: ds).flatMap String.utf8EncodeChar = [byte]) : ds = [] := by
    have hlength := congrArg List.length hbyte
    cases ds with
    | nil => rfl
    | cons e ds =>
        have := d.utf8Size_pos
        have := e.utf8Size_pos
        simp [String.length_utf8EncodeChar] at hlength
        omega
  obtain ⟨before, after, hcs, hbefore⟩ := hbare
  cases h with
  | nil => simp at hcs
  | @plain c cs ds hc h =>
      obtain rfl := hnil hbyte
      cases h
      cases before with
      | nil => exact congrArg ([·]) (List.cons.inj hcs).1
      | cons e before => simp at hcs
  | @escape c d cs ds hc h =>
      -- the only quote is the one behind the backslash
      obtain rfl := hnil hbyte
      cases h
      rcases before with _ | ⟨e, _ | ⟨e', before⟩⟩
      · exact absurd (List.cons.inj hcs).1.symm hq
      · obtain ⟨rfl, -⟩ := List.cons.inj hcs
        exact absurd (by decide) hbefore
      · simp at hcs

/-! ### Quoted operands -/

/-- The operand that some bytes in the quotes `q` are: a string of any length, or one byte. -/
inductive IsQuoted : Char → List UInt8 → Operand → Prop where
  | string (bytes : List UInt8) : IsQuoted '"' bytes (.string bytes)
  | char (byte : UInt8) : IsQuoted '\'' [byte] (.char byte)

/-- **A quoted operand that is taken** ends with its quote, and its inside stands for the characters
that its bytes are. -/
theorem exists_spells_of_parse {scope : Option String} {text body : List Char} {q : Char}
    {operand : Operand} (hq : IsQuote q) (htext : Text.trim text = q :: body)
    (h : Operand.parse scope text = .ok operand) :
    ∃ inner cs, Text.trim text = q :: inner ++ [q] ∧ Spells inner cs ∧
      IsQuoted q (cs.flatMap String.utf8EncodeChar) operand := by
  have hunquote {bytes : List UInt8} (h : unquote q (q :: body) body = .ok bytes) :
      ∃ inner cs, q :: body = q :: inner ++ [q] ∧ Spells inner cs ∧
        bytes = cs.flatMap String.utf8EncodeChar := by
    unfold unquote at h
    split at h
    · case isTrue hlast =>
      obtain ⟨inner, rfl⟩ := List.getLast?_eq_some_iff.1 hlast
      obtain ⟨cs, hcs, rfl⟩ := Step.except_map_eq_ok.1 h
      rw [List.dropLast_concat] at hcs
      exact ⟨inner, cs, rfl, unquoteBody_eq_ok_iff.1 hcs, rfl⟩
    · cases h
  rw [htext]
  unfold Operand.parse at h
  rw [htext] at h
  rcases hq with rfl | rfl
  · obtain ⟨bytes, hbytes, rfl⟩ := Step.except_map_eq_ok.1 h
    obtain ⟨inner, cs, hinner, hspells, rfl⟩ := hunquote hbytes
    exact ⟨inner, cs, hinner, hspells, .string _⟩
  · obtain ⟨bytes, hbytes, h⟩ := Step.except_bind_eq_ok.1 h
    obtain ⟨inner, cs, hinner, hspells, rfl⟩ := hunquote hbytes
    refine ⟨inner, cs, hinner, hspells, ?_⟩
    split at h
    · case h_1 byte hbyte =>
      cases h
      rw [hbyte]
      exact .char byte
    · cases h

/-! ### Lines -/

/-- The operands that a line is read for. -/
def SourceLine.operands (parts : SourceLine) : List (List Char) :=
  match parts.mnemonic.bind Mnemonic.parse?, parts.operand with
  | some (.directive .data), some text => splitOperands text
  | some (.instruction _), some text => [text]
  | _, _ => []

theorem exists_of_mem_encodeData {scope : Option String} {texts : List (List Char)}
    {bytes : List UInt8} (h : encodeData scope texts = (bytes, none)) :
    ∀ text ∈ texts, ∃ operand, Operand.parse scope text = .ok operand := by
  induction texts generalizing bytes with
  | nil => simp
  | cons text texts ih =>
      rw [encodeData] at h
      split at h
      · case h_1 first hfirst =>
        obtain ⟨operand, hoperand, -⟩ := Step.except_bind_eq_ok.1 hfirst
        cases hrest : encodeData scope texts with
        | mk rest cause =>
          rw [hrest] at h
          cases h
          exact List.forall_mem_cons.2 ⟨⟨operand, hoperand⟩, ih hrest⟩
      · cases h

/-- Every operand of a line that is encoded can be read. -/
theorem exists_of_mem_operands {scope : Option String} {number : Nat} {parts : SourceLine}
    {encoding : Bool × List Item} (h : Row.encodingOf scope number parts = .ok encoding) :
    ∀ text ∈ parts.operands, ∃ operand, Operand.parse scope text = .ok operand := by
  intro text htext
  unfold SourceLine.operands at htext
  split at htext
  · case h_1 operands hmnemonic hoperand =>
    obtain ⟨name, hname, hmnemonic⟩ := Option.bind_eq_some_iff.1 hmnemonic
    simp only [Row.encodingOf, hname, hmnemonic, hoperand] at h
    split at h
    · case h_1 bytes hdata => exact exists_of_mem_encodeData hdata text htext
    · cases h
  · case h_2 instruction operand hmnemonic hoperand =>
    obtain ⟨name, hname, hmnemonic⟩ := Option.bind_eq_some_iff.1 hmnemonic
    simp only [Row.encodingOf, hname, hmnemonic, hoperand] at h
    obtain ⟨read, hread, -⟩ := Step.except_bind_eq_ok.1 h
    obtain ⟨found, hfound, -⟩ := Step.except_bind_eq_ok.1 hread
    rw [List.mem_singleton.1 htext]
    exact ⟨found, hfound⟩
  · cases htext

/-- **The quoted operands of a line that is taken.** An operand that starts with a quote ends with
the same, and its inside stands for what is read.  The scanner sees it as one literal exactly if no
quote of its kind stands bare inside.  In a string any number of them may; a character shows one
only where it is the quote itself. -/
theorem quotes_of_assembleLine {a a' : Assembler} {number : Nat} {text : List Char}
    (h : a.assembleLine number text = (a', none)) :
    ∃ parts, SourceLine.parse text = .ok parts ∧
      ∀ operand ∈ parts.operands, ∀ q body, IsQuote q → Text.trim operand = q :: body →
        ∃ inner cs read, Text.trim operand = q :: inner ++ [q] ∧ Spells inner cs ∧
          Operand.parse a'.scope operand = .ok read ∧
          IsQuoted q (cs.flatMap String.utf8EncodeChar) read ∧
          (IsLiteral (Text.trim operand) ↔ ¬ HasBare q inner) ∧
          (q = '\'' → HasBare q inner → inner = [q]) := by
  obtain ⟨row, hrow, -⟩ := Assembler.takes_assembleLine h
  obtain ⟨parts, hparts, hscope, -, hencoding⟩ := Row.read_eq_ok hrow
  refine ⟨parts, hparts, fun operand hmem q body hq htrim => ?_⟩
  obtain ⟨read, hread⟩ := exists_of_mem_operands hencoding operand hmem
  obtain ⟨inner, cs, htext, hspells, hquoted⟩ := exists_spells_of_parse hq htrim hread
  refine ⟨inner, cs, read, htext, hspells, hread, hquoted, ?_, ?_⟩
  · rw [htext, isLiteral_iff hq]
    exact and_iff_left hspells.not_isEscapedBehind
  · rintro rfl hbare
    generalize hbytes : cs.flatMap String.utf8EncodeChar = bytes at hquoted
    cases hquoted
    exact hspells.eq_of_hasBare (by decide) hbytes hbare

/-- A string with an escaped quote, a comma, a semicolon and a backslash at its end is one literal,
and so is the character of a quote that is escaped. -/
theorem quotes_of_assembleLine_escaped : ∃ a' parts,
    (Assembler.empty 0).assembleLine 0 "x: DB \"a\\\",;\\\\\" , '\\'' ; \"".toList = (a', none) ∧
      SourceLine.parse "x: DB \"a\\\",;\\\\\" , '\\'' ; \"".toList = .ok parts ∧
      parts.operands = ["\"a\\\",;\\\\\"".toList, "'\\''".toList] ∧
      ∀ operand ∈ parts.operands, IsLiteral (Text.trim operand) := by
  have hline : ((Assembler.empty 0).assembleLine 0
      "x: DB \"a\\\",;\\\\\" , '\\'' ; \"".toList).2 = none := by decide +kernel
  obtain ⟨parts, hparts, hquotes⟩ := quotes_of_assembleLine (Prod.ext rfl hline)
  have hread : SourceLine.parse "x: DB \"a\\\",;\\\\\" , '\\'' ; \"".toList
      = .ok ⟨some "x".toList, some "DB".toList, some "\"a\\\",;\\\\\" , '\\''".toList⟩ := by
    decide +kernel
  cases hread.symm.trans hparts
  have hoperands : SourceLine.operands
      ⟨some "x".toList, some "DB".toList, some "\"a\\\",;\\\\\" , '\\''".toList⟩
      = ["\"a\\\",;\\\\\"".toList, "'\\''".toList] := by decide +kernel
  refine ⟨_, _, Prod.ext rfl hline, hparts, hoperands, ?_⟩
  rw [hoperands] at hquotes ⊢
  intro operand hmem
  obtain ⟨q, inner, hq, htrim, hbare⟩ : ∃ q inner, IsQuote q ∧
      Text.trim operand = q :: inner ++ [q] ∧ ¬ HasBare q inner := by
    rcases List.mem_pair.1 hmem with rfl | rfl
    · exact ⟨'"', "a\\\",;\\\\".toList, by decide +kernel⟩
    · exact ⟨'\'', "\\'".toList, by decide +kernel⟩
  obtain ⟨inner', cs, read, htext, -, -, -, hliteral, -⟩ := hquotes operand hmem q _ hq htrim
  obtain rfl : inner = inner' := by simpa using htrim.symm.trans htext
  exact hliteral.2 hbare

/-- Two strings without a comma between them are taken as one, with the quotes between them: the
line puts in the bytes of the characters from the first quote to the last. -/
theorem not_isLiteral_two : ∃ a' parts inner,
    (Assembler.empty 0).assembleLine 0 "DB \"a\" \"b\"".toList = (a', none) ∧
      SourceLine.parse "DB \"a\" \"b\"".toList = .ok parts ∧
      '"' :: inner ++ ['"'] ∈ parts.operands ∧ HasBare '"' inner ∧
      ¬ IsLiteral ('"' :: inner ++ ['"']) ∧
      a'.items.toList = [.bytes [0x61, 0x22, 0x20, 0x22, 0x62]] := by
  have hline : ((Assembler.empty 0).assembleLine 0 "DB \"a\" \"b\"".toList).2 = none := by
    decide +kernel
  have hread : SourceLine.parse "DB \"a\" \"b\"".toList
      = .ok ⟨none, some "DB".toList, some "\"a\" \"b\"".toList⟩ := by decide +kernel
  have hbare : HasBare '"' "a\" \"b".toList := ⟨['a'], " \"b".toList, by decide, by decide⟩
  exact ⟨_, _, "a\" \"b".toList, Prod.ext rfl hline, hread, by decide +kernel, hbare,
    fun h => ((isLiteral_iff (.inl rfl)).1 h).1 hbare, by decide +kernel⟩

end Assembly

end StackLang
