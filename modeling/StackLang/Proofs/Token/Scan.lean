/-
**Pieces of a text.**

What the piece at the front of a text is depends on little of the text.  A word is told from its own
characters: cut off behind it, the text starts with the same word.  And no piece but blanks goes on
behind a line feed, so what stands behind the end of a line has no say in what the pieces of the
line are, nor in where an error of the line ends.

Main results:

* `Piece.scan_take` — a word is told from its own characters;
* `Piece.scan_append` — the piece does not depend on what follows the line;
* `Piece.skipped_cases` — what is skipped is a run of blanks or a comment;
* `Lexeme.itemsFrom_cons`, `Lexeme.itemsFrom_blank` — the items of a text by its first piece.
-/

import StackLang.Token.Lexer
import Mathlib

set_option relaxedAutoImplicit false
set_option autoImplicit false

namespace StackLang

/-! ### Runs -/

section Runs

variable {α : Type} {p : α → Bool}

/-- A run ends before a character that does not belong to it. -/
theorem takeWhile_append_cons {a : α} (ha : p a = false) (xs ys : List α) :
    (xs ++ a :: ys).takeWhile p = xs.takeWhile p := by
  induction xs with
  | nil => simp [ha]
  | cons x xs ih => simp [List.takeWhile_cons, ih]

theorem take_length_takeWhile (p : α → Bool) (xs : List α) :
    xs.take (xs.takeWhile p).length = xs.takeWhile p :=
  (List.prefix_iff_eq_take.1 (List.takeWhile_prefix p)).symm

theorem drop_length_takeWhile (p : α → Bool) (xs : List α) :
    xs.drop (xs.takeWhile p).length = xs.dropWhile p := by
  induction xs with
  | nil => rfl
  | cons x xs ih => by_cases hx : p x <;> simp [hx, ih]

/-- A run that is cut off is still a run. -/
theorem takeWhile_take_length (p : α → Bool) (xs : List α) :
    (xs.take (xs.takeWhile p).length).takeWhile p = xs.takeWhile p := by
  rw [take_length_takeWhile, List.takeWhile_takeWhile]
  simp

end Runs

namespace Piece

/-! ### Strings and characters -/

/-- A character that ends nothing and starts no pair is an item of its own. -/
theorem stringBody_plain {c : Char} (cs : List Char) (hquote : c ≠ '"') (hline : c ≠ '\n')
    (hslash : c ≠ '\\') :
    stringBody (c :: cs)
      = ⟨(stringBody cs).length + 1, c :: (stringBody cs).content, (stringBody cs).closed⟩ := by
  rw [stringBody.eq_def]
  split <;> simp_all

/-- In the last clause of a string the character is no backslash. -/
theorem ne_backslash {c : Char} {cs : List Char} (hlast : c = '\\' → cs ≠ [])
    (hpair : ∀ (d : Char) (ds : List Char), c = '\\' → cs ≠ d :: ds) : c ≠ '\\' := by
  intro hc
  obtain ⟨d, ds, hcs⟩ := List.exists_cons_of_ne_nil (hlast hc)
  exact hpair d ds hc hcs

theorem length_stringBody_le (cs : List Char) : (stringBody cs).length ≤ cs.length := by
  fun_induction stringBody cs with
  | case6 c cs hc r ih => exact Nat.add_le_add_right ih 2
  | case7 c cs hquote hline hlast hpair r ih => exact Nat.add_le_add_right ih 1
  | _ => simp

/-- A string that is closed is told from its own characters. -/
theorem stringBody_take {cs : List Char} (h : (stringBody cs).closed) :
    stringBody (cs.take (stringBody cs).length) = stringBody cs := by
  fun_induction stringBody cs with
  | case1 | case3 | case4 | case5 => simp at h
  | case2 => simp [stringBody]
  | case6 c cs hc r ih => simp [stringBody, hc, ih h, r]
  | case7 c cs hquote hline hlast hpair r ih =>
      rw [List.take_succ_cons, stringBody_plain _ hquote hline (ne_backslash hlast hpair), ih h]

/-- A string does not go on behind its line. -/
theorem stringBody_append (cs ds : List Char) :
    stringBody (cs ++ '\n' :: ds) = stringBody cs := by
  fun_induction stringBody cs with
  | case1 | case2 | case3 | case4 => simp [stringBody]
  | case5 cs => simp [stringBody]
  | case6 c cs hc r ih => simp [stringBody, hc, ih, r]
  | case7 c cs hquote hline hlast hpair r ih =>
      rw [List.cons_append, stringBody_plain _ hquote hline (ne_backslash hlast hpair), ih]

/-- The two forms of a character literal behind its opening quote. -/
theorem charBody_eq_some {cs : List Char} {d : Char} {n : Nat} :
    charBody cs = some (d, n) ↔
      (∃ c rest, cs = '\\' :: c :: '\'' :: rest ∧ (c.toNat < 128 ∧ c ≠ '\n') ∧
        d = unescape c ∧ n = 3) ∨
      ∃ rest, cs = d :: '\'' :: rest ∧ (d.toNat < 128 ∧ d ≠ '\'' ∧ d ≠ '\\' ∧ d ≠ '\n') ∧
        n = 2 := by
  constructor
  · intro h
    unfold charBody at h
    split at h
    · case h_1 c rest =>
      split at h
      · case isTrue hc =>
        cases h
        exact .inl ⟨c, rest, rfl, hc, rfl, rfl⟩
      · cases h
    · case h_2 c rest _ =>
      split at h
      · case isTrue hc =>
        cases h
        exact .inr ⟨rest, rfl, hc, rfl⟩
      · cases h
    · cases h
  · rintro (⟨c, rest, rfl, hc, rfl, rfl⟩ | ⟨rest, rfl, hd, rfl⟩)
    · simp [charBody, hc]
    · simp [charBody, hd]

/-- A character literal is told from its own characters. -/
theorem charBody_take {cs : List Char} {d : Char} {n : Nat} (h : charBody cs = some (d, n)) :
    n ≤ cs.length ∧ charBody (cs.take n) = some (d, n) := by
  rcases charBody_eq_some.1 h with ⟨c, rest, rfl, hc, rfl, rfl⟩ | ⟨rest, rfl, hd, rfl⟩
  · simp [charBody, hc]
  · simp [charBody, hd]

/-- A character literal does not go on behind its line. -/
theorem charBody_append (cs ds : List Char) : charBody (cs ++ '\n' :: ds) = charBody cs := by
  refine Option.ext fun ⟨d, n⟩ => ?_
  rw [charBody_eq_some, charBody_eq_some]
  match cs with
  | [] =>
      constructor
      · rintro (⟨c, rest, hcs, -⟩ | ⟨rest, hcs, hd, -⟩)
        · simp at hcs
        · exact absurd (List.cons.inj hcs).1.symm hd.2.2.2
      · rintro (⟨c, rest, hcs, -⟩ | ⟨rest, hcs, -⟩) <;> cases hcs
  | [a] => simp
  | [a, b] => simp
  | a :: b :: c :: cs => simp

/-! ### The piece at the front -/

theorem isSkipped_newline : isSkipped '\n' = true := rfl

theorem ofNumber_ne_skipped (cs : List Char) : ofNumber cs ≠ skipped := by
  simp only [ofNumber]
  split <;> split <;> simp

theorem ofSymbol_ne_skipped (c : Char) (cs : List Char) : (ofSymbol c cs).1 ≠ skipped := by
  unfold ofSymbol
  split
  · simp
  · split <;> simp

/-- A piece does not reach beyond the text. -/
theorem scan_le (c : Char) (cs : List Char) : (scan c cs).2 ≤ cs.length := by
  have hrun : ∀ p : Char → Bool, (cs.takeWhile p).length ≤ cs.length := fun p =>
    (List.takeWhile_prefix p).length_le
  unfold scan
  split_ifs
  · exact hrun _
  · exact hrun _
  · exact hrun _
  · exact hrun _
  · exact length_stringBody_le cs
  · split
    · case h_1 d n hbody => exact (charBody_take hbody).1
    · exact Nat.zero_le _
  · unfold ofSymbol
    split
    · case h_1 t ht =>
      obtain ⟨d, hd, -⟩ := Option.bind_eq_some_iff.1 ht
      obtain ⟨ds, rfl⟩ := List.head?_eq_some_iff.1 hd
      simp
    · split <;> exact Nat.zero_le _

/-- **What is skipped** is a run of blanks or a comment up to the end of its line. -/
theorem skipped_cases {c : Char} {cs : List Char} (h : (scan c cs).1 = skipped) :
    (isSkipped c ∧ (scan c cs).2 = (cs.takeWhile isSkipped).length) ∨
      c = '/' ∧ cs.head? = some '/' ∧ (scan c cs).2 = (cs.takeWhile (· ≠ '\n')).length := by
  unfold scan at h ⊢
  split_ifs at h ⊢ with hskip hcomment hnumber hname hquote hchar
  · exact .inl ⟨hskip, rfl⟩
  · exact .inr ⟨hcomment.1, hcomment.2, rfl⟩
  · exact absurd h (ofNumber_ne_skipped _)
  · cases h
  · simp only at h
    split at h <;> cases h
  · split at h <;> cases h
  · exact absurd h (ofSymbol_ne_skipped _ _)

theorem scan_of_isSkipped {c : Char} (hc : isSkipped c) (cs : List Char) :
    scan c cs = (skipped, (cs.takeWhile isSkipped).length) := if_pos hc

theorem ofSymbol_take {c : Char} {cs : List Char} {t : Token} {n : Nat}
    (h : ofSymbol c cs = (word t, n)) : ofSymbol c (cs.take n) = (word t, n) := by
  unfold ofSymbol at h
  split at h
  · case h_1 u hpair =>
    cases h
    obtain ⟨d, hd, hcd⟩ := Option.bind_eq_some_iff.1 hpair
    obtain ⟨ds, rfl⟩ := List.head?_eq_some_iff.1 hd
    simp [ofSymbol, hcd]
  · split at h
    · case h_1 u hsingle =>
      cases h
      simp [ofSymbol, hsingle]
    · cases h

/-- **A word is told from its own characters.** -/
theorem scan_take {c : Char} {cs : List Char} {t : Token} {n : Nat}
    (h : scan c cs = (word t, n)) : scan c (cs.take n) = (word t, n) := by
  have hslash : ¬ (c = '/' ∧ cs.head? = some '/') →
      ¬ (c = '/' ∧ (cs.take n).head? = some '/') := by
    rw [List.head?_take]
    split <;> simp
  unfold scan at h
  split_ifs at h with hskip hcomment hnumber hname hquote hchar
  · cases h
  · cases h
  · obtain ⟨hpiece, rfl⟩ := Prod.mk.inj h
    rw [scan, if_neg hskip, if_neg (hslash hcomment), if_pos hnumber]
    simp only [takeWhile_take_length, hpiece]
  · obtain ⟨hpiece, rfl⟩ := Prod.mk.inj h
    rw [scan, if_neg hskip, if_neg (hslash hcomment), if_neg hnumber, if_pos hname]
    simp only [takeWhile_take_length, hpiece]
  · obtain ⟨hpiece, rfl⟩ := Prod.mk.inj h
    have hclosed : (stringBody cs).closed := by
      by_contra hopen
      simp [hopen] at hpiece
    rw [scan, if_neg hskip, if_neg (hslash hcomment), if_neg hnumber, if_neg hname, if_pos hquote]
    simp only [stringBody_take hclosed, hpiece]
  · split at h
    · case h_1 d m hbody =>
      cases h
      rw [scan, if_neg hskip, if_neg (hslash hcomment), if_neg hnumber, if_neg hname,
        if_neg hquote, if_pos hchar, (charBody_take hbody).2]
    · cases h
  · rw [scan, if_neg hskip, if_neg (hslash hcomment), if_neg hnumber, if_neg hname,
      if_neg hquote, if_neg hchar, ofSymbol_take h]

theorem ofSymbol_append (c : Char) (cs ds : List Char) :
    ofSymbol c (cs ++ '\n' :: ds) = ofSymbol c cs := by
  cases cs with
  | nil => simp [ofSymbol, pair?]
  | cons d cs => rfl

/-- **The piece does not depend on what follows the line**, unless it is a run of blanks. -/
theorem scan_append {c : Char} (hc : isSkipped c = false) (cs ds : List Char) :
    scan c (cs ++ '\n' :: ds) = scan c cs := by
  have hslash : (cs ++ '\n' :: ds).head? = some '/' ↔ cs.head? = some '/' := by
    cases cs <;> simp
  unfold scan
  simp only [hc, Bool.false_eq_true, if_false, hslash, stringBody_append, charBody_append,
    ofSymbol_append]
  rw [takeWhile_append_cons (by simp), takeWhile_append_cons rfl, takeWhile_append_cons rfl]

end Piece

/-! ### Items by the first piece -/

/-- The item that a piece between two places makes. -/
def Piece.item? (p q : Position) : Piece → Option (Except LexError Lexeme)
  | .skipped => none
  | .word t => some (.ok ⟨t, .between p q⟩)
  | .fault cause => some (.error ⟨cause, .between p q⟩)

namespace Lexeme

open Piece

@[simp] theorem itemsFrom_nil (p : Position) : itemsFrom p [] = [] := by
  rw [itemsFrom]

/-- **The items of a text** are that of its first piece and those behind it. -/
theorem itemsFrom_cons (p : Position) (c : Char) (cs : List Char) :
    itemsFrom p (c :: cs)
      = ((scan c cs).1.item? p (p.advance (c :: cs.take (scan c cs).2))).toList
        ++ itemsFrom (p.advance (c :: cs.take (scan c cs).2)) (cs.drop (scan c cs).2) := by
  rw [itemsFrom]
  rcases scan c cs with ⟨_ | t | cause, n⟩ <;> rfl

/-- Blanks are skipped one by one. -/
theorem itemsFrom_blank {c : Char} (hc : isSkipped c) (p : Position) (cs : List Char) :
    itemsFrom p (c :: cs) = itemsFrom (p.next c) cs := by
  -- a run of blanks is skipped as one piece, of which `c` may be the first
  have hrun : ∀ (p : Position) (cs : List Char), itemsFrom p cs
      = itemsFrom (p.advance (cs.takeWhile isSkipped)) (cs.dropWhile isSkipped) := by
    intro p cs
    cases cs with
    | nil => rfl
    | cons d ds =>
        cases hd : isSkipped d with
        | false => simp [hd]
        | true =>
            rw [itemsFrom_cons, scan_of_isSkipped hd, List.takeWhile_cons_of_pos hd,
              List.dropWhile_cons_of_pos hd, take_length_takeWhile, drop_length_takeWhile]
            rfl
  rw [hrun, List.takeWhile_cons_of_pos hc, List.dropWhile_cons_of_pos hc, Position.advance_cons,
    ← hrun]

end Lexeme

end StackLang
