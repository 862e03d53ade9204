/-
**Made names are told apart.**

A name of the source is made of letters, digits and underscores, so what stands before the first at
sign of a made name is the name of the source, and what stands behind it tells the made names of one
source name apart.

Main definitions:

* `IsSourceName` — a name as words of a source text are;
* `globalLabel`, `jumpLabel` — the labels of variables and of jump targets;
* `IsMadeName` — a name with an at sign, made from a name of the source.

Main results:

* `decorate_inj` — a decorated name has one base and one list of argument types;
* `globalLabel_inj` — labels of variables made at different counts differ;
* `jumpLabel_inj` — labels of jump targets made at different counts differ;
* `isMadeName_jumpLabel`, `isMadeName_decorate`, `isMadeName_globalLabel` — all names of the output
  are made names, and `decorate_ne_jumpLabel` and its like tell their sorts apart.
-/

import StackLang.Token.Lexer
import StackLang.Typing.Names
import Mathlib

set_option relaxedAutoImplicit false
set_option autoImplicit false

namespace StackLang

/-- A name of a source text: one character that starts a name, and characters that go on with one.
-/
def IsSourceName (name : String) : Prop :=
  ∃ c cs, name.toList = c :: cs ∧ Piece.isNameStart c = true ∧
    ∀ d ∈ cs, Piece.isNamePart d = true

/-- What starts a name may also stand inside of one. -/
theorem isNamePart_of_isNameStart {c : Char} (h : Piece.isNameStart c = true) :
    Piece.isNamePart c = true := by
  simp only [Piece.isNameStart, Piece.isNamePart, Char.isAlphanum, Bool.or_eq_true] at h ⊢
  exact h.imp .inl id

namespace IsSourceName

variable {name : String}

theorem isNamePart (h : IsSourceName name) : ∀ c ∈ name.toList, Piece.isNamePart c = true := by
  obtain ⟨c, cs, hname, hc, hcs⟩ := h
  rw [hname, List.forall_mem_cons]
  exact ⟨isNamePart_of_isNameStart hc, hcs⟩

/-- No name of a source text has an at sign. -/
theorem at_notMem (h : IsSourceName name) : '@' ∉ name.toList :=
  fun hmem => absurd (h.isNamePart _ hmem) (by decide)

end IsSourceName

section Lists

variable {α : Type} {c : α} {u u' v v' : List α}

/-- What stands before the first occurrence of an element is determined. -/
theorem append_cons_inj (hu : c ∉ u) (hu' : c ∉ u') (h : u ++ c :: v = u' ++ c :: v') :
    u = u' ∧ v = v' := by
  induction u generalizing u' with
  | nil =>
      cases u' with
      | nil => exact ⟨rfl, (List.cons.inj h).2⟩
      | cons b u' =>
          obtain ⟨rfl, -⟩ := List.cons.inj h
          exact absurd List.mem_cons_self hu'
  | cons a u ih =>
      cases u' with
      | nil =>
          obtain ⟨rfl, -⟩ := List.cons.inj h
          exact absurd List.mem_cons_self hu
      | cons b u' =>
          obtain ⟨rfl, htail⟩ := List.cons.inj h
          obtain ⟨rfl, rfl⟩ := ih (fun hc => hu (List.mem_cons_of_mem _ hc))
            (fun hc => hu' (List.mem_cons_of_mem _ hc)) htail
          exact ⟨rfl, rfl⟩

end Lists

/-! ### Decorated names -/

theorem isSourceName_tag (s : Scalar) : IsSourceName s.tag := by
  cases s with
  | int => exact ⟨'i', ['3', '2'], rfl, by decide, List.all_eq_true.1 rfl⟩
  | float => exact ⟨'f', ['3', '2'], rfl, by decide, List.all_eq_true.1 rfl⟩

theorem tag_inj {s t : Scalar} (h : s.tag = t.tag) : s = t := by
  cases s <;> cases t <;> first | rfl | exact absurd h (by decide)

/-- Types are read off their tags. -/
theorem intercalate_tag_inj {as bs : List Scalar}
    (h : "@@".intercalate (as.map Scalar.tag) = "@@".intercalate (bs.map Scalar.tag)) :
    as = bs := by
  -- the first tag ends at the first at sign, or at the end
  have hcons : ∀ (a : Scalar) (as : List Scalar), as ≠ [] →
      ("@@".intercalate ((a :: as).map Scalar.tag)).toList
        = a.tag.toList ++ '@' :: '@' :: ("@@".intercalate (as.map Scalar.tag)).toList := by
    intro a as hne
    rw [List.map_cons, String.intercalate_cons_of_ne_nil (by simpa using hne)]
    simp
  have hnil : ∀ a as, "@@".intercalate (([] : List Scalar).map Scalar.tag)
      ≠ "@@".intercalate ((a :: as).map Scalar.tag) := by
    intro a as hne
    have hlength := congrArg (fun s => s.toList.length) hne
    cases as with
    | nil => cases a <;> simp [Scalar.tag] at hlength
    | cons a' as =>
        simp only [hcons a (a' :: as) (by simp)] at hlength
        cases a <;> simp [Scalar.tag] at hlength
  induction as generalizing bs with
  | nil =>
      cases bs with
      | nil => rfl
      | cons b bs => exact absurd h (hnil b bs)
  | cons a as ih =>
      cases bs with
      | nil => exact absurd h.symm (hnil a as)
      | cons b bs =>
          have hlist := congrArg String.toList h
          by_cases has : as = []
          · by_cases hbs : bs = []
            · subst has hbs
              rw [List.map_singleton, List.map_singleton, String.intercalate_singleton,
                String.intercalate_singleton] at h
              rw [tag_inj h]
            · subst has
              rw [hcons b bs hbs, List.map_singleton, String.intercalate_singleton] at hlist
              exact absurd (hlist ▸ by simp) (isSourceName_tag a).at_notMem
          · by_cases hbs : bs = []
            · subst hbs
              rw [hcons a as has, List.map_singleton, String.intercalate_singleton] at hlist
              exact absurd (hlist.symm ▸ by simp) (isSourceName_tag b).at_notMem
            · rw [hcons a as has, hcons b bs hbs] at hlist
              obtain ⟨htag, hrest⟩ := append_cons_inj (isSourceName_tag a).at_notMem
                (isSourceName_tag b).at_notMem hlist
              rw [tag_inj (String.toList_inj.1 htag),
                ih (String.toList_inj.1 (List.cons.inj hrest).2)]

/-- **A decorated name has one base and one list of argument types.** -/
theorem decorate_inj {base base' : String} {args args' : List Scalar} (hb : IsSourceName base)
    (hb' : IsSourceName base') (h : decorate base args = decorate base' args') :
    base = base' ∧ args = args' := by
  have hlist := congrArg String.toList h
  simp only [decorate, String.toList_append, List.append_assoc] at hlist
  obtain ⟨hbase, hrest⟩ := append_cons_inj hb.at_notMem hb'.at_notMem hlist
  exact ⟨String.toList_inj.1 hbase,
    intercalate_tag_inj (String.toList_inj.1 (List.cons.inj hrest).2)⟩

/-- A decorated name is no name of the source. -/
theorem not_isSourceName_decorate (base : String) (args : List Scalar) :
    ¬ IsSourceName (decorate base args) :=
  fun h => h.at_notMem (by simp [decorate])

/-! ### Labels of variables -/

/-- The label of the variable `base` that is made as the one with number `n`. -/
def globalLabel (base : String) (n : Nat) : String := base ++ "@g" ++ toString n

/-- **Labels of variables made at different counts differ.** -/
theorem globalLabel_inj {base base' : String} {n n' : Nat} (hb : IsSourceName base)
    (hb' : IsSourceName base') (h : globalLabel base n = globalLabel base' n') : n = n' := by
  have hlist := congrArg String.toList h
  simp only [globalLabel, String.toList_append, List.append_assoc] at hlist
  obtain ⟨-, hrest⟩ := append_cons_inj hb.at_notMem hb'.at_notMem hlist
  exact Nat.repr_injective (String.toList_inj.1 (List.cons.inj hrest).2)

/-! ### Labels of jump targets -/

/-- The label of a jump target that is made as the one with number `n`. -/
def jumpLabel (n : Nat) : String := "L@" ++ toString n

/-- **Labels of jump targets made at different counts differ.** -/
theorem jumpLabel_inj {n n' : Nat} (h : jumpLabel n = jumpLabel n') : n = n' := by
  have hlist := congrArg String.toList h
  simp only [jumpLabel, String.toList_append] at hlist
  exact Nat.repr_injective (String.toList_inj.1 (List.append_cancel_left hlist))

/-! ### Made names -/

/-- A name of the source, an at sign, and letters, digits, underscores and at signs. -/
def IsMadeName (name : String) : Prop :=
  ∃ base rest, IsSourceName base ∧ name.toList = base.toList ++ '@' :: rest ∧
    ∀ c ∈ rest, Piece.isNamePart c = true ∨ c = '@'

theorem isSourceName_L : IsSourceName "L" := ⟨'L', [], rfl, by decide, nofun⟩

theorem toList_jumpLabel (n : Nat) :
    (jumpLabel n).toList = "L".toList ++ '@' :: (toString n).toList := by
  simp [jumpLabel]

theorem toList_decorate (base : String) (args : List Scalar) : (decorate base args).toList
    = base.toList ++ '@' :: '@' :: ("@@".intercalate (args.map Scalar.tag)).toList := by
  simp [decorate]

theorem toList_globalLabel (base : String) (n : Nat) :
    (globalLabel base n).toList = base.toList ++ '@' :: 'g' :: (toString n).toList := by
  simp [globalLabel]

/-- A number is written in digits, of which there is at least one. -/
theorem exists_digits (n : Nat) : ∃ c cs, (toString n).toList = c :: cs ∧
    ∀ d ∈ c :: cs, d.isDigit = true := by
  have hdigits : (toString n).toList = Nat.toDigits 10 n := by
    rw [Nat.toString_eq_ofList_toDigits, String.toList_ofList]
  cases h : Nat.toDigits 10 n with
  | nil => exact absurd h Nat.toDigits_ne_nil
  | cons c cs =>
      exact ⟨c, cs, hdigits.trans h, fun d hd =>
        Nat.isDigit_of_mem_toDigits (by norm_num) (by norm_num) (h ▸ hd)⟩

theorem isNamePart_of_isDigit {c : Char} (h : c.isDigit = true) : Piece.isNamePart c = true := by
  simp [Piece.isNamePart, Char.isAlphanum, h]

theorem isNamePart_digits {n : Nat} {c : Char} (h : c ∈ (toString n).toList) :
    Piece.isNamePart c = true := by
  obtain ⟨d, ds, hdigits, hall⟩ := exists_digits n
  exact isNamePart_of_isDigit (hall c (hdigits ▸ h))

theorem isMadeName_jumpLabel (n : Nat) : IsMadeName (jumpLabel n) :=
  ⟨"L", _, isSourceName_L, toList_jumpLabel n, fun _ hc => .inl (isNamePart_digits hc)⟩

theorem isMadeName_globalLabel {base : String} (hb : IsSourceName base) (n : Nat) :
    IsMadeName (globalLabel base n) := by
  refine ⟨base, _, hb, toList_globalLabel base n, ?_⟩
  rw [List.forall_mem_cons]
  exact ⟨.inl (by decide), fun _ hc => .inl (isNamePart_digits hc)⟩

theorem isMadeName_decorate {base : String} (hb : IsSourceName base) (args : List Scalar) :
    IsMadeName (decorate base args) := by
  refine ⟨base, _, hb, toList_decorate base args, ?_⟩
  rw [List.forall_mem_cons]
  refine ⟨.inr rfl, ?_⟩
  induction args with
  | nil => simp
  | cons a as ih =>
      have htag : ∀ c ∈ a.tag.toList, Piece.isNamePart c = true ∨ c = '@' :=
        fun c hc => .inl ((isSourceName_tag a).isNamePart c hc)
      by_cases has : as = []
      · subst has
        rwa [List.map_singleton, String.intercalate_singleton]
      · rw [List.map_cons, String.intercalate_cons_of_ne_nil (by simpa using has)]
        simp only [String.toList_append, List.forall_mem_append]
        exact ⟨⟨htag, by simp⟩, ih⟩

/-- A name that goes on behind its at sign with no digit is no label of a jump target. -/
theorem ne_jumpLabel {name base : String} {c : Char} {rest : List Char} (hb : IsSourceName base)
    (hname : name.toList = base.toList ++ '@' :: c :: rest) (hc : c.isDigit = false) (n : Nat) :
    name ≠ jumpLabel n := by
  rintro rfl
  rw [toList_jumpLabel] at hname
  obtain ⟨-, hrest⟩ := append_cons_inj isSourceName_L.at_notMem hb.at_notMem hname
  obtain ⟨d, ds, hdigits, hall⟩ := exists_digits n
  rw [hdigits] at hrest
  obtain ⟨rfl, -⟩ := List.cons.inj hrest
  simp [hall d List.mem_cons_self] at hc

theorem decorate_ne_jumpLabel {base : String} (hb : IsSourceName base) (args : List Scalar)
    (n : Nat) : decorate base args ≠ jumpLabel n :=
  ne_jumpLabel hb (toList_decorate base args) (by decide) n

theorem globalLabel_ne_jumpLabel {base : String} (hb : IsSourceName base) (k n : Nat) :
    globalLabel base k ≠ jumpLabel n :=
  ne_jumpLabel hb (toList_globalLabel base k) (by decide) n

/-- A label of a variable is no name of a function. -/
theorem globalLabel_ne_decorate {base base' : String} (hb : IsSourceName base)
    (hb' : IsSourceName base') (k : Nat) (args : List Scalar) :
    globalLabel base k ≠ decorate base' args := by
  intro h
  have hlist := congrArg String.toList h
  rw [toList_globalLabel, toList_decorate] at hlist
  obtain ⟨-, hrest⟩ := append_cons_inj hb.at_notMem hb'.at_notMem hlist
  exact absurd (List.cons.inj hrest).1 (by decide)

end StackLang
