/-
**Where a pass stands.**

A pass returns what it leaves behind and the rules that it used, but not the count of jumps that it
goes by.  Here it is followed from instruction to instruction: what lies behind it, what lies ahead,
and the count.  No rule counts again; it releases the targets of the jumps that it takes away.  That
keeps the count exact wherever the walk stands, so that no rule overlooks a jump into the
instructions that it changes, and no release finds the count at zero.

Main definitions:

* `Peephole.Walk`, `Peephole.Walk.step` — where a pass stands, and how it goes on;
* `Peephole.released`, `Peephole.Covers` — the jumps that a rule takes away, and a count that holds
  them all;
* `Peephole.Walk.IsCounted` — the count of a walk is right.

Main results:

* `Peephole.Walk.pass_eq`, `Peephole.Walk.passAll_eq` — a pass is a walk over the instructions;
* `Peephole.Walk.step_cases` — all that a step can do;
* `Peephole.Walk.counted_passAll` — the count is right wherever a pass stands.
-/

import StackLang.Proofs.Peephole.Rewrite

set_option relaxedAutoImplicit false
set_option autoImplicit false

namespace StackLang

namespace Peephole

open Machine

/-! ### Walks -/

/-- Where a pass stands. -/
structure Walk where
  /-- The instructions behind it, as it has left them. -/
  passed : List Instr
  /-- The instructions ahead, the next one first. -/
  ahead : List Instr
  /-- The count of jumps. -/
  refs : References
  /-- The rules used so far, in order. -/
  used : List RuleName

namespace Walk

/-- All the instructions. -/
def code (w : Walk) : List Instr := w.passed ++ w.ahead

/-- The start of a pass. -/
def start (code : List Instr) : Walk := ⟨[], code, .ofInstrs code, []⟩

/-- The walk leaves the next instruction as it is. -/
def skip (i : Instr) (is : List Instr) (w : Walk) : Walk :=
  { w with passed := w.passed ++ [i], ahead := is }

/-- **The walk goes on behind the next instruction**, after the first rule that applies there. -/
def step (w : Walk) : Walk :=
  match w.ahead with
  | [] => w
  | i :: is =>
    if i.isNop then w.skip i is
    else
      match firstRule? w.refs (i :: is) with
      | some (name, j :: js, refs) => ⟨w.passed ++ [j], js, refs, w.used ++ [name]⟩
      | _ => w.skip i is

@[simp] theorem code_start (code : List Instr) : (start code).code = code := rfl

@[simp] theorem code_skip (w : Walk) (i : Instr) (is : List Instr) :
    (w.skip i is).code = w.passed ++ i :: is := by
  simp [skip, code]

@[simp] theorem pass_nil (n : Nat) (refs : References) : pass n refs [] = ([], []) := by
  cases n <;> rfl

/-- **A pass is a walk over the instructions.** -/
theorem pass_eq (n : Nat) (w : Walk) :
    (step^[n] w).code = w.passed ++ (pass n w.refs w.ahead).1 ∧
      (step^[n] w).used = w.used ++ (pass n w.refs w.ahead).2 := by
  induction n generalizing w with
  | zero => simp [pass, code]
  | succ n ih =>
      rw [Function.iterate_succ_apply]
      obtain ⟨passed, ahead, refs, used⟩ := w
      cases ahead with
      | nil =>
          have hstill : step ⟨passed, [], refs, used⟩ = ⟨passed, [], refs, used⟩ := rfl
          simpa [hstill] using ih ⟨passed, [], refs, used⟩
      | cons i is =>
          have hskip := ih (skip i is ⟨passed, i :: is, refs, used⟩)
          simp only [skip, List.append_assoc, List.singleton_append] at hskip
          cases hi : i.isNop with
          | true => simpa [step, pass, hi, skip] using hskip
          | false =>
              match hrule : firstRule? refs (i :: is) with
              | none => simpa [step, pass, hi, hrule, skip] using hskip
              | some (_, [], _) => simpa [step, pass, hi, hrule, skip] using hskip
              | some (name, j :: js, refs') =>
                  have hrest := ih ⟨passed ++ [j], js, refs', used ++ [name]⟩
                  simpa [step, pass, hi, hrule] using hrest

theorem passAll_eq (code : List Instr) : passAll code =
    ((step^[code.length] (start code)).code, (step^[code.length] (start code)).used) := by
  obtain ⟨hcode, hused⟩ := pass_eq code.length (start code)
  rw [hcode, hused]
  rfl

/-- **All that a step can do**: it leaves the code and the count, or it uses the first rule that
applies ahead. -/
theorem step_cases (w : Walk) :
    (w.step.code = w.code ∧ w.step.refs = w.refs ∧ w.step.used = w.used) ∨
      ∃ name js, firstRule? w.refs w.ahead = some (name, js, w.step.refs) ∧
        w.step.code = w.passed ++ js ∧ w.step.used = w.used ++ [name] := by
  obtain ⟨passed, ahead, refs, used⟩ := w
  cases ahead with
  | nil => exact .inl ⟨rfl, rfl, rfl⟩
  | cons i is =>
      have hskip : ∀ w : Walk, w = skip i is ⟨passed, i :: is, refs, used⟩ →
          w.code = passed ++ i :: is ∧ w.refs = refs ∧ w.used = used := by
        rintro w rfl
        exact ⟨by simp, rfl, rfl⟩
      simp only [step]
      split
      case isTrue => exact .inl (hskip _ rfl)
      case isFalse =>
        split
        case h_1 name j js refs' hrule =>
          exact .inr ⟨name, j :: js, hrule, by simp [code], rfl⟩
        case h_2 => exact .inl (hskip _ rfl)

end Walk

/-! ### Releases -/

/-- The targets that a rule releases, in order: those of the jumps that it takes away. -/
def released : RuleName → List Instr → List Nat
  | .comparisonJump, first :: _ :: skip :: _ => first.targetId?.toList ++ skip.targetId?.toList
  | .jumpToNext, jump :: _ => jump.targetId?.toList
  | .constantJump, first :: _ :: test :: _ =>
    match first.pushed?, test.op with
    | some n, .jump c => if c.holds n then [] else test.targetId?.toList
    | _, _ => []
  | _, _ => []

/-- When some targets are released one after another, there is a jump to each in the count. -/
def Covers : References → List Nat → Prop
  | _, [] => True
  | refs, k :: ks => 0 < refs.count k ∧ Covers (refs.release k) ks

/-- What a rule does to the count: it releases targets, each of which is counted. -/
def Releases (name : RuleName) (refs : References) (is : List Instr) (refs' : References) : Prop :=
  refs' = (released name is).foldl .release refs ∧ Covers refs (released name is)

section Releases

variable {refs refs' : References} {pre is js : List Instr}

/-- The target of a jump of the code is counted. -/
theorem count_pos {code : List Instr} (hrefs : Exact refs code) {i : Instr} (hi : i ∈ code)
    {k : Nat} (hk : i.targetId? = some k) : 0 < refs.count k := by
  rw [hrefs, Nat.pos_iff_ne_zero]
  exact fun h => jumpsTo_eq_zero.1 h i hi hk

theorem releases_of_comparisonJump (hcode : Regular (pre ++ is))
    (h : comparisonJump refs is = some (js, refs')) : Releases .comparisonJump refs is refs' := by
  obtain ⟨first, zero, skip, one, drop, test, post, cc, c, rfl, -, rfl, -, -, -, -, -, -, -, -, -,
    ⟨hone, hcount⟩, hend, hcount'⟩ := exists_of_comparisonJump h
  have hreleased : released .comparisonJump (first :: zero :: skip :: one :: drop :: test :: post)
      = [one.id, drop.id] := by simp [released, hone, hend]
  -- the first release leaves the other target counted
  have hne : one.id ≠ drop.id :=
    @id_ne_of_neighbours (pre ++ [first, zero, skip]) _ _ _ (by simpa using hcode)
  rw [Releases, hreleased]
  refine ⟨rfl, by omega, ?_, trivial⟩
  rw [count_release, if_neg hne]
  omega

theorem releases_of_jumpToNext (hrefs : Exact refs (pre ++ is))
    (h : jumpToNext refs is = some (js, refs')) : Releases .jumpToNext refs is refs' := by
  obtain ⟨i, post, c, k, rfl, -, rfl, -, hk, -⟩ := exists_of_jumpToNext h
  have hreleased : released .jumpToNext (i :: post) = [k] := by simp [released, hk]
  rw [Releases, hreleased]
  exact ⟨rfl, count_pos hrefs (by simp) hk, trivial⟩

theorem releases_of_constantJump (hrefs : Exact refs (pre ++ is))
    (h : constantJump refs is = some (js, refs')) : Releases .constantJump refs is refs' := by
  obtain ⟨first, drop, test, post, n, c, rfl, hn, -, htest, -, -, hout⟩ := exists_of_constantJump h
  have hreleased : released .constantJump (first :: drop :: test :: post)
      = if c.holds n then [] else test.targetId?.toList := by simp [released, hn, htest]
  rw [Releases, hreleased]
  rcases hout with ⟨hholds, -, rfl⟩ | ⟨hholds, -, rfl⟩
  · -- the test becomes a jump to the same target
    rw [if_pos hholds]
    exact ⟨rfl, trivial⟩
  · rw [if_neg (by simp [hholds]), References.releaseTarget]
    cases hk : test.targetId? with
    | none => exact ⟨rfl, trivial⟩
    | some k => exact ⟨rfl, count_pos hrefs (by simp) hk, trivial⟩

/-- A rule that takes no jump away leaves the count as it is. -/
theorem Releases.still {name : RuleName} (hname : released name is = []) (h : refs' = refs) :
    Releases name refs is refs' := by
  rw [Releases, hname]
  exact ⟨h, trivial⟩

theorem releases_of_deadPair (h : deadPair refs is = some (js, refs')) :
    Releases .deadPair refs is refs' := by
  obtain ⟨_, _, _, -, -, hstill, -⟩ := exists_of_deadPair h
  exact .still rfl hstill

theorem releases_of_floatLiteral (h : floatLiteral refs is = some (js, refs')) :
    Releases .floatLiteral refs is refs' := by
  obtain ⟨_, _, _, _, -, -, hstill, -⟩ := exists_of_floatLiteral h
  exact .still rfl hstill

theorem releases_of_duplicateLoad (h : duplicateLoad refs is = some (js, refs')) :
    Releases .duplicateLoad refs is refs' := by
  obtain ⟨_, _, _, -, -, hstill, -⟩ := exists_of_duplicateLoad h
  exact .still rfl hstill

/-- **A rule that applies releases targets that are counted**, and changes the count in no other
way. -/
theorem releases_of_firstRule {name : RuleName} (hcode : Regular (pre ++ is))
    (hrefs : Exact refs (pre ++ is)) (h : firstRule? refs is = some (name, js, refs')) :
    Releases name refs is refs' := by
  obtain ⟨rule, hmem, hout⟩ := exists_of_firstRule? h
  simp only [rules, List.mem_cons, Prod.mk.injEq, List.not_mem_nil, or_false] at hmem
  rcases hmem with ⟨rfl, rfl⟩ | ⟨rfl, rfl⟩ | ⟨rfl, rfl⟩ | ⟨rfl, rfl⟩ | ⟨rfl, rfl⟩ | ⟨rfl, rfl⟩
  · exact releases_of_comparisonJump hcode hout
  · exact releases_of_jumpToNext hrefs hout
  · exact releases_of_constantJump hrefs hout
  · exact releases_of_deadPair hout
  · exact releases_of_floatLiteral hout
  · exact releases_of_duplicateLoad hout

end Releases

/-! ### Counts along a walk -/

namespace Walk

variable {w : Walk} {code : List Instr}

/-- The code of a walk is regular, and its count is exact. -/
structure IsSound (w : Walk) : Prop where
  regular : Regular w.code
  exact : Exact w.refs w.code

theorem isSound_start (hreg : Regular code) : (start code).IsSound := ⟨hreg, count_ofInstrs code⟩

namespace IsSound

/-- **A step uses no rule, or it makes one of the changes.** -/
theorem code_step (h : w.IsSound) :
    (w.step.code = w.code ∧ w.step.used = w.used) ∨
      ∃ name seg seg' post, Rewrites w.passed post seg seg' ∧
        w.code = w.passed ++ (seg ++ post) ∧ w.step.code = w.passed ++ (seg' ++ post) ∧
        w.step.used = w.used ++ [name] := by
  rcases w.step_cases with ⟨hcode, -, hused⟩ | ⟨name, js, hrule, hcode, hused⟩
  · exact .inl ⟨hcode, hused⟩
  · obtain ⟨-, seg, seg', post, hseg, rfl, hchange⟩ :=
      changed_of_firstRule h.regular h.exact hrule
    exact .inr ⟨name, seg, seg', post, hchange, by rw [code, hseg], hcode, hused⟩

/-- **The count stays exact** when the walk goes on. -/
protected theorem step (h : w.IsSound) : w.step.IsSound := by
  constructor
  · rcases h.code_step with ⟨hcode, -⟩ | ⟨name, seg, seg', post, hchange, hold, hnew, -⟩
    · exact hcode ▸ h.regular
    · exact hnew ▸ hchange.regular (hold ▸ h.regular)
  · rcases w.step_cases with ⟨hcode, hrefs, -⟩ | ⟨name, js, hrule, hcode, -⟩
    · rw [hcode, hrefs]
      exact h.exact
    · rw [hcode]
      exact (changed_of_firstRule h.regular h.exact hrule).1

protected theorem iterate (h : w.IsSound) (n : Nat) : (Walk.step^[n] w).IsSound := by
  induction n with
  | zero => exact h
  | succ n ih =>
      rw [Function.iterate_succ_apply']
      exact ih.step

end IsSound

/-- **The count of a walk is right**: it gives the number of jumps to each identity, a rule that
asks it for a jump to an instruction gets the right answer, and what a rule releases is counted. -/
structure IsCounted (w : Walk) : Prop where
  exact : Exact w.refs w.code
  plain : ∀ i : Instr, w.refs.isPlain i = true ↔ ∀ j ∈ w.code, j.targetId? ≠ some i.id
  releases : ∀ name js refs', firstRule? w.refs w.ahead = some (name, js, refs') →
    Releases name w.refs w.ahead refs'

theorem IsSound.isCounted (h : w.IsSound) : w.IsCounted where
  exact := h.exact
  plain i := by
    rw [← jumpsTo_eq_zero, ← h.exact]
    simp [References.isPlain]
  releases _ _ _ hrule := releases_of_firstRule h.regular h.exact hrule

/-- **The count is right wherever a pass stands**: at its start and behind each instruction, whether
a rule was used there or not. -/
theorem counted_passAll (hreg : Regular code) :
    (∀ n, (step^[n] (start code)).IsCounted) ∧
      passAll code =
        ((step^[code.length] (start code)).code, (step^[code.length] (start code)).used) :=
  ⟨fun n => ((isSound_start hreg).iterate n).isCounted, passAll_eq code⟩

/-- A comparison that is tested at once, and a jump to what comes next: of the jumps to the first
two targets none is left, and of the two to the third one. -/
theorem counted_passAll_comparison : ∃ code, Regular code ∧
    (passAll code).2 = [.comparisonJump, .jumpToNext] ∧
    ((passAll code).1.filterMap Instr.targetId?, code.filterMap Instr.targetId?)
      = ([9], [5, 6, 9, 9]) ∧
    (∀ n, (step^[n] (start code)).IsCounted) ∧
    passAll code =
      ((step^[code.length] (start code)).code, (step^[code.length] (start code)).used) := by
  have hreg : Regular [.plain 0 .load (.frame 4), .plain 1 .pop .none,
      .jump 2 .less (some (.instr 5)), .plain 3 .load (.int 0), .jump 4 .always (some (.instr 6)),
      .plain 5 .load (.int 1), .plain 6 .pop .none, .jump 7 .equal (some (.instr 9)),
      .jump 8 .always (some (.instr 9)), .plain 9 .halt .none] := ⟨by decide, by decide⟩
  exact ⟨_, hreg, by cbv, by cbv, counted_passAll hreg⟩

end Walk

end Peephole

end StackLang
