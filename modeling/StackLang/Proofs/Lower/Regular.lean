/-
**Lowered code is regular.**

Every stretch of lowered code has the identities of an interval, each once.  Its jumps go to
instructions of the stretch or to places that the surroundings provide, which are no conditional
jumps; and a conditional jump is only ever made directly behind a pop.

Main definitions:

* `Lower.idCount` — how often an identity occurs;
* `Lower.Tidy` — what holds of every stretch, for the places that the surroundings provide.

Main results:

* `Lower.Emits.idCount_eq`, `Lower.Emits.tidy` — stretches of lowered code have these properties;
* `Lower.EmitsUnit.regular`, `Lower.EmitsUnit.guarded` — so the code of a unit is regular, and its
  conditional jumps stand behind the pops whose cells they test.
-/

import StackLang.Proofs.Lower.Emits
import StackLang.Proofs.Machine.Simulation

set_option relaxedAutoImplicit false
set_option autoImplicit false

namespace StackLang

namespace Lower

open Machine

/-! ### Identities -/

/-- One below `k`, zero from there on. -/
def under (k j : Nat) : Int := if j < k then 1 else 0

/-- How often an identity occurs. -/
def idCount (j : Nat) (is : List Instr) : Int := ((is.map Instr.id).count j : Nat)

theorem under_succ (k j : Nat) : under (k + 1) j - under k j = if k = j then 1 else 0 := by
  unfold under
  split_ifs <;> omega

section IdCount

variable (j : Nat)

@[simp] theorem idCount_nil : idCount j [] = 0 := rfl

@[simp] theorem idCount_cons (i : Instr) (is : List Instr) :
    idCount j (i :: is) = idCount j is + (under (i.id + 1) j - under i.id j) := by
  rw [under_succ, idCount, idCount, List.map_cons, List.count_cons]
  by_cases h : i.id = j <;> simp [h]

@[simp] theorem idCount_append (is js : List Instr) :
    idCount j (is ++ js) = idCount j is + idCount j js := by
  simp [idCount]

theorem idCount_copies (k n : Nat) (op : Op) (operand : Operand) :
    idCount j (copies k n op operand) = under (k + n) j - under k j := by
  induction n generalizing k with
  | zero => simp [copies]
  | succ n ih =>
      rw [copies_succ, idCount_cons, ih, show k + 1 + n = k + (n + 1) by omega]
      simp only [Instr.plain]
      omega

theorem idCount_conversion (k : Nat) (s t : Scalar) :
    idCount j (conversion k s t) = under (k + (conversion k s t).length) j - under k j := by
  cases s <;> cases t <;> simp [conversion, Instr.plain]

theorem idCount_verdict (k : Nat) (c : Condition) :
    idCount j (verdict k c) = under (k + 6) j - under k j := by
  simp only [verdict, idCount_cons, idCount_nil, Instr.plain, Instr.jump, Nat.add_assoc]
  norm_num
  omega

end IdCount

/-- **The identities of a stretch of lowered code are those of an interval**, each once. -/
theorem Emits.idCount_eq {symbols : Symbols} {site : Site} {piece : Piece} {k k' : Nat}
    {code : List Instr} (h : Emits symbols site piece k code k') (j : Nat) :
    idCount j code = under k' j - under k j := by
  induction h with
  | _ =>
      simp only [idCount_append, idCount_cons, idCount_nil, idCount_copies, idCount_conversion,
        idCount_verdict, Instr.plain, Instr.jump, Nat.add_assoc, Nat.reduceAdd, *]
      try omega

/-! ### Targets and conditional jumps -/

/-- A place that jumps of a stretch may go to: one that the surroundings provide, or an instruction
of the stretch other than a conditional jump. -/
def Open (outs : Nat → Prop) (code : List Instr) (k : Nat) : Prop :=
  outs k ∨ ∃ i ∈ code, i.id = k ∧ i.op.isConditionalJump = false

/-- What holds of every stretch of lowered code.  Its jumps go to the end of the function, to places
that the surroundings provide or to instructions of the stretch, and conditional jumps stand behind
pops. -/
structure Tidy (outs : Nat → Prop) (code : List Instr) : Prop where
  onlyJumps : ∀ i ∈ code, i.op.isJump = false → i.target = none
  targets : ∀ i ∈ code, ∀ k, i.target = some (.instr k) → Open outs code k
  quiet : Quiet code
  chain : code.IsChain Follower

namespace Tidy

variable {outs outs' : Nat → Prop} {a b : List Instr} {i : Instr}

theorem nil : Tidy outs [] := ⟨by simp, by simp, quiet_nil, .nil⟩

/-- What is open to a stretch is open to a longer one. -/
theorem open_mono {c : List Instr} {k : Nat} (h : Open outs a k)
    (hsub : ∀ i ∈ a, i ∈ c) : Open outs c k := by
  rcases h with h | ⟨i, hi, hid, hop⟩
  · exact .inl h
  · exact .inr ⟨i, hsub i hi, hid, hop⟩

theorem append (ha : Tidy outs a) (hb : Tidy outs b) : Tidy outs (a ++ b) := by
  refine ⟨?_, ?_, ha.quiet.append hb.quiet, ?_⟩
  · intro i hi hop
    rcases List.mem_append.1 hi with hi | hi
    · exact ha.onlyJumps i hi hop
    · exact hb.onlyJumps i hi hop
  · intro i hi k hk
    rcases List.mem_append.1 hi with hi | hi
    · exact open_mono (ha.targets i hi k hk) fun i hi => List.mem_append_left _ hi
    · exact open_mono (hb.targets i hi k hk) fun i hi => List.mem_append_right _ hi
  · refine List.isChain_append.2 ⟨ha.chain, hb.chain, fun i _ j hj hop => ?_⟩
    simp [hb.quiet j hj] at hop

/-- An instruction that is no jump. -/
theorem plain (hop : i.op.isJump = false) (htarget : i.target = none) : Tidy outs [i] := by
  refine ⟨?_, ?_, ?_, .singleton i⟩
  · intro j hj _
    rw [List.mem_singleton.1 hj, htarget]
  · intro j hj k hk
    rw [List.mem_singleton.1 hj, htarget] at hk
    cases hk
  · rw [quiet_cons]
    cases h : i.op <;> simp [h, Op.isJump, Op.isConditionalJump] at hop ⊢

theorem cons (hop : i.op.isJump = false) (htarget : i.target = none) (ha : Tidy outs a) :
    Tidy outs (i :: a) := (plain hop htarget).append ha

/-- A jump that is always taken. -/
theorem jump {k : Nat} {target : Target} (h : ∀ m, target = .instr m → outs m) :
    Tidy outs [.jump k .always (some target)] := by
  refine ⟨?_, ?_, ?_, .singleton _⟩
  · intro j hj hop
    rw [List.mem_singleton.1 hj] at hop
    cases hop
  · intro j hj m hm
    rw [List.mem_singleton.1 hj] at hm
    exact .inl (h m (Option.some.inj hm))
  · simp [Instr.jump, Op.isConditionalJump, Condition.isConditional]

/-- A pop and a jump that tests its cell. -/
theorem test {k j m : Nat} {c : Condition} (h : outs m) :
    Tidy outs [.plain k .pop .none, .jump j c (some (.instr m))] := by
  refine ⟨?_, ?_, ?_, ?_⟩
  · simp [Instr.plain, Instr.jump, Op.isJump]
  · simp [Instr.plain, Instr.jump]
    exact .inl h
  · simp [Instr.plain, Op.isConditionalJump]
  · exact .cons_cons (fun _ => rfl) (.singleton _)

/-- Places of the stretch itself need not be provided. -/
theorem close (h : Tidy outs' a) (houts : ∀ k, outs' k → Open outs a k) : Tidy outs a := by
  refine ⟨h.onlyJumps, fun i hi k hk => ?_, h.quiet, h.chain⟩
  rcases h.targets i hi k hk with hout | hin
  · exact houts k hout
  · exact .inr hin

theorem mono (h : Tidy outs' a) (houts : ∀ k, outs' k → outs k) : Tidy outs a :=
  h.close fun k hk => .inl (houts k hk)

theorem copies {k n : Nat} {op : Op} {operand : Operand} (hop : op.isJump = false) :
    Tidy outs (Lower.copies k n op operand) := by
  induction n generalizing k with
  | zero => exact nil
  | succ n ih =>
      rw [copies_succ]
      exact cons hop rfl ih

theorem conversion {k : Nat} {s t : Scalar} : Tidy outs (Lower.conversion k s t) := by
  cases s <;> cases t
  · exact nil
  · exact plain rfl rfl
  · exact plain rfl rfl
  · exact nil

theorem verdict {k : Nat} {c : Condition} : Tidy outs (Lower.verdict k c) := by
  have h : Tidy (fun m => m = k + 1 ∨ m = k + 2) (Lower.verdict k c) :=
    (test (.inl rfl)).append (cons rfl rfl ((jump (by simp)).append (cons rfl rfl (plain rfl rfl))))
  refine h.close fun m hm => ?_
  rcases hm with rfl | rfl
  · exact .inr ⟨.plain (k + 1) .load (.int 1), by simp [Lower.verdict], rfl, rfl⟩
  · exact .inr ⟨.plain (k + 2) .nop .none, by simp [Lower.verdict], rfl, rfl⟩

end Tidy

/-- The places that the surroundings of a piece provide: the two ends of the loop, and for a test
the place to go to. -/
def outs (site : Site) (piece : Piece) (k : Nat) : Prop :=
  (∃ l, site.loop = some l ∧ (k = l.head ∨ k = l.exit)) ∨
    ∃ x, piece = .test x k

/-- The surroundings of a part provide what those of the whole do, unless a test adds a place. -/
theorem outs_mono {site site' : Site} {piece piece' : Piece} (hloop : site'.loop = site.loop)
    (hpiece : ∀ x m, piece' ≠ .test x m) (k : Nat) (h : outs site' piece' k) :
    outs site piece k := by
  rcases h with h | ⟨x, h⟩
  · exact .inl (hloop ▸ h)
  · exact absurd h (hpiece x k)

/-- **Stretches of lowered code are tidy.** -/
theorem Emits.tidy {symbols : Symbols} {site : Site} {piece : Piece} {k k' : Nat}
    {code : List Instr} (h : Emits symbols site piece k code k') :
    Tidy (outs site piece) code := by
  induction h with
  | literal => exact .plain rfl rfl
  | identifier => exact .plain rfl rfl
  | assign _ _ _ _ ih =>
      exact (ih.mono (outs_mono rfl (by simp))).append (.cons rfl rfl (.plain rfl rfl))
  | comparison _ _ _ _ _ ihl ihr =>
      refine ((ihl.mono ?_).append (ihr.mono ?_)).append (.cons rfl rfl .verdict) <;>
        exact outs_mono rfl (by simp)
  | arith _ _ _ _ ihl ihr =>
      refine ((ihl.mono ?_).append (ihr.mono ?_)).append (.plain rfl rfl) <;>
        exact outs_mono rfl (by simp)
  | plus _ ih => exact ih.mono (outs_mono rfl (by simp))
  | minus _ _ ih =>
      exact (Tidy.cons rfl rfl (ih.mono (outs_mono rfl (by simp)))).append (.plain rfl rfl)
  | not _ ih => exact (ih.mono (outs_mono rfl (by simp))).append .verdict
  | call _ _ ih =>
      exact (Tidy.cons rfl rfl (ih.mono (outs_mono rfl (by simp)))).append
        (.cons rfl rfl (.copies rfl))
  | @cond site n c t k k₁ k₂ a b type _ _ _ ihc iht =>
      -- the two places inside are the targets of the test and of the jump behind the branch
      let inside := fun m => m = k ∨ m = k + 1 ∨ outs site (.node (.cond n c t none)) m
      have hc : Tidy inside a := ihc.mono fun m hm => by
        rcases hm with hm | ⟨x, hx⟩
        · exact .inr (.inr (.inl hm))
        · cases hx
          exact .inl rfl
      have ht : Tidy inside b := iht.mono fun m hm => .inr (.inr (outs_mono rfl (by simp) m hm))
      have hrest : Tidy inside [.jump k₂ .always (some (.instr (k + 1))), .plain k .nop .none,
          .plain (k₂ + 1) .load (.zero type), .plain (k + 1) .nop .none] :=
        (Tidy.jump (by simp [inside])).append (.cons rfl rfl (.cons rfl rfl (.plain rfl rfl)))
      refine ((hc.append ht).append hrest).close fun m hm => ?_
      rcases hm with rfl | rfl | hm
      · exact .inr ⟨.plain m .nop .none, by simp, rfl, rfl⟩
      · exact .inr ⟨.plain (k + 1) .nop .none, by simp, rfl, rfl⟩
      · exact .inl hm
  | @condElse site n c t e k k₁ k₂ k₃ a b d type _ _ _ _ ihc iht ihe =>
      let inside := fun m => m = k ∨ m = k + 1 ∨ outs site (.node (.cond n c t (some e))) m
      have hc : Tidy inside a := ihc.mono fun m hm => by
        rcases hm with hm | ⟨x, hx⟩
        · exact .inr (.inr (.inl hm))
        · cases hx
          exact .inl rfl
      have ht : Tidy inside b := iht.mono fun m hm => .inr (.inr (outs_mono rfl (by simp) m hm))
      have he : Tidy inside d := ihe.mono fun m hm => .inr (.inr (outs_mono rfl (by simp) m hm))
      have hleave : Tidy inside
          (.jump k₂ .always (some (.instr (k + 1))) :: .plain k .nop .none :: d) :=
        (Tidy.jump (by simp [inside])).append (.cons rfl rfl he)
      refine (((hc.append ht).append hleave).append (.plain rfl rfl)).close fun m hm => ?_
      rcases hm with rfl | rfl | hm
      · exact .inr ⟨.plain m .nop .none, by simp, rfl, rfl⟩
      · exact .inr ⟨.plain (k + 1) .nop .none, by simp, rfl, rfl⟩
      · exact .inl hm
  | @endless site n c b k k₁ a _ _ ihb =>
      let inside := fun m => m = k ∨ m = k + 1
      have hb : Tidy inside a := ihb.mono fun m hm => by
        rcases hm with ⟨l, hl, hm⟩ | ⟨x, hx⟩
        · cases hl
          exact hm
        · cases hx
      have hrest : Tidy inside [.plain k₁ .pop .none, .jump (k₁ + 1) .always (some (.instr k)),
          .plain (k + 1) .nop .none, .plain (k₁ + 2) .load (.int 0)] :=
        .cons rfl rfl ((Tidy.jump (by simp [inside])).append (.cons rfl rfl (.plain rfl rfl)))
      refine ((Tidy.cons rfl rfl hb).append hrest).close fun m hm => ?_
      rcases hm with rfl | rfl
      · exact .inr ⟨.plain m .nop .none, by simp, rfl, rfl⟩
      · exact .inr ⟨.plain (k + 1) .nop .none, by simp, rfl, rfl⟩
  | @loop site n c b k k₁ k₂ a d _ _ _ ihc ihb =>
      let inside := fun m => m = k ∨ m = k + 1
      have hc : Tidy inside a := ihc.mono fun m hm => by
        rcases hm with ⟨l, hl, hm⟩ | ⟨x, hx⟩
        · cases hl
          exact hm
        · cases hx
          exact .inr rfl
      have hb : Tidy inside d := ihb.mono fun m hm => by
        rcases hm with ⟨l, hl, hm⟩ | ⟨x, hx⟩
        · cases hl
          exact hm
        · cases hx
      have hrest : Tidy inside [.plain k₂ .pop .none, .jump (k₂ + 1) .always (some (.instr k)),
          .plain (k + 1) .nop .none, .plain (k₂ + 2) .load (.int 0)] :=
        .cons rfl rfl ((Tidy.jump (by simp [inside])).append (.cons rfl rfl (.plain rfl rfl)))
      refine (((Tidy.cons rfl rfl hc).append hb).append hrest).close fun m hm => ?_
      rcases hm with rfl | rfl
      · exact .inr ⟨.plain m .nop .none, by simp, rfl, rfl⟩
      · exact .inr ⟨.plain (k + 1) .nop .none, by simp, rfl, rfl⟩
  | idleJump => exact .nil
  | @loopJump site x toHead k l hx hloop =>
      refine (Tidy.copies rfl).append (.jump fun m hm => .inl ⟨l, hloop, ?_⟩)
      cases hm
      cases toHead
      · exact .inr rfl
      · exact .inl rfl
  | returnValue _ ih =>
      exact ((Tidy.copies rfl).append (ih.mono (outs_mono rfl (by simp)))).append (.jump (by simp))
  | block _ ih => exact ih.mono (outs_mono rfl (by simp))
  | assembly => exact .plain rfl rfl
  | nop => exact .plain rfl rfl
  | silent => exact .nil
  | whole _ _ ih => exact ih.mono (outs_mono rfl (by simp))
  | padded _ _ ih => exact (ih.mono (outs_mono rfl (by simp))).append (.plain rfl rfl)
  | converted _ _ ih => exact (ih.mono (outs_mono rfl (by simp))).append .conversion
  | test _ ih => exact (ih.mono (outs_mono rfl (by simp))).append (.test (.inr ⟨_, rfl⟩))
  | noStatement => exact .plain rfl rfl
  | lastStatement _ ih => exact ih.mono (outs_mono rfl (by simp))
  | droppedStatement _ _ _ ihx ihxs =>
      exact (ihx.mono (outs_mono rfl (by simp))).append
        (.cons rfl rfl (ihxs.mono (outs_mono rfl (by simp))))
  | bareStatement _ _ _ ihx ihxs =>
      exact (ihx.mono (outs_mono rfl (by simp))).append (ihxs.mono (outs_mono rfl (by simp)))
  | noArgument => exact .nil
  | argument _ _ ihxs ihx =>
      exact (ihxs.mono (outs_mono rfl (by simp))).append (ihx.mono (outs_mono rfl (by simp)))

/-! ### Functions and units -/

/-- No place is provided. -/
def nowhere (_ : Nat) : Prop := False

section Resolved

variable {a : List Instr} {k : Nat}

@[simp] theorem id_resolveInstr (i : Instr) : (Code.resolveInstr k i).id = i.id := by
  unfold Code.resolveInstr
  split <;> rfl

@[simp] theorem op_resolveInstr (i : Instr) : (Code.resolveInstr k i).op = i.op := by
  unfold Code.resolveInstr
  split <;> rfl

@[simp] theorem operand_resolveInstr (i : Instr) :
    (Code.resolveInstr k i).operand = i.operand := by
  unfold Code.resolveInstr
  split <;> rfl

theorem target_resolveInstr (i : Instr) : (Code.resolveInstr k i).target =
    if i.target = some .epilogue then some (.instr k) else i.target := by
  unfold Code.resolveInstr
  split <;> rfl

@[simp] theorem idCount_resolved (j : Nat) (a : List Instr) :
    idCount j (resolved k a) = idCount j a := by
  simp [idCount, resolved, Function.comp_def]

/-- The end of the function has a place. -/
theorem Tidy.resolved (h : Tidy nowhere a)
    (hk : ∃ i ∈ a, i.id = k ∧ i.op.isConditionalJump = false) :
    Tidy nowhere (Lower.resolved k a) := by
  have hopen : ∀ m, Open nowhere a m → Open nowhere (Lower.resolved k a) m := by
    rintro m (hm | ⟨i, hi, rfl, hop⟩)
    · exact hm.elim
    · exact .inr ⟨Code.resolveInstr k i, List.mem_map_of_mem hi, by simp, by simpa using hop⟩
  refine ⟨?_, ?_, ?_, ?_⟩
  · intro i hi hop
    obtain ⟨i, hi', rfl⟩ := List.mem_map.1 hi
    have htarget := h.onlyJumps i hi' (by simpa using hop)
    simp [target_resolveInstr, htarget]
  · intro i hi m hm
    obtain ⟨i, hi', rfl⟩ := List.mem_map.1 hi
    rw [target_resolveInstr] at hm
    split at hm
    · cases hm
      exact hopen k (.inr hk)
    · exact hopen m (h.targets i hi' m hm)
  · cases a with
    | nil => exact quiet_nil
    | cons i a =>
        have hop := quiet_cons.1 h.quiet
        exact quiet_cons.2 (by simpa using hop)
  · exact List.isChain_map_of_isChain _ (fun i j hij => by simpa [Follower] using hij) h.chain

end Resolved

section Units

variable {symbols : Symbols} {t : Typing} {r : Round} {f : Inferred} {is : List Instance}
  {k k' : Nat} {code : List Instr}

theorem outs_top {piece : Piece} (hpiece : ∀ x m, piece ≠ .test x m) (k : Nat) :
    outs .top piece k → nowhere k := by
  rintro (⟨l, hl, -⟩ | ⟨x, hx⟩)
  · cases hl
  · exact absurd hx (hpiece x k)

theorem EmitsFunction.tidy (h : EmitsFunction symbols f k code k') : Tidy nowhere code := by
  cases h with
  | @mk a k₁ comment hbody =>
      refine Tidy.resolved ?_ ⟨⟨k₁, .store, .frame (4 + 4 * f.params.length), none, comment⟩,
        by simp, rfl, rfl⟩
      have hinner := hbody.tidy.mono (outs_top (by simp))
      exact (((Tidy.cons rfl rfl (.copies rfl)).append hinner).append
        (.cons rfl rfl (.copies rfl))).append (.plain rfl rfl)

theorem EmitsFunction.idCount_eq (h : EmitsFunction symbols f k code k') (j : Nat) :
    idCount j code = under k' j - under k j := by
  cases h with
  | mk hbody =>
      simp only [idCount_resolved, idCount_append, idCount_cons, idCount_nil, idCount_copies,
        hbody.idCount_eq j, Instr.plain]
      omega

theorem EmitsFunctions.tidy (h : EmitsFunctions r is k code k') : Tidy nowhere code := by
  induction h with
  | nil => exact .nil
  | cons _ hf _ ih => exact hf.tidy.append ih

theorem EmitsFunctions.idCount_eq (h : EmitsFunctions r is k code k') (j : Nat) :
    idCount j code = under k' j - under k j := by
  induction h with
  | nil => simp
  | cons _ hf _ ih =>
      rw [idCount_append, hf.idCount_eq, ih]
      omega

theorem EmitsUnit.tidy (h : EmitsUnit t code k) : Tidy nowhere code := by
  cases h with
  | @mk n items k₁ k' a b _ hbody hfunctions =>
      refine (Tidy.resolved ?_ ⟨.plain k₁ .halt .none, by simp, rfl, rfl⟩).append hfunctions.tidy
      exact (hbody.tidy.mono (outs_top (by simp))).append (.plain rfl rfl)

theorem EmitsUnit.idCount_eq (h : EmitsUnit t code k) (j : Nat) :
    idCount j code = under k j - under 0 j := by
  cases h with
  | mk _ hbody hfunctions =>
      simp only [idCount_resolved, idCount_append, idCount_cons, idCount_nil, hbody.idCount_eq j,
        hfunctions.idCount_eq j, Instr.plain]
      omega

/-- **The code of a unit is regular.** -/
theorem EmitsUnit.regular (h : EmitsUnit t code k) : Regular code := by
  refine ⟨List.nodup_iff_count_le_one.2 fun j => ?_, h.tidy.onlyJumps⟩
  have hj := h.idCount_eq j
  have hk : under k j ≤ 1 ∧ 0 ≤ under 0 j := by
    unfold under
    split_ifs <;> omega
  rw [idCount] at hj
  omega

/-- **Conditional jumps stand behind the pops whose cells they test** in the code of a unit. -/
theorem EmitsUnit.guarded (h : EmitsUnit t code k) : Guarded code := by
  refine ⟨h.tidy.quiet, h.tidy.chain, fun i hi m hm j hj hjm => ?_⟩
  have htarget : i.target = some (.instr m) := by
    cases hi : i.target with
    | none => simp [Instr.targetId?, hi] at hm
    | some target => cases target <;> simp_all [Instr.targetId?]
  rcases h.tidy.targets i hi m htarget with hout | ⟨j', hj', hid, hop⟩
  · exact hout.elim
  · have : j = j' := List.inj_on_of_nodup_map h.regular.nodup hj hj' (hjm.trans hid.symm)
    rw [this]
    exact hop

end Units

end Lower

end StackLang
