/-
**Comparing two runs.**

Two codes are compared by a relation on places: what one has ahead and what the other has ahead.
States are alike when they stand at related places and show the same cells.  They need not have
popped the same cell last, as long as no conditional jump is about to test it.

Main definitions:

* `Machine.Regular` — code with distinct identities, in which only jumps have targets;
* `Machine.Quiet` — the next instruction is no conditional jump;
* `Machine.Guarded` — conditional jumps stand directly behind the pop whose cell they test, and no
  jump goes to one;
* `Machine.Alike` — states at related places that show the same;
* `Machine.Joins`, `Machine.Follows` — a run of the first code to a halt meets a state that is alike
  one that the second code reaches, at once or after at least one instruction.

Main results:

* `Machine.execute_alike` — the same instruction leads alike states to alike states;
* `Machine.halts_of_follows` — if every state is followed, the second code halts as the first.
-/

import StackLang.Proofs.Machine

set_option relaxedAutoImplicit false
set_option autoImplicit false

namespace StackLang

namespace Machine

/-! ### Regular code -/

/-- Code with distinct identities, in which only jumps have targets. -/
structure Regular (code : List Instr) : Prop where
  nodup : (code.map Instr.id).Nodup
  onlyJumps : ∀ i ∈ code, i.op.isJump = false → i.target = none

theorem Regular.targetId? {code : List Instr} (h : Regular code) {i : Instr} (hi : i ∈ code)
    (hop : i.op.isJump = false) : i.targetId? = none := by
  simp [Instr.targetId?, h.onlyJumps i hi hop]

/-! ### Where flags are tested -/

/-- The next instruction is no conditional jump. -/
def Quiet (rest : List Instr) : Prop := ∀ i ∈ rest.head?, i.op.isConditionalJump = false

@[simp] theorem quiet_nil : Quiet [] := by simp [Quiet]

@[simp] theorem quiet_cons {i : Instr} {is : List Instr} :
    Quiet (i :: is) ↔ i.op.isConditionalJump = false := by simp [Quiet]

theorem Quiet.append {is : List Instr} (h : Quiet is) {js : List Instr} (hj : Quiet js) :
    Quiet (is ++ js) := by
  cases is with
  | nil => exact hj
  | cons i is => exact h

/-- A conditional jump stands directly behind a pop. -/
def Follower (i j : Instr) : Prop := j.op.isConditionalJump → i.op = .pop

/-- Conditional jumps stand directly behind the pop whose cell they test, so no jump goes to one and
code does not start with one. -/
structure Guarded (code : List Instr) : Prop where
  quiet : Quiet code
  chain : code.IsChain Follower
  untargeted : ∀ i ∈ code, ∀ k, i.targetId? = some k →
    ∀ j ∈ code, j.id = k → j.op.isConditionalJump = false

/-- What follows an instruction other than a pop is quiet. -/
theorem Guarded.quiet_tail {pre rest : List Instr} {i : Instr}
    (h : Guarded (pre ++ i :: rest)) (hi : i.op ≠ .pop) : Quiet rest := by
  have hchain : (i :: rest).IsChain Follower := h.chain.right_of_append
  cases rest with
  | nil => simp
  | cons j rest =>
      have hij : Follower i j := (List.isChain_cons_cons.1 hchain).1
      rw [quiet_cons]
      by_contra hj
      exact hi (hij (by simpa using hj))

/-! ### Looking up places -/

variable {code : List Instr} {k : Nat}

theorem goto?_append (k : Nat) (is js : List Instr) :
    goto? k (is ++ js) = ((goto? k is).map (· ++ js)).or (goto? k js) := by
  induction is with
  | nil => rfl
  | cons i is ih =>
      by_cases h : i.id = k
      · simp [goto?, h]
      · simp [goto?, h, ih]

theorem goto?_eq_none {is : List Instr} : goto? k is = none ↔ k ∉ is.map Instr.id := by
  induction is with
  | nil => simp [goto?]
  | cons i is ih =>
      by_cases h : i.id = k
      · simp [goto?, h]
      · simp [goto?, h, ih, Ne.symm h]

/-- What a jump finds is the rest of the code from an instruction with that identity. -/
theorem exists_of_goto? {is r : List Instr} (h : goto? k is = some r) :
    ∃ pre i rest, is = pre ++ i :: rest ∧ r = i :: rest ∧ i.id = k ∧ k ∉ pre.map Instr.id := by
  induction is with
  | nil => cases h
  | cons i is ih =>
      by_cases hi : i.id = k
      · simp only [goto?, if_pos hi, Option.some.injEq] at h
        exact ⟨[], i, is, rfl, h.symm, hi, by simp⟩
      · simp only [goto?, if_neg hi] at h
        obtain ⟨pre, j, rest, rfl, hr, hj, hpre⟩ := ih h
        exact ⟨i :: pre, j, rest, rfl, hr, hj, by simp [hpre, Ne.symm hi]⟩

/-- An instruction is found where it stands, if its identity does not occur before it. -/
theorem goto?_append_cons {pre rest : List Instr} {i : Instr} (h : i.id ∉ pre.map Instr.id) :
    goto? i.id (pre ++ i :: rest) = some (i :: rest) := by
  rw [goto?_append, goto?_eq_none.2 h]
  simp [goto?]

theorem callee?_append (name : String) (is js : List Instr) :
    callee? name (is ++ js) = (callee? name js).or ((callee? name is).map (· ++ js)) := by
  induction is with
  | nil => cases h : callee? name js <;> simp [callee?, h]
  | cons i is ih =>
      rw [List.cons_append, callee?, ih]
      cases hj : callee? name js with
      | some r => simp
      | none =>
          cases hi : callee? name is with
          | some r => simp [callee?, hi]
          | none => by_cases hop : i.op = .entry name <;> simp [callee?, hi, hop]

/-- What a call finds starts with the function. -/
theorem exists_of_callee? {name : String} {is r : List Instr} (h : callee? name is = some r) :
    ∃ pre i rest, is = pre ++ i :: rest ∧ r = i :: rest ∧ i.op = .entry name := by
  induction is generalizing r with
  | nil => cases h
  | cons i is ih =>
      rw [callee?] at h
      cases ht : callee? name is with
      | some r' =>
          rw [ht] at h
          obtain ⟨pre, j, rest, rfl, hr, hj⟩ := ih ht
          cases h
          exact ⟨i :: pre, j, rest, rfl, hr, hj⟩
      | none =>
          by_cases hop : i.op = .entry name
          · simp only [ht, if_pos hop, Option.some.injEq] at h
            exact ⟨[], i, is, rfl, h.symm, hop⟩
          · simp [ht, hop] at h

theorem callee?_eq_none {name : String} {is : List Instr} (h : ∀ i ∈ is, i.op ≠ .entry name) :
    callee? name is = none := by
  induction is with
  | nil => rfl
  | cons i is ih =>
      rw [callee?, ih fun j hj => h j (List.mem_cons_of_mem _ hj)]
      simp [h i List.mem_cons_self]

/-- A jump goes to a place that is quiet. -/
theorem Guarded.quiet_landing {code l : List Instr} {i : Instr} (h : Guarded code) (hi : i ∈ code)
    (hl : landing? code i = some l) : Quiet l := by
  obtain ⟨k, hk, hgoto⟩ := Option.bind_eq_some_iff.1 hl
  obtain ⟨pre, j, rest, rfl, rfl, hj, -⟩ := exists_of_goto? hgoto
  exact quiet_cons.2 (h.untargeted i hi k hk j (by simp) hj)

/-- A call goes to a place that is quiet. -/
theorem quiet_callee {code l : List Instr} {name : String} (h : callee? name code = some l) :
    Quiet l := by
  obtain ⟨pre, i, rest, -, rfl, hi⟩ := exists_of_callee? h
  simp [hi, Op.isConditionalJump]

/-! ### States that show the same -/

/-- States at related places that show the same cells. -/
structure Alike (Q : List Instr → List Instr → Prop) (s t : State) : Prop where
  rest : Q s.rest t.rest
  stack : s.stack = t.stack
  base : s.base = t.base
  frames : List.Forall₂ (fun f g => Q f.1 g.1 ∧ Quiet f.1 ∧ f.2 = g.2) s.frames t.frames
  globals : s.globals = t.globals
  flag : Quiet s.rest ∨ s.flag = t.flag

/-- A run of `code` from `s` to a halt is joined by `code'` from `t`: that halts as well, or the two
come to alike states. -/
def Joins (Q : List Instr → List Instr → Prop) (code code' : List Instr) (s t : State) : Prop :=
  ∀ n o, run code n s = .halted o →
    (∃ m, run code' m t = .halted o) ∨
      ∃ n' s' t', n' ≤ n ∧ run code n' s' = .halted o ∧ Reaches code' t t' ∧ Alike Q s' t'

/-- A run of `code` from `s` to a halt is followed by `code'` from `t`: that halts as well, or the
two come to alike states and the first has come nearer to its halt. -/
def Follows (Q : List Instr → List Instr → Prop) (code code' : List Instr) (s t : State) : Prop :=
  ∀ n o, run code n s = .halted o →
    (∃ m, run code' m t = .halted o) ∨
      ∃ n' s' t', n' < n ∧ run code n' s' = .halted o ∧ Reaches code' t t' ∧ Alike Q s' t'

section Joins

variable {Q : List Instr → List Instr → Prop} {code code' : List Instr} {s t t' : State}
  {i : Instr} {rest : List Instr}

theorem Joins.of_alike (h : Alike Q s t) : Joins Q code code' s t :=
  fun n _ hn => .inr ⟨n, s, t, le_rfl, hn, .refl t, h⟩

theorem Joins.of_reaches (ht : Reaches code' t t') (h : Joins Q code code' s t') :
    Joins Q code code' s t := by
  intro n o hn
  rcases h n o hn with hm | ⟨n', s', u, hle, hn', hreach, halike⟩
  · exact .inl (ht.halted hm)
  · exact .inr ⟨n', s', u, hle, hn', ht.trans hreach, halike⟩

/-- A run is followed if it is joined after its next instruction. -/
theorem Follows.of_execute (hs : s.rest = i :: rest) (hi : i.op ≠ .halt)
    (h : ∀ s₁, execute code i { s with rest } = .ok s₁ → Joins Q code code' s₁ t) :
    Follows Q code code' s t := by
  intro n o hn
  obtain ⟨m, s₁, rfl, he, hm⟩ := halted_cons hs hi hn
  rcases h s₁ he m o hm with hm | ⟨n', s', t', hle, hn', hreach, halike⟩
  · exact .inl hm
  · exact .inr ⟨n', s', t', Nat.lt_succ_of_le hle, hn', hreach, halike⟩

theorem Follows.joins (h : Follows Q code code' s t) : Joins Q code code' s t := by
  intro n o hn
  rcases h n o hn with hm | ⟨n', s', t', hlt, hn', hreach, halike⟩
  · exact .inl hm
  · exact .inr ⟨n', s', t', hlt.le, hn', hreach, halike⟩

/-- A run is joined if it is joined after its next instruction. -/
theorem Joins.of_execute (hs : s.rest = i :: rest) (hi : i.op ≠ .halt)
    (h : ∀ s₁, execute code i { s with rest } = .ok s₁ → Joins Q code code' s₁ t) :
    Joins Q code code' s t :=
  (Follows.of_execute hs hi h).joins

end Joins

/-- Instructions that do nothing are passed. -/
theorem reaches_of_nops {code : List Instr} {s : State} {is rest : List Instr}
    (hs : s.rest = is ++ rest) (his : ∀ i ∈ is, i.op = .nop) :
    Reaches code s { s with rest } := by
  induction is generalizing s with
  | nil =>
      have : s = { s with rest } := by rw [show rest = s.rest from hs.symm]
      exact this ▸ .refl s
  | cons i is ih =>
      have hi := his i List.mem_cons_self
      refine .trans (.step (step_eq_next hs (by simp [hi]) ((execute_still (.inl hi)).2 rfl))) ?_
      exact ih rfl fun j hj => his j (List.mem_cons_of_mem _ hj)

/-- A jump whose condition holds goes to its target. -/
theorem reaches_of_holds {code : List Instr} {s : State} {i : Instr} {rest l : List Instr}
    {c : Condition} (hs : s.rest = i :: rest) (hi : i.op = .jump c) (hc : c.holds s.flag = true)
    (hl : landing? code i = some l) : Reaches code s { s with rest := l } :=
  .step (step_eq_next hs (by simp [hi]) ((execute_jump hi).2 (.inl ⟨hc, l, hl, rfl⟩)))

/-- A jump whose condition does not hold is passed. -/
theorem reaches_of_not_holds {code : List Instr} {s : State} {i : Instr} {rest : List Instr}
    {c : Condition} (hs : s.rest = i :: rest) (hi : i.op = .jump c) (hc : c.holds s.flag = false) :
    Reaches code s { s with rest } :=
  .step (step_eq_next hs (by simp [hi]) ((execute_jump hi).2 (.inr ⟨hc, rfl⟩)))

section Lockstep

variable {Q : List Instr → List Instr → Prop} {code code' : List Instr} {i i' : Instr}
  {r r' : List Instr} {s t s₁ : State}

/-- The same instruction, met by alike states, leads to alike states. -/
theorem execute_alike (h : Alike Q s t) (hs : s.rest = i :: r)
    (hop : i'.op = i.op) (hoperand : i'.operand = i.operand)
    (hnext : Q r r') (hquiet : i.op ≠ .pop → Quiet r)
    (hland : ∀ l, landing? code i = some l →
      ∃ l', landing? code' i' = some l' ∧ Q l l' ∧ Quiet l)
    (hcall : ∀ name l, callee? name code = some l →
      ∃ l', callee? name code' = some l' ∧ Q l l' ∧ Quiet l)
    (hi : execute code i { s with rest := r } = .ok s₁) :
    ∃ t₁, execute code' i' { t with rest := r' } = .ok t₁ ∧ Alike Q s₁ t₁ := by
  have hread : ∀ operand, State.read operand { t with rest := r' }
      = State.read operand { s with rest := r } := fun operand =>
    State.read_congr h.stack.symm h.base.symm h.globals.symm
  -- an instruction other than a pop leaves the flag, and what is ahead is quiet
  have hstill : ∀ stack, i.op ≠ .pop →
      Alike Q { s with rest := r, stack } { t with rest := r', stack } := fun stack hpop =>
    ⟨hnext, rfl, h.base, h.frames, h.globals, .inl (hquiet hpop)⟩
  cases hio : i.op with
  | load =>
      obtain ⟨v, hv, rfl⟩ := (execute_load hio).1 hi
      refine ⟨_, (execute_load (hop.trans hio)).2 ⟨v, ?_, rfl⟩, ?_⟩
      · rw [hoperand, hread, hv]
      · simpa [State.push, h.stack] using hstill (v :: s.stack) (by simp [hio])
  | store =>
      obtain ⟨v, stack, hs', hw⟩ := (execute_store hio).1 hi
      obtain ⟨heq, hw'⟩ := State.write_eq_ok hw
      refine ⟨{ t with rest := r', stack := s₁.stack, globals := s₁.globals },
        (execute_store (hop.trans hio)).2 ⟨v, stack, h.stack.symm.trans hs', ?_⟩, ?_⟩
      · rw [hoperand]
        exact hw' { t with rest := r', stack } rfl h.base.symm h.globals.symm
      · rw [heq]
        exact ⟨hnext, rfl, h.base, h.frames, rfl, .inl (hquiet (by simp [hio]))⟩
  | pop =>
      obtain ⟨v, stack, hs', rfl⟩ := (execute_pop hio).1 hi
      exact ⟨_, (execute_pop (hop.trans hio)).2 ⟨v, stack, h.stack.symm.trans hs', rfl⟩,
        hnext, rfl, h.base, h.frames, h.globals, .inr rfl⟩
  | dup =>
      obtain ⟨v, stack, hs', rfl⟩ := (execute_dup hio).1 hi
      refine ⟨_, (execute_dup (hop.trans hio)).2 ⟨v, stack, h.stack.symm.trans hs', rfl⟩, ?_⟩
      simpa [State.push, h.stack] using hstill (v :: s.stack) (by simp [hio])
  | arith op type =>
      obtain ⟨a, b, v, stack, hs', hv, rfl⟩ := (execute_arith hio).1 hi
      exact ⟨_, (execute_arith (hop.trans hio)).2
        ⟨a, b, v, stack, h.stack.symm.trans hs', hv, rfl⟩, hstill _ (by simp [hio])⟩
  | toFloat =>
      obtain ⟨v, stack, hs', rfl⟩ := (execute_toFloat hio).1 hi
      exact ⟨_, (execute_toFloat (hop.trans hio)).2 ⟨v, stack, h.stack.symm.trans hs', rfl⟩,
        hstill _ (by simp [hio])⟩
  | toInt =>
      obtain ⟨v, stack, hs', rfl⟩ := (execute_toInt hio).1 hi
      exact ⟨_, (execute_toInt (hop.trans hio)).2 ⟨v, stack, h.stack.symm.trans hs', rfl⟩,
        hstill _ (by simp [hio])⟩
  | jump c =>
      have hflag : c.holds s.flag = c.holds t.flag := by
        rcases h.flag with hf | hf
        · -- a quiet jump is unconditional
          rw [hs, quiet_cons, hio] at hf
          cases c <;> simp [Op.isConditionalJump, Condition.isConditional] at hf
          rfl
        · rw [hf]
      rcases (execute_jump hio).1 hi with ⟨hc, l, hl, rfl⟩ | ⟨hc, rfl⟩
      · obtain ⟨l', hl', hQ, hquiet'⟩ := hland l hl
        exact ⟨_, (execute_jump (hop.trans hio)).2 (.inl ⟨hflag.symm.trans hc, l', hl', rfl⟩),
          hQ, h.stack, h.base, h.frames, h.globals, .inl hquiet'⟩
      · exact ⟨_, (execute_jump (hop.trans hio)).2 (.inr ⟨hflag.symm.trans hc, rfl⟩),
          hnext, h.stack, h.base, h.frames, h.globals, .inl (hquiet (by simp [hio]))⟩
  | call =>
      obtain ⟨name, l, hname, hl, rfl⟩ := (execute_call hio).1 hi
      obtain ⟨l', hl', hQ, hquiet'⟩ := hcall name l hl
      refine ⟨_, (execute_call (hop.trans hio)).2 ⟨name, l', hoperand.trans hname, hl', rfl⟩,
        hQ, ?_, ?_, ?_, h.globals, .inl hquiet'⟩
      · rw [h.stack]
      · rw [h.stack]
      · exact .cons ⟨hnext, hquiet (by simp [hio]), h.base⟩ h.frames
  | ret =>
      obtain ⟨l, base, frames, hlen, hf, rfl⟩ := (execute_ret hio).1 hi
      have hframes := h.frames
      rw [show s.frames = (l, base) :: frames from hf] at hframes
      obtain ⟨⟨l', base'⟩, frames', ⟨hQ, hquiet', hbase⟩, hframes', hf'⟩ :=
        List.forall₂_cons_left_iff.1 hframes
      refine ⟨_, (execute_ret (hop.trans hio)).2 ⟨l', base', frames', ?_, hf', rfl⟩,
        hQ, ?_, hbase, hframes', h.globals, .inl hquiet'⟩
      · rw [← h.stack, ← h.base]
        exact hlen
      · rw [h.stack]
  | assembly text => exact absurd hi (execute_assembly hio)
  | halt =>
      cases (execute_still (.inr (.inl hio))).1 hi
      exact ⟨_, (execute_still (.inr (.inl (hop.trans hio)))).2 rfl, hnext, h.stack, h.base,
        h.frames, h.globals, .inl (hquiet (by simp [hio]))⟩
  | nop =>
      cases (execute_still (.inl hio)).1 hi
      exact ⟨_, (execute_still (.inl (hop.trans hio))).2 rfl, hnext, h.stack, h.base,
        h.frames, h.globals, .inl (hquiet (by simp [hio]))⟩
  | entry name =>
      cases (execute_still (.inr (.inr ⟨name, hio⟩))).1 hi
      exact ⟨_, (execute_still (.inr (.inr ⟨name, hop.trans hio⟩))).2 rfl, hnext, h.stack, h.base,
        h.frames, h.globals, .inl (hquiet (by simp [hio]))⟩

/-- So a run to a halt from the one is followed from the other. -/
theorem follows_of_lockstep (h : Alike Q s t) (hs : s.rest = i :: r) (ht : t.rest = i' :: r')
    (hop : i'.op = i.op) (hoperand : i'.operand = i.operand)
    (hnext : Q r r') (hquiet : i.op ≠ .pop → Quiet r)
    (hland : ∀ l, landing? code i = some l →
      ∃ l', landing? code' i' = some l' ∧ Q l l' ∧ Quiet l)
    (hcall : ∀ name l, callee? name code = some l →
      ∃ l', callee? name code' = some l' ∧ Q l l' ∧ Quiet l) :
    Follows Q code code' s t := by
  intro n o hn
  by_cases hhalt : i.op = .halt
  · cases n with
    | zero => cases hn
    | succ n =>
        simp only [run_succ, step, hs, if_pos hhalt] at hn
        refine .inl ⟨1, ?_⟩
        simp only [run_succ, step, ht, if_pos (hop.trans hhalt)]
        rw [← hn, State.outcome, State.outcome, h.stack, h.globals]
  · obtain ⟨m, s₁, rfl, he, hm⟩ := halted_cons hs hhalt hn
    obtain ⟨t₁, ht₁, hst⟩ :=
      execute_alike h hs hop hoperand hnext hquiet hland hcall he
    exact .inr ⟨m, s₁, t₁, Nat.lt_succ_self m, hm,
      .step (step_eq_next ht (fun h => hhalt (hop.symm.trans h)) ht₁), hst⟩

end Lockstep

/-- If all alike states are followed, then the second code halts as the first one does. -/
theorem halts_of_follows {Q : List Instr → List Instr → Prop} {code code' : List Instr}
    (h : ∀ s t, Alike Q s t → Follows Q code code' s t) (hstart : Q code code')
    (hquiet : Quiet code) {o : Outcome} (ho : Halts code o) : Halts code' o := by
  have key : ∀ n s t, Alike Q s t → run code n s = .halted o →
      ∃ m, run code' m t = .halted o := by
    intro n
    induction n using Nat.strong_induction_on with
    | _ n ih =>
        intro s t hst hn
        rcases h s t hst n o hn with hm | ⟨n', s', t', hlt, hn', hreach, hst'⟩
        · exact hm
        · exact hreach.halted (ih n' hlt s' t' hst' hn')
  obtain ⟨n, hn⟩ := ho
  exact key n (start code) (start code') ⟨hstart, rfl, rfl, .nil, rfl, .inl hquiet⟩ hn

end Machine

end StackLang
