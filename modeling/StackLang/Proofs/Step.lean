/-
**Steps that carry a state and may fail, and tables.**

What it takes for a step to succeed, for each way in which steps are put together, and what it means
that a table has an entry.

Main results:

* `Step.bind_eq_ok` — one step after another succeeds when both do;
* `Step.bind_eq_error` — one step after another fails when one of them does;
* `Step.eq_ok_of_toOption` — a step that has a value succeeds with it;
* `mem_of_lookup`, `lookup_of_mem` — what is looked up in a table is in it, and the other way round.
-/

import Mathlib

set_option relaxedAutoImplicit false
set_option autoImplicit false

namespace StackLang

namespace Step

variable {σ ε α β : Type} {s s' : σ}

theorem bind_eq_ok {x : StateT σ (Except ε) α} {f : α → StateT σ (Except ε) β} {r : β × σ} :
    (x >>= f) s = .ok r ↔ ∃ a s₁, x s = .ok (a, s₁) ∧ f a s₁ = .ok r := by
  change StateT.bind x f s = _ ↔ _
  rw [StateT.bind]
  cases hx : x s with
  | error e => simp [bind, Except.bind]
  | ok p =>
      obtain ⟨a, s₁⟩ := p
      simp [bind, Except.bind]

/-- Behind a step that succeeds. -/
theorem bind_of_eq_ok {x : StateT σ (Except ε) α} {f : α → StateT σ (Except ε) β} {a : α} {t : σ}
    (h : x s = .ok (a, t)) : (x >>= f) s = f a t := by
  change x s >>= _ = _
  rw [h]
  rfl

/-- One step after another fails where the first does, or the second behind it. -/
theorem bind_eq_error {x : StateT σ (Except ε) α} {f : α → StateT σ (Except ε) β} {e : ε} :
    (x >>= f) s = .error e ↔
      x s = .error e ∨ ∃ a s₁, x s = .ok (a, s₁) ∧ f a s₁ = .error e := by
  change StateT.bind x f s = _ ↔ _
  rw [StateT.bind]
  cases hx : x s with
  | error e => simp [bind, Except.bind]
  | ok p =>
      obtain ⟨a, s₁⟩ := p
      simp [bind, Except.bind]

/-- The same as `bind_eq_ok` for steps without a state. -/
theorem except_bind_eq_ok {x : Except ε α} {f : α → Except ε β} {b : β} :
    x >>= f = .ok b ↔ ∃ a, x = .ok a ∧ f a = .ok b := by
  cases x with
  | error e => simp [bind, Except.bind]
  | ok a => simp [bind, Except.bind]

theorem except_map_eq_ok {x : Except ε α} {f : α → β} {b : β} :
    x.map f = .ok b ↔ ∃ a, x = .ok a ∧ f a = b := by
  cases x <;> simp [Except.map]

theorem pure_eq_ok {a b : α} :
    (pure a : StateT σ (Except ε) α) s = .ok (b, s') ↔ b = a ∧ s' = s := by
  change Except.ok (a, s) = _ ↔ _
  rw [Except.ok.injEq, Prod.mk.injEq]
  exact and_congr eq_comm eq_comm

theorem throw_ne_ok {e : ε} {r : α × σ} : (throw e : StateT σ (Except ε) α) s ≠ .ok r := by
  intro h
  cases h

theorem get_eq_ok {t : σ} :
    (get : StateT σ (Except ε) σ) s = .ok (t, s') ↔ t = s ∧ s' = s := by
  change Except.ok (s, s) = _ ↔ _
  rw [Except.ok.injEq, Prod.mk.injEq]
  exact and_congr eq_comm eq_comm

theorem set_eq_ok {t : σ} {u : PUnit} :
    (set t : StateT σ (Except ε) PUnit) s = .ok (u, s') ↔ s' = t := by
  change Except.ok (PUnit.unit, t) = _ ↔ _
  rw [Except.ok.injEq, Prod.mk.injEq]
  exact ⟨fun h => h.2.symm, fun h => ⟨rfl, h.symm⟩⟩

theorem modify_eq_ok {f : σ → σ} {u : PUnit} :
    (modify f : StateT σ (Except ε) PUnit) s = .ok (u, s') ↔ s' = f s := by
  change Except.ok (PUnit.unit, f s) = _ ↔ _
  rw [Except.ok.injEq, Prod.mk.injEq]
  exact ⟨fun h => h.2.symm, fun h => ⟨rfl, h.symm⟩⟩

/-- A step that has a value succeeds with it. -/
theorem eq_ok_of_toOption {x : Except ε α} {a : α} (h : x.toOption = some a) : x = .ok a := by
  cases x <;> cases h
  rfl

/-- How a step fails. -/
def fault? : Except ε α → Option ε
  | .error e => some e
  | .ok _ => none

theorem eq_error_of_fault? {x : Except ε α} {e : ε} (h : fault? x = some e) : x = .error e := by
  cases x <;> cases h
  rfl

end Step

/-- What is looked up in a table is in it. -/
theorem mem_of_lookup {α β : Type} [BEq α] [LawfulBEq α] {l : List (α × β)} {k : α} {v : β}
    (h : l.lookup k = some v) : (k, v) ∈ l := by
  obtain ⟨xs, ys, rfl, -⟩ := List.lookup_eq_some_iff.1 h
  simp

/-- Every entry of a table with one for each name is looked up. -/
theorem lookup_of_mem {α β : Type} [BEq α] [LawfulBEq α] {l : List (α × β)}
    (h : (l.map Prod.fst).Nodup) {k : α} {v : β} (hmem : (k, v) ∈ l) : l.lookup k = some v := by
  obtain ⟨xs, ys, rfl⟩ := List.append_of_mem hmem
  refine List.lookup_eq_some_iff.2 ⟨xs, ys, rfl, fun p hp => ?_⟩
  rw [List.map_append, List.map_cons, List.nodup_append] at h
  exact bne_iff_ne.2 (h.2.2 p.1 (List.mem_map_of_mem hp) k List.mem_cons_self).symm

end StackLang
