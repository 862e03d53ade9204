/-
**Steps side by side.**

Two steps stand side by side if from states that stand in a relation both succeed, with values and
states in given relations again, or both fail, with errors in a given relation.  The relation of the
states is the same before and after, so steps that are put together stay side by side.

Main definitions:

* `Step.Agree` — outcomes that agree;
* `Step.Paired` — steps that stand side by side.

Main results:

* `Step.Paired.bind` — one pair after another;
* `Step.Paired.read`, `Step.Paired.modify` — pairs that read and change the states.
-/

import StackLang.Proofs.Step

set_option relaxedAutoImplicit false
set_option autoImplicit false

namespace StackLang

namespace Step

variable {ε ε' σ σ' α β α' β' : Type}

/-- **Outcomes agree**: both are values, in the relation `R`, or both are errors, in the relation
`E`. -/
inductive Agree (E : ε → ε' → Prop) (R : α → β → Prop) : Except ε α → Except ε' β → Prop
  | ok {a : α} {b : β} (h : R a b) : Agree E R (.ok a) (.ok b)
  | error {e : ε} {e' : ε'} (h : E e e') : Agree E R (.error e) (.error e')

namespace Agree

variable {E : ε → ε' → Prop} {R : α → β → Prop} {S : α' → β' → Prop}

theorem bind {x : Except ε α} {x' : Except ε' β} {f : α → Except ε α'} {f' : β → Except ε' β'}
    (hx : Agree E R x x') (hf : ∀ a b, R a b → Agree E S (f a) (f' b)) :
    Agree E S (x >>= f) (x' >>= f') := by
  cases hx with
  | ok h => exact hf _ _ h
  | error h => exact .error h

/-- What holds of every value that comes out. -/
theorem and_ok {Q : α → Prop} {x : Except ε α} {x' : Except ε' β} (h : Agree E R x x')
    (hQ : ∀ a, x = .ok a → Q a) : Agree E (fun a b => R a b ∧ Q a) x x' := by
  cases h with
  | ok h => exact .ok ⟨h, hQ _ rfl⟩
  | error h => exact .error h

theorem mono {E' : ε → ε' → Prop} {R' : α → β → Prop} (hE : ∀ e e', E e e' → E' e e')
    (hR : ∀ a b, R a b → R' a b) {x : Except ε α} {x' : Except ε' β} (h : Agree E R x x') :
    Agree E' R' x x' := by
  cases h with
  | ok h => exact .ok (hR _ _ h)
  | error h => exact .error (hE _ _ h)

end Agree

/-- **Steps stand side by side**: from states in the relation `S` their outcomes agree, and the
states behind them are in the relation again. -/
def Paired (E : ε → ε' → Prop) (S : σ → σ' → Prop) (R : α → β → Prop)
    (x : StateT σ (Except ε) α) (x' : StateT σ' (Except ε') β) : Prop :=
  ∀ s s', S s s' → Agree E (fun p p' => R p.1 p'.1 ∧ S p.2 p'.2) (x s) (x' s')

namespace Paired

variable {E : ε → ε' → Prop} {S : σ → σ' → Prop} {R : α → β → Prop} {Q : α' → β' → Prop}

protected theorem pure {a : α} {b : β} (h : R a b) : Paired E S R (pure a) (pure b) :=
  fun _ _ hs => .ok ⟨h, hs⟩

/-- **One pair after another.** -/
protected theorem bind {x : StateT σ (Except ε) α} {x' : StateT σ' (Except ε') β}
    {f : α → StateT σ (Except ε) α'} {f' : β → StateT σ' (Except ε') β'} (hx : Paired E S R x x')
    (hf : ∀ a b, R a b → Paired E S Q (f a) (f' b)) : Paired E S Q (x >>= f) (x' >>= f') := by
  intro s s' hs
  exact (hx s s' hs).bind fun p p' hp => hf p.1 p'.1 hp.1 p.2 p'.2 hp.2

protected theorem imp {R' : α → β → Prop} {x : StateT σ (Except ε) α}
    {x' : StateT σ' (Except ε') β} (hx : Paired E S R x x') (hR : ∀ a b, R a b → R' a b) :
    Paired E S R' x x' := by
  intro s s' hs
  exact (hx s s' hs).mono (fun _ _ he => he) fun p p' hp => ⟨hR p.1 p'.1 hp.1, hp.2⟩

/-- A pair and then their values. -/
theorem map {x : StateT σ (Except ε) α} {x' : StateT σ' (Except ε') β} {f : α → α'} {f' : β → β'}
    (hx : Paired E S R x x') (hf : ∀ a b, R a b → Q (f a) (f' b)) :
    Paired E S Q (x >>= fun a => pure (f a)) (x' >>= fun b => pure (f' b)) :=
  hx.bind fun a b hab => .pure (hf a b hab)

protected theorem throw {e : ε} {e' : ε'} (h : E e e') : Paired E S R (throw e) (throw e') :=
  fun _ _ _ => .error h

theorem read {f : σ → StateT σ (Except ε) α} {f' : σ' → StateT σ' (Except ε') β}
    (hf : ∀ s s', S s s' → Paired E S R (f s) (f' s')) :
    Paired E S R (get >>= f) (get >>= f') :=
  fun s s' hs => hf s s' hs s s' hs

theorem set {s : σ} {s' : σ'} (h : S s s') :
    Paired E S (fun _ _ => True) (set s : StateT σ (Except ε) PUnit)
      (set s' : StateT σ' (Except ε') PUnit) :=
  fun _ _ _ => .ok ⟨trivial, h⟩

theorem modify {f : σ → σ} {f' : σ' → σ'} (h : ∀ s s', S s s' → S (f s) (f' s')) :
    Paired E S (fun _ _ => True) (modify f : StateT σ (Except ε) PUnit)
      (modify f' : StateT σ' (Except ε') PUnit) :=
  fun s s' hs => .ok ⟨trivial, h s s' hs⟩

/-- A step that does nothing on the other side. -/
theorem mapLeft {x : StateT σ (Except ε) α} {x' : StateT σ' (Except ε') β'} {f : α → α'}
    (hx : Paired E S (fun a b => Q (f a) b) x x') :
    Paired E S Q (x >>= fun a => pure (f a)) x' := by
  have hboth : Paired E S Q (x >>= fun a => pure (f a)) (x' >>= fun b => pure b) :=
    hx.bind fun _ _ hab => .pure hab
  rwa [bind_pure] at hboth

theorem mapRight {x : StateT σ (Except ε) α'} {x' : StateT σ' (Except ε') β} {f : β → β'}
    (hx : Paired E S (fun a b => Q a (f b)) x x') :
    Paired E S Q x (x' >>= fun b => pure (f b)) := by
  have hboth : Paired E S Q (x >>= fun a => pure a) (x' >>= fun b => pure (f b)) :=
    hx.bind fun _ _ hab => .pure hab
  rwa [bind_pure] at hboth

end Paired

end Step

end StackLang
