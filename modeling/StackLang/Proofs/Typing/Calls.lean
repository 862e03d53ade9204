/-
**What a round accounts for.**

A round marks a symbol as used where it meets a call of it, and puts an instance into the queue
where it meets the first call of it.  So at the end of a round the used symbols are those of the
calls in the typed trees, and every inferred instance is called.  The symbols of a round have names
of the source, and the places that it hands out are bounded by the number of names in the unit.

Main definitions:

* `Node.called` — the symbols that the calls of a tree go to;
* `Symbol.IsPlaced` — what holds of every symbol that a round makes;
* `Round.Accounts` — used symbols are called, and instances in the queue are bound to used symbols.

Main results:

* `Infer.visit_accounts` — a visit accounts for the calls of the tree that comes out;
* `Document.infer_accounts` — so does the typing of a document for the calls of all its trees.
-/

import StackLang.Proofs.Tree.Size
import StackLang.Proofs.Typing.Infer

set_option relaxedAutoImplicit false
set_option autoImplicit false

namespace StackLang

open Step

/-! ### Calls of a tree -/

mutual

/-- The symbols that the calls of a tree go to.  The left side of an assignment and a definition
inside of a tree have no code, and so no calls. -/
def Node.called : Node Note → List Nat
  | .binary _ op l r => if op = .assign then r.called else l.called ++ r.called
  | .unary _ _ x => x.called
  | .call n _ as => Node.calledAll as ++ n.symbol.toList
  | .cond _ c t none => c.called ++ t.called
  | .cond _ c t (some e) => c.called ++ t.called ++ e.called
  | .loop _ c b => c.called ++ b.called
  | .returnValue _ v => v.called
  | .block _ is => Node.calledAll is
  | _ => []

/-- The symbols that the calls of some trees go to. -/
def Node.calledAll : List (Node Note) → List Nat
  | [] => []
  | x :: xs => x.called ++ Node.calledAll xs

end

theorem Node.called_of_isDefinition {x : Node Note} (h : x.isDefinition = true) :
    x.called = [] := by
  cases x with
  | define => simp [Node.called]
  | _ => cases h

/-! ### The invariant -/

/-- A symbol whose cell was not written out, whose place in a frame is among the first `w`, and
which has a name of the source if it has a place at all. -/
structure Symbol.IsPlaced (w : Nat) (s : Symbol) : Prop where
  emitted : s.emitted = false
  name : s.storage ≠ .nowhere → IsSourceName s.sourceName
  place : ∀ offset, s.storage = .frame offset → offset.natAbs ≤ 4 * w

namespace Symbol.IsPlaced

variable {w : Nat}

theorem ofFunction (name : String) (f : Function) : (Symbol.ofFunction name f).IsPlaced w :=
  ⟨rfl, fun h => absurd rfl h, nofun⟩

theorem ofVariable {name : String} (hname : IsSourceName name) (emitted : String) (type : Scalar)
    {storage : Storage} (hplace : ∀ offset, storage = .frame offset → offset.natAbs ≤ 4 * w) :
    (Symbol.ofVariable name emitted type storage).IsPlaced w :=
  ⟨rfl, fun _ => hname, hplace⟩

end Symbol.IsPlaced

/-- **What a round accounts for** with the calls `cs`, in frames of at most `w` places on each
side. -/
structure Round.Accounts (w : Nat) (cs : List Nat) (r : Round) : Prop where
  placed : ∀ (k : Nat) (s : Symbol), r.symbols[k]? = some s → s.IsPlaced w
  used : ∀ (k : Nat) (s : Symbol), r.symbols[k]? = some s → s.used = true → k ∈ cs
  queued : ∀ n ∈ r.instances.queued, ∃ (k : Nat) (s : Symbol),
    r.globals.lookup n = some k ∧ r.symbols[k]? = some s ∧ s.used = true

/-- The number of local variables of the function whose body is being visited. -/
def Round.locals (r : Round) : Nat := r.frame.elim 0 Scope.locals

namespace Infer

variable {w : Nat} {cs : List Nat} {fs : List Function} {done : List String} {r r' : Round}

/-- What is bound to a used symbol stays so. -/
theorem queued_mono (h : r.Accounts w cs) {n : String} (hn : n ∈ r.instances.queued)
    (hsymbols : ∀ (k : Nat) (s : Symbol), r.symbols[k]? = some s →
      ∃ s' : Symbol, r'.symbols[k]? = some s' ∧ Round.SymbolKept s s')
    (hglobals : ∀ n k, r.globals.lookup n = some k → r'.globals.lookup n = some k) :
    ∃ (k : Nat) (s : Symbol),
      r'.globals.lookup n = some k ∧ r'.symbols[k]? = some s ∧ s.used = true := by
  obtain ⟨k, s, hk, hs, hused⟩ := h.queued n hn
  obtain ⟨s', hs', hkept⟩ := hsymbols k s hs
  exact ⟨k, s', hglobals n k hk, hs', hkept.used hused⟩

/-- A symbol that is not used is added, and nothing is put into the queue. -/
theorem accounts_push (h : r.Accounts w cs) {s : Symbol} (hs : s.IsPlaced w)
    (hunused : s.used = false) (hsymbols : r'.symbols = r.symbols.push s)
    (hqueued : r'.instances.queued = r.instances.queued)
    (hglobals : ∀ n k, r.globals.lookup n = some k → r'.globals.lookup n = some k) :
    r'.Accounts w cs := by
  constructor
  case placed =>
    intro k t ht
    rw [hsymbols] at ht
    rcases eq_or_of_push ht with ⟨-, rfl⟩ | ht
    · exact hs
    · exact h.placed k t ht
  case used =>
    intro k t ht hused
    rw [hsymbols] at ht
    rcases eq_or_of_push ht with ⟨-, rfl⟩ | ht
    · rw [hunused] at hused
      cases hused
    · exact h.used k t ht hused
  case queued =>
    intro n hn
    exact queued_mono h (hqueued ▸ hn) (fun k t ht => hsymbols ▸ kept_push k t ht) hglobals

theorem accounts_append (h : r.Accounts w cs) (ds : List Nat) : r.Accounts w (cs ++ ds) :=
  ⟨h.placed, fun k s hs hused => List.mem_append_left _ (h.used k s hs hused), h.queued⟩

/-! ### Names -/

/-- **An assignment makes at most one local variable.** -/
theorem assigned_accounts (h : r.Sound fs done) (hr : r.Accounts w cs) (hlocals : r.locals < w)
    {m : Mark} {name : String} {value type : Scalar} {k : Nat} (hname : IsSourceName name)
    (ha : assigned m name value r = .ok ((k, type), r')) :
    r'.Accounts w cs ∧ r'.locals ≤ r.locals + 1 := by
  rcases assigned_spec h ha with ⟨rfl, -⟩ | ⟨hk, -, -, rfl⟩
  · exact ⟨hr, Nat.le_succ _⟩
  · obtain ⟨hscope, hglobals⟩ := Option.or_eq_none_iff.1 hk
    unfold declared
    cases hframe : r.frame with
    | none =>
        refine ⟨accounts_push hr (.ofVariable hname _ _ (fun _ hs => by cases hs)) rfl rfl rfl
          fun n j hj => lookup_bind hglobals hj, ?_⟩
        simp [Round.locals, declaredGlobal, hframe]
    | some scope =>
        rw [Round.locals, hframe, Option.elim_some] at hlocals
        refine ⟨accounts_push hr (.ofVariable hname _ _ ?_) rfl rfl rfl fun _ _ hj => hj, ?_⟩
        · rintro _ ⟨⟩
          simp only [Scope.addLocal]
          omega
        · simp [Round.locals, declaredLocal, hframe, Scope.addLocal, Scope.bind]

/-! ### Calls -/

/-- A symbol is marked as used by a call of it. -/
theorem accounts_marked (h : r.Accounts w cs) (k : Nat) : (marked k r).Accounts w (cs ++ [k]) := by
  have hsymbols : ∀ (j : Nat) (s : Symbol), r.symbols[j]? = some s →
      ∃ s' : Symbol, (marked k r).symbols[j]? = some s' ∧ Round.SymbolKept s s' := by
    intro j s hs
    rw [marked, getElem?_modify]
    split
    · exact ⟨{ s with used := true }, by rw [hs]; rfl, rfl, rfl, rfl, fun _ => rfl⟩
    · exact ⟨s, hs, .refl s⟩
  constructor
  case placed =>
    intro j s hs
    rw [marked, getElem?_modify] at hs
    split at hs
    · obtain ⟨t, ht, rfl⟩ := Option.map_eq_some_iff.1 hs
      have hplaced := h.placed j t ht
      exact ⟨hplaced.emitted, hplaced.name, hplaced.place⟩
    · exact h.placed j s hs
  case used =>
    -- the symbol that the call goes to is the only one that may be used for the first time
    intro j s hs hused
    rw [marked, getElem?_modify] at hs
    split at hs
    · case isTrue hkj => simp [hkj]
    · exact List.mem_append_left _ (h.used j s hs hused)
  case queued =>
    intro n hn
    exact queued_mono h hn hsymbols fun _ _ hj => hj

/-- An instance is bound and put into the queue by a call of it. -/
theorem accounts_bound (h : r.Accounts w cs) {name : String} (f : Function)
    (hnew : r.globals.lookup name = none) :
    (marked r.symbols.size (bound name f r)).Accounts w (cs ++ [r.symbols.size]) := by
  have hpushed : Round.Accounts w cs { bound name f r with instances := r.instances } :=
    accounts_push h (.ofFunction name f) rfl rfl rfl fun n j hj => lookup_bind hnew hj
  have hmarked := accounts_marked hpushed r.symbols.size
  refine ⟨hmarked.placed, hmarked.used, fun n hn => ?_⟩
  rcases mem_enqueue.1 hn with rfl | hn
  · refine ⟨_, { Symbol.ofFunction n f with used := true }, Scope.lookup_bind_self _ _ _, ?_, rfl⟩
    rw [marked, getElem?_modify, if_pos rfl]
    exact congrArg (Option.map _) getElem?_push_self
  · exact hmarked.queued n hn

theorem provides_accounts (hr : r.Accounts w cs) {f : Function} {args : List Scalar} {k : Nat}
    (hp : r.Provides f args k r') :
    (marked k r').Accounts w (cs ++ [k]) ∧ (marked k r').locals = r.locals := by
  cases hp with
  | known => exact ⟨accounts_marked hr _, rfl⟩
  | @again i hnew hi =>
      obtain ⟨-, hname⟩ := Instances.mem_of_get? hi
      exact ⟨accounts_bound hr _ (hname ▸ (Option.or_eq_none_iff.1 hnew).2), rfl⟩
  | fresh hnew hi =>
      -- an instance that is made is in no queue before it is bound
      have hr₁ : (r.withInstance f args).Accounts w cs := by
        refine ⟨hr.placed, hr.used, ?_⟩
        rw [made_withInstance hi]
        exact hr.queued
      exact ⟨accounts_bound hr₁ _ (Option.or_eq_none_iff.1 hnew).2, rfl⟩

/-- **A call accounts for the symbol that it goes to.** -/
theorem called_accounts (h : r.Sound fs done) (hr : r.Accounts w cs) {m n : Mark} {base : String}
    {args : List Scalar} {t k : Nat} {type : Scalar} (hbase : IsSourceName base)
    (hc : called m n base args r = .ok ((t, k, type), r')) :
    r'.Accounts w (cs ++ [k]) ∧ r'.locals = r.locals := by
  obtain ⟨f, -, -, -, -, -, -, r₁, hp, rfl⟩ := called_spec h hbase hc
  exact provides_accounts hr hp

/-! ### Expressions -/

mutual

/-- **A visit accounts for the calls of the tree that comes out**, and makes no more local variables
than the tree has names. -/
theorem visit_accounts (hfs : AreSource fs) (x : Node Mark) (hx : x.IsPlain) {cs : List Nat}
    {r r' : Round} {y : Node Note} {type : Scalar} (h : r.Sound fs done) (hr : r.Accounts w cs)
    (hw : r.locals + x.nameCount ≤ w) (hv : visit x r = .ok ((y, type), r')) :
    r'.Accounts w (cs ++ y.called) ∧ r'.locals ≤ r.locals + x.nameCount := by
  cases x with
  | literal m v =>
      simp only [visit, pure_eq_ok, Prod.mk.injEq] at hv
      obtain ⟨⟨rfl, rfl⟩, rfl⟩ := hv
      exact ⟨accounts_append hr _, Nat.le_add_right _ _⟩
  | identifier m x =>
      simp only [visit, bind_eq_ok, pure_eq_ok, Prod.exists, Prod.mk.injEq] at hv
      obtain ⟨k, s, r₁, hvalue, ⟨rfl, rfl⟩, rfl⟩ := hv
      obtain ⟨rfl, -⟩ := valueOf_resolved h hvalue
      exact ⟨accounts_append hr _, Nat.le_add_right _ _⟩
  | binary m op a b =>
      obtain ⟨ha, hb⟩ := isPlain_binary.1 hx
      rw [Node.nameCount_binary] at hw ⊢
      by_cases hop : op = .assign
      · subst hop
        cases a with
        | identifier n x =>
            simp only [visit, if_true, bind_eq_ok, pure_eq_ok, Prod.exists, Prod.mk.injEq] at hv
            obtain ⟨b', s, r₁, hb', k, s', r₂, hassigned, ⟨rfl, rfl⟩, rfl⟩ := hv
            rw [Node.nameCount_identifier] at hw ⊢
            -- the name counts for the variable that the assignment may make
            obtain ⟨hr₁, hle₁⟩ := visit_accounts hfs b hb h hr (by omega) hb'
            obtain ⟨hr₂, hle₂⟩ := assigned_accounts (visit_resolved hfs b hb h hb').goes.sound hr₁
              (by omega) ha.self hassigned
            exact ⟨by simpa [Node.called] using hr₂, by omega⟩
        | _ =>
            simp only [visit, if_true] at hv
            exact absurd hv fail_ne_ok
      · simp only [visit, if_neg hop, bind_eq_ok, pure_eq_ok, Prod.exists, Prod.mk.injEq] at hv
        obtain ⟨a', s, r₁, ha', b', t, r₂, hb', ⟨rfl, rfl⟩, rfl⟩ := hv
        obtain ⟨hr₁, hle₁⟩ := visit_accounts hfs a ha h hr (by omega) ha'
        obtain ⟨hr₂, hle₂⟩ := visit_accounts hfs b hb (visit_resolved hfs a ha h ha').goes.sound
          hr₁ (by omega) hb'
        exact ⟨by simpa [Node.called, hop] using hr₂, by omega⟩
  | unary m op x =>
      have hx' : x.IsPlain := (Node.every_unary.1 hx).2
      simp only [visit, bind_eq_ok, pure_eq_ok, Prod.exists, Prod.mk.injEq] at hv
      obtain ⟨x', s, r₁, hvx, ⟨rfl, rfl⟩, rfl⟩ := hv
      rw [Node.nameCount_unary] at hw ⊢
      simpa [Node.called] using visit_accounts hfs x hx' h hr hw hvx
  | call m f as =>
      obtain ⟨-, hf, has⟩ := Node.every_call.1 hx
      cases f with
      | identifier n base =>
          simp only [visit, bind_eq_ok, pure_eq_ok, Prod.exists, Prod.mk.injEq] at hv
          obtain ⟨as', types, r₁, has', t, k, s, r₂, hcalled, ⟨rfl, rfl⟩, rfl⟩ := hv
          rw [Node.nameCount_call] at hw ⊢
          obtain ⟨hr₁, hle₁⟩ := visitArgs_accounts hfs as has h hr (by omega) has'
          obtain ⟨hr₂, hle₂⟩ := called_accounts (visitArgs_resolved hfs as has h has').1.goes.sound
            hr₁ hf.self hcalled
          exact ⟨by simpa [Node.called, Note.resolved] using hr₂, by omega⟩
      | _ =>
          simp only [visit] at hv
          exact absurd hv fail_ne_ok
  | cond m c t e =>
      obtain ⟨-, hc, ht, he⟩ := Node.every_cond.1 hx
      rw [Node.nameCount_cond] at hw ⊢
      cases e with
      | none =>
          simp only [visit, bind_eq_ok, pure_eq_ok, Prod.exists, Prod.mk.injEq] at hv
          obtain ⟨c', _, r₁, hc', t', s, r₂, ht', ⟨rfl, rfl⟩, rfl⟩ := hv
          obtain ⟨hr₁, hle₁⟩ := visit_accounts hfs c hc h hr (by omega) hc'
          obtain ⟨hr₂, hle₂⟩ := visit_accounts hfs t ht (visit_resolved hfs c hc h hc').goes.sound
            hr₁ (by omega) ht'
          exact ⟨by simpa [Node.called] using hr₂, by omega⟩
      | some e =>
          simp only [visit, bind_eq_ok, pure_eq_ok, Prod.exists, Prod.mk.injEq] at hv
          obtain ⟨c', _, r₁, hc', t', s, r₂, ht', e', s', r₃, he', ⟨rfl, rfl⟩, rfl⟩ := hv
          rw [Option.elim_some] at hw ⊢
          have htest := visit_resolved hfs c hc h hc'
          have hthen := visit_resolved hfs t ht htest.goes.sound ht'
          obtain ⟨hr₁, hle₁⟩ := visit_accounts hfs c hc h hr (by omega) hc'
          obtain ⟨hr₂, hle₂⟩ := visit_accounts hfs t ht htest.goes.sound hr₁ (by omega) ht'
          obtain ⟨hr₃, hle₃⟩ := visit_accounts hfs e (he e rfl) hthen.goes.sound hr₂ (by omega) he'
          exact ⟨by simpa [Node.called] using hr₃, by omega⟩
  | loop m c b =>
      obtain ⟨-, hc, hb⟩ := Node.every_loop.1 hx
      simp only [visit, bind_eq_ok, pure_eq_ok, Prod.exists, Prod.mk.injEq] at hv
      obtain ⟨c', _, r₁, hc', b', _, r₂, hb', ⟨rfl, rfl⟩, rfl⟩ := hv
      rw [Node.nameCount_loop] at hw ⊢
      obtain ⟨hr₁, hle₁⟩ := visit_accounts hfs c hc h hr (by omega) hc'
      obtain ⟨hr₂, hle₂⟩ := visit_accounts hfs b hb (visit_resolved hfs c hc h hc').goes.sound
        hr₁ (by omega) hb'
      exact ⟨by simpa [Node.called] using hr₂, by omega⟩
  | breakLoop m | continueLoop m | assembly m text | nop m =>
      simp only [visit, pure_eq_ok, Prod.mk.injEq] at hv
      obtain ⟨⟨rfl, rfl⟩, rfl⟩ := hv
      exact ⟨accounts_append hr _, Nat.le_add_right _ _⟩
  | returnValue m v =>
      have hv' : v.IsPlain := (Node.every_returnValue.1 hx).2
      simp only [visit, bind_eq_ok, pure_eq_ok, Prod.exists, Prod.mk.injEq] at hv
      obtain ⟨v', s, r₁, hvv, ⟨rfl, rfl⟩, rfl⟩ := hv
      rw [Node.nameCount_returnValue] at hw ⊢
      simpa [Node.called] using visit_accounts hfs v hv' h hr hw hvv
  | block m is =>
      have his : ∀ x ∈ is, x.IsPlain := (Node.every_block.1 hx).2
      simp only [visit, bind_eq_ok, pure_eq_ok, Prod.exists, Prod.mk.injEq] at hv
      obtain ⟨is', s, r₁, his', ⟨rfl, rfl⟩, rfl⟩ := hv
      rw [Node.nameCount_block] at hw ⊢
      simpa [Node.called] using visitList_accounts hfs is his h hr hw his'
  | define m p b => exact absurd hx.self id
  | prototype m f ps => exact absurd hx.self id
  | unit m is => exact absurd hx.self id

theorem visitArgs_accounts (hfs : AreSource fs) (xs : List (Node Mark))
    (hxs : ∀ x ∈ xs, x.IsPlain) {cs : List Nat} {r r' : Round} {ys : List (Node Note)}
    {types : List Scalar} (h : r.Sound fs done) (hr : r.Accounts w cs)
    (hw : r.locals + (xs.map Node.nameCount).sum ≤ w)
    (hv : visitArgs xs r = .ok ((ys, types), r')) :
    r'.Accounts w (cs ++ Node.calledAll ys) ∧
      r'.locals ≤ r.locals + (xs.map Node.nameCount).sum := by
  cases xs with
  | nil =>
      simp only [visitArgs, pure_eq_ok, Prod.mk.injEq] at hv
      obtain ⟨⟨rfl, rfl⟩, rfl⟩ := hv
      exact ⟨accounts_append hr _, Nat.le_add_right _ _⟩
  | cons x xs =>
      rw [List.forall_mem_cons] at hxs
      rw [List.map_cons, List.sum_cons] at hw ⊢
      simp only [visitArgs, bind_eq_ok, pure_eq_ok, Prod.exists, Prod.mk.injEq] at hv
      obtain ⟨y, s, r₁, hx, ys, ss, r₂, hys, ⟨rfl, rfl⟩, rfl⟩ := hv
      obtain ⟨hr₁, hle₁⟩ := visit_accounts hfs x hxs.1 h hr (by omega) hx
      obtain ⟨hr₂, hle₂⟩ := visitArgs_accounts hfs xs hxs.2
        (visit_resolved hfs x hxs.1 h hx).goes.sound hr₁ (by omega) hys
      exact ⟨by simpa [Node.calledAll] using hr₂, by omega⟩

theorem visitList_accounts (hfs : AreSource fs) (xs : List (Node Mark))
    (hxs : ∀ x ∈ xs, x.IsPlain) {cs : List Nat} {r r' : Round} {ys : List (Node Note)}
    {type type' : Scalar} (h : r.Sound fs done) (hr : r.Accounts w cs)
    (hw : r.locals + (xs.map Node.nameCount).sum ≤ w)
    (hv : visitList type xs r = .ok ((ys, type'), r')) :
    r'.Accounts w (cs ++ Node.calledAll ys) ∧
      r'.locals ≤ r.locals + (xs.map Node.nameCount).sum := by
  cases xs with
  | nil =>
      simp only [visitList, pure_eq_ok, Prod.mk.injEq] at hv
      obtain ⟨⟨rfl, rfl⟩, rfl⟩ := hv
      exact ⟨accounts_append hr _, Nat.le_add_right _ _⟩
  | cons x xs =>
      rw [List.forall_mem_cons] at hxs
      rw [List.map_cons, List.sum_cons] at hw ⊢
      simp only [visitList, bind_eq_ok, pure_eq_ok, Prod.exists, Prod.mk.injEq] at hv
      obtain ⟨y, s, r₁, hx, ys, ss, r₂, hys, ⟨rfl, rfl⟩, rfl⟩ := hv
      obtain ⟨hr₁, hle₁⟩ := visit_accounts hfs x hxs.1 h hr (by omega) hx
      obtain ⟨hr₂, hle₂⟩ := visitList_accounts hfs xs hxs.2
        (visit_resolved hfs x hxs.1 h hx).goes.sound hr₁ (by omega) hys
      exact ⟨by simpa [Node.calledAll] using hr₂, by omega⟩

end

/-- The items of a unit, of which the definitions are left as they are. -/
theorem visitItems_accounts (hfs : AreSource fs) {xs : List (Node Mark)}
    (hxs : ∀ x ∈ xs, x.IsItem) {ys : List (Node Note)} (h : r.Sound fs done)
    (hr : r.Accounts w cs) (hw : r.locals + (xs.map Node.nameCount).sum ≤ w)
    (hv : visitItems xs r = .ok (ys, r')) : r'.Accounts w (cs ++ Node.calledAll ys) := by
  induction xs generalizing r cs ys with
  | nil =>
      simp only [visitItems, pure_eq_ok] at hv
      obtain ⟨rfl, rfl⟩ := hv
      exact accounts_append hr _
  | cons x xs ih =>
      rw [List.forall_mem_cons] at hxs
      rw [List.map_cons, List.sum_cons] at hw
      cases hdefinition : x.isDefinition with
      | true =>
          simp only [visitItems, hdefinition, if_true, bind_eq_ok, pure_eq_ok, and_assoc,
            exists_and_left, exists_eq_left] at hv
          obtain ⟨ys, r₁, hys, rfl, rfl⟩ := hv
          have hcalled : (x.map Note.bare).called = [] := by
            cases x <;> simp [Node.isDefinition, Node.map, Node.called] at hdefinition ⊢
          rw [Node.calledAll, hcalled, List.nil_append]
          exact ih hxs.2 h hr (by omega) hys
      | false =>
          simp only [visitItems, hdefinition, Bool.false_eq_true, if_false, bind_eq_ok, pure_eq_ok,
            Prod.exists, and_assoc, exists_and_left, exists_eq_left] at hv
          obtain ⟨y, s, r₁, hx, ys, r₂, hys, rfl, rfl⟩ := hv
          have hplain := (Node.isItem_of_not_isDefinition hdefinition).1 hxs.1
          obtain ⟨hr₁, hle₁⟩ := visit_accounts hfs x hplain h hr (by omega) hx
          rw [Node.calledAll, ← List.append_assoc]
          exact ih hxs.2 (visit_resolved hfs x hplain h hx).goes.sound hr₁ (by omega) hys

/-! ### Instances -/

/-- The parameters of an instance take the first places of its frame. -/
theorem declareParams_accounts {span : Span} {ps : List (String × Scalar)} (hr : r.Accounts w cs)
    {scope : Scope} (hframe : r.frame = some scope) (hps : ∀ p ∈ ps, IsSourceName p.1)
    (hw : scope.params + ps.length ≤ w) {u : PUnit}
    (hd : declareParams span ps r = .ok (u, r')) :
    r'.Accounts w cs ∧ r'.locals = scope.locals := by
  induction ps generalizing r scope with
  | nil =>
      simp only [declareParams, pure_eq_ok] at hd
      obtain ⟨-, rfl⟩ := hd
      exact ⟨hr, by rw [Round.locals, hframe, Option.elim_some]⟩
  | cons p ps ih =>
      obtain ⟨name, type⟩ := p
      rw [List.forall_mem_cons] at hps
      rw [List.length_cons] at hw
      obtain ⟨-, hd⟩ := declareParams_cons hframe hd
      have hpushed : (declaredParam scope name type r).Accounts w cs := by
        refine accounts_push hr (.ofVariable hps.1 _ _ ?_) rfl rfl rfl fun _ _ hj => hj
        rintro _ ⟨⟩
        simp only [Scope.addParam]
        omega
      refine @ih _ hpushed (scope.addParam.2.bind name r.symbols.size) rfl hps.2 ?_ hd
      simp only [Scope.bind, Scope.addParam]
      omega

/-- The type of an instance is recorded without a change of anything else. -/
theorem accounts_finished (hr : r.Accounts w cs) (i : Instance) (type : Scalar) (found : Inferred) :
    (finished i type found r).Accounts w cs := by
  have hold : ∀ (k : Nat) (s' : Symbol), (finished i type found r).symbols[k]? = some s' →
      ∃ s : Symbol, r.symbols[k]? = some s ∧ s'.emitted = s.emitted ∧ s'.storage = s.storage ∧
        s'.sourceName = s.sourceName ∧ s'.used = s.used := by
    intro k s' hs'
    simp only [finished] at hs'
    split at hs'
    · rw [getElem?_modify] at hs'
      split at hs'
      · obtain ⟨s, hs, rfl⟩ := Option.map_eq_some_iff.1 hs'
        exact ⟨s, hs, rfl, rfl, rfl, rfl⟩
      · exact ⟨s', hs', rfl, rfl, rfl, rfl⟩
    · exact ⟨s', hs', rfl, rfl, rfl, rfl⟩
  have hnew : ∀ (k : Nat) (s : Symbol), r.symbols[k]? = some s →
      ∃ s' : Symbol, (finished i type found r).symbols[k]? = some s' ∧ Round.SymbolKept s s' := by
    intro k s hs
    simp only [finished]
    split
    · rw [getElem?_modify]
      split
      · exact ⟨{ s with type := some type }, by rw [hs]; rfl, rfl, rfl, rfl, id⟩
      · exact ⟨s, hs, .refl s⟩
    · exact ⟨s, hs, .refl s⟩
  constructor
  case placed =>
    intro k s' hs'
    obtain ⟨s, hs, hemitted, hstorage, hname, -⟩ := hold k s' hs'
    have hplaced := hr.placed k s hs
    exact ⟨hemitted.trans hplaced.emitted, fun hne => hname ▸ hplaced.name (hstorage ▸ hne),
      fun offset ho => hplaced.place offset (hstorage ▸ ho)⟩
  case used =>
    intro k s' hs' hused
    obtain ⟨s, hs, -, -, -, hsame⟩ := hold k s' hs'
    exact hr.used k s hs (hsame ▸ hused)
  case queued =>
    intro n hn
    exact queued_mono hr hn hnew fun _ _ hj => hj

/-- **An instance that is inferred accounts for the calls of its body.** -/
theorem visitInstance_accounts (hfs : AreSource fs)
    (hw : ∀ f ∈ fs, f.params.length + f.body.nameCount ≤ w) (h : r.Sound fs done)
    (hr : r.Accounts w cs) {i : Instance} (hi : i ∈ r.instances.made) {u : PUnit}
    (hv : visitInstance i r = .ok (u, r')) :
    ∃ f, r'.inferred = r.inferred ++ [f] ∧ r'.Accounts w (cs ++ f.body.called) := by
  simp only [visitInstance, bind_eq_ok, modify_eq_ok, get_eq_ok, set_eq_ok, Prod.exists, and_assoc,
    exists_and_left, exists_eq_left, exists_const] at hv
  obtain ⟨_, r₁, hparams, body, type, r₂, hbody, rfl⟩ := hv
  obtain ⟨f, hf, hcopy⟩ := h.instances.made i hi
  obtain ⟨-, hpnames, hplain⟩ := hfs f hf
  have hnames : ∀ p ∈ i.function.params.zip i.args, IsSourceName p.1 :=
    fun p hp => hpnames _ (hcopy.params ▸ (List.of_mem_zip hp).1)
  have hlength : (i.function.params.zip i.args).length ≤ f.params.length := by
    rw [List.length_zip, hcopy.params]
    exact Nat.min_le_left _ _
  have hcount : i.function.body.nameCount = f.body.nameCount := Node.nameCount_of_shape hcopy.shape
  have hbound := hw f hf
  obtain ⟨hsound₁, -, hinferred₁, -⟩ :=
    declareParams_sound (sound_inside h (sound_function _)) rfl hnames hparams
  have hstart : Round.Accounts w cs { r with frame := some .function } :=
    ⟨hr.placed, hr.used, hr.queued⟩
  obtain ⟨hr₁, hlocals⟩ := declareParams_accounts hstart rfl hnames
    (by simp only [Scope.function]; omega) hparams
  have hplain' := hplain.of_shape hcopy.shape
  obtain ⟨hr₂, -⟩ := visit_accounts hfs i.function.body hplain' hsound₁ hr₁
    (by rw [hlocals]; simp only [Scope.function]; omega) hbody
  have hvisited := visit_resolved hfs i.function.body hplain' hsound₁ hbody
  exact ⟨_, congrArg (· ++ [_]) (hvisited.goes.inferred.trans hinferred₁),
    accounts_finished hr₂ i type _⟩

/-- The symbols of the calls of the instances that were inferred. -/
def calledInferred (r : Round) : List Nat := r.inferred.flatMap fun f => f.body.called

/-- **The queue is worked off**, and all calls on the way are accounted for. -/
theorem drain_accounts (hfs : AreSource fs)
    (hw : ∀ f ∈ fs, f.params.length + f.body.nameCount ≤ w) {fuel : Nat} (h : r.Sound fs done)
    (hframe : r.frame = none) (hr : r.Accounts w (cs ++ calledInferred r)) {u : PUnit}
    (hd : drain fuel r = .ok (u, r')) : r'.Accounts w (cs ++ calledInferred r') := by
  induction fuel generalizing r done with
  | zero =>
      simp only [drain, pure_eq_ok] at hd
      obtain ⟨-, rfl⟩ := hd
      exact hr
  | succ fuel ih =>
      simp only [drain, bind_eq_ok, get_eq_ok, and_assoc, exists_and_left, exists_eq_left,
        Instances.next] at hd
      cases hpending : r.instances.pending with
      | nil =>
          simp only [hpending, pure_eq_ok] at hd
          obtain ⟨-, rfl⟩ := hd
          exact hr
      | cons name rest =>
          simp only [hpending, bind_eq_ok, set_eq_ok, exists_eq_left, exists_const] at hd
          have hsound := sound_next h hpending
          cases hget : Instances.get? name { r.instances with pending := rest } with
          | none =>
              rw [hget] at hd
              exact absurd hd throw_ne_ok
          | some i =>
              simp only [hget, bind_eq_ok] at hd
              obtain ⟨_, r₁, hvisit, hd⟩ := hd
              have hi := List.mem_of_find?_eq_some hget
              have hnext : Round.Accounts w (cs ++ calledInferred r)
                  { r with instances := { r.instances with pending := rest } } :=
                ⟨hr.placed, hr.used, hr.queued⟩
              obtain ⟨hsound₁, -, hframe₁, -⟩ := visitInstance_sound hfs hsound hi hframe hvisit
              obtain ⟨f, hinferred, hr₁⟩ := visitInstance_accounts hfs hw hsound hnext hi hvisit
              -- the instance adds its calls to those of the inferred ones
              refine ih hsound₁ hframe₁ ?_ hd
              simpa [calledInferred, hinferred] using hr₁

/-! ### Rounds -/

/-- Binding the definitions of a unit uses none of them. -/
theorem declareFunctions_accounts {gs : List Function} (hr : r.Accounts w cs) {u : PUnit}
    (hd : declareFunctions gs r = .ok (u, r')) : r'.Accounts w cs := by
  induction gs generalizing r with
  | nil =>
      simp only [declareFunctions, pure_eq_ok] at hd
      obtain ⟨-, rfl⟩ := hd
      exact hr
  | cons f gs ih =>
      simp only [declareFunctions, bind_eq_ok, get_eq_ok, and_assoc, exists_and_left,
        exists_eq_left] at hd
      split at hd
      · exact absurd hd fail_ne_ok
      · rename_i hnew
        simp only [bind_eq_ok, addSymbol_eq_ok, bindGlobal_eq_ok, and_assoc, exists_and_left,
          exists_eq_left, exists_const] at hd
        have hnone : r.globals.lookup f.name = none := by simpa [Scope.contains] using hnew
        refine ih ?_ hd
        exact accounts_push hr (.ofFunction f.name f) rfl rfl rfl
          fun n j hj => lookup_bind hnone hj

/-- **A round that comes to its end accounts for the calls of all its trees.** -/
theorem visitUnit_accounts {items : List (Node Mark)} (hitems : ∀ x ∈ items, x.IsItem)
    {is : Instances} (his : is.newRound.Sound (Node.definitions items)) {mark : Mark} {fresh : Nat}
    {root : Node Note} (hv : (visitUnit mark items).run (.start fresh is) = .ok (root, r)) :
    ∃ n ys, root = .unit n ys ∧
      r.Accounts (Node.unit mark items).nameCount (Node.calledAll ys ++ calledInferred r) := by
  have hfs := Typing.areSource_definitions hitems
  simp only [StateT.run, visitUnit, bind_eq_ok, pure_eq_ok] at hv
  obtain ⟨_, r₁, hdeclare, ys, r₂, hvisit, _, r₃, hdrain, rfl, rfl⟩ := hv
  obtain ⟨hsound₁, hframe₁, hinferred₁⟩ := declareFunctions_sound hfs (List.Subset.refl _)
    (sound_start his fresh) rfl rfl hdeclare
  obtain ⟨hgoes, -, -⟩ := visitItems_resolved hfs hitems hsound₁ hvisit
  have hstart : (Round.start fresh is).Accounts (Node.unit mark items).nameCount [] := by
    have hsymbols : ∀ (k : Nat) (s : Symbol), (Round.start fresh is).symbols[k]? ≠ some s :=
      fun k s hs => absurd (lt_of_getElem? hs) (Nat.not_lt_zero k)
    exact ⟨fun k s hs => absurd hs (hsymbols k s), fun k s hs => absurd hs (hsymbols k s),
      fun n hn => absurd hn List.not_mem_nil⟩
  have hlocals : r₁.locals = 0 := by rw [Round.locals, hframe₁, Option.elim_none]
  have hr₂ := visitItems_accounts hfs hitems hsound₁ (declareFunctions_accounts hstart hdeclare)
    (by rw [hlocals, Node.nameCount_unit, Nat.zero_add]) hvisit
  have hnone : calledInferred r₂ = [] := by
    rw [calledInferred, hgoes.inferred, hinferred₁]
    rfl
  refine ⟨_, ys, rfl, drain_accounts hfs (fun f hf => Node.nameCount_definitions hf) hgoes.sound
    (hgoes.extend.noFrame hframe₁) ?_ hdrain⟩
  rw [hnone, List.append_nil]
  exact hr₂

end Infer

namespace Document

variable {items : List (Node Mark)} {t : Typing}

theorem inferFrom_accounts (hitems : ∀ x ∈ items, x.IsItem) {mark : Mark} {fuel k fresh : Nat}
    {is : Instances} (his : is.newRound.Sound (Node.definitions items))
    (ht : inferFrom mark items fuel k fresh is = .ok t) :
    ∃ n ys, t.root = .unit n ys ∧ t.round.Accounts (Node.unit mark items).nameCount
      (Node.calledAll ys ++ Infer.calledInferred t.round) := by
  obtain ⟨_, _, his', hv, -⟩ := exists_lastRound
    (P := fun is => is.newRound.Sound (Node.definitions items))
    (fun _ _ _ _ h hv => sound_newRound hitems h hv) his ht
  exact Infer.visitUnit_accounts hitems his' hv

/-- **The typing of a source accounts for the calls of all its trees.** -/
theorem infer_accounts {d : Document} {mark : Mark} (hroot : d.root = .unit mark items)
    (hitems : ∀ x ∈ items, x.IsItem) (ht : d.infer = .ok t) :
    ∃ n ys, t.root = .unit n ys ∧ t.round.Accounts d.root.nameCount
      (Node.calledAll ys ++ Infer.calledInferred t.round) := by
  rw [hroot]
  rw [infer, hroot] at ht
  refine inferFrom_accounts hitems ⟨?_, fun _ hi => ?_, fun _ hn => ?_, List.nodup_nil⟩ ht
  · exact List.nodup_nil
  · exact absurd hi List.not_mem_nil
  · exact absurd hn List.not_mem_nil

end Document

end StackLang
