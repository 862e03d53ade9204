/-
**Splices of linked code.**

Instructions that refer to each other by identity can be kept in a store, and their order as links
in it: a head, a tail, and from each instruction to the one behind it.  An instruction is linked at
the end of the list, and a splice walks the list back from its end, notes what takes the place of
what goes, moves the jumps, and links what stays anew.  Such a store shows the same code before and
after as the list does, and neither changes anything but what the splice is for.

Main definitions:

* `Code.stays` — the instructions that a splice leaves: what does nothing goes, except at the end;
* `Code.IsSplice` — what a splice makes of some instructions;
* `LinkedCode`, `LinkedCode.link`, `LinkedCode.splice` — instructions in a store, and their splice;
* `LinkedCode.IsLinked`, `LinkedCode.Shows` — the links of a store describe a list.

Main results:

* `LinkedCode.isLinked_relink` — linking describes the list that was linked;
* `LinkedCode.shows_splice` — a splice of the store shows the splice of the list;
* `LinkedCode.isSplice_splice` — **splices are exact**.
-/

import StackLang.Proofs.Peephole.Normal

set_option relaxedAutoImplicit false
set_option autoImplicit false

namespace StackLang

namespace Code

variable {is pre post : List Instr} {i : Instr}

/-! ### What a splice leaves -/

/-- The instructions that a splice leaves: those that do something, and the last one. -/
def stays (is : List Instr) : List Instr :=
  is.dropLast.filter (fun i => !i.isNop) ++ is.getLast?.toList

/-- Where a jump goes behind a splice: from an instruction that goes, to the first one behind it
that stays; from any other one, nowhere else. -/
inductive Lands (is : List Instr) : Option Target → Option Target → Prop where
  | moved {pre post kept : List Instr} {i j : Instr} (hsplit : is = pre ++ i :: post)
      (hgoes : Goes i post) (hstays : stays post = j :: kept) :
      Lands is (some (.instr i.id)) (some (.instr j.id))
  | same {t : Option Target} (h : ∀ pre i post, is = pre ++ i :: post → Goes i post →
      t ≠ some (.instr i.id)) : Lands is t t

/-- **A splice**: of the instructions `is` it leaves `js`, and takes out `n`. -/
structure IsSplice (is js : List Instr) (n : Nat) : Prop where
  /-- What stays is what it was but for its target. -/
  stays : List.Forall₂ (fun i j => j = { i with target := j.target } ∧ Lands is i.target j.target)
    (stays is) js
  /-- The number is that of the instructions that went. -/
  removed : n + js.length = is.length

theorem stays_cons (h : is ≠ []) :
    stays (i :: is) = if i.isNop then stays is else i :: stays is := by
  obtain ⟨j, js, rfl⟩ := List.exists_cons_of_ne_nil h
  cases hi : i.isNop <;> simp [stays, hi]

theorem thin_fst_eq_stays (is : List Instr) : (thin is).1 = stays is := by
  induction is with
  | nil => rfl
  | cons i is ih =>
      by_cases h : Goes i is
      · obtain ⟨j, kept, hkept, heq, -⟩ := exists_thin_of_goes h
        rw [heq, ← hkept, ih, stays_cons h.2, if_pos h.1]
      · rw [(thin_of_not_goes h).1, ih]
        cases is with
        | nil => rfl
        | cons j js =>
            have hi : i.isNop = false := by simpa [Goes] using h
            rw [stays_cons (List.cons_ne_nil j js), hi]
            rfl

/-- What goes and what stays are all there is. -/
theorem length_thin_add (is : List Instr) :
    (thin is).2.length + (thin is).1.length = is.length := by
  induction is with
  | nil => rfl
  | cons i is ih =>
      by_cases h : Goes i is
      · obtain ⟨j, kept, hkept, heq, hgone⟩ := exists_thin_of_goes h
        rw [heq, hgone, ← hkept]
        simp only [List.length_cons]
        omega
      · rw [(thin_of_not_goes h).1, (thin_of_not_goes h).2]
        simp only [List.length_cons]
        omega

/-- What is replaced is what goes, by the first instruction behind it that stays. -/
theorem mem_thin_snd {p : Nat × Nat} : p ∈ (thin is).2 ↔ ∃ pre i post j kept,
    is = pre ++ i :: post ∧ Goes i post ∧ stays post = j :: kept ∧ p = (i.id, j.id) := by
  induction is with
  | nil => simp
  | cons i is ih =>
      -- a split of the list is at its head or is one of the rest
      have hsplit : (∃ pre i' post j kept, i :: is = pre ++ i' :: post ∧ Goes i' post ∧
          stays post = j :: kept ∧ p = (i'.id, j.id)) ↔
          (∃ j kept, Goes i is ∧ stays is = j :: kept ∧ p = (i.id, j.id)) ∨
            ∃ pre i' post j kept, is = pre ++ i' :: post ∧ Goes i' post ∧
              stays post = j :: kept ∧ p = (i'.id, j.id) := by
        constructor
        · rintro ⟨_ | ⟨a, pre⟩, i', post, j, kept, heq, hrest⟩
          · cases heq
            exact .inl ⟨j, kept, hrest⟩
          · cases heq
            exact .inr ⟨pre, i', post, j, kept, rfl, hrest⟩
        · rintro (⟨j, kept, hrest⟩ | ⟨pre, i', post, j, kept, rfl, hrest⟩)
          · exact ⟨[], i, is, j, kept, rfl, hrest⟩
          · exact ⟨i :: pre, i', post, j, kept, rfl, hrest⟩
      rw [hsplit, ← ih]
      by_cases h : Goes i is
      · obtain ⟨j, kept, hkept, -, hgone⟩ := exists_thin_of_goes h
        rw [hgone, List.mem_cons, ← thin_fst_eq_stays, hkept]
        simp [h]
      · rw [(thin_of_not_goes h).2]
        simp [h]

/-- **A jump lands where the splice says.** -/
theorem lands_redirect (is : List Instr) (i : Instr) :
    Lands is i.target (redirect (thin is).2 i).target := by
  unfold redirect
  cases hk : i.targetId? with
  | none =>
      refine .same fun pre j post _ _ htarget => ?_
      simp [Instr.targetId?, htarget] at hk
  | some k =>
      have htarget : i.target = some (.instr k) := by
        revert hk
        unfold Instr.targetId?
        split
        · rename_i m hm
          rintro ⟨⟩
          exact hm
        · rintro ⟨⟩
      rw [Option.bind_some]
      cases hl : (thin is).2.lookup k with
      | some m =>
          obtain ⟨pre, j, post, a, kept, hsplit, hgoes, hstays, heq⟩ :=
            mem_thin_snd.1 (mem_of_lookup hl)
          cases heq
          rw [htarget]
          exact .moved hsplit hgoes hstays
      | none =>
          refine .same fun pre j post hsplit hgoes hsame => ?_
          obtain ⟨a, kept, hstays⟩ := List.exists_cons_of_ne_nil
            (thin_fst_eq_stays post ▸ mt thin_fst_eq_nil.1 hgoes.2)
          have hmem := mem_thin_snd.2 ⟨pre, j, post, a, kept, hsplit, hgoes, hstays, rfl⟩
          rw [htarget] at hsame
          cases hsame
          have hne := List.lookup_eq_none_iff.1 hl _ hmem
          simp at hne

/-- The splice of instructions is one. -/
theorem isSplice_spliced (is : List Instr) :
    IsSplice is (spliced is) (thin is).2.length := by
  constructor
  case stays =>
    rw [← thin_fst_eq_stays, spliced, List.forall₂_map_right_iff]
    refine List.forall₂_same.2 fun i _ => ⟨?_, lands_redirect is i⟩
    unfold redirect
    split <;> rfl
  case removed =>
    rw [spliced, List.length_map]
    exact length_thin_add is

end Code

/-! ### Instructions in a store -/

/-- Instructions in a store, some of which form a list by their links. -/
structure LinkedCode where
  /-- The number of instructions in the store. -/
  size : Nat
  /-- The instruction with an identity. -/
  instr : Nat → Instr
  /-- The instruction behind each, where one was linked. -/
  next : Nat → Option Nat
  head : Option Nat
  tail : Option Nat
  id_instr : ∀ k, (instr k).id = k

namespace LinkedCode

variable {c : LinkedCode} {ks : List Nat} {k : Nat}

/-- Links an instruction behind the last one. -/
def link (c : LinkedCode) (k : Nat) : LinkedCode :=
  let next := Function.update c.next k none
  match c.tail with
  | some t => { c with next := Function.update next t (some k), tail := some k }
  | none => { c with next, head := some k, tail := some k }

/-- Links some instructions in order, and no others. -/
def relink (ks : List Nat) (c : LinkedCode) : LinkedCode :=
  ks.foldl link { c with head := none, tail := none }

/-- At most `n` instructions along the links, from a given one on. -/
def walk (c : LinkedCode) : Nat → Option Nat → List Nat
  | 0, _ | _, none => []
  | n + 1, some k => k :: c.walk n (c.next k)

/-- The linked instructions.  No list is longer than the store. -/
def order (c : LinkedCode) : List Nat := c.walk c.size c.head

/-- Moves the target of an instruction in the store. -/
def redirect (gone : List (Nat × Nat)) (c : LinkedCode) (k : Nat) : LinkedCode :=
  { c with
    instr := Function.update c.instr k (Code.redirect gone (c.instr k))
    id_instr := by
      intro j
      by_cases h : j = k
      · subst h
        simp [c.id_instr]
      · simp [h, c.id_instr] }

/-- What a walk back over the list has found. -/
structure Scan where
  /-- The instructions that stay. -/
  kept : List Nat
  /-- Those that go, with the one that takes their place. -/
  gone : List (Nat × Nat)
  /-- The first one that stays. -/
  survivor : Option Nat

/-- One more instruction before those that the walk has passed. -/
def scanStep (c : LinkedCode) (k : Nat) (s : Scan) : Scan :=
  match (c.instr k).isNop, s.survivor with
  | true, some j => { s with gone := (k, j) :: s.gone }
  | _, _ => { s with kept := k :: s.kept, survivor := some k }

/-- The walk back over a list. -/
def scan (c : LinkedCode) (ks : List Nat) : Scan := ks.foldr c.scanStep ⟨[], [], none⟩

/-- **The splice of linked code**, and how many instructions were taken out. -/
def splice (c : LinkedCode) : Nat × LinkedCode :=
  let s := c.scan c.order
  if s.gone = [] then (0, c)
  else (s.gone.length, (s.kept.foldl (redirect s.gone) c).relink s.kept)

/-! ### Links that describe a list -/

/-- **The links describe a list.** -/
structure IsLinked (c : LinkedCode) (ks : List Nat) : Prop where
  nodup : ks.Nodup
  bound : ∀ k ∈ ks, k < c.size
  head : c.head = ks.head?
  tail : c.tail = ks.getLast?
  next : ∀ (n k : Nat), ks[n]? = some k → c.next k = ks[n + 1]?

/-- The store holds some code, in the order of its links. -/
structure Shows (c : LinkedCode) (is : List Instr) : Prop where
  linked : c.IsLinked (is.map Instr.id)
  instr : ∀ i ∈ is, c.instr i.id = i

theorem IsLinked.length_le (h : c.IsLinked ks) : ks.length ≤ c.size := by
  have hsub : ks ⊆ List.range c.size := fun k hk => List.mem_range.2 (h.bound k hk)
  simpa using (h.nodup.subperm hsub).length_le

theorem IsLinked.walk_eq (h : c.IsLinked ks) {n m : Nat} (hm : ks.length ≤ n + m) :
    c.walk n ks[m]? = ks.drop m := by
  induction n generalizing m with
  | zero => simp [walk, List.drop_eq_nil_of_le (show ks.length ≤ m by omega)]
  | succ n ih =>
      cases hk : ks[m]? with
      | none => simp [walk, List.drop_eq_nil_of_le (List.getElem?_eq_none_iff.1 hk)]
      | some k =>
          obtain ⟨hlt, rfl⟩ := List.getElem?_eq_some_iff.1 hk
          rw [walk, h.next m _ hk, ih (by omega), List.drop_eq_getElem_cons hlt]

/-- A walk along the links finds the list. -/
theorem IsLinked.order_eq (h : c.IsLinked ks) : c.order = ks := by
  have hwalk := h.walk_eq (n := c.size) (m := 0) (by simpa using h.length_le)
  rwa [List.drop_zero, ← List.head?_eq_getElem?, ← h.head] at hwalk

theorem isLinked_nil (c : LinkedCode) : IsLinked { c with head := none, tail := none } [] :=
  ⟨.nil, nofun, rfl, rfl, nofun⟩

/-- **An instruction is linked behind the last one.** -/
theorem IsLinked.link (h : c.IsLinked ks) (hk : k ∉ ks) (hbound : k < c.size) :
    (c.link k).IsLinked (ks ++ [k]) := by
  have hsize : (c.link k).size = c.size := by
    unfold LinkedCode.link
    split <;> rfl
  refine ⟨List.nodup_append.2 ⟨h.nodup, List.nodup_singleton k, ?_⟩, ?_, ?_, ?_, fun n j hj => ?_⟩
  · rintro a ha b hb rfl
    exact hk (List.mem_singleton.1 hb ▸ ha)
  · simpa [hsize, or_imp, forall_and, hbound] using h.bound
  · -- the first instruction of the list is its head
    cases ht : ks.getLast? with
    | none =>
        obtain rfl := List.getLast?_eq_none_iff.1 ht
        simp [LinkedCode.link, h.tail]
    | some t =>
        have hne : ks ≠ [] := by
          rintro rfl
          cases ht
        obtain ⟨j, js, rfl⟩ := List.exists_cons_of_ne_nil hne
        simp [LinkedCode.link, h.tail, ht, h.head]
  · unfold LinkedCode.link
    split <;> simp
  · cases ht : ks.getLast? with
    | none =>
        obtain rfl := List.getLast?_eq_none_iff.1 ht
        obtain ⟨hn, rfl⟩ : n = 0 ∧ k = j := by
          cases n <;> simp_all
        subst hn
        simp [LinkedCode.link, h.tail]
    | some t =>
        have hlast : ks[ks.length - 1]? = some t := by rw [← ht, List.getLast?_eq_getElem?]
        have htk : t ≠ k := fun heq => hk (heq ▸ List.mem_of_getElem? hlast)
        have hnext : (c.link k).next
            = Function.update (Function.update c.next k none) t (some k) := by
          simp [LinkedCode.link, h.tail, ht]
        have hlen : n < (ks ++ [k]).length := (List.getElem?_eq_some_iff.1 hj).1
        rw [List.length_append, List.length_singleton] at hlen
        rw [hnext]
        by_cases hn : n = ks.length
        · -- behind the new instruction there is none
          obtain rfl : k = j := by simpa [hn] using hj
          rw [Function.update_of_ne htk.symm, Function.update_self, hn]
          simp
        · have hj' : ks[n]? = some j := by
            rwa [List.getElem?_append_left (by omega)] at hj
          have hjk : j ≠ k := fun heq => hk (heq ▸ List.mem_of_getElem? hj')
          by_cases hlast' : n + 1 = ks.length
          · -- behind the last one there is now the new one
            obtain rfl : t = j := by
              rw [show n = ks.length - 1 by omega, hlast] at hj'
              exact Option.some.inj hj'
            rw [Function.update_self, hlast']
            simp
          · have hjt : j ≠ t := by
              rintro rfl
              have := (List.getElem?_inj (by omega) h.nodup).1 (hj'.trans hlast.symm)
              omega
            rw [Function.update_of_ne hjt, Function.update_of_ne hjk, h.next n j hj',
              List.getElem?_append_left (by omega)]

/-- **Linking describes the list that was linked.** -/
theorem isLinked_relink (hnodup : ks.Nodup) (hbound : ∀ k ∈ ks, k < c.size) :
    (c.relink ks).IsLinked ks ∧ (c.relink ks).size = c.size ∧ (c.relink ks).instr = c.instr := by
  induction ks using List.reverseRecOn with
  | nil => exact ⟨isLinked_nil c, rfl, rfl⟩
  | append_singleton ks k ih =>
      obtain ⟨hks, hk, hdisjoint⟩ := List.nodup_append.1 hnodup
      obtain ⟨hlinked, hsize, hinstr⟩ := ih hks fun j hj => hbound j (by simp [hj])
      have hstep : c.relink (ks ++ [k]) = (c.relink ks).link k := by
        simp [relink, List.foldl_append]
      rw [hstep]
      refine ⟨hlinked.link (fun hmem => hdisjoint k hmem k (by simp) rfl) ?_, ?_, ?_⟩
      · rw [hsize]
        exact hbound k (by simp)
      · rw [← hsize]
        unfold LinkedCode.link
        split <;> rfl
      · rw [← hinstr]
        unfold LinkedCode.link
        split <;> rfl

/-! ### The splice of the store -/

theorem foldl_redirect (gone : List (Nat × Nat)) (hnodup : ks.Nodup) :
    (∀ j, (ks.foldl (redirect gone) c).instr j
      = if j ∈ ks then Code.redirect gone (c.instr j) else c.instr j) ∧
      (ks.foldl (redirect gone) c).size = c.size := by
  induction ks generalizing c with
  | nil => simp
  | cons k ks ih =>
      obtain ⟨hk, hks⟩ := List.nodup_cons.1 hnodup
      obtain ⟨hinstr, hsize⟩ := ih (c := c.redirect gone k) hks
      refine ⟨fun j => ?_, hsize⟩
      rw [List.foldl_cons, hinstr]
      by_cases hj : j = k
      · subst hj
        simp [redirect, hk]
      · simp [redirect, hj]

/-- The walk back finds what stays and what is replaced. -/
theorem scan_eq {is : List Instr} (h : ∀ i ∈ is, c.instr i.id = i) :
    c.scan (is.map Instr.id) = ⟨(Code.thin is).1.map Instr.id, (Code.thin is).2,
      ((Code.thin is).1.map Instr.id).head?⟩ := by
  induction is with
  | nil => rfl
  | cons i is ih =>
      rw [List.forall_mem_cons] at h
      have hscan : c.scan ((i :: is).map Instr.id)
          = c.scanStep i.id (c.scan (is.map Instr.id)) := rfl
      rw [hscan, ih h.2, scanStep, h.1]
      by_cases hgoes : Code.Goes i is
      · obtain ⟨j, kept, hkept, heq, hgone⟩ := Code.exists_thin_of_goes hgoes
        simp [hgoes.1, hkept, heq, hgone]
      · obtain ⟨hkept, hgone⟩ := Code.thin_of_not_goes hgoes
        rw [hkept, hgone]
        cases hi : i.isNop with
        | false => simp
        | true =>
            obtain rfl : is = [] := by
              by_contra hne
              exact hgoes ⟨hi, hne⟩
            simp

/-- **The splice of the store shows the splice of the list**, and leaves every other instruction in
the store as it is. -/
theorem shows_splice {is : List Instr} (h : c.Shows is) :
    c.splice.1 = (Code.thin is).2.length ∧ c.splice.2.Shows (Code.spliced is) ∧
      ∀ k, k ∉ (Code.spliced is).map Instr.id → c.splice.2.instr k = c.instr k := by
  have hids : (Code.spliced is).map Instr.id = (Code.thin is).1.map Instr.id :=
    Code.map_id_redirect _ _
  have hsplice : c.splice = if (Code.thin is).2 = [] then (0, c)
      else ((Code.thin is).2.length,
        (((Code.thin is).1.map Instr.id).foldl (redirect (Code.thin is).2) c).relink
          ((Code.thin is).1.map Instr.id)) := by
    rw [splice, h.linked.order_eq, scan_eq h.instr]
  by_cases hgone : (Code.thin is).2 = []
  · -- nothing goes, so the list is what it was
    have hlength := Code.length_thin_add is
    have hthin : (Code.thin is).1 = is := by
      rw [hgone] at hlength
      exact (Code.thin_sublist is).eq_of_length (by simpa using hlength)
    have hspliced : Code.spliced is = is := by
      have hredirect : Code.redirect [] = id := by
        funext i
        cases hi : i.targetId? <;> simp [Code.redirect, hi]
      rw [Code.spliced, hgone, hthin, hredirect, List.map_id]
    rw [hsplice, if_pos hgone, hgone, hspliced]
    exact ⟨rfl, h, fun _ _ => rfl⟩
  · rw [hsplice, if_neg hgone]
    set ks := (Code.thin is).1.map Instr.id with hks
    have hsub : ks.Sublist (is.map Instr.id) := (Code.thin_sublist is).map _
    have hnodup : ks.Nodup := h.linked.nodup.sublist hsub
    obtain ⟨hinstr, hsize⟩ := foldl_redirect (c := c) (Code.thin is).2 hnodup
    obtain ⟨hlinked, -, hsame⟩ := isLinked_relink
      (c := ks.foldl (redirect (Code.thin is).2) c) hnodup fun k hk => by
        rw [hsize]
        exact h.linked.bound k (hsub.subset hk)
    refine ⟨rfl, ⟨?_, fun i hi => ?_⟩, fun k hk => ?_⟩
    · rw [hids]
      exact hlinked
    · obtain ⟨j, hj, rfl⟩ := Code.mem_spliced hi
      rw [hsame, Code.id_redirect, hinstr, if_pos (List.mem_map_of_mem hj),
        h.instr j ((Code.thin_sublist is).subset hj)]
    · rw [hids] at hk
      rw [hsame, hinstr, if_neg hk]

/-- A splice where there is nothing to take out changes nothing in the store. -/
theorem splice_of_isThin {is : List Instr} (h : c.Shows is) (hthin : Code.IsThin is) :
    c.splice = (0, c) := by
  rw [splice, h.linked.order_eq, scan_eq h.instr, Code.thin_of_isThin hthin]
  exact if_pos rfl

/-- **Splices are exact**, of code and of the store that shows it: what does nothing goes, except at
the end; what stays keeps its place and everything but the targets of jumps to what went, which are
moved to the next instruction that stays; the links describe the list that is left; and a second
splice finds nothing to do. -/
theorem isSplice_splice {c : LinkedCode} {code : Code} (h : c.Shows code.instrs) :
    Code.IsSplice code.instrs code.splice.2.instrs code.splice.1 ∧
      code.splice.2.labels = code.labels ∧
      c.splice.1 = code.splice.1 ∧ c.splice.2.Shows code.splice.2.instrs ∧
      (∀ k, k ∉ code.splice.2.instrs.map Instr.id → c.splice.2.instr k = c.instr k) ∧
      code.splice.2.splice = (0, code.splice.2) ∧ c.splice.2.splice = (0, c.splice.2) := by
  obtain ⟨hcount, hshows, hothers⟩ := shows_splice h
  have hthin : Code.IsThin code.splice.2.instrs := Code.isThin_spliced code.instrs
  exact ⟨Code.isSplice_spliced code.instrs, rfl, hcount, hshows, hothers,
    Code.splice_of_isThin hthin, splice_of_isThin hshows hthin⟩

/-- A store of some instructions, linked in an order. -/
def ofInstrs (is : List Instr) (ks : List Nat) : LinkedCode :=
  relink ks ⟨is.length, fun k => { is.getD k default with id := k }, fun _ => none, none, none,
    fun _ => rfl⟩

/-- A jump into two instructions that do nothing, one that has no place, and a jump to the last
one, which does nothing and stays. -/
theorem isSplice_splice_trailing : ∃ (c : LinkedCode) (code : Code), c.Shows code.instrs ∧
    code.instrs.map Instr.id = [0, 2, 3, 1, 5] ∧
    code.splice.2.instrs.map Instr.targetId? = [some 1, some 5, none] ∧
    Code.IsSplice code.instrs code.splice.2.instrs code.splice.1 ∧
    code.splice.2.labels = code.labels ∧
    c.splice.1 = code.splice.1 ∧ c.splice.2.Shows code.splice.2.instrs ∧
    (∀ k, k ∉ code.splice.2.instrs.map Instr.id → c.splice.2.instr k = c.instr k) ∧
    code.splice.2.splice = (0, code.splice.2) ∧ c.splice.2.splice = (0, c.splice.2) := by
  let is : List Instr := [.jump 0 .equal (some (.instr 2)), .jump 1 .always (some (.instr 5)),
    .plain 2 .nop .none, .plain 3 .nop .none, .plain 4 .halt .none, .plain 5 .nop .none]
  let code : Code := .ofOrder is [0, 2, 3, 1, 5]
  have hshows : (ofInstrs is [0, 2, 3, 1, 5]).Shows code.instrs := by
    let c : LinkedCode := ⟨is.length, fun k => { is.getD k default with id := k }, fun _ => none,
      none, none, fun _ => rfl⟩
    obtain ⟨hlinked, -, hinstr⟩ := @isLinked_relink c [0, 2, 3, 1, 5] (by decide) (by decide)
    refine ⟨hlinked, fun i hi => ?_⟩
    rw [ofInstrs, hinstr]
    revert i
    decide
  exact ⟨_, code, hshows, by decide, by decide, isSplice_splice hshows⟩

end LinkedCode

end StackLang
