/-
**Trees alike up to their notes.**

Two trees are alike if they differ in their notes only, and the notes of nodes that correspond stand
in some relation.  What is done to a tree without a look at its notes is done to all trees alike.

Two units are the same but for the order of their definitions if the definitions of one are those of
the other in another order, and what is no definition stands in the same order.

Main definitions:

* `Node.Alike` — trees that differ in their notes only;
* `Node.MovedItems`, `Node.IsMoved` — items and units with their definitions in another order;
* `Node.check`, `Node.checkMoved` — whether trees are alike, and units so.

Main results:

* `Node.alike_map`, `Node.alike_number`, `Node.alike_fold` — mapping, numbering and folding trees
  alike gives trees alike;
* `Node.MovedItems.transfer` — items stay the same but for the order when all are changed alike;
* `Node.isMoved_prepare`, `Document.isMoved_ofTree` — so do folded trees and documents.
-/

import StackLang.Compile
import StackLang.Proofs.Tree.Source

set_option relaxedAutoImplicit false
set_option autoImplicit false

namespace StackLang

/-- Of lists that correspond each member of the second has a companion in the first. -/
theorem exists_of_mem_forall₂ {γ δ : Type} {R : γ → δ → Prop} {xs : List γ} {ys : List δ}
    (h : List.Forall₂ R xs ys) {y : δ} (hy : y ∈ ys) : ∃ x ∈ xs, R x y := by
  induction h with
  | nil => exact absurd hy List.not_mem_nil
  | cons hxy _ ih =>
      rcases List.mem_cons.1 hy with rfl | hy
      · exact ⟨_, List.mem_cons_self, hxy⟩
      · obtain ⟨x, hx, hxy⟩ := ih hy
        exact ⟨x, List.mem_cons_of_mem _ hx, hxy⟩

namespace Node

variable {α β α' β' : Type}

/-! ### Trees alike -/

mutual

/-- **Two trees are alike**: they differ in their notes only, and notes at the nodes that correspond
stand in the relation `same`. -/
inductive Alike (same : α → β → Prop) : Node α → Node β → Prop
  | literal {n : α} {n' : β} {v : Literal} (hn : same n n') :
      Alike same (literal n v) (literal n' v)
  | identifier {n : α} {n' : β} {x : String} (hn : same n n') :
      Alike same (identifier n x) (identifier n' x)
  | binary {n : α} {n' : β} {op : BinaryOp} {l r : Node α} {l' r' : Node β} (hn : same n n')
      (hl : Alike same l l') (hr : Alike same r r') :
      Alike same (binary n op l r) (binary n' op l' r')
  | unary {n : α} {n' : β} {op : UnaryOp} {x : Node α} {x' : Node β} (hn : same n n')
      (hx : Alike same x x') : Alike same (unary n op x) (unary n' op x')
  | call {n : α} {n' : β} {f : Node α} {f' : Node β} {as : List (Node α)} {as' : List (Node β)}
      (hn : same n n') (hf : Alike same f f') (has : AlikeList same as as') :
      Alike same (call n f as) (call n' f' as')
  | cond {n : α} {n' : β} {c t : Node α} {c' t' : Node β} {e : Option (Node α)}
      {e' : Option (Node β)} (hn : same n n') (hc : Alike same c c') (ht : Alike same t t')
      (he : AlikeOption same e e') : Alike same (cond n c t e) (cond n' c' t' e')
  | loop {n : α} {n' : β} {c b : Node α} {c' b' : Node β} (hn : same n n')
      (hc : Alike same c c') (hb : Alike same b b') : Alike same (loop n c b) (loop n' c' b')
  | breakLoop {n : α} {n' : β} (hn : same n n') : Alike same (breakLoop n) (breakLoop n')
  | continueLoop {n : α} {n' : β} (hn : same n n') :
      Alike same (continueLoop n) (continueLoop n')
  | returnValue {n : α} {n' : β} {v : Node α} {v' : Node β} (hn : same n n')
      (hv : Alike same v v') : Alike same (returnValue n v) (returnValue n' v')
  | define {n : α} {n' : β} {p b : Node α} {p' b' : Node β} (hn : same n n')
      (hp : Alike same p p') (hb : Alike same b b') : Alike same (define n p b) (define n' p' b')
  | prototype {n : α} {n' : β} {f : String} {ps : List String} (hn : same n n') :
      Alike same (prototype n f ps) (prototype n' f ps)
  | block {n : α} {n' : β} {is : List (Node α)} {is' : List (Node β)} (hn : same n n')
      (his : AlikeList same is is') : Alike same (block n is) (block n' is')
  | assembly {n : α} {n' : β} {text : String} (hn : same n n') :
      Alike same (assembly n text) (assembly n' text)
  | unit {n : α} {n' : β} {is : List (Node α)} {is' : List (Node β)} (hn : same n n')
      (his : AlikeList same is is') : Alike same (unit n is) (unit n' is')
  | nop {n : α} {n' : β} (hn : same n n') : Alike same (nop n) (nop n')

/-- The same along lists. -/
inductive AlikeList (same : α → β → Prop) : List (Node α) → List (Node β) → Prop
  | nil : AlikeList same [] []
  | cons {x : Node α} {x' : Node β} {xs : List (Node α)} {xs' : List (Node β)}
      (hx : Alike same x x') (hxs : AlikeList same xs xs') :
      AlikeList same (x :: xs) (x' :: xs')

/-- The same for trees that may be missing. -/
inductive AlikeOption (same : α → β → Prop) : Option (Node α) → Option (Node β) → Prop
  | none : AlikeOption same none none
  | some {x : Node α} {x' : Node β} (hx : Alike same x x') : AlikeOption same (some x) (some x')

end

variable {same : α → β → Prop} {same' : α' → β' → Prop} {x : Node α} {x' : Node β}

theorem Alike.note (h : Alike same x x') : same x.note x'.note := by
  cases h <;> assumption

theorem Alike.isDefinition (h : Alike same x x') : x'.isDefinition = x.isDefinition := by
  cases h <;> rfl

theorem Alike.yieldsCell (h : Alike same x x') : x'.yieldsCell = x.yieldsCell := by
  cases h <;> rfl

theorem Alike.kindName (h : Alike same x x') : x'.kindName = x.kindName := by
  cases h <;> rfl

theorem AlikeList.length_eq {xs : List (Node α)} {xs' : List (Node β)}
    (h : AlikeList same xs xs') : xs'.length = xs.length := by
  induction xs generalizing xs' with
  | nil =>
      cases h
      rfl
  | cons x xs ih =>
      cases h with
      | cons _ hxs => rw [List.length_cons, List.length_cons, ih hxs]

theorem alikeList_iff {xs : List (Node α)} {xs' : List (Node β)} :
    AlikeList same xs xs' ↔ List.Forall₂ (Alike same) xs xs' := by
  constructor
  · intro h
    induction xs generalizing xs' with
    | nil =>
        cases h
        exact .nil
    | cons x xs ih =>
        cases h with
        | cons hx hxs => exact .cons hx (ih hxs)
  · intro h
    induction h with
    | nil => exact .nil
    | cons hx _ ih => exact .cons hx ih

/-! ### Whether trees are alike -/

section

variable (p : α → β → Bool)

mutual

/-- Whether two trees differ in their notes only, and in these as `p` allows. -/
def check : Node α → Node β → Bool
  | literal n v, literal n' v' => p n n' && decide (v = v')
  | identifier n x, identifier n' x' => p n n' && decide (x = x')
  | binary n op l r, binary n' op' l' r' =>
      p n n' && decide (op = op') && check l l' && check r r'
  | unary n op x, unary n' op' x' => p n n' && decide (op = op') && check x x'
  | call n f as, call n' f' as' => p n n' && check f f' && checkList as as'
  | cond n c t e, cond n' c' t' e' =>
      p n n' && check c c' && check t t' && checkOption e e'
  | loop n c b, loop n' c' b' => p n n' && check c c' && check b b'
  | breakLoop n, breakLoop n' => p n n'
  | continueLoop n, continueLoop n' => p n n'
  | returnValue n v, returnValue n' v' => p n n' && check v v'
  | define n h b, define n' h' b' => p n n' && check h h' && check b b'
  | prototype n f ps, prototype n' f' ps' => p n n' && decide (f = f') && decide (ps = ps')
  | block n is, block n' is' => p n n' && checkList is is'
  | assembly n t, assembly n' t' => p n n' && decide (t = t')
  | unit n is, unit n' is' => p n n' && checkList is is'
  | nop n, nop n' => p n n'
  | _, _ => false

/-- The same along lists. -/
def checkList : List (Node α) → List (Node β) → Bool
  | [], [] => true
  | x :: xs, x' :: xs' => check x x' && checkList xs xs'
  | _, _ => false

/-- The same for trees that may be missing. -/
def checkOption : Option (Node α) → Option (Node β) → Bool
  | none, none => true
  | some x, some x' => check x x'
  | _, _ => false

end

mutual

/-- **A check that succeeds proves trees alike.** -/
theorem alike_of_check (x : Node α) (y : Node β) (h : check p x y = true) :
    Alike (fun n n' => p n n' = true) x y := by
  cases x with
  | literal n v =>
      cases y with
      | literal n' v' =>
          simp only [check, Bool.and_eq_true, decide_eq_true_eq] at h
          obtain ⟨hn, rfl⟩ := h
          exact .literal hn
      | _ => exact absurd h Bool.false_ne_true
  | identifier n x =>
      cases y with
      | identifier n' x' =>
          simp only [check, Bool.and_eq_true, decide_eq_true_eq] at h
          obtain ⟨hn, rfl⟩ := h
          exact .identifier hn
      | _ => exact absurd h Bool.false_ne_true
  | binary n op l r =>
      cases y with
      | binary n' op' l' r' =>
          simp only [check, Bool.and_eq_true, decide_eq_true_eq] at h
          obtain ⟨⟨⟨hn, rfl⟩, hl⟩, hr⟩ := h
          exact .binary hn (alike_of_check l l' hl) (alike_of_check r r' hr)
      | _ => exact absurd h Bool.false_ne_true
  | unary n op z =>
      cases y with
      | unary n' op' z' =>
          simp only [check, Bool.and_eq_true, decide_eq_true_eq] at h
          obtain ⟨⟨hn, rfl⟩, hz⟩ := h
          exact .unary hn (alike_of_check z z' hz)
      | _ => exact absurd h Bool.false_ne_true
  | call n f as =>
      cases y with
      | call n' f' as' =>
          simp only [check, Bool.and_eq_true] at h
          obtain ⟨⟨hn, hf⟩, has⟩ := h
          exact .call hn (alike_of_check f f' hf) (alike_of_checkList as as' has)
      | _ => exact absurd h Bool.false_ne_true
  | cond n c t e =>
      cases y with
      | cond n' c' t' e' =>
          simp only [check, Bool.and_eq_true] at h
          obtain ⟨⟨⟨hn, hc⟩, ht⟩, he⟩ := h
          exact .cond hn (alike_of_check c c' hc) (alike_of_check t t' ht)
            (alike_of_checkOption e e' he)
      | _ => exact absurd h Bool.false_ne_true
  | loop n c b =>
      cases y with
      | loop n' c' b' =>
          simp only [check, Bool.and_eq_true] at h
          obtain ⟨⟨hn, hc⟩, hb⟩ := h
          exact .loop hn (alike_of_check c c' hc) (alike_of_check b b' hb)
      | _ => exact absurd h Bool.false_ne_true
  | breakLoop n =>
      cases y with
      | breakLoop n' => exact .breakLoop h
      | _ => exact absurd h Bool.false_ne_true
  | continueLoop n =>
      cases y with
      | continueLoop n' => exact .continueLoop h
      | _ => exact absurd h Bool.false_ne_true
  | returnValue n v =>
      cases y with
      | returnValue n' v' =>
          simp only [check, Bool.and_eq_true] at h
          exact .returnValue h.1 (alike_of_check v v' h.2)
      | _ => exact absurd h Bool.false_ne_true
  | define n f b =>
      cases y with
      | define n' f' b' =>
          simp only [check, Bool.and_eq_true] at h
          obtain ⟨⟨hn, hf⟩, hb⟩ := h
          exact .define hn (alike_of_check f f' hf) (alike_of_check b b' hb)
      | _ => exact absurd h Bool.false_ne_true
  | prototype n f ps =>
      cases y with
      | prototype n' f' ps' =>
          simp only [check, Bool.and_eq_true, decide_eq_true_eq] at h
          obtain ⟨⟨hn, rfl⟩, rfl⟩ := h
          exact .prototype hn
      | _ => exact absurd h Bool.false_ne_true
  | block n is =>
      cases y with
      | block n' is' =>
          simp only [check, Bool.and_eq_true] at h
          exact .block h.1 (alike_of_checkList is is' h.2)
      | _ => exact absurd h Bool.false_ne_true
  | assembly n t =>
      cases y with
      | assembly n' t' =>
          simp only [check, Bool.and_eq_true, decide_eq_true_eq] at h
          obtain ⟨hn, rfl⟩ := h
          exact .assembly hn
      | _ => exact absurd h Bool.false_ne_true
  | unit n is =>
      cases y with
      | unit n' is' =>
          simp only [check, Bool.and_eq_true] at h
          exact .unit h.1 (alike_of_checkList is is' h.2)
      | _ => exact absurd h Bool.false_ne_true
  | nop n =>
      cases y with
      | nop n' => exact .nop h
      | _ => exact absurd h Bool.false_ne_true

theorem alike_of_checkList (xs : List (Node α)) (ys : List (Node β))
    (h : checkList p xs ys = true) : AlikeList (fun n n' => p n n' = true) xs ys := by
  match xs, ys with
  | [], [] => exact .nil
  | [], _ :: _ | _ :: _, [] => exact absurd h Bool.false_ne_true
  | x :: xs, y :: ys =>
      simp only [checkList, Bool.and_eq_true] at h
      exact .cons (alike_of_check x y h.1) (alike_of_checkList xs ys h.2)

theorem alike_of_checkOption (o : Option (Node α)) (o' : Option (Node β))
    (h : checkOption p o o' = true) : AlikeOption (fun n n' => p n n' = true) o o' := by
  match o, o' with
  | none, none => exact .none
  | none, some _ | some _, none => exact absurd h Bool.false_ne_true
  | some x, some y => exact .some (alike_of_check x y h)

end

end

/-! ### What is done alike -/

section

variable {f : α → α'} {g : β → β'}

mutual

/-- Trees alike are mapped to trees alike. -/
theorem alike_map (hfg : ∀ a b, same a b → same' (f a) (g b)) (x : Node α) {x' : Node β}
    (h : Alike same x x') : Alike same' (x.map f) (x'.map g) := by
  cases h with
  | literal hn => exact .literal (hfg _ _ hn)
  | identifier hn => exact .identifier (hfg _ _ hn)
  | @binary n n' op l r l' r' hn hl hr =>
      exact .binary (hfg _ _ hn) (alike_map hfg l hl) (alike_map hfg r hr)
  | @unary n n' op y y' hn hy => exact .unary (hfg _ _ hn) (alike_map hfg y hy)
  | @call n n' c c' as as' hn hc has =>
      exact .call (hfg _ _ hn) (alike_map hfg c hc) (alike_mapList hfg as has)
  | @cond n n' c t c' t' e e' hn hc ht he =>
      exact .cond (hfg _ _ hn) (alike_map hfg c hc) (alike_map hfg t ht) (alike_mapOption hfg e he)
  | @loop n n' c b c' b' hn hc hb =>
      exact .loop (hfg _ _ hn) (alike_map hfg c hc) (alike_map hfg b hb)
  | breakLoop hn => exact .breakLoop (hfg _ _ hn)
  | continueLoop hn => exact .continueLoop (hfg _ _ hn)
  | @returnValue n n' v v' hn hv => exact .returnValue (hfg _ _ hn) (alike_map hfg v hv)
  | @define n n' p b p' b' hn hp hb =>
      exact .define (hfg _ _ hn) (alike_map hfg p hp) (alike_map hfg b hb)
  | prototype hn => exact .prototype (hfg _ _ hn)
  | @block n n' is is' hn his => exact .block (hfg _ _ hn) (alike_mapList hfg is his)
  | assembly hn => exact .assembly (hfg _ _ hn)
  | @unit n n' is is' hn his => exact .unit (hfg _ _ hn) (alike_mapList hfg is his)
  | nop hn => exact .nop (hfg _ _ hn)

theorem alike_mapList (hfg : ∀ a b, same a b → same' (f a) (g b)) (xs : List (Node α))
    {xs' : List (Node β)} (h : AlikeList same xs xs') :
    AlikeList same' (mapList f xs) (mapList g xs') := by
  cases h with
  | nil => exact .nil
  | @cons y y' ys ys' hy hys => exact .cons (alike_map hfg y hy) (alike_mapList hfg ys hys)

theorem alike_mapOption (hfg : ∀ a b, same a b → same' (f a) (g b)) (o : Option (Node α))
    {o' : Option (Node β)} (h : AlikeOption same o o') :
    AlikeOption same' (mapOption f o) (mapOption g o') := by
  cases h with
  | none => exact .none
  | @some y y' hy => exact .some (alike_map hfg y hy)

end

end

section

variable {f : Nat → α → α'} {g : Nat → β → β'}

mutual

/-- Trees alike are numbered alike, from any numbers on. -/
theorem alike_number (hfg : ∀ i j a b, same a b → same' (f i a) (g j b)) (x : Node α)
    {x' : Node β} (h : Alike same x x') (k j : Nat) :
    Alike same' (x.number f k).1 (x'.number g j).1 := by
  cases h with
  | literal hn => exact .literal (hfg k j _ _ hn)
  | identifier hn => exact .identifier (hfg k j _ _ hn)
  | @binary n n' op l r l' r' hn hl hr =>
      exact .binary (hfg k j _ _ hn) (alike_number hfg l hl _ _) (alike_number hfg r hr _ _)
  | @unary n n' op y y' hn hy => exact .unary (hfg k j _ _ hn) (alike_number hfg y hy _ _)
  | @call n n' c c' as as' hn hc has =>
      exact .call (hfg k j _ _ hn) (alike_number hfg c hc _ _) (alike_numberList hfg as has _ _)
  | @cond n n' c t c' t' e e' hn hc ht he =>
      exact .cond (hfg k j _ _ hn) (alike_number hfg c hc _ _) (alike_number hfg t ht _ _)
        (alike_numberOption hfg e he _ _)
  | @loop n n' c b c' b' hn hc hb =>
      exact .loop (hfg k j _ _ hn) (alike_number hfg c hc _ _) (alike_number hfg b hb _ _)
  | breakLoop hn => exact .breakLoop (hfg k j _ _ hn)
  | continueLoop hn => exact .continueLoop (hfg k j _ _ hn)
  | @returnValue n n' v v' hn hv =>
      exact .returnValue (hfg k j _ _ hn) (alike_number hfg v hv _ _)
  | @define n n' p b p' b' hn hp hb =>
      exact .define (hfg k j _ _ hn) (alike_number hfg p hp _ _) (alike_number hfg b hb _ _)
  | prototype hn => exact .prototype (hfg k j _ _ hn)
  | @block n n' is is' hn his => exact .block (hfg k j _ _ hn) (alike_numberList hfg is his _ _)
  | assembly hn => exact .assembly (hfg k j _ _ hn)
  | @unit n n' is is' hn his => exact .unit (hfg k j _ _ hn) (alike_numberList hfg is his _ _)
  | nop hn => exact .nop (hfg k j _ _ hn)

theorem alike_numberList (hfg : ∀ i j a b, same a b → same' (f i a) (g j b))
    (xs : List (Node α)) {xs' : List (Node β)} (h : AlikeList same xs xs') (k j : Nat) :
    AlikeList same' (numberList f k xs).1 (numberList g j xs').1 := by
  cases h with
  | nil => exact .nil
  | @cons y y' ys ys' hy hys =>
      exact .cons (alike_number hfg y hy _ _) (alike_numberList hfg ys hys _ _)

theorem alike_numberOption (hfg : ∀ i j a b, same a b → same' (f i a) (g j b))
    (o : Option (Node α)) {o' : Option (Node β)} (h : AlikeOption same o o') (k j : Nat) :
    AlikeOption same' (numberOption f k o).1 (numberOption g j o').1 := by
  cases h with
  | none => exact .none
  | @some y y' hy => exact .some (alike_number hfg y hy _ _)

end

end

/-! ### Folding -/

mutual

theorem alike_unwrapTail (x : Node α) {x' : Node β} (h : Alike same x x') :
    Alike same x.unwrapTail.1 x'.unwrapTail.1 := by
  cases h with
  | returnValue _ hv => exact hv
  | @block n n' is is' hn his => exact .block hn (alike_unwrapLast is his)
  | @cond n n' c t c' t' e e' hn hc ht he =>
      exact .cond hn hc (alike_unwrapTail t ht) (alike_unwrapOption e he)
  | literal hn => exact .literal hn
  | identifier hn => exact .identifier hn
  | binary hn hl hr => exact .binary hn hl hr
  | unary hn hx => exact .unary hn hx
  | call hn hf has => exact .call hn hf has
  | loop hn hc hb => exact .loop hn hc hb
  | breakLoop hn => exact .breakLoop hn
  | continueLoop hn => exact .continueLoop hn
  | define hn hp hb => exact .define hn hp hb
  | prototype hn => exact .prototype hn
  | assembly hn => exact .assembly hn
  | unit hn his => exact .unit hn his
  | nop hn => exact .nop hn

theorem alike_unwrapLast (xs : List (Node α)) {xs' : List (Node β)} (h : AlikeList same xs xs') :
    AlikeList same (unwrapLast xs).1 (unwrapLast xs').1 := by
  cases h with
  | nil => exact .nil
  | @cons y y' ys ys' hy hys =>
      cases hys with
      | nil => exact .cons (alike_unwrapTail y hy) .nil
      | @cons z z' zs zs' hz hzs => exact .cons hy (alike_unwrapLast (z :: zs) (.cons hz hzs))

theorem alike_unwrapOption (o : Option (Node α)) {o' : Option (Node β)}
    (h : AlikeOption same o o') : AlikeOption same (unwrapOption o).1 (unwrapOption o').1 := by
  cases h with
  | none => exact .none
  | @some y y' hy => exact .some (alike_unwrapTail y hy)

end

theorem alike_foldBinary {n : α} {n' : β} (hn : same n n') (op : BinaryOp) {l r : Node α}
    {l' r' : Node β} (hl : Alike same l l') (hr : Alike same r r') :
    Alike same (foldBinary n op l r).1 (foldBinary n' op l' r').1 := by
  have hkept : Alike same (binary n op l r) (binary n' op l' r') := .binary hn hl hr
  cases hl with
  | @literal _ _ a _ =>
      cases hr with
      | @literal _ _ b _ =>
          simp only [foldBinary]
          cases op.eval? a b with
          | none => exact hkept
          | some v => exact .literal hn
      | _ => exact hkept
  | _ => exact hkept

theorem alike_foldUnary {n : α} {n' : β} (hn : same n n') (op : UnaryOp) {x : Node α}
    {x' : Node β} (hx : Alike same x x') :
    Alike same (foldUnary n op x).1 (foldUnary n' op x').1 := by
  have hkept : Alike same (unary n op x) (unary n' op x') := .unary hn hx
  cases hx with
  | literal _ => exact .literal hn
  | _ => exact hkept

theorem alike_foldCond {n : α} {n' : β} (hn : same n n') {c t : Node α} {c' t' : Node β}
    {e : Option (Node α)} {e' : Option (Node β)} (hc : Alike same c c') (ht : Alike same t t')
    (he : AlikeOption same e e') :
    Alike same (foldCond n c t e).1 (foldCond n' c' t' e').1 := by
  have hkept : Alike same (cond n c t e) (cond n' c' t' e') := .cond hn hc ht he
  cases hc with
  | @literal _ _ v _ =>
      simp only [foldCond]
      split
      · exact ht
      · cases he with
        | none => exact .nop hn
        | some he => exact he
  | _ => exact hkept

mutual

/-- **Trees alike are folded alike.** -/
theorem alike_fold (x : Node α) {x' : Node β} (h : Alike same x x') :
    Alike same x.fold.1 x'.fold.1 := by
  cases h with
  | literal hn => exact .literal hn
  | identifier hn => exact .identifier hn
  | @binary n n' op l r l' r' hn hl hr =>
      exact alike_foldBinary hn op (alike_fold l hl) (alike_fold r hr)
  | @unary n n' op y y' hn hy => exact alike_foldUnary hn op (alike_fold y hy)
  | @call n n' c c' as as' hn hc has =>
      exact .call hn (alike_fold c hc) (alike_foldList as has)
  | @cond n n' c t c' t' e e' hn hc ht he =>
      exact alike_foldCond hn (alike_fold c hc) (alike_fold t ht) (alike_foldOption e he)
  | @loop n n' c b c' b' hn hc hb => exact .loop hn (alike_fold c hc) (alike_fold b hb)
  | breakLoop hn => exact .breakLoop hn
  | continueLoop hn => exact .continueLoop hn
  | @returnValue n n' v v' hn hv => exact .returnValue hn (alike_fold v hv)
  | @define n n' p b p' b' hn hp hb =>
      exact .define hn (alike_fold p hp) (alike_unwrapTail _ (alike_fold b hb))
  | prototype hn => exact .prototype hn
  | @block n n' is is' hn his => exact .block hn (alike_foldList is his)
  | assembly hn => exact .assembly hn
  | @unit n n' is is' hn his => exact .unit hn (alike_foldList is his)
  | nop hn => exact .nop hn

theorem alike_foldList (xs : List (Node α)) {xs' : List (Node β)} (h : AlikeList same xs xs') :
    AlikeList same (foldList xs).1 (foldList xs').1 := by
  cases h with
  | nil => exact .nil
  | @cons y y' ys ys' hy hys => exact .cons (alike_fold y hy) (alike_foldList ys hys)

theorem alike_foldOption (o : Option (Node α)) {o' : Option (Node β)}
    (h : AlikeOption same o o') : AlikeOption same (foldOption o).1 (foldOption o').1 := by
  cases h with
  | none => exact .none
  | @some y y' hy => exact .some (alike_fold y hy)

end

/-! ### Definitions in another order -/

/-- The name of a definition. -/
def definedName? : Node α → Option String
  | define _ (prototype _ f _) _ => some f
  | _ => none

/-- **Items that are the same but for the order of the definitions**: each name is defined once, and
what is no definition stands in the same order. -/
structure MovedItems (same : α → β → Prop) (xs : List (Node α)) (ys : List (Node β)) : Prop where
  names : (xs.filterMap definedName?).Nodup
  rest : List.Forall₂ (Alike same) (xs.filter fun x => !x.isDefinition)
    (ys.filter fun y => !y.isDefinition)
  definitions : ∃ zs, (xs.filter isDefinition).Perm zs ∧
    List.Forall₂ (Alike same) zs (ys.filter isDefinition)

/-- **Units that are the same but for the order of the definitions.** -/
inductive IsMoved (same : α → β → Prop) : Node α → Node β → Prop
  | unit {n : α} {n' : β} {is : List (Node α)} {is' : List (Node β)}
      (h : MovedItems same is is') : IsMoved same (unit n is) (unit n' is')

section

variable (p : α → β → Bool)

/-- Whether the trees of a list are alike to those of another in some order. -/
def checkPerm : List (Node α) → List (Node β) → Bool
  | xs, [] => xs.isEmpty
  | xs, y :: ys => xs.any (fun x => check p x y) &&
      checkPerm (xs.eraseP fun x => check p x y) ys

theorem exists_perm_of_checkPerm {xs : List (Node α)} {ys : List (Node β)}
    (h : checkPerm p xs ys = true) :
    ∃ zs, xs.Perm zs ∧ List.Forall₂ (Alike fun n n' => p n n' = true) zs ys := by
  induction ys generalizing xs with
  | nil =>
      rw [checkPerm, List.isEmpty_iff] at h
      exact ⟨[], List.Perm.of_eq h, .nil⟩
  | cons y ys ih =>
      rw [checkPerm, Bool.and_eq_true, List.any_eq_true] at h
      obtain ⟨⟨x, hx, hxy⟩, hrest⟩ := h
      obtain ⟨z, before, after, -, hz, rfl, herase⟩ :=
        List.exists_of_eraseP (p := fun x => check p x y) hx hxy
      rw [herase] at hrest
      obtain ⟨zs, hperm, hzs⟩ := ih hrest
      exact ⟨z :: zs, List.perm_middle.trans (hperm.cons z), .cons (alike_of_check p z y hz) hzs⟩

/-- Whether two units are the same but for the order of their definitions. -/
def checkMoved : Node α → Node β → Bool
  | unit _ is, unit _ is' =>
      decide (is.filterMap definedName?).Nodup &&
      checkList p (is.filter fun x => !x.isDefinition) (is'.filter fun x => !x.isDefinition) &&
      checkPerm p (is.filter isDefinition) (is'.filter isDefinition)
  | _, _ => false

/-- **A check that succeeds proves units the same but for the order of their definitions.** -/
theorem isMoved_of_check {x : Node α} {y : Node β} (h : checkMoved p x y = true) :
    IsMoved (fun n n' => p n n' = true) x y := by
  unfold checkMoved at h
  split at h
  · rw [Bool.and_eq_true, Bool.and_eq_true, decide_eq_true_eq] at h
    obtain ⟨⟨hnames, hrest⟩, hdefinitions⟩ := h
    exact .unit ⟨hnames, alikeList_iff.1 (alike_of_checkList p _ _ hrest),
      exists_perm_of_checkPerm p hdefinitions⟩
  · exact absurd h Bool.false_ne_true

end

/-- A definition is none of the statements. -/
theorem statements_define {x : Node α} (hx : x.isDefinition = true) (xs : List (Node α)) :
    (x :: xs).filter (fun x => !x.isDefinition) = xs.filter fun x => !x.isDefinition := by
  rw [List.filter_cons, hx, Bool.not_true, if_neg Bool.false_ne_true]

theorem statements_cons {x : Node α} (hx : x.isDefinition = false) (xs : List (Node α)) :
    (x :: xs).filter (fun x => !x.isDefinition) = x :: xs.filter fun x => !x.isDefinition := by
  rw [List.filter_cons, hx, Bool.not_false, if_pos rfl]

namespace MovedItems

variable {xs : List (Node α)} {ys : List (Node β)} {xs' : List (Node α')} {ys' : List (Node β')}
variable {N : Node α → Node α' → Prop} {N' : Node β → Node β' → Prop}

/-- Lists that correspond are filtered alike. -/
theorem filter_of_forall₂ {p : Node α → Bool} {q : Node α' → Bool}
    (hpq : ∀ x x', N x x' → q x' = p x) (h : List.Forall₂ N xs xs') :
    List.Forall₂ N (xs.filter p) (xs'.filter q) := by
  refine List.rel_filter ?_ h
  intro x x' hx
  dsimp only
  rw [hpq x x' hx]

theorem names_of_forall₂ (hN : ∀ x x', N x x' → x'.definedName? = x.definedName?)
    (h : List.Forall₂ N xs xs') :
    xs'.filterMap definedName? = xs.filterMap definedName? := by
  induction h with
  | nil => rfl
  | cons hx _ ih => rw [List.filterMap_cons, List.filterMap_cons, hN _ _ hx, ih]

/-- Trees alike that are changed alike are alike. -/
theorem alike_of_forall₂
    (hboth : ∀ x y x' y', Alike same x y → N x x' → N' y y' → Alike same' x' y')
    (h : List.Forall₂ (Alike same) xs ys) (hxs : List.Forall₂ N xs xs')
    (hys : List.Forall₂ N' ys ys') : List.Forall₂ (Alike same') xs' ys' := by
  induction h generalizing xs' ys' with
  | nil =>
      cases hxs
      cases hys
      exact .nil
  | cons hxy _ ih =>
      cases hxs with
      | cons hx hxs =>
          cases hys with
          | cons hy hys => exact .cons (hboth _ _ _ _ hxy hx hy) (ih hxs hys)

/-- **Items stay the same but for the order of the definitions** when all are changed alike. -/
theorem transfer (h : MovedItems same xs ys) (hxs : List.Forall₂ N xs xs')
    (hys : List.Forall₂ N' ys ys')
    (hN : ∀ x x', N x x' → x'.isDefinition = x.isDefinition ∧ x'.definedName? = x.definedName?)
    (hN' : ∀ y y', N' y y' → y'.isDefinition = y.isDefinition)
    (hboth : ∀ x y x' y', Alike same x y → N x x' → N' y y' → Alike same' x' y') :
    MovedItems same' xs' ys' := by
  obtain ⟨zs, hperm, hzs⟩ := h.definitions
  have hfirst : ∀ x x', N x x' → x'.isDefinition = x.isDefinition := fun x x' hx => (hN x x' hx).1
  have hdefined := filter_of_forall₂ hfirst hxs
  have hdefined' := filter_of_forall₂ hN' hys
  -- the definitions are changed alike in any order
  obtain ⟨zs', hchanged, hperm'⟩ := List.perm_comp_forall₂ hperm.symm hdefined
  refine ⟨?_, ?_, zs', hperm'.symm, alike_of_forall₂ hboth hzs hchanged hdefined'⟩
  · rw [names_of_forall₂ (fun x x' hx => (hN x x' hx).2) hxs]
    exact h.names
  · exact alike_of_forall₂ hboth h.rest
      (filter_of_forall₂ (fun x x' hx => congrArg (!·) (hfirst x x' hx)) hxs)
      (filter_of_forall₂ (fun y y' hy => congrArg (!·) (hN' y y' hy)) hys)

/-- Every item has a companion among the others. -/
theorem exists_alike (h : MovedItems same xs ys) {y : Node β} (hy : y ∈ ys) :
    ∃ x ∈ xs, Alike same x y := by
  obtain ⟨zs, hperm, hzs⟩ := h.definitions
  cases hdefinition : y.isDefinition with
  | true =>
      obtain ⟨z, hz, hzy⟩ := exists_of_mem_forall₂ hzs (List.mem_filter.2 ⟨hy, hdefinition⟩)
      exact ⟨z, (List.mem_filter.1 (hperm.mem_iff.2 hz)).1, hzy⟩
  | false =>
      obtain ⟨x, hx, hxy⟩ := exists_of_mem_forall₂ h.rest
        (List.mem_filter.2 ⟨hy, by rw [hdefinition, Bool.not_false]⟩)
      exact ⟨x, (List.mem_filter.1 hx).1, hxy⟩

end MovedItems

/-! ### Folding and numbering -/

/-- An item stays a definition of its name, or none, when it is folded. -/
theorem head_fold {x : Node α} (hx : x.IsItem) :
    x.fold.1.isDefinition = x.isDefinition ∧ x.fold.1.definedName? = x.definedName? := by
  cases hdefinition : x.isDefinition with
  | true =>
      cases x with
      | define n p b =>
          obtain ⟨m, f, ps, rfl, -⟩ := isItem_define.1 hx
          exact ⟨rfl, rfl⟩
      | _ => cases hdefinition
  | false =>
      have hplain := isPlain_fold x ((isItem_of_not_isDefinition hdefinition).1 hx)
      have hname : ∀ y : Node α, y.isDefinition = false → y.definedName? = none := by
        intro y hy
        cases y with
        | define n p b => cases hy
        | _ => rfl
      have hfold : x.fold.1.isDefinition = false := by
        cases hx' : x.fold.1 with
        | define n p b =>
            rw [hx'] at hplain
            exact absurd hplain.self id
        | _ => rfl
      exact ⟨hfold, (hname _ hfold).trans (hname x hdefinition).symm⟩

theorem definedName?_number (f : Nat → α → α') (k : Nat) (x : Node α) :
    (x.number f k).1.definedName? = x.definedName? := by
  cases x with
  | define n p b => cases p <;> rfl
  | _ => rfl

theorem forall₂_foldList (xs : List (Node α)) :
    List.Forall₂ (fun x x' => x' = x.fold.1) xs (foldList xs).1 := by
  induction xs with
  | nil => exact .nil
  | cons x xs ih => exact .cons rfl ih

theorem forall₂_numberList (f : Nat → α → α') (k : Nat) (xs : List (Node α)) :
    List.Forall₂ (fun x x' => ∃ i, x' = (x.number f i).1) xs (numberList f k xs).1 := by
  induction xs generalizing k with
  | nil => exact .nil
  | cons x xs ih => exact .cons ⟨k, rfl⟩ (ih _)

/-- **Units stay the same but for the order of the definitions when they are folded.** -/
theorem isMoved_fold {same : α → α → Prop} {x y : Node α} (hx : x.IsSource)
    (h : IsMoved same x y) : IsMoved same x.fold.1 y.fold.1 := by
  cases h with
  | @unit n n' is is' h =>
      have hitems : ∀ x ∈ is, x.IsItem := hx
      have hfirst := (List.forall₂_and_left _ _).2 ⟨hitems, forall₂_foldList is⟩
      have hsecond := (List.forall₂_and_left _ _).2
        ⟨fun y hy => h.exists_alike hy, forall₂_foldList is'⟩
      refine .unit (h.transfer hfirst hsecond ?_ ?_ ?_)
      · rintro x x' ⟨hx, rfl⟩
        exact head_fold hx
      · rintro y y' ⟨⟨x, hmem, hxy⟩, rfl⟩
        rw [(alike_fold x hxy).isDefinition, (head_fold (hitems x hmem)).1, hxy.isDefinition]
      · rintro x y x' y' hxy ⟨-, rfl⟩ ⟨-, rfl⟩
        exact alike_fold x hxy

theorem isMoved_prepare {same : Span → Span → Prop} {x y : Node Span} (hx : x.IsSource)
    (h : IsMoved same x y) (optimize : Bool) :
    IsMoved same (Compile.prepare optimize x) (Compile.prepare optimize y) := by
  cases optimize with
  | true => exact isMoved_fold hx h
  | false => exact h

end Node

/-- **So do the documents of such units.** -/
theorem Document.isMoved_ofTree {same : Span → Span → Prop} {x y : Node Span}
    (h : Node.IsMoved same x y) : Node.IsMoved (fun m m' : Mark => same m.span m'.span)
      (Document.ofTree x).root (Document.ofTree y).root := by
  cases h with
  | @unit n n' is is' h =>
      refine .unit (h.transfer (Node.forall₂_numberList _ _ is) (Node.forall₂_numberList _ _ is')
        ?_ ?_ ?_)
      · rintro x x' ⟨i, rfl⟩
        exact ⟨Node.isDefinition_number _ i x, Node.definedName?_number _ i x⟩
      · rintro y y' ⟨i, rfl⟩
        exact Node.isDefinition_number _ i y
      · rintro x y x' y' hxy ⟨i, rfl⟩ ⟨j, rfl⟩
        refine Node.alike_number ?_ x hxy i j
        exact fun _ _ _ _ hsame => hsame

end StackLang
