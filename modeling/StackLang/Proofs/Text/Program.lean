/-
**The text of a program.**

A text on which inference succeeds has a program, whose lines are those of its code and of its
cells.  Their references close, and the assembler reads each of them as what it was written for.

Main results:

* `Code.IsFinished.isWell` — the names of all lines are made names, and remarks are one line;
* `Code.IsFinished.exists_text` — finished code has a text, which is made of these lines;
* `Compile.isClosed_text` — a text on which inference succeeds has a program whose references close;
* `Compile.isRead_assembly` — the assembler reads the lines of a program as they were written.
-/

import StackLang.Proofs.Text.Closed
import StackLang.Proofs.Text.Reading

set_option relaxedAutoImplicit false
set_option autoImplicit false

namespace StackLang

open Text

/-! ### Remarks -/

section Remarks

variable {cs ds : List Char}

theorem isOneLine_append (hcs : IsOneLine cs) (hds : IsOneLine ds) : IsOneLine (cs ++ ds) :=
  List.forall_mem_append.2 ⟨hcs, hds⟩

theorem isOneLine_of_subset (h : IsOneLine cs) (hsub : ds ⊆ cs) : IsOneLine ds :=
  fun c hc => h c (hsub hc)

theorem isOneLine_toDigits (n : Nat) : IsOneLine (Nat.toDigits 10 n) :=
  Assembly.Number.forall_toDigits_ten (by decide)

theorem isOneLine_zeros (n : Nat) : IsOneLine (List.replicate n '0') := by
  intro c hc
  rw [List.eq_of_mem_replicate hc]
  decide

theorem isOneLine_toString (z : Int) : IsOneLine (toString z).toList := by
  rw [Operand.toList_toString_int]
  split
  · exact List.forall_mem_cons.2 ⟨by decide, isOneLine_toDigits _⟩
  · exact isOneLine_toDigits _

/-- The text of a decimal is one line, in either form. -/
theorem isOneLine_decimal (d : Binary32.Decimal) :
    IsOneLine (Binary32.positional d).toList ∧ IsOneLine (Binary32.scientific d).toList := by
  have hdigits := isOneLine_toDigits d.digits
  constructor
  · rw [Binary32.positional]
    split
    · simp only [String.toList_append, String.toList_ofList]
      exact isOneLine_append (isOneLine_append hdigits (isOneLine_zeros _)) (by simp [IsOneLine])
    · simp only [String.toList_append, String.toList_ofList]
      -- the point is put into the digits, with zeros in front of them
      have hpadded := isOneLine_append
        (isOneLine_zeros ((-d.exponent).toNat + 1 - (Nat.toDigits 10 d.digits).length)) hdigits
      exact isOneLine_append (isOneLine_append
        (isOneLine_of_subset hpadded (List.take_subset _ _)) (by simp [IsOneLine]))
        (isOneLine_of_subset hpadded (List.drop_subset _ _))
  · rw [Binary32.scientific]
    simp only [String.toList_append, String.toList_ofList]
    refine isOneLine_append (isOneLine_append (isOneLine_append (isOneLine_append
      (isOneLine_of_subset hdigits (List.take_subset _ _)) ?_)
      (isOneLine_of_subset hdigits (List.drop_subset _ _))) (by simp [IsOneLine]))
      (isOneLine_toString _)
    split <;> simp [IsOneLine]

/-- The text of a number is one line. -/
theorem isOneLine_text (x : Binary32) : IsOneLine x.text.toList := by
  unfold Binary32.text
  split
  · simp [IsOneLine]
  · rw [String.toList_append]
    refine isOneLine_append (by split <;> simp [IsOneLine]) ?_
    unfold Binary32.magnitudeText
    split
    · simp [IsOneLine]
    · split
      · simp [IsOneLine]
      · simp only
        split
        · exact (isOneLine_decimal _).1
        · exact (isOneLine_decimal _).2

end Remarks

/-! ### The lines of a program -/

namespace Code.IsFinished

variable {items : List (Node Mark)} {t : Typing} {w : Nat} {c : Code}

/-- The name of a cell is made from that of a variable. -/
theorem isMadeName_cell (h : c.IsFinished items t w) {k : Nat} {s : Symbol} {name : String}
    (hs : t.round.symbols[k]? = some s) (hstorage : s.storage = .global name) :
    IsMadeName name := by
  obtain ⟨b, j, hb, rfl, -⟩ := h.sound.round.labels k s name hs hstorage
  exact isMadeName_globalLabel hb j

theorem isMadeName_entry (h : c.IsFinished items t w) {name : String}
    (hname : name ∈ StackLang.entries c.instrs) : IsMadeName name := by
  obtain ⟨-, base, args, hb, rfl⟩ := h.exists_decorate hname
  exact isMadeName_decorate hb args

/-- The names in an operand are those of functions and of cells. -/
theorem isNamed_operand (h : c.IsFinished items t w) {i : Instr} (hi : i ∈ c.instrs) :
    i.operand.IsNamed := by
  have hplaced := h.placed i hi
  cases ha : i.operand with
  | none | immediate | frame => trivial
  | global name =>
      obtain ⟨k, s, hs, hstorage⟩ := hplaced.cell name ha
      exact h.isMadeName_cell hs hstorage
  | label name =>
      refine h.isMadeName_entry ((h.called name).1 (mem_callees.2 ⟨i, hi, ?_, ha⟩))
      exact hplaced.label name ha

theorem isOneLine_remark (h : c.IsFinished items t w) {i : Instr} (hi : i ∈ c.instrs)
    {text : String} (htext : i.remark? = some text) : IsOneLine text.toList := by
  unfold Instr.remark? at htext
  split at htext
  · rename_i comment hcomment
    cases htext
    exact (h.placed i hi).remark _ hcomment
  · split at htext
    · cases htext
      exact isOneLine_text _
    · cases htext

/-- **The names of all lines are made names**, and remarks are one line. -/
theorem isWell (h : c.IsFinished items t w) {l : Line}
    (hl : l ∈ c.listing ++ t.round.symbols.cells) : l.IsWell := by
  rcases List.mem_append.1 hl with hl | hl
  · obtain ⟨i, hi, ⟨name, hname, rfl⟩ | hbody⟩ := mem_listing.1 hl
    · obtain ⟨n, hn⟩ := h.labelsMade
      obtain ⟨j, rfl⟩ := hn.exists_eq hname
      exact isMadeName_jumpLabel j
    · rcases mem_bodyLines.1 hbody with ⟨name, hop, rfl⟩ | ⟨hop, rfl⟩
      · exact h.isMadeName_entry (mem_entries.2 ⟨i, hi, hop⟩)
      · refine ⟨hop, ?_, fun text => h.isOneLine_remark hi⟩
        rcases h.argumentOf_cases hi with ⟨n, ha, -⟩ | ⟨-, ha⟩
        · rw [ha]
          exact isMadeName_jumpLabel n
        · rw [ha]
          exact h.isNamed_operand hi
  · obtain ⟨k, s, name, hs, -, hstorage, rfl⟩ := Symbols.mem_cells.1 hl
    exact h.isMadeName_cell hs hstorage

/-- The offsets in all lines are numbers of the assembler, if the frames are not too large. -/
theorem inRange (h : c.IsFinished items t w) (hw : w < 2 ^ 60) {l : Line}
    (hl : l ∈ c.listing ++ t.round.symbols.cells) : l.InRange := by
  rcases List.mem_append.1 hl with hl | hl
  · obtain ⟨i, hi, ⟨name, hname, rfl⟩ | hbody⟩ := mem_listing.1 hl
    · trivial
    · rcases mem_bodyLines.1 hbody with ⟨name, hop, rfl⟩ | ⟨hop, rfl⟩
      · trivial
      · rcases h.argumentOf_cases hi with ⟨n, ha, -⟩ | ⟨-, ha⟩
        · simp only [Line.InRange, ha, Operand.InRange]
        · simp only [Line.InRange, ha]
          cases ho : i.operand with
          | frame offset =>
              have hplace := (h.placed i hi).place offset ho
              simp only [Operand.InRange]
              omega
          | _ => trivial
  · obtain ⟨k, s, name, -, -, -, rfl⟩ := Symbols.mem_cells.1 hl
    trivial

/-- **Finished code has a text**, which is made of its lines and those of the cells. -/
theorem exists_text (h : c.IsFinished items t w) : ∃ text, c.text = .ok text ∧
    Text.lines (text ++ t.round.symbols.reservations).toList
      = (c.listing ++ t.round.symbols.cells).map fun l => l.text.toList := by
  -- the halt is written, so the text has a line
  have hne : c.listing ≠ [] := by
    obtain ⟨i, hi, hop⟩ := h.halt
    have hmnemonic : i.op.mnemonic? ≠ none := by
      rw [hop]
      exact nofun
    exact List.ne_nil_of_mem (mem_listing.2 ⟨i, hi, .inr (mem_bodyLines.2 (.inr ⟨hmnemonic, rfl⟩))⟩)
  refine ⟨_, text_of_isPrintable h.isPrintable hne, ?_⟩
  rw [Symbols.reservations_eq, ← unlines_append, ← List.map_append, lines_unlines, List.map_map]
  · rfl
  · rw [List.forall_mem_map]
    exact fun l hl => Line.isOneLine_of_isWell (h.isWell hl)

end Code.IsFinished

/-! ### The text of a program -/

namespace Compile

variable {fold optimize : Bool} {source : String} {t : Node Span} {typing : Typing}
  {compiled : Compiled}

/-- **A text on which inference succeeds has a program whose references close**, if there is no
target code in it.  Neither the code nor its text fails to exist, whether the tree is folded or not
and whether the optimizer runs or not; where it runs just when the tree is folded, the program is
the outcome of the compilation. -/
theorem isClosed_text (htree : tree source = .ok t) (hasm : t.hasAssembly = false)
    (hinfer : (Document.ofTree (prepare fold t)).infer = .ok typing) (optimize : Bool) :
    ∃ c text, typing.lower = .ok c ∧ (finish optimize c).1.text = .ok text ∧
      (fold = optimize → compile optimize source = .ok ⟨text ++ typing.round.symbols.reservations,
        (finish optimize c).1, (finish optimize c).2⟩) ∧
      Text.lines (text ++ typing.round.symbols.reservations).toList
        = ((finish optimize c).1.listing ++ typing.round.symbols.cells).map (·.text.toList) ∧
      IsClosed (typing.round.instances.made.map Instance.name)
        ((finish optimize c).1.listing ++ typing.round.symbols.cells) := by
  obtain ⟨items, c, hc, hfinished⟩ := exists_lower_of_infer htree hasm hinfer optimize
  obtain ⟨text, htext, hlines⟩ := hfinished.exists_text
  refine ⟨c, text, hc, htext, ?_, hlines, hfinished.isClosed⟩
  rintro rfl
  simp [compile, lowered, bind, Except.bind, pure, Except.pure, htree, hinfer, hc, htext]

/-- A program with two instances of one function, and a loop: its references close. -/
theorem isClosed_text_instances : ∃ t typing c text,
    tree "def f(x) { y = x + 1.5 y } z = f(2) while z < 9 { z = z * 2 } f(z)" = .ok t ∧
      t.hasAssembly = false ∧ (Document.ofTree (prepare true t)).infer = .ok typing ∧
      typing.lower = .ok c ∧ (finish true c).1.text = .ok text ∧
      typing.round.instances.made.map Instance.name = ["f@@i32", "f@@f32"] ∧
      IsClosed ["f@@i32", "f@@f32"]
        ((finish true c).1.listing ++ typing.round.symbols.cells) := by
  have hrun : (tree "def f(x) { y = x + 1.5 y } z = f(2) while z < 9 { z = z * 2 } f(z)"
      ).toOption.any (fun t =>
        !t.hasAssembly && (Document.ofTree (prepare true t)).infer.toOption.any fun typing =>
          typing.round.instances.made.map Instance.name = ["f@@i32", "f@@f32"]) = true := by
    decide +kernel
  simp only [Option.any_eq_true, Bool.and_eq_true, Bool.not_eq_true', decide_eq_true_eq] at hrun
  obtain ⟨t, ht, hasm, typing, hinfer, hmade⟩ := hrun
  have ht := Step.eq_ok_of_toOption ht
  have hinfer := Step.eq_ok_of_toOption hinfer
  obtain ⟨c, text, hc, htext, -, -, hclosed⟩ := isClosed_text ht hasm hinfer true
  exact ⟨t, typing, c, text, ht, hasm, hinfer, hc, htext, hmade, hmade ▸ hclosed⟩

/-- What a compilation that succeeds went through. -/
theorem exists_of_compile (htree : tree source = .ok t)
    (h : compile optimize source = .ok compiled) :
    ∃ typing c text, (Document.ofTree (prepare optimize t)).infer = .ok typing ∧
      typing.lower = .ok c ∧ compiled.code = (finish optimize c).1 ∧
      compiled.code.text = .ok text ∧
      compiled.assembly = text ++ typing.round.symbols.reservations := by
  rw [compile] at h
  obtain ⟨t', ht', h⟩ := Step.except_bind_eq_ok.1 h
  obtain rfl : t = t' := Except.ok.inj (htree.symm.trans ht')
  obtain ⟨⟨typing, c⟩, hlowered, h⟩ := Step.except_bind_eq_ok.1 h
  obtain ⟨typing', hinfer, hlower⟩ := Step.except_bind_eq_ok.1 hlowered
  cases hc : typing'.lower with
  | error e =>
      simp only [hc] at hlower
      cases hlower
  | ok c' =>
      simp only [hc] at hlower
      cases hlower
      simp only at h
      cases htext : (finish optimize c).1.text with
      | error e =>
          simp only [htext] at h
          cases h
      | ok text =>
          simp only [htext] at h
          cases h
          exact ⟨typing, c, text, hinfer, hc, rfl, htext, rfl⟩

/-- **The assembler reads the lines of a program as they were written**, if there is no target code
in the source text.  No text comes near the length from which on offsets in a frame could be too
large for the assembler. -/
theorem isRead_assembly (htree : tree source = .ok t) (hasm : t.hasAssembly = false)
    (hlength : source.length < 2 ^ 60) (h : compile optimize source = .ok compiled) :
    ∃ typing, (Document.ofTree (prepare optimize t)).infer = .ok typing ∧
      Text.lines compiled.assembly.toList
        = (compiled.code.listing ++ typing.round.symbols.cells).map (·.text.toList) ∧
      ∀ l ∈ compiled.code.listing ++ typing.round.symbols.cells, l.IsRead := by
  obtain ⟨typing, c, text, hinfer, hc, hcode, htext, hassembly⟩ := exists_of_compile htree h
  obtain ⟨items, c', hc', hfinished⟩ := exists_lower_of_infer htree hasm hinfer optimize
  obtain rfl : c = c' := Except.ok.inj (hc.symm.trans hc')
  rw [← hcode] at hfinished
  obtain ⟨text', htext', hlines⟩ := hfinished.exists_text
  obtain rfl : text = text' := Except.ok.inj (htext.symm.trans htext')
  have hw := (Document.nameCount_ofTree htree optimize).trans_lt hlength
  refine ⟨typing, hinfer, hassembly ▸ hlines, fun l hl => ?_⟩
  exact Line.isRead_of_isWell (hfinished.isWell hl) (hfinished.inRange hw hl)

/-- A program with jumps, calls, floats and places in a frame: its lines are read as they were
written. -/
theorem isRead_assembly_instances : ∃ t compiled, ∃ typing : Typing,
    tree "def f(x) { y = x + 1.5 y } z = f(2) while z < 9 { z = z * 2 } f(z)" = .ok t ∧
      t.hasAssembly = false ∧
      "def f(x) { y = x + 1.5 y } z = f(2) while z < 9 { z = z * 2 } f(z)".length < 2 ^ 60 ∧
      compile false "def f(x) { y = x + 1.5 y } z = f(2) while z < 9 { z = z * 2 } f(z)"
        = .ok compiled ∧
      Text.lines compiled.assembly.toList
        = (compiled.code.listing ++ typing.round.symbols.cells).map (·.text.toList) ∧
      ∀ l ∈ compiled.code.listing ++ typing.round.symbols.cells, l.IsRead := by
  have htree : (tree "def f(x) { y = x + 1.5 y } z = f(2) while z < 9 { z = z * 2 } f(z)"
      ).toOption.any (fun t => !t.hasAssembly) = true := by decide +kernel
  have hcompile :
      (compile false "def f(x) { y = x + 1.5 y } z = f(2) while z < 9 { z = z * 2 } f(z)"
        ).toOption.isSome = true := by decide +kernel
  obtain ⟨t, ht, hasm⟩ := (Option.any_eq_true _ _).1 htree
  obtain ⟨compiled, hcompiled⟩ := Option.isSome_iff_exists.1 hcompile
  have hasm : t.hasAssembly = false := by simpa using hasm
  have ht := Step.eq_ok_of_toOption ht
  have hcompiled := Step.eq_ok_of_toOption hcompiled
  have hlength :
      "def f(x) { y = x + 1.5 y } z = f(2) while z < 9 { z = z * 2 } f(z)".length < 2 ^ 60 := by
    decide +kernel
  obtain ⟨typing, -, hlines, hread⟩ := isRead_assembly ht hasm hlength hcompiled
  exact ⟨t, compiled, typing, ht, hasm, hlength, hcompiled, hlines, hread⟩

end Compile

end StackLang
