/-
**What a run leaves behind.**

A run reads all of its files before it writes one, so a text that is refused is refused with the
directory as it was.  A run that succeeds has put the bytes where it was told to: they are the last
that were printed, or they are read back from their file, and so is the text of the map.

Main definitions:

* `Delivered` — the bytes and the map are where the options say.

Main results:

* `Directory.read_write`, `Directory.read_write_of_ne` — a file after it or another was written;
* `snd_readSources` — reading files changes nothing;
* `run_of_diagnostics` — **a text that is refused leaves the directory as it was**;
* `perform_success` — **what was made is where it should be** after a run that succeeds.
-/

import StackLang.CommandLine.Run

set_option relaxedAutoImplicit false
set_option autoImplicit false

namespace StackLang

namespace CommandLine

namespace Directory

variable {d e : Directory} {path other name : String} {bytes : ByteArray}

/-- Which file a path stands for does not depend on the files. -/
theorem locate_eq_ok (h : d.locate path = .ok name) (e : Directory) :
    e.locate path = .ok name := by
  unfold locate at h ⊢
  split at h
  · cases h
  · split at h <;> simp_all
    split at h <;> cases h

/-- What was written went to the file that the path stands for. -/
theorem exists_of_write (h : d.write path bytes = .ok e) : ∃ name, d.locate path = .ok name ∧
    e = { d with files := (name, bytes) :: d.files.filter fun (n, _) => n ≠ name } := by
  unfold write at h
  cases hname : d.locate path with
  | error cause => simp [hname] at h
  | ok name =>
      rw [hname] at h
      cases h
      exact ⟨name, rfl, rfl⟩

/-- What was written is read. -/
theorem read_write (h : d.write path bytes = .ok e) : e.read path = .ok bytes := by
  obtain ⟨name, hname, rfl⟩ := exists_of_write h
  simp [read, locate_eq_ok hname]

/-- Other entries of a table stay when those of a name are taken out. -/
theorem lookup_filter_ne {files : List (String × ByteArray)} {written : String}
    (hne : (name == written) = false) :
    (files.filter fun file => !decide (file.1 = written)).lookup name = files.lookup name := by
  induction files with
  | nil => rfl
  | cons file files ih =>
      obtain ⟨n, bytes⟩ := file
      by_cases hn : n = written
      · subst hn
        simpa [List.lookup_cons, hne] using ih
      · rw [List.filter_cons_of_pos (by simpa using hn), List.lookup_cons, List.lookup_cons, ih]

/-- Other files are read as before. -/
theorem read_write_of_ne (h : d.write path bytes = .ok e) (hname : d.locate other = .ok name)
    (hne : d.locate path ≠ .ok name) : e.read other = d.read other := by
  obtain ⟨written, hwritten, rfl⟩ := exists_of_write h
  have hname' : (name == written) = false := beq_false_of_ne fun heq => hne (heq ▸ hwritten)
  simp [read, hname, locate_eq_ok hname, List.lookup_cons, hname', lookup_filter_ne hname']

theorem printed_write (h : d.write path bytes = .ok e) : e.printed = d.printed := by
  obtain ⟨name, -, rfl⟩ := exists_of_write h
  rfl

end Directory

variable {d : Directory} {o : Options} {program : Program} {path : String} {bytes : ByteArray}

theorem bind_access {α β : Type} (m : StateM Directory α) (f : α → StateM Directory β)
    (d : Directory) : (m >>= f) d = f (m d).1 (m d).2 := rfl

/-- Reading a text changes nothing. -/
theorem snd_readText (path : String) (d : Directory) :
    (readText Directory.access path d).2 = d := by
  rw [readText, bind_access]
  change ((_ : StateM Directory _) d).2 = d
  cases hread : (Directory.access.read path d).1 with
  | error e => rfl
  | ok bytes =>
      dsimp only
      cases String.fromUTF8? bytes <;> rfl

/-- Reading files changes nothing. -/
theorem snd_readSources (sources : Sources) (paths : List String) (d : Directory) :
    (readSources Directory.access sources paths d).2 = d := by
  induction paths generalizing sources with
  | nil => rfl
  | cons path paths ih =>
      rw [readSources, bind_access, snd_readText]
      cases (readText Directory.access path d).1 with
      | error e => rfl
      | ok text => exact ih _

/-! ### Writing -/

/-- **What was made is where it should be**: it was printed or is in its file, unless the map goes
to the same file, and so is the map where one was asked for. -/
structure Delivered (o : Options) (product : Product) (d e : Directory) : Prop where
  printed : e.printed = if o.stdout then d.printed ++ product.bytes else d.printed
  file : o.stdout = false → ∀ name, d.locate product.path = .ok name →
    (∀ path, o.map = some path → d.locate path ≠ .ok name) →
    e.read product.path = .ok product.bytes
  map : ∀ path text, o.map = some path → product.map = some text →
    e.read path = .ok text.toUTF8

section Writing

variable {product : Product}

/-- A file was written if no failure is reported. -/
theorem write_of_writeFile (h : (writeFile Directory.access path bytes d).1.failure = none) :
    d.write path bytes = .ok (writeFile Directory.access path bytes d).2 := by
  rw [writeFile, bind_access] at h ⊢
  cases hwrite : d.write path bytes with
  | ok e =>
      simp only [Directory.access, hwrite]
      rfl
  | error cause =>
      simp only [Directory.access, hwrite] at h
      cases h

theorem diagnostics_writeFile (path : String) (bytes : ByteArray) (d : Directory) :
    (writeFile Directory.access path bytes d).1.diagnostics = [] := by
  rw [writeFile, bind_access]
  cases (Directory.access.write path bytes d).1 <;> rfl

/-- Where the bytes are before the map is written. -/
theorem placed (h : (place Directory.access o product d).1.failure = none) :
    (place Directory.access o product d).2.printed
        = (if o.stdout then d.printed ++ product.bytes else d.printed) ∧
      (o.stdout = false →
        (place Directory.access o product d).2.read product.path = .ok product.bytes) := by
  rw [place] at h ⊢
  cases hstdout : o.stdout with
  | true => exact ⟨rfl, nofun⟩
  | false =>
      simp only [hstdout, Bool.false_eq_true, if_false] at h ⊢
      have hwrite := write_of_writeFile h
      exact ⟨Directory.printed_write hwrite, fun _ => Directory.read_write hwrite⟩

/-- Writing says nothing about the files that were read. -/
theorem diagnostics_deliver (o : Options) (product : Product) (d : Directory) :
    (deliver Directory.access o product d).1.diagnostics = [] := by
  have hplace : (place Directory.access o product d).1.diagnostics = [] := by
    rw [place]
    split
    · rfl
    · exact diagnostics_writeFile _ _ _
  rw [deliver, bind_access]
  split
  · exact hplace
  · cases o.map with
    | none => exact hplace
    | some path =>
        cases product.map with
        | none => exact hplace
        | some map => exact diagnostics_writeFile _ _ _

/-- **What was made is where it should be** if no failure is reported. -/
theorem delivered (h : (deliver Directory.access o product d).1.failure = none) :
    Delivered o product d (deliver Directory.access o product d).2 := by
  rw [deliver, bind_access] at h ⊢
  split at h
  · case isTrue hfailure =>
    rw [show (place Directory.access o product d).1.failure = none from h] at hfailure
    cases hfailure
  · case isFalse hfailure =>
    rw [if_neg hfailure]
    obtain ⟨hprinted, hfile⟩ := placed (Option.not_isSome_iff_eq_none.1 hfailure)
    cases hmap : o.map with
    | none => exact ⟨hprinted, fun hstdout _ _ _ => hfile hstdout, by simp [hmap]⟩
    | some path =>
        cases htext : product.map with
        | none => exact ⟨hprinted, fun hstdout _ _ _ => hfile hstdout, by simp [htext]⟩
        | some text =>
            simp only [hmap, htext] at h
            have hwrite := write_of_writeFile h
            refine ⟨(Directory.printed_write hwrite).trans hprinted, ?_, ?_⟩
            · intro hstdout name hname hother
              rw [← hfile hstdout]
              refine Directory.read_write_of_ne hwrite (Directory.locate_eq_ok hname _) fun hp => ?_
              exact hother path hmap (Directory.locate_eq_ok hp d)
            · intro path' text' hpath' htext'
              obtain rfl : path' = path := Option.some.inj (hpath'.symm.trans hmap)
              obtain rfl : text' = text := Option.some.inj (htext'.symm.trans htext)
              exact Directory.read_write hwrite

end Writing

/-! ### Runs -/

/-- A run with arguments that make sense writes nothing when a text is refused. -/
theorem perform_of_diagnostics
    (h : (perform Directory.access program o d).1.diagnostics ≠ []) :
    (perform Directory.access program o d).2 = d := by
  rw [perform, bind_access, snd_readSources] at h ⊢
  cases hsources : (readSources Directory.access .empty o.sources d).1 with
  | error message => rfl
  | ok sources =>
      simp only [hsources] at h
      cases hproduct : produce program o sources with
      | error refusal =>
          simp only [hproduct]
          rfl
      | ok product =>
          simp only [hproduct] at h
          exact absurd (diagnostics_deliver o product d) h

/-- **A text that is refused leaves the directory as it was.** -/
theorem run_of_diagnostics {args : List String}
    (h : (run Directory.access program args d).1.diagnostics ≠ []) :
    (run Directory.access program args d).2 = d := by
  rw [run] at h ⊢
  cases hoptions : Options.parse program args with
  | ok o =>
      simp only [hoptions] at h
      exact perform_of_diagnostics h
  | error e =>
      cases e with
      | usage | help => rfl
      | version =>
          rw [hoptions] at h
          exact absurd rfl h

/-- **What was made is where it should be** after a run that succeeds. -/
theorem perform_success (h : (perform Directory.access program o d).1.failure = none) :
    ∃ sources product, (readSources Directory.access .empty o.sources d).1 = .ok sources ∧
      produce program o sources = .ok product ∧
      Delivered o product d (perform Directory.access program o d).2 := by
  rw [perform, bind_access, snd_readSources] at h ⊢
  cases hsources : (readSources Directory.access .empty o.sources d).1 with
  | error message =>
      rw [hsources] at h
      cases h
  | ok sources =>
      simp only [hsources] at h
      cases hproduct : produce program o sources with
      | error refusal =>
          rw [hproduct] at h
          cases h
      | ok product =>
          simp only [hproduct] at h
          refine ⟨sources, product, rfl, hproduct, ?_⟩
          simp only [hproduct]
          exact delivered h

end CommandLine

end StackLang
