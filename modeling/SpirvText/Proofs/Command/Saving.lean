import SpirvText.Command.Folder

/-!
# What a run leaves in the folder

Of the folder that it runs in, the command changes at most the one file that it is told to write
(`file?_run`), and nothing at all if it fails (`run_of_exit_ne_zero`).  What it saves in that file
is what it would have printed without being told to (`run_request_saving`, `read_run`).
-/

namespace SpirvText.Command

/-! ## Answers -/

namespace Request

def printing (r : Request) : Request := { r with output := none }

/-- A text that is to be saved is the one that would be printed, and nothing is printed then.
Without a text there is nothing to save. -/
theorem answer_eq (r : Request) (contents : Except FileError ByteArray) :
    r.answer contents =
      let printed := (r.printing.answer contents).1
      match r.output with
      | none => (printed, none)
      | some file =>
        if printed.exit = 0 then ({ printed with stdout := "" }, some (file, printed.stdout))
        else (printed, none) := by
  have hname : ({ r with output := none } : Request).name = r.name := rfl
  simp only [answer, printing, hname]
  cases (normalizeContents contents r.name r.kind r.options r.dumpAfter).result
    <;> cases r.output <;> simp

end Request

/-! ## Plain names -/

namespace Path

/-- A name that is a path to the file of that name. -/
structure IsPlain (name : String) : Prop where
  ne_empty : name ≠ ""
  slash_notMem : '/' ∉ name.toList
  zero_notMem : '\x00' ∉ name.toList
  not_isDots : isDots name = false
  size_le : name.utf8ByteSize ≤ maxName

example : IsPlain "shader.spvasm" := ⟨by decide, by decide, by decide, by decide, by decide⟩

namespace IsPlain

variable {name : String}

theorem names_eq (h : IsPlain name) : names name = [name] := by
  simp [names, List.splitOn_eq_singleton h.slash_notMem, h.ne_empty]

theorem start_eq (h : IsPlain name) : start name = .here := by
  have hhead : name.toList.head? ≠ some '/' := fun hslash ↦
    h.slash_notMem (List.mem_of_mem_head? hslash)
  simp [start, hhead]

theorem asksForFolder_eq (h : IsPlain name) : asksForFolder name = false := by
  have hlast : name.toList.getLast? ≠ some '/' := fun hslash ↦
    h.slash_notMem (List.mem_of_mem_getLast? hslash)
  simp [asksForFolder, hlast]

theorem check_eq (h : IsPlain name) : check name = .ok () := by
  have hsize : ¬ maxPath < name.utf8ByteSize :=
    Nat.not_lt.mpr (Nat.le_trans h.size_le (by decide))
  simp [check, h.zero_notMem, h.ne_empty, hsize]

/-- A plain name is that of a file of the folder, or of nothing yet. -/
theorem enter_eq (h : IsPlain name) (folder : Folder) :
    folder.enter .here name =
      .ok (if (folder.file? name).isSome then .file name else .vacant name) := by
  have hdots := h.not_isDots
  simp only [isDots, Bool.or_eq_false_iff] at hdots
  simp [Folder.enter, hdots, Nat.not_lt.mpr h.size_le, Folder.entry]

end IsPlain

end Path

namespace Folder

variable {folder after : Folder} {stdin : ByteArray} {r : Request} {o o' : Outcome}
  {path file text name : String} {arguments : List String}

/-! ## Writing -/

/-- Whether a path is that of the file called `name`, which need not be there yet. -/
def LeadsTo (folder : Folder) (path name : String) : Prop :=
  folder.locateNew path = .ok (.file name) ∨ folder.locateNew path = .ok (.vacant name)

def saving (folder : Folder) (name text : String) : Folder := ⟨(name, text.toUTF8) :: folder.files⟩

@[simp] theorem file?_saving (folder : Folder) (name text : String) :
    (folder.saving name text).file? name = some text.toUTF8 := by
  simp [saving, file?]

theorem file?_saving_of_ne {other : String} (h : other ≠ name) (text : String) :
    (folder.saving name text).file? other = folder.file? other := by
  simp [saving, file?, List.lookup_cons, beq_eq_false_iff_ne.mpr h]

/-- A text that is written to the path of a file is saved in that file. -/
theorem write_of_leadsTo (h : folder.LeadsTo path name) (o : Outcome) (text : String) :
    folder.write o path text = .ok (o, folder.saving name text) := by
  rcases h with h | h <;> rw [write, h] <;> rfl

/-- A text that is written goes to a file, or to a device that leaves the folder as it was. -/
theorem write_eq_ok (h : folder.write o path text = .ok (o', after)) :
    o'.exit = o.exit ∧
      (after = folder ∨ ∃ name, folder.LeadsTo path name ∧ after = folder.saving name text) := by
  rw [write] at h
  cases hplace : folder.locateNew path with
  | error e => rw [hplace] at h; cases h
  | ok place =>
    rw [hplace] at h
    cases place with
    | file name | vacant name =>
      cases h
      exact ⟨rfl, .inr ⟨name, by simp [LeadsTo, hplace], rfl⟩⟩
    | device device =>
      cases device with
      | full =>
        change (if text == "" then _ else _) = _ at h
        split at h <;> cases h
        exact ⟨rfl, .inl rfl⟩
      | null | stdin | stdout | stderr => cases h; exact ⟨rfl, .inl rfl⟩
    | here | above | root | standard | devices => cases h

/-- A plain name is a path to the file of that name, whatever the folder holds. -/
theorem leadsTo_of_isPlain (folder : Folder) (h : Path.IsPlain name) :
    folder.LeadsTo name name := by
  have hplace : folder.locateNew name =
      .ok (if (folder.file? name).isSome then .file name else .vacant name) := by
    rw [locateNew, h.check_eq, h.names_eq, h.start_eq, h.asksForFolder_eq, ← h.enter_eq]
    rfl
  rw [LeadsTo, hplace]
  split <;> simp

/-- What has been saved in a file with a plain name is read from there. -/
theorem read_saving (folder : Folder) (stdin : ByteArray) (h : Path.IsPlain name) (text : String) :
    (folder.saving name text).read stdin name = .ok text.toUTF8 := by
  have hplace : (folder.saving name text).locate name = .ok (.file name) := by
    have henter := h.enter_eq (folder.saving name text)
    rw [file?_saving] at henter
    rw [locate, h.check_eq, h.names_eq, h.start_eq, h.asksForFolder_eq]
    change (folder.saving name text).enter .here name >>= pure = _
    rw [henter]
    rfl
  rw [read, hplace]
  change ((folder.saving name text).file? name).elim _ _ = _
  rw [file?_saving]
  rfl

/-! ## Requests -/

def source (folder : Folder) (stdin : ByteArray) (r : Request) : Except FileError ByteArray :=
  if r.readsStdin then .ok stdin else folder.read stdin r.path

/-- What a request puts out if its text is printed. -/
def printed (folder : Folder) (stdin : ByteArray) (r : Request) : Outcome :=
  (r.printing.answer (folder.source stdin r)).1

theorem run_source (folder : Folder) (stdin : ByteArray) (r : Request) :
    ((host stdin).source r).run folder = pure (folder.source stdin r, folder) := by
  rw [Host.source, source]
  split <;> rfl

theorem run_writeFile_of_ok {result : Outcome × Folder}
    (h : folder.write o path text = .ok result) :
    ((host stdin).writeFile o path text).run folder = pure (.ok result.1, result.2) := by
  simp only [host, StateT.run, h]
  rfl

theorem run_writeFile_of_error {e : FileError} (h : folder.write o path text = .error e) :
    ((host stdin).writeFile o path text).run folder = pure (.error e, folder) := by
  simp only [host, StateT.run, h]
  rfl

/-- A request is answered from its source, and what it has to save is written at the end. -/
theorem run_request_eq (folder : Folder) (stdin : ByteArray) (r : Request) :
    r.run (host stdin) folder =
      match r.answer (folder.source stdin r) with
      | (o, none) => (o, folder)
      | (o, some (file, text)) =>
        match folder.write o file text with
        | .ok result => result
        | .error e => (o.notSaved file e, folder) := by
  change (r.run (host stdin)).run folder = _
  rw [Request.run, StateT.run_bind, run_source, pure_bind]
  dsimp only
  rcases r.answer (folder.source stdin r) with ⟨o, _ | ⟨file, text⟩⟩
  · rfl
  · cases hwrite : folder.write o file text with
    | ok result =>
      simp only [StateT.run_bind, run_writeFile_of_ok hwrite, pure_bind, hwrite]
      rfl
    | error e =>
      simp only [StateT.run_bind, run_writeFile_of_error hwrite, pure_bind, hwrite]
      rfl

/-- A request with nothing to save puts out what is printed. -/
theorem run_request_of_output_none (folder : Folder) (stdin : ByteArray) (h : r.output = none) :
    r.run (host stdin) folder = (folder.printed stdin r, folder) := by
  rw [run_request_eq, Request.answer_eq, h, printed]

/-- A request that fails puts out what is printed. -/
theorem run_request_of_exit_ne_zero (h : (folder.printed stdin r).exit ≠ 0) :
    r.run (host stdin) folder = (folder.printed stdin r, folder) := by
  rw [printed] at h ⊢
  rw [run_request_eq, Request.answer_eq]
  cases r.output <;> simp [h]

/-- A request that has a text and a file to save it in writes it to that file. -/
theorem run_request_of_output (houtput : r.output = some file)
    (hexit : (folder.printed stdin r).exit = 0) :
    r.run (host stdin) folder =
      let outcome := { folder.printed stdin r with stdout := "" }
      match folder.write outcome file (folder.printed stdin r).stdout with
      | .ok result => result
      | .error e => (outcome.notSaved file e, folder) := by
  rw [printed] at hexit ⊢
  rw [run_request_eq, Request.answer_eq, houtput]
  simp [hexit]

/-- The file that a request saves its text in holds what the request would have printed.  Nothing is
printed then. -/
theorem run_request_saving (houtput : r.output = some file) (hfile : folder.LeadsTo file name)
    (hexit : (folder.printed stdin r).exit = 0) :
    r.printing.run (host stdin) folder = (folder.printed stdin r, folder) ∧
      r.run (host stdin) folder =
        ({ folder.printed stdin r with stdout := "" },
          folder.saving name (folder.printed stdin r).stdout) := by
  refine ⟨run_request_of_output_none folder stdin rfl, ?_⟩
  simp only [run_request_of_output houtput hexit, write_of_leadsTo hfile]

/-- A request saves a text in the file that it names and succeeds, or leaves the folder as it
was. -/
theorem run_request_snd (folder : Folder) (stdin : ByteArray) (r : Request) :
    (r.run (host stdin) folder).2 = folder ∨
      (r.run (host stdin) folder).1.exit = 0 ∧
        ∃ file name text, r.output = some file ∧ folder.LeadsTo file name ∧
          (r.run (host stdin) folder).2 = folder.saving name text := by
  by_cases hexit : (folder.printed stdin r).exit = 0
  · cases houtput : r.output with
    | none => exact .inl (by rw [run_request_of_output_none folder stdin houtput])
    | some file =>
      rw [run_request_of_output houtput hexit]
      dsimp only
      split
      · rename_i hwrite
        obtain ⟨hkept, hafter | ⟨name, hfile, hafter⟩⟩ := write_eq_ok hwrite
        · exact .inl hafter
        · exact .inr ⟨hkept.trans hexit, file, name, _, rfl, hfile, hafter⟩
      · exact .inl rfl
  · exact .inl (by rw [run_request_of_exit_ne_zero hexit])

/-! ## Runs -/

theorem run_of_request (folder : Folder) (stdin : ByteArray)
    (h : parse arguments = .ok (.normalize r)) :
    folder.run stdin arguments = r.run (host stdin) folder := by
  rw [run, Command.run, h]

/-- Help, the version and usage errors have nothing to do with the folder. -/
theorem run_of_no_request (folder : Folder) (stdin : ByteArray)
    (h : ∀ r, parse arguments ≠ .ok (.normalize r)) : (folder.run stdin arguments).2 = folder := by
  rw [run, Command.run]
  match hparse : parse arguments with
  | .error _ | .ok .help | .ok .version => rfl
  | .ok (.normalize r) => exact absurd hparse (h r)

/-- A run that fails leaves the folder as it was. -/
theorem run_of_exit_ne_zero (h : (folder.run stdin arguments).1.exit ≠ 0) :
    (folder.run stdin arguments).2 = folder := by
  by_cases hparse : ∃ r, parse arguments = .ok (.normalize r)
  · obtain ⟨r, hr⟩ := hparse
    rw [run_of_request folder stdin hr] at h ⊢
    exact (run_request_snd folder stdin r).resolve_right fun hsaved ↦ h hsaved.1
  · exact run_of_no_request folder stdin (not_exists.mp hparse)

/-- A run changes no other file than the one that its request saves the text in. -/
theorem file?_run
    (h : ∀ r file, parse arguments = .ok (.normalize r) → r.output = some file →
      ¬ folder.LeadsTo file name) :
    (folder.run stdin arguments).2.file? name = folder.file? name := by
  by_cases hparse : ∃ r, parse arguments = .ok (.normalize r)
  · obtain ⟨r, hr⟩ := hparse
    rw [run_of_request folder stdin hr]
    obtain hsame | ⟨-, file, other, text, houtput, hfile, hafter⟩ := run_request_snd folder stdin r
    · rw [hsame]
    · have hne : name ≠ other := fun heq ↦ h r file hr houtput (heq ▸ hfile)
      rw [hafter, file?_saving_of_ne hne]
  · rw [run_of_no_request folder stdin (not_exists.mp hparse)]

/-- A run that saves its text under a plain name leaves there what it would have printed. -/
theorem read_run (hparse : parse arguments = .ok (.normalize r)) (houtput : r.output = some name)
    (hname : Path.IsPlain name) (hexit : (folder.printed stdin r).exit = 0) (stdin' : ByteArray) :
    (folder.run stdin arguments).2.read stdin' name =
      .ok (folder.printed stdin r).stdout.toUTF8 := by
  rw [run_of_request folder stdin hparse,
    (run_request_saving houtput (leadsTo_of_isPlain folder hname) hexit).2, read_saving _ _ hname]

end Folder

end SpirvText.Command
