import SpirvText.Proofs.Instruction.RoundTrip

/-!
# What writing an instruction leaves behind

Writing an instruction adds to the text and may add to the imported sets.  Only an import does the
latter, and only once its handle and the name of its set have been laid out.  Nothing comes after
these that could fail (`Supply.layOut_opExtInstImport_cases`), so an instruction that cannot be
written to its end leaves the sets as they were.
-/

namespace SpirvText

namespace Registry

variable {handle other : Reg}

theorem lookup_filter_ne (sets : List (Reg × ExtSet)) (h : other ≠ handle) :
    (sets.filter (·.1 != handle)).lookup other = sets.lookup other := by
  induction sets with
  | nil => rfl
  | cons entry sets ih =>
    obtain ⟨bound, set⟩ := entry
    by_cases hbound : bound = handle
    · rw [List.filter_cons_of_neg (by simpa using hbound), ih, List.lookup_cons, hbound,
        beq_false_of_ne h]
    · rw [List.filter_cons_of_pos (by simpa using hbound), List.lookup_cons, List.lookup_cons, ih]

/-- A handle stands for the set that it was bound to last. -/
theorem find?_bind (registry : Registry) (handle other : Reg) (name : String) :
    (registry.bind handle name).find? other =
      if other = handle then some (.ofName name) else registry.find? other := by
  split
  · next h => simp [find?, bind, h]
  · next h => simp only [find?, bind, List.lookup_cons, beq_false_of_ne h, lookup_filter_ne _ h]

end Registry

/-! ## Imports -/

/-- Only an import imports. -/
theorem imported?_of_ne {opcode : Opcode} (h : opcode ≠ .opExtInstImport) (fields : List Field) :
    imported? opcode fields = none := by
  unfold imported?
  split
  · exact absurd rfl h
  · rfl

namespace Supply

open Transcript

variable {ι ε : Type}

/-- An import is laid out as its handle and the name of the set. -/
theorem layOut_opExtInstImport_cons (s : Supply ι ε) (registry : Registry) (first : ι)
    (more : List ι) :
    s.layOut registry .opExtInstImport (first :: more) =
      (do put (.reg (← s.reg first)); s.textTail .opExtInstImport more) := by
  change (s.fixedOperand registry .opExtInstImport .id {} first >>= fun values ↦ pure (values, more))
    >>= (fun laid ↦ s.textTail .opExtInstImport laid.2) = _
  rw [fixedOperand]
  cases s.reg first <;> rfl

/-- An import is laid out as its handle and the name of its set, and nothing after them can fail.
Where the layout fails, one of the two is missing. -/
theorem layOut_opExtInstImport_cases (s : Supply ι ε) (registry : Registry) (items : List ι) :
    (∃ first second more handle name rest, items = first :: second :: more ∧
      s.reg first = .ok handle ∧ s.text second more = .ok (name, rest) ∧
      s.layOut registry .opExtInstImport items = ⟨[.reg handle, .text name], .ok rest⟩) ∨
    ∃ fields e, s.layOut registry .opExtInstImport items = ⟨fields, .error e⟩ ∧
      imported? .opExtInstImport fields = none := by
  cases items with
  | nil => exact .inr ⟨[], _, rfl, rfl⟩
  | cons first more =>
    rw [layOut_opExtInstImport_cons]
    cases hfirst : s.reg first with
    | error e => exact .inr ⟨[], e, rfl, rfl⟩
    | ok handle =>
      cases more with
      | nil => exact .inr ⟨[.reg handle], _, rfl, rfl⟩
      | cons second more =>
        rw [textTail]
        cases hsecond : s.text second more with
        | error e => exact .inr ⟨[.reg handle], e, rfl, rfl⟩
        | ok named =>
          obtain ⟨name, rest⟩ := named
          exact .inl ⟨first, second, more, handle, name, rest, rfl, hfirst, hsecond, rfl⟩

/-- What does not get laid out to its end imports nothing. -/
theorem imported?_of_layOut_eq_error {s : Supply ι ε} {registry : Registry} {opcode : Opcode}
    {items : List ι} {e : ε} (h : (s.layOut registry opcode items).result = .error e) :
    imported? opcode (s.layOut registry opcode items).entries = none := by
  by_cases hopcode : opcode = .opExtInstImport
  · subst hopcode
    rcases s.layOut_opExtInstImport_cases registry items with
      ⟨_, _, _, _, _, _, -, -, -, hlaid⟩ | ⟨fields, _, hlaid, hnone⟩
    · rw [hlaid] at h
      cases h
    · rwa [hlaid]
  · exact imported?_of_ne hopcode _

/-- The string that an operand list begins with is decoded from it. -/
theorem text_of_ofInstruction {i : Instruction} {item : Operand × Nat}
    {items rest : List (Operand × Nat)} {name : String}
    (h : (ofInstruction i).text item items = .ok (name, rest)) :
    name = StringWords.textAt ((item :: items).map (·.1)) 0 := by
  simp only [ofInstruction] at h
  split at h
  · cases h
    rfl
  · cases h

end Supply

namespace Instruction

variable {i : Instruction} {registry : Registry} {out : String}

/-- An import is written as its handle and the string after it. -/
theorem entries_of_import {rest : List (Operand × Nat)}
    (hlaid : (i.layOut registry).result = .ok rest) (hopcode : i.opcode = .opExtInstImport) :
    ∃ handle, i.operands[0]? = some (.reg handle) ∧
      (i.layOut registry).entries = [.reg handle, .text (StringWords.textAt i.operands 1)] := by
  rw [layOut, hopcode] at hlaid ⊢
  rcases (Supply.ofInstruction i).layOut_opExtInstImport_cases registry i.operands.zipIdx with
    ⟨first, second, more, handle, name, rest, hitems, hfirst, hsecond, hrun⟩ | ⟨_, _, hrun, -⟩
  · have hoperands : i.operands = (first :: second :: more).map (·.1) := by
      rw [← hitems, List.zipIdx_map_fst]
    refine ⟨handle, ?_, ?_⟩
    · rw [hoperands, List.map_cons, List.getElem?_cons_zero, Supply.reg_of_ofInstruction hfirst]
    · rw [hrun, Supply.text_of_ofInstruction hsecond, hoperands]
      rfl
  · rw [hrun] at hlaid
    cases hlaid

theorem text_emit (i : Instruction) (out : String) (registry : Registry) :
    (i.emit out registry).text = out ++ textOf i.opcode (i.layOut registry).entries := rfl

theorem registry_emit (i : Instruction) (out : String) (registry : Registry) :
    (i.emit out registry).registry = registry.after i.opcode (i.layOut registry).entries := rfl

/-- Writing has no error just if the operands can be laid out. -/
theorem error?_emit :
    (i.emit out registry).error? = none ↔ ∃ rest, (i.layOut registry).result = .ok rest := by
  rw [emit]
  cases (i.layOut registry).result <;> simp

/-- The text of an import. -/
theorem textOf_import (handle : Reg) (name : String) :
    textOf .opExtInstImport [.reg handle, .text name] =
      "OpExtInstImport " ++ handle.text ++ " " ++ Text.quoted name := by
  simp only [textOf, List.map_cons, List.map_nil, String.join_cons, String.join_nil, Field.shown,
    Opcode.mnemonic, String.append_empty, ← String.append_assoc]
  rfl

/-- Writing an instruction, to its end or not, only adds to the text.  The imported sets stay as
they are if it fails or if the instruction is no import.  An import that is written lets the
register in front stand for the set that is called as the string says, and changes nothing else. -/
theorem emission_binds_only_imports (i : Instruction) (out : String) (registry : Registry) :
    (∃ line, (i.emit out registry).text = out ++ line) ∧
      ((i.emit out registry).error? ≠ none ∨ i.opcode ≠ .opExtInstImport →
        (i.emit out registry).registry = registry) ∧
      ((i.emit out registry).error? = none ∧ i.opcode = .opExtInstImport →
        ∃ handle name, i.operands[0]? = some (.reg handle) ∧
          name = StringWords.textAt i.operands 1 ∧
          (i.emit out registry).text =
            out ++ ("OpExtInstImport " ++ handle.text ++ " " ++ Text.quoted name) ∧
          (i.emit out registry).registry = registry.bind handle name ∧
          ∀ other, (i.emit out registry).registry.find? other =
            if other = handle then some (.ofName name) else registry.find? other) := by
  refine ⟨⟨_, text_emit i out registry⟩, ?_, ?_⟩
  · intro h
    have hnone : imported? i.opcode (i.layOut registry).entries = none := by
      rcases h with hfailed | hopcode
      · cases hresult : (i.layOut registry).result with
        | ok rest => exact absurd (error?_emit.mpr ⟨rest, hresult⟩) hfailed
        | error e => exact Supply.imported?_of_layOut_eq_error hresult
      · exact imported?_of_ne hopcode _
    rw [registry_emit, Registry.after, hnone]
  · rintro ⟨hwritten, hopcode⟩
    obtain ⟨rest, hlaid⟩ := error?_emit.mp hwritten
    obtain ⟨handle, hhandle, hentries⟩ := entries_of_import hlaid hopcode
    have hregistry : (i.emit out registry).registry =
        registry.bind handle (StringWords.textAt i.operands 1) := by
      rw [registry_emit, Registry.after, hopcode, hentries]
      rfl
    refine ⟨handle, _, hhandle, rfl, ?_, hregistry, fun other ↦ ?_⟩
    · rw [text_emit, hopcode, hentries, textOf_import]
    · rw [hregistry, Registry.find?_bind]

/-- A handle is bound again, and stays bound where an import lacks its string. -/
theorem emission_binds_only_imports_rebound :
    (emit ⟨.opExtInstImport, .reg ⟨4⟩ :: StringWords.operands "OpenCL.std", .integer⟩ "a "
        ⟨[(⟨4⟩, .glslStd450), (⟨5⟩, .unknown)]⟩).registry.find? ⟨4⟩ = some .openClStd ∧
      (emit ⟨.opExtInstImport, [.reg ⟨4⟩, .reg ⟨5⟩], .integer⟩ "a "
        ⟨[(⟨4⟩, .glslStd450), (⟨5⟩, .unknown)]⟩).registry =
          ⟨[(⟨4⟩, .glslStd450), (⟨5⟩, .unknown)]⟩ := by
  constructor
  · obtain ⟨handle, name, hhandle, rfl, -, -, hfind⟩ := (emission_binds_only_imports
      ⟨.opExtInstImport, .reg ⟨4⟩ :: StringWords.operands "OpenCL.std", .integer⟩ "a "
      ⟨[(⟨4⟩, .glslStd450), (⟨5⟩, .unknown)]⟩).2.2 ⟨rfl, rfl⟩
    cases hhandle
    rw [hfind, if_pos rfl, StringWords.textAt, List.drop_one, List.tail_cons,
      ← List.append_nil (StringWords.operands _), StringWords.decodeFront_operands (by decide),
      Text.ofBytes_bytes]
    rfl
  · exact (emission_binds_only_imports _ _ _).2.1 (.inl (by decide))

end Instruction

end SpirvText
