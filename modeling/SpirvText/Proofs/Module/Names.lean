import SpirvText.Proofs.Module.WrittenLine

/-!
# Names written and read back

The name of a register is written as a string literal, in which only quotes are escaped.  A
backslash stands for itself unless a quote follows it, and in a written literal that is so in two
places: in front of a quote of the text, which has a backslash of its own, and at the end of the
text, in front of the quote that closes the literal.  There the closing quote is taken for one of
the text.  So a text is read back from its literal just if it does not end in a backslash
(`Text.unquote?_quoteChars_iff`), and if it does the line has an open literal
(`Instruction.read_naming_of_backslash`).
-/

namespace SpirvText

open Lexer

/-! ## Literals -/

namespace Text

variable {text : List Char}

/-- A backslash at the end of a text makes the closing quote a part of the text. -/
theorem unquote?_quoteChars_of_backslash (h : text.getLast? = some '\\') (rest : List Char) :
    unquote? (quoteChars text ++ '"' :: rest) =
      (unquote? rest).map fun read ↦ (text.dropLast ++ '"' :: read.1, read.2) := by
  obtain ⟨front, rfl⟩ := List.getLast?_eq_some_iff.mp h
  have hquote : quoteChars (front ++ ['\\']) ++ '"' :: rest =
      quoteChars front ++ '\\' :: '"' :: rest := by
    simp [quoteChars]
  rw [hquote, unquote?_quoteChars_append fun _ ↦ by simp, unquote?, Option.map_map,
    List.dropLast_concat]
  rfl

/-- Reading a literal is inverse to writing it just if the text does not end in a backslash. -/
theorem unquote?_quoteChars_iff :
    (∀ rest, unquote? (quoteChars text ++ '"' :: rest) = some (text, rest)) ↔
      text.getLast? ≠ some '\\' := by
  constructor
  · intro h hlast
    have hopen := unquote?_quoteChars_of_backslash hlast []
    rw [h []] at hopen
    cases hopen
  · exact unquote?_quoteChars

end Text

/-! ## Lines -/

/-- A name is laid out as the register and the text. -/
theorem Supply.layOut_opName {ι ε : Type} {s : Supply ι ε} {registry : Registry}
    {first second : ι} {more rest : List ι} {r : Reg} {value : String}
    (hr : s.reg first = .ok r) (hvalue : s.text second more = .ok (value, rest)) :
    s.layOut registry .opName (first :: second :: more) = ⟨[.reg r, .text value], .ok rest⟩ := by
  refine Transcript.bind_eq_ok.mpr
    ⟨[.reg r], (⟨[r], none, none⟩, second :: more), [.text value], ?_, ?_, rfl⟩
  · exact fixedOperands_cons_eq_ok.mpr ⟨first, _, _, _, _, rfl, rfl, .id hr, rfl⟩
  · exact Transcript.liftM_bind_eq_ok.mpr
      ⟨_, hvalue, Transcript.put_pure_eq_ok.mpr ⟨rfl, rfl⟩⟩

theorem Module.read_of_tokenize_error {source name : String} {e : ReadError}
    (h : tokenize source = .error e) : (read source name).result = .error e := by
  simp only [read, Transcript.result_bind]
  rw [h]
  rfl

namespace Instruction

variable {r : Reg} {text : String}

def naming (r : Reg) (text : String) : Instruction where
  opcode := .opName
  operands := .reg r :: StringWords.operands text

/-- A name is laid out as its register and the text, unless the text holds a zero character. -/
theorem layOut_naming (r : Reg) (hzero : '\x00' ∉ text.toList) (registry : Registry) :
    (naming r text).layOut registry = ⟨[.reg r, .text text], .ok []⟩ := by
  obtain ⟨second, more, hitems, htext⟩ :=
    Supply.text_ofInstruction (naming r text) hzero [] 1
  rw [List.append_nil] at hitems
  have hzip : (naming r text).operands.zipIdx = (.reg r, 0) :: second :: more := by
    rw [← hitems]
    rfl
  rw [layOut, hzip]
  exact Supply.layOut_opName rfl htext

theorem text_emit_naming (r : Reg) (hzero : '\x00' ∉ text.toList) (registry : Registry) :
    ((naming r text).emit "" registry).text = textOf .opName [.reg r, .text text] := by
  rw [emit, String.empty_append, layOut_naming r hzero registry]
  rfl

/-- A name is written as three words. -/
theorem toList_textOf_naming (r : Reg) (text : String) :
    (textOf .opName [.reg r, .text text]).toList =
      Opcode.opName.mnemonic.toList ++ ' ' :: (r.text.toList ++ ' ' :: (Text.quoted text).toList) := by
  simp [textOf, Field.shown]

/-- A name that does not end in a backslash is read back. -/
theorem read_naming (hr : r.number < 2 ^ 32) (hzero : '\x00' ∉ text.toList)
    (hlast : text.toList.getLast? ≠ some '\\') (name : String) :
    (Module.read (textOf .opName [.reg r, .text text]) name).result =
      .ok ⟨name, [naming r text], []⟩ := by
  have hnumber := Reg.ofNumber?_number hr
  have hreg : (Field.reg r).Shows (.id (r.index + 1)) :=
    Field.shows_of_spells rfl (Supply.spells_text_of_ofNumber? hnumber)
  have htext : (Field.text text).Shows (.str text) :=
    Field.shows_of_spells rfl (spells_quoted hlast)
  refine read_textOf (j := naming r text) rfl (.cons hreg (.cons htext .nil)) ?_ name
  intro first words stop hfirst hwords
  obtain ⟨second, more, rfl, hsecond, hmore⟩ := List.map_eq_cons_iff.mp hwords
  obtain ⟨third, more, rfl, hthird, hnone⟩ := List.map_eq_cons_iff.mp hmore
  obtain rfl := List.map_eq_nil_iff.mp hnone
  have hlaid : (Supply.ofLine [] 0 stop).layOut .empty .opName [second, third] =
      ⟨[.reg r, .text text], .ok []⟩ := by
    refine Supply.layOut_opName ?_ (Supply.text_eq_ok.mpr ⟨hthird, hzero, rfl⟩)
    simp only [Supply.ofLine, hsecond]
    exact Supply.regOf_eq_ok.mpr hnumber
  refine ⟨_, read_eq_ok.mpr ⟨.opName, _, opcodeOf_eq_ok hfirst, hlaid, ?_, rfl⟩⟩
  rw [ofFields, List.flatMap_cons, List.flatMap_singleton]
  rfl

/-- The literal of a name that ends in a backslash is not closed on its line. -/
theorem read_naming_of_backslash (hr : r.number < 2 ^ 32)
    (hlast : text.toList.getLast? = some '\\') (name : String) :
    (Module.read (textOf .opName [.reg r, .text text]) name).result =
      .error ⟨1, .unterminatedString⟩ := by
  have hscan : scan '"' (Text.quoteChars text.toList ++ ['"']) = .error .unterminatedString := by
    have hopen := Text.unquote?_quoteChars_of_backslash hlast []
    simp only [scan, scanString, hopen]
    rfl
  have hskip : skipBlanks (Text.quoted text).toList =
      '"' :: (Text.quoteChars text.toList ++ ['"']) := by
    simp [Text.quoted, skipBlanks, isBlank]
  have hliteral := tokens_of_scan_error hskip (by decide) hscan 1
  have hid := Supply.spells_text_of_ofNumber? (Reg.ofNumber?_number hr)
  apply Module.read_of_tokenize_error
  rw [tokenize, toList_textOf_naming, Opcode.opName.spells_mnemonic.tokens (endsWord_blank _),
    tokens_blank, hid.tokens (endsWord_blank _), tokens_blank]
  change Except.map _ (Except.map _ (tokens 1 (Text.quoted text).toList)) = _
  rw [hliteral]
  rfl

/-- The name of a register is written as a literal, and it is read back just if its text does not
end in a backslash; if it does, the literal has no end.  It is the same for the literal by itself:
the text is read back from it, whatever follows, just if it does not end in a backslash. -/
theorem naming_reads_back_iff (r : Reg) (text : String) (hr : r.number < 2 ^ 32)
    (hzero : '\x00' ∉ text.toList) (registry : Registry) (name : String) :
    ((naming r text).emit "" registry).error? = none ∧
      ((naming r text).emit "" registry).text = "OpName " ++ r.text ++ " " ++ Text.quoted text ∧
      ((Module.read ((naming r text).emit "" registry).text name).result =
          .ok ⟨name, [naming r text], []⟩ ↔ text.toList.getLast? ≠ some '\\') ∧
      (text.toList.getLast? = some '\\' →
        (Module.read ((naming r text).emit "" registry).text name).result =
          .error ⟨1, .unterminatedString⟩) ∧
      ((∀ rest, Text.unquote? (Text.quoteChars text.toList ++ '"' :: rest) =
          some (text.toList, rest)) ↔ text.toList.getLast? ≠ some '\\') := by
  rw [text_emit_naming r hzero registry]
  have hopen : text.toList.getLast? = some '\\' →
      (Module.read (textOf .opName [.reg r, .text text]) name).result =
        .error ⟨1, .unterminatedString⟩ :=
    fun hlast ↦ read_naming_of_backslash hr hlast name
  refine ⟨?_, ?_, ?_, hopen, Text.unquote?_quoteChars_iff⟩
  · rw [emit, layOut_naming r hzero registry]
  · rw [← String.toList_inj, toList_textOf_naming]
    simp [Opcode.mnemonic]
  · constructor
    · intro hread hlast
      rw [hopen hlast] at hread
      cases hread
    · exact fun hlast ↦ read_naming hr hzero hlast name

/-- A backslash in front of a quote, a letter of two bytes and a line break. -/
theorem naming_reads_back_iff_escaped :
    '\x00' ∉ "\\\"λ\n".toList ∧
      (Module.read ((naming ⟨0⟩ "\\\"λ\n").emit "" .empty).text "m").result =
        .ok ⟨"m", [naming ⟨0⟩ "\\\"λ\n"], []⟩ := by
  have hzero : '\x00' ∉ "\\\"λ\n".toList := by decide
  obtain ⟨-, -, hread, -⟩ :=
    naming_reads_back_iff ⟨0⟩ "\\\"λ\n" (by decide) hzero .empty "m"
  exact ⟨hzero, hread.mpr (by decide)⟩

/-- A name whose last letter is a backslash is written, but not read back. -/
theorem not_naming_reads_back_backslash :
    '\x00' ∉ "a\\".toList ∧
      ((naming ⟨0⟩ "a\\").emit "" .empty).text = "OpName %1 \"a\\\"" ∧
      (Module.read ((naming ⟨0⟩ "a\\").emit "" .empty).text "m").result =
        .error ⟨1, .unterminatedString⟩ := by
  have hzero : '\x00' ∉ "a\\".toList := by decide
  rw [text_emit_naming ⟨0⟩ hzero .empty]
  exact ⟨hzero, by decide, read_naming_of_backslash (by decide) (by decide) "m"⟩

end Instruction

end SpirvText
