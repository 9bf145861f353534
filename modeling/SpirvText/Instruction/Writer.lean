import SpirvText.Event

/-!
# Writing an instruction

An instruction is written on one line, the mnemonic first and then its operands, each after one
blank.
-/

namespace SpirvText

namespace Supply

def wordAt (opcode : Opcode) (wanted : Wanted) : Operand × Nat → Except OperandError UInt32
  | (.imm word, _) => .ok word
  | (found, position) => .error (.malformed opcode (.unexpected wanted position found))

/-- Takes operands from those of an instruction, each with its position. -/
def ofInstruction (i : Instruction) : Supply (Operand × Nat) OperandError where
  isImmediate item := item.1.isImm
  reg
    | (.reg r, _) => .ok r
    | (found, position) => .error (.malformed i.opcode (.unexpected .register position found))
  literal := wordAt i.opcode .literal
  symbol category := wordAt i.opcode (.symbol category)
  extNumber _ := wordAt i.opcode .extNumber
  plain item := .ok item.1
  skip item := .ok item.1
  text item items :=
    if item.1.isImm then
      let (bytes, words) := StringWords.decodeFront ((item :: items).map (·.1))
      .ok (Text.ofBytes bytes, (item :: items).drop words)
    else .error (.malformed i.opcode (.noString item.2))
  constant _ items :=
    match items.mapM fun item ↦ item.1.imm? with
    | none => .error (.malformed i.opcode .literalNotWords)
    | some words =>
      match LiteralWords.ofList? words with
      | some value => .ok (⟨value, i.form⟩, [])
      | none => .error (.malformed i.opcode (.literalLength words.length))
  error := id

end Supply

/-- What writing an instruction leaves behind. -/
structure Emission where
  /-- The text, up to the operand that could not be written if there was one. -/
  text : String
  /-- The imported sets. -/
  registry : Registry
  /-- Why the instruction could not be written to its end. -/
  error? : Option OperandError
  /-- What was reported. -/
  events : List Event

namespace Instruction

/-- Lays out the operands of an instruction.  The operands left over are not written. -/
def layOut (i : Instruction) (registry : Registry) :
    Transcript Field OperandError (List (Operand × Nat)) :=
  (Supply.ofInstruction i).layOut registry i.opcode i.operands.zipIdx

def textOf (opcode : Opcode) (fields : List Field) : String :=
  opcode.mnemonic ++ String.join (fields.map Field.shown)

def emit (i : Instruction) (out : String) (registry : Registry) : Emission :=
  let laid := i.layOut registry
  { text := out ++ textOf i.opcode laid.entries
    registry := registry.after i.opcode laid.entries
    error? := match laid.result with
      | .ok _ => none
      | .error e => some e
    events := layoutEvents registry i.opcode i.operands.length laid.entries
      ++ match laid.result with
        | .ok (_ :: rest) => [.operandsDropped i.opcode (rest.length + 1)]
        | _ => [] }

end Instruction

end SpirvText
