import SpirvText.Category.Text
import SpirvText.Literal
import SpirvText.OperandError
import SpirvText.Registry
import SpirvText.StringWords
import SpirvText.Text.Quoted
import SpirvText.Transcript

/-!
# Operand layout

One procedure decides what the operands of an instruction are, one after the other.  It does not
know whether they are being written, from the operands of an instruction, or read, from the tokens
of a line: a `Supply` hands out operands from either, and the procedure puts out one `Field` for
each of them.  Written text and operand lists are both made from fields, so the two directions
cannot disagree about the order or the meaning of what they see.
-/

namespace SpirvText

/-- One operand in its place in an instruction. -/
inductive Field where
  | reg (r : Reg)
  /-- A literal number. -/
  | literal (word : UInt32)
  /-- A word that is written by name. -/
  | symbol (category : Category) (word : UInt32)
  /-- The number of an extended instruction. -/
  | extNumber (set : ExtSet) (word : UInt32)
  /-- A string. -/
  | text (value : String)
  /-- The literal of a constant. -/
  | constant (value : Literal)
  /-- An operand of a list without further structure. -/
  | plain (operand : Operand)
  /-- An operand that is passed over and not written. -/
  | hidden (operand : Operand)
  deriving DecidableEq, Repr

namespace Field

/-- A field as it is written, with the blank in front of it. -/
def shown : Field → String
  | reg r => " " ++ r.text
  | literal word => " " ++ toString (signedWord word)
  | symbol category word => " " ++ category.render word
  | extNumber set word => " " ++ set.instructionName word
  | text value => " " ++ Text.quoted value
  | constant value => " " ++ value.text
  | plain operand => " " ++ operand.text
  | hidden _ => ""

def operands : Field → List Operand
  | reg r => [.reg r]
  | literal word => [.imm word]
  | symbol _ word => [.imm word]
  | extNumber _ word => [.imm word]
  | text value => StringWords.operands value
  | constant value => value.words.toList.map .imm
  | plain operand => [operand]
  | hidden operand => [operand]

def form? : Field → Option LiteralForm
  | constant value => some value.form
  | _ => none

end Field

def Instruction.ofFields (opcode : Opcode) (fields : List Field) : Instruction where
  opcode := opcode
  operands := fields.flatMap Field.operands
  form := (fields.findSome? Field.form?).getD .integer

/-- A way to take operands off a list of items of type `ι`. -/
structure Supply (ι ε : Type) where
  /-- Whether an item is taken for a literal word where a register could stand too. -/
  isImmediate : ι → Bool
  reg : ι → Except ε Reg
  literal : ι → Except ε UInt32
  symbol : Category → ι → Except ε UInt32
  extNumber : ExtSet → ι → Except ε UInt32
  /-- An operand of a list without further structure. -/
  plain : ι → Except ε Operand
  /-- An item that is passed over. -/
  skip : ι → Except ε Operand
  /-- A string, which begins with an item and may go on in those after it. -/
  text : ι → List ι → Except ε (String × List ι)
  /-- The literal of a constant of the given type. -/
  constant : Reg → List ι → Except ε (Literal × List ι)
  /-- Reports an error of the layout itself. -/
  error : OperandError → ε

/-- What the fixed operands say about the tail. -/
structure FixedValues where
  /-- The registers, in order. -/
  regs : List Reg := []
  /-- The last word. -/
  selector : Option UInt32 := none
  /-- The extended set. -/
  set : Option ExtSet := none

namespace Supply

open Transcript (put fail)

variable {ι ε : Type} (s : Supply ι ε)

/-! ## Fixed operands -/

def fixedOperand (registry : Registry) (opcode : Opcode) (kind : OperandKind)
    (values : FixedValues) (item : ι) : Transcript Field ε FixedValues :=
  match kind with
  | .id => do
    let r ← s.reg item
    put (.reg r)
    return { values with regs := values.regs ++ [r] }
  | .literal => do
    let word ← s.literal item
    put (.literal word)
    return { values with selector := some word }
  | .symbol category => do
    let word ← s.symbol category item
    put (.symbol category word)
    return { values with selector := some word }
  | .extNumber =>
    match values.regs.getLast? with
    | none => fail (s.error (.malformed opcode .noSetOperand))
    | some handle =>
      match registry.find? handle with
      | none => fail (s.error (.unboundSet handle))
      | some set => do
        let word ← s.extNumber set item
        put (.extNumber set word)
        return { values with selector := some word, set := some set }

/-- Takes the fixed operands, of which the next is number `index`. -/
def fixedOperands (registry : Registry) (opcode : Opcode) :
    List OperandKind → Nat → FixedValues → List ι → Transcript Field ε (FixedValues × List ι)
  | [], _, values, items => pure (values, items)
  | kind :: _, index, _, [] => fail (s.error (.malformed opcode (.missingFixed index kind)))
  | kind :: kinds, index, values, item :: items => do
    let values ← s.fixedOperand registry opcode kind values item
    fixedOperands registry opcode kinds (index + 1) values items

/-! ## Tails

Each of these takes a tail and returns the items after it. -/

def plainTail : List ι → Transcript Field ε (List ι)
  | [] => pure []
  | item :: items => do
    put (.plain (← s.plain item))
    plainTail items

/-- The registers of an interface.  Words among them are passed over. -/
def interfaceTail : List ι → Transcript Field ε (List ι)
  | [] => pure []
  | item :: items =>
    if s.isImmediate item then do
      put (.hidden (← s.skip item))
      interfaceTail items
    else do
      put (.plain (← s.plain item))
      interfaceTail items

def symbolTail (category : Category) (item : ι) (items : List ι) :
    Transcript Field ε (List ι) := do
  put (.symbol category (← s.symbol category item))
  return items

def textTail (opcode : Opcode) : List ι → Transcript Field ε (List ι)
  | [] => fail (s.error (.malformed opcode .missingString))
  | item :: items => do
    let (value, rest) ← s.text item items
    put (.text value)
    return rest

/-- What a decoration calls for.  Without any operands it calls for none. -/
def decorationTail (opcode : Opcode) (form : DecorationForm) :
    List ι → Transcript Field ε (List ι)
  | [] => pure []
  | item :: items =>
    match form with
    | .builtIn => s.symbolTail .builtIn item items
    | .uniformId =>
      if s.isImmediate item then s.symbolTail .scope item items
      else do
        put (.plain (← s.plain item))
        return items
    | .funcParamAttr => s.symbolTail .functionParameterAttribute item items
    | .fpRoundingMode => s.symbolTail .fpRoundingMode item items
    | .fpFastMathMode => s.symbolTail .fpFastMathMode item items
    | .linkageAttributes => do
      match ← s.textTail opcode (item :: items) with
      | [] => fail (s.error (.malformed opcode .missingLinkageType))
      | type :: rest => s.symbolTail .linkageType type rest
    | .userSemantic => s.textTail opcode (item :: items)
    | .other => s.plainTail (item :: items)

/-- Any number of operands, and a rounding mode at the end. -/
def roundingTail (opcode : Opcode) (name : String) : List ι → Transcript Field ε (List ι)
  | [] => fail (s.error (.malformed opcode (.missingRoundingMode name)))
  | [item] => s.symbolTail .fpRoundingMode item []
  | item :: items => do
    put (.plain (← s.plain item))
    roundingTail opcode name items

def extInstTail (opcode : Opcode) (values : FixedValues) (items : List ι) :
    Transcript Field ε (List ι) :=
  match values.set, values.selector with
  | some set, some number =>
    if set.endsWithRoundingMode number then
      s.roundingTail opcode (set.instructionName number) items
    else s.plainTail items
  | _, _ => fail (s.error (.malformed opcode .noExtNumber))

/-- Memory operand masks, each with an alignment if its bits say so. -/
def memoryTail (opcode : Opcode) : List ι → Transcript Field ε (List ι)
  | [] => pure []
  | item :: items =>
    if s.isImmediate item then do
      let mask ← s.symbol .memoryOperand item
      put (.symbol .memoryOperand mask)
      if mask &&& Category.alignedBit != 0 then
        match items with
        | [] => fail (s.error (.malformed opcode .missingAlignment))
        | next :: rest =>
          if s.isImmediate next then do
            put (.literal (← s.literal next))
            memoryTail opcode rest
          else fail (s.error (.malformed opcode .missingAlignment))
      else memoryTail opcode items
    else fail (s.error (.malformed opcode .noMemoryMask))

/-- Nothing, or an image operand mask and any number of operands. -/
def imageTail (opcode : Opcode) : List ι → Transcript Field ε (List ι)
  | [] => pure []
  | item :: items =>
    if s.isImmediate item then do
      let items ← s.symbolTail .imageOperand item items
      s.plainTail items
    else fail (s.error (.malformed opcode .noImageMask))

def tail (opcode : Opcode) (values : FixedValues) (items : List ι) :
    Tail → Transcript Field ε (List ι)
  | .empty => pure items
  | .plain => s.plainTail items
  | .constant =>
    match values.regs.head? with
    | none => fail (s.error (.malformed opcode .noResultType))
    | some type => do
      let (value, rest) ← s.constant type items
      put (.constant value)
      return rest
  | .text => s.textTail opcode items
  | .textInterface => do
    let items ← s.textTail opcode items
    s.interfaceTail items
  | .decoration =>
    match values.selector with
    | none => fail (s.error (.malformed opcode .noDecoration))
    | some word => s.decorationTail opcode (.ofWord word) items
  | .extInst => s.extInstTail opcode values items
  | .memoryAccess => s.memoryTail opcode items
  | .imageOperands => s.imageTail opcode items
  | .optionalSymbol category =>
    match items with
    | [] => pure []
    | item :: items => s.symbolTail category item items

/-- Lays out the operands of an instruction and returns the items that its shape has no place
for. -/
def layOut (registry : Registry) (opcode : Opcode) (items : List ι) :
    Transcript Field ε (List ι) := do
  let (values, rest) ← s.fixedOperands registry opcode opcode.shape.fixed 0 {} items
  s.tail opcode values rest opcode.shape.tail

end Supply

/-! ## Imports -/

/-- The handle and the name of the set that an instruction imports, once they are laid out. -/
def imported? (opcode : Opcode) (fields : List Field) : Option (Reg × String) :=
  match opcode, fields with
  | .opExtInstImport, .reg handle :: .text name :: _ => some (handle, name)
  | _, _ => none

/-- The imported sets after an instruction with the given fields. -/
def Registry.after (registry : Registry) (opcode : Opcode) (fields : List Field) : Registry :=
  match imported? opcode fields with
  | some (handle, name) => registry.bind handle name
  | none => registry

end SpirvText
