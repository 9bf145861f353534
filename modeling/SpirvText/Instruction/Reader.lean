import SpirvText.Event
import SpirvText.ReadError

/-!
# Reading an instruction

An instruction is read from the tokens of one line, the mnemonic first.  What its operands mean can
depend on the lines before it: on the numeric types they declare and the sets they import.
-/

namespace SpirvText

/-- What reading a line needs to know about the lines before it. -/
structure ReadContext where
  registry : Registry := .empty
  /-- The numeric types that have been declared, the latest first. -/
  types : List (Reg × ScalarType) := []
  deriving DecidableEq, Repr

/-- The context after an instruction, which may declare a numeric type. -/
def ReadContext.declare (context : ReadContext) (i : Instruction) : ReadContext :=
  match ScalarType.declared? i with
  | some entry => { context with types := entry :: context.types }
  | none => context

namespace Supply

def unexpected (expected : Expectation) (t : Located) : ReadError :=
  ⟨t.line, .unexpectedToken expected t.token⟩

/-- The error of a literal that is out of range. -/
def invalid (t : Located) : ReadError := ⟨t.line, .invalidLiteral t.token.text⟩

def regOf (number : UInt32) (t : Located) : Except ReadError Reg :=
  match Reg.ofNumber? number with
  | some r => .ok r
  | none => .error (invalid t)

/-- The word that holds an integer, signed or not. -/
def wordOf (v : Int) (t : Located) : Except ReadError UInt32 :=
  if -2 ^ (31 : Nat) ≤ v && v < 2 ^ (32 : Nat) then .ok (wordOfInt v) else .error (invalid t)

def naturalWord? (v : Int) : Option UInt32 :=
  if 0 ≤ v && v < 2 ^ (32 : Nat) then some (wordOfInt v) else none

/-- The literal that a token stands for in a constant of the given type. -/
def literalOf (type : ScalarType) (t : Located) : Except ReadError Literal :=
  let atLine (result : Except OperandError Literal) : Except ReadError Literal :=
    result.mapError fun e ↦ ⟨t.line, .operands e⟩
  match type, t.token with
  | .integer width, .int v =>
    if ScalarType.integerFits width v then
      atLine (Literal.ofInteger (.ofNat (v % 2 ^ (64 : Nat)).toNat) width)
    else .error (invalid t)
  | .float width, .float v => atLine (Literal.ofFloat v width)
  | .float width, .int v =>
    if ScalarType.patternFits width v then
      atLine do return ⟨← LiteralWords.ofBits (.ofNat v.toNat) width, Literal.floatForm width⟩
    else .error (invalid t)
  | _, _ => .error (invalid t)

/-- Takes operands from the tokens of a line that ends with `stop`.  Errors of the layout are put on
line `line`. -/
def ofLine (types : List (Reg × ScalarType)) (line : Nat) (stop : Located) :
    Supply Located ReadError where
  isImmediate t := !t.token.isId
  reg t :=
    match t.token with
    | .id number => regOf number t
    | _ => .error (unexpected .register t)
  literal t :=
    match t.token with
    | .int v => wordOf v t
    | _ => .error (unexpected .integer t)
  symbol category t :=
    let word (found : Option UInt32) : Except ReadError UInt32 :=
      match found with
      | some word => .ok word
      | none => .error ⟨t.line, .unknownSymbol t.token (.category category)⟩
    match t.token with
    | .ident text => word (category.parse? text)
    | .int v => word (naturalWord? v)
    | _ => .error (unexpected (.symbol category) t)
  extNumber set t :=
    let found := match t.token with
      | .ident text => set.parseInstruction? text
      | .int v => naturalWord? v
      | _ => none
    match found with
    | some word => .ok word
    | none => .error ⟨t.line, .unknownSymbol t.token (.instructions set)⟩
  plain t :=
    match t.token with
    | .id number => .reg <$> regOf number t
    | .int v => .imm <$> wordOf v t
    | .ident text => .ok (.expr text)
    | _ => .error (unexpected .plainOperand t)
  skip t := .error (unexpected .interfaceRegister t)
  text t rest :=
    match t.token with
    | .str text =>
      if text.toList.contains '\x00' then .error ⟨t.line, .invalidLiteral (Text.escaped text)⟩
      else .ok (text, rest)
    | _ => .error (unexpected .string t)
  constant type items :=
    match types.lookup type, items with
    | none, items => .error ⟨(items.head?.getD stop).line, .unknownConstantType type⟩
    | some _, [] => .error (unexpected .constant stop)
    | some type, t :: rest => do return (← literalOf type t, rest)
  error e := ⟨line, .operands e⟩

end Supply

def opcodeOf (first : Located) : Except ReadError Opcode :=
  match first.token with
  | .ident text =>
    match Opcode.ofMnemonic? text with
    | some opcode => .ok opcode
    | none => .error ⟨first.line, .unknownMnemonic text⟩
  | _ => .error (Supply.unexpected .mnemonic first)

/-- Reads the instruction on a line that begins with `first`, goes on with `rest` and ends with
`stop`, and returns it with the context for the next line.  Errors that the layout finds have no
line until they get that of the mnemonic. -/
def Instruction.read (context : ReadContext) (first : Located) (rest : List Located)
    (stop : Located) : Transcript Event ReadError (Instruction × ReadContext) := do
  let opcode ← opcodeOf first
  let laid := (Supply.ofLine context.types 0 stop).layOut context.registry opcode rest
  Transcript.putAll (layoutEvents context.registry opcode rest.length laid.entries)
  let left : Except ReadError (List Located) := laid.result.mapError (·.orAt first.line)
  match ← left with
  | t :: _ => Transcript.fail ((Supply.unexpected .lineEnd t).orAt first.line)
  | [] =>
    let instr := Instruction.ofFields opcode laid.entries
    let registry := context.registry.after opcode laid.entries
    return (instr, ReadContext.declare { context with registry } instr)

end SpirvText
