import SpirvText.Category
import SpirvText.Opcode

/-!
# Operand shapes

Every opcode takes a fixed list of operands and then a tail.  Some tails depend on a value among
the fixed operands: the kind of a decoration, or the instruction picked out of an extended set.
-/

namespace SpirvText

inductive OperandKind where
  /-- A register. -/
  | id
  /-- A literal number. -/
  | literal
  /-- An operand that is written by name. -/
  | symbol (category : Category)
  /-- The number of an instruction in the extended set that the register before it names. -/
  | extNumber
  deriving DecidableEq, Repr

def OperandKind.name : OperandKind → String
  | id => "Id"
  | literal => "Literal"
  | symbol category => "Symbolic(" ++ category.name ++ ")"
  | extNumber => "ExtInstNumber"

inductive Tail where
  /-- Nothing. -/
  | empty
  /-- Any number of operands, each written on its own. -/
  | plain
  /-- A numeric literal of one or two words, whose type is the first fixed operand. -/
  | constant
  /-- A string. -/
  | text
  /-- A string, then the registers of an interface. -/
  | textInterface
  /-- What the decoration that the last fixed operand names calls for. -/
  | decoration
  /-- What the extended instruction that the last fixed operand names calls for. -/
  | extInst
  /-- Memory operand masks, each with an alignment if its bits say so. -/
  | memoryAccess
  /-- Nothing, or an image operand mask and any number of operands. -/
  | imageOperands
  /-- At most one operand that is written by name. -/
  | optionalSymbol (category : Category)
  deriving DecidableEq, Repr

def Tail.name : Tail → String
  | empty => "Fixed"
  | plain => "Plain"
  | constant => "ConstantLiteral"
  | text => "StringFirst(Nothing)"
  | textInterface => "StringFirst(Interface)"
  | decoration => "Decoration"
  | extInst => "ExtInst"
  | memoryAccess => "MemoryAccess"
  | imageOperands => "ImageOperands"
  | optionalSymbol category => "OptionalSymbolic(" ++ category.name ++ ")"

structure Shape where
  fixed : List OperandKind
  tail : Tail
  deriving DecidableEq, Repr

def Shape.isVariadic (shape : Shape) : Bool := shape.tail != .empty

def Opcode.shape : Opcode → Shape
  | .opNop | .opFunctionEnd | .opKill | .opReturn | .opUnreachable | .opNoLine =>
    ⟨[], .empty⟩
  | .opUndef | .opTypeSampledImage | .opTypeRuntimeArray | .opConstantTrue | .opConstantFalse
  | .opConstantNull | .opFunctionParameter | .opMemoryBarrier =>
    ⟨[.id, .id], .empty⟩
  | .opSourceContinued | .opSourceExtension | .opExtension | .opModuleProcessed =>
    ⟨[], .text⟩
  | .opSource =>
    ⟨[.symbol .sourceLanguage, .literal], .plain⟩
  | .opName | .opString | .opExtInstImport | .opTypeOpaque =>
    ⟨[.id], .text⟩
  | .opMemberName =>
    ⟨[.id, .literal], .text⟩
  | .opLine | .opTypeInt =>
    ⟨[.id, .literal, .literal], .empty⟩
  | .opExtInst =>
    ⟨[.id, .id, .id, .extNumber], .extInst⟩
  | .opMemoryModel =>
    ⟨[.symbol .addressingModel, .symbol .memoryModel], .empty⟩
  | .opEntryPoint =>
    ⟨[.symbol .executionModel, .id], .textInterface⟩
  | .opExecutionMode | .opExecutionModeId =>
    ⟨[.id, .symbol .executionMode], .plain⟩
  | .opCapability =>
    ⟨[.symbol .capability], .empty⟩
  | .opTypeVoid | .opTypeBool | .opTypeSampler | .opLabel | .opBranch | .opReturnValue =>
    ⟨[.id], .empty⟩
  | .opTypeFloat =>
    ⟨[.id, .literal], .empty⟩
  | .opTypeVector | .opTypeMatrix =>
    ⟨[.id, .id, .literal], .empty⟩
  | .opTypeImage =>
    ⟨[.id, .id, .symbol .dim, .literal, .literal, .literal, .literal,
      .symbol .imageFormat], .optionalSymbol .accessQualifier⟩
  | .opTypeArray | .opConvertFToU | .opConvertFToS | .opConvertSToF | .opConvertUToF | .opUConvert
  | .opSConvert | .opFConvert | .opBitcast | .opSNegate | .opFNegate | .opLogicalNot | .opNot
  | .opControlBarrier =>
    ⟨[.id, .id, .id], .empty⟩
  | .opTypeStruct =>
    ⟨[.id], .plain⟩
  | .opTypePointer =>
    ⟨[.id, .symbol .storageClass, .id], .empty⟩
  | .opTypeFunction | .opConstantComposite | .opCompositeConstruct | .opPhi | .opSwitch =>
    ⟨[.id, .id], .plain⟩
  | .opConstant =>
    ⟨[.id, .id], .constant⟩
  | .opFunction =>
    ⟨[.id, .id, .symbol .functionControl, .id], .empty⟩
  | .opFunctionCall | .opAccessChain | .opInBoundsAccessChain | .opCompositeExtract
  | .opBranchConditional =>
    ⟨[.id, .id, .id], .plain⟩
  | .opVariable =>
    ⟨[.id, .id, .symbol .storageClass], .plain⟩
  | .opLoad | .opCopyMemorySized =>
    ⟨[.id, .id, .id], .memoryAccess⟩
  | .opStore | .opCopyMemory =>
    ⟨[.id, .id], .memoryAccess⟩
  | .opPtrAccessChain | .opVectorShuffle | .opCompositeInsert =>
    ⟨[.id, .id, .id, .id], .plain⟩
  | .opDecorate =>
    ⟨[.id, .symbol .decoration], .decoration⟩
  | .opMemberDecorate =>
    ⟨[.id, .literal, .symbol .decoration], .decoration⟩
  | .opSampledImage | .opIAdd | .opFAdd | .opISub | .opFSub | .opIMul | .opFMul | .opUDiv | .opSDiv
  | .opFDiv | .opUMod | .opSRem | .opSMod | .opFRem | .opLogicalOr | .opLogicalAnd | .opIEqual
  | .opINotEqual | .opUGreaterThan | .opSGreaterThan | .opULessThan | .opSLessThan | .opFOrdEqual
  | .opFOrdLessThan | .opFOrdGreaterThan | .opShiftRightLogical | .opShiftRightArithmetic
  | .opShiftLeftLogical | .opBitwiseOr | .opBitwiseXor | .opBitwiseAnd =>
    ⟨[.id, .id, .id, .id], .empty⟩
  | .opImageSampleImplicitLod | .opImageSampleExplicitLod | .opImageFetch | .opImageRead
  | .opImageSparseSampleImplicitLod =>
    ⟨[.id, .id, .id, .id], .imageOperands⟩
  | .opImageSampleDrefImplicitLod | .opImageGather =>
    ⟨[.id, .id, .id, .id, .id], .imageOperands⟩
  | .opImageWrite =>
    ⟨[.id, .id, .id], .imageOperands⟩
  | .opSelect =>
    ⟨[.id, .id, .id, .id, .id], .empty⟩
  | .opLoopMerge =>
    ⟨[.id, .id, .symbol .loopControl], .plain⟩
  | .opSelectionMerge =>
    ⟨[.id, .symbol .selectionControl], .empty⟩

inductive DecorationForm where
  | builtIn | uniformId | funcParamAttr | fpRoundingMode | fpFastMathMode | linkageAttributes
  | userSemantic
  /-- Any number of operands, each written on its own. -/
  | other
  deriving DecidableEq, Repr

namespace DecorationForm

def ofWord (word : UInt32) : DecorationForm :=
  if word == 11 then builtIn
  else if word == 27 then uniformId
  else if word == 38 then funcParamAttr
  else if word == 39 then fpRoundingMode
  else if word == 40 then fpFastMathMode
  else if word == 41 then linkageAttributes
  else if word == 5635 then userSemantic
  else other

def name : DecorationForm → String
  | builtIn => "BuiltIn"
  | uniformId => "UniformId"
  | funcParamAttr => "FuncParamAttr"
  | fpRoundingMode => "FPRoundingMode"
  | fpFastMathMode => "FPFastMathMode"
  | linkageAttributes => "LinkageAttributes"
  | userSemantic => "UserSemantic"
  | other => "Other"

end DecorationForm

end SpirvText
