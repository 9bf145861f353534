/-!
# Opcodes

The instructions of the assembly language, with the mnemonic each is written by and the number it
has in the binary form.  `Opcode.all` lists them by ascending number, so the order of the
constructors is the order of the numbers.
-/

namespace SpirvText

inductive Opcode where
  | opNop | opUndef | opSourceContinued | opSource | opSourceExtension | opName | opMemberName
  | opString | opLine | opExtension | opExtInstImport | opExtInst | opMemoryModel | opEntryPoint
  | opExecutionMode | opCapability | opTypeVoid | opTypeBool | opTypeInt | opTypeFloat
  | opTypeVector | opTypeMatrix | opTypeImage | opTypeSampler | opTypeSampledImage | opTypeArray
  | opTypeRuntimeArray | opTypeStruct | opTypeOpaque | opTypePointer | opTypeFunction
  | opConstantTrue | opConstantFalse | opConstant | opConstantComposite | opConstantNull
  | opFunction | opFunctionParameter | opFunctionEnd | opFunctionCall | opVariable | opLoad
  | opStore | opCopyMemory | opCopyMemorySized | opAccessChain | opInBoundsAccessChain
  | opPtrAccessChain | opDecorate | opMemberDecorate | opVectorShuffle | opCompositeConstruct
  | opCompositeExtract | opCompositeInsert | opSampledImage | opImageSampleImplicitLod
  | opImageSampleExplicitLod | opImageSampleDrefImplicitLod | opImageFetch | opImageGather
  | opImageRead | opImageWrite | opConvertFToU | opConvertFToS | opConvertSToF | opConvertUToF
  | opUConvert | opSConvert | opFConvert | opBitcast | opSNegate | opFNegate | opIAdd | opFAdd
  | opISub | opFSub | opIMul | opFMul | opUDiv | opSDiv | opFDiv | opUMod | opSRem | opSMod | opFRem
  | opLogicalOr | opLogicalAnd | opLogicalNot | opSelect | opIEqual | opINotEqual | opUGreaterThan
  | opSGreaterThan | opULessThan | opSLessThan | opFOrdEqual | opFOrdLessThan | opFOrdGreaterThan
  | opShiftRightLogical | opShiftRightArithmetic | opShiftLeftLogical | opBitwiseOr | opBitwiseXor
  | opBitwiseAnd | opNot | opControlBarrier | opMemoryBarrier | opPhi | opLoopMerge
  | opSelectionMerge | opLabel | opBranch | opBranchConditional | opSwitch | opKill | opReturn
  | opReturnValue | opUnreachable | opImageSparseSampleImplicitLod | opNoLine | opModuleProcessed
  | opExecutionModeId
  deriving DecidableEq, Repr, Ord

namespace Opcode

/-- Every opcode, by ascending number. -/
def all : List Opcode :=
  [.opNop, .opUndef, .opSourceContinued, .opSource, .opSourceExtension, .opName, .opMemberName,
   .opString, .opLine, .opExtension, .opExtInstImport, .opExtInst, .opMemoryModel, .opEntryPoint,
   .opExecutionMode, .opCapability, .opTypeVoid, .opTypeBool, .opTypeInt, .opTypeFloat,
   .opTypeVector, .opTypeMatrix, .opTypeImage, .opTypeSampler, .opTypeSampledImage, .opTypeArray,
   .opTypeRuntimeArray, .opTypeStruct, .opTypeOpaque, .opTypePointer, .opTypeFunction,
   .opConstantTrue, .opConstantFalse, .opConstant, .opConstantComposite, .opConstantNull,
   .opFunction, .opFunctionParameter, .opFunctionEnd, .opFunctionCall, .opVariable, .opLoad,
   .opStore, .opCopyMemory, .opCopyMemorySized, .opAccessChain, .opInBoundsAccessChain,
   .opPtrAccessChain, .opDecorate, .opMemberDecorate, .opVectorShuffle, .opCompositeConstruct,
   .opCompositeExtract, .opCompositeInsert, .opSampledImage, .opImageSampleImplicitLod,
   .opImageSampleExplicitLod, .opImageSampleDrefImplicitLod, .opImageFetch, .opImageGather,
   .opImageRead, .opImageWrite, .opConvertFToU, .opConvertFToS, .opConvertSToF, .opConvertUToF,
   .opUConvert, .opSConvert, .opFConvert, .opBitcast, .opSNegate, .opFNegate, .opIAdd, .opFAdd,
   .opISub, .opFSub, .opIMul, .opFMul, .opUDiv, .opSDiv, .opFDiv, .opUMod, .opSRem, .opSMod,
   .opFRem, .opLogicalOr, .opLogicalAnd, .opLogicalNot, .opSelect, .opIEqual, .opINotEqual,
   .opUGreaterThan, .opSGreaterThan, .opULessThan, .opSLessThan, .opFOrdEqual, .opFOrdLessThan,
   .opFOrdGreaterThan, .opShiftRightLogical, .opShiftRightArithmetic, .opShiftLeftLogical,
   .opBitwiseOr, .opBitwiseXor, .opBitwiseAnd, .opNot, .opControlBarrier, .opMemoryBarrier, .opPhi,
   .opLoopMerge, .opSelectionMerge, .opLabel, .opBranch, .opBranchConditional, .opSwitch, .opKill,
   .opReturn, .opReturnValue, .opUnreachable, .opImageSparseSampleImplicitLod, .opNoLine,
   .opModuleProcessed, .opExecutionModeId]

def value : Opcode → Nat
  | .opNop => 0
  | .opUndef => 1
  | .opSourceContinued => 2
  | .opSource => 3
  | .opSourceExtension => 4
  | .opName => 5
  | .opMemberName => 6
  | .opString => 7
  | .opLine => 8
  | .opExtension => 10
  | .opExtInstImport => 11
  | .opExtInst => 12
  | .opMemoryModel => 14
  | .opEntryPoint => 15
  | .opExecutionMode => 16
  | .opCapability => 17
  | .opTypeVoid => 19
  | .opTypeBool => 20
  | .opTypeInt => 21
  | .opTypeFloat => 22
  | .opTypeVector => 23
  | .opTypeMatrix => 24
  | .opTypeImage => 25
  | .opTypeSampler => 26
  | .opTypeSampledImage => 27
  | .opTypeArray => 28
  | .opTypeRuntimeArray => 29
  | .opTypeStruct => 30
  | .opTypeOpaque => 31
  | .opTypePointer => 32
  | .opTypeFunction => 33
  | .opConstantTrue => 41
  | .opConstantFalse => 42
  | .opConstant => 43
  | .opConstantComposite => 44
  | .opConstantNull => 46
  | .opFunction => 54
  | .opFunctionParameter => 55
  | .opFunctionEnd => 56
  | .opFunctionCall => 57
  | .opVariable => 59
  | .opLoad => 61
  | .opStore => 62
  | .opCopyMemory => 63
  | .opCopyMemorySized => 64
  | .opAccessChain => 65
  | .opInBoundsAccessChain => 66
  | .opPtrAccessChain => 67
  | .opDecorate => 71
  | .opMemberDecorate => 72
  | .opVectorShuffle => 79
  | .opCompositeConstruct => 80
  | .opCompositeExtract => 81
  | .opCompositeInsert => 82
  | .opSampledImage => 86
  | .opImageSampleImplicitLod => 87
  | .opImageSampleExplicitLod => 88
  | .opImageSampleDrefImplicitLod => 89
  | .opImageFetch => 95
  | .opImageGather => 96
  | .opImageRead => 98
  | .opImageWrite => 99
  | .opConvertFToU => 109
  | .opConvertFToS => 110
  | .opConvertSToF => 111
  | .opConvertUToF => 112
  | .opUConvert => 113
  | .opSConvert => 114
  | .opFConvert => 115
  | .opBitcast => 124
  | .opSNegate => 126
  | .opFNegate => 127
  | .opIAdd => 128
  | .opFAdd => 129
  | .opISub => 130
  | .opFSub => 131
  | .opIMul => 132
  | .opFMul => 133
  | .opUDiv => 134
  | .opSDiv => 135
  | .opFDiv => 136
  | .opUMod => 137
  | .opSRem => 138
  | .opSMod => 139
  | .opFRem => 140
  | .opLogicalOr => 166
  | .opLogicalAnd => 167
  | .opLogicalNot => 168
  | .opSelect => 169
  | .opIEqual => 170
  | .opINotEqual => 171
  | .opUGreaterThan => 172
  | .opSGreaterThan => 173
  | .opULessThan => 176
  | .opSLessThan => 177
  | .opFOrdEqual => 180
  | .opFOrdLessThan => 184
  | .opFOrdGreaterThan => 186
  | .opShiftRightLogical => 194
  | .opShiftRightArithmetic => 195
  | .opShiftLeftLogical => 196
  | .opBitwiseOr => 197
  | .opBitwiseXor => 198
  | .opBitwiseAnd => 199
  | .opNot => 200
  | .opControlBarrier => 224
  | .opMemoryBarrier => 225
  | .opPhi => 245
  | .opLoopMerge => 246
  | .opSelectionMerge => 247
  | .opLabel => 248
  | .opBranch => 249
  | .opBranchConditional => 250
  | .opSwitch => 251
  | .opKill => 252
  | .opReturn => 253
  | .opReturnValue => 254
  | .opUnreachable => 255
  | .opImageSparseSampleImplicitLod => 305
  | .opNoLine => 317
  | .opModuleProcessed => 330
  | .opExecutionModeId => 331

def mnemonic : Opcode → String
  | .opNop => "OpNop"
  | .opUndef => "OpUndef"
  | .opSourceContinued => "OpSourceContinued"
  | .opSource => "OpSource"
  | .opSourceExtension => "OpSourceExtension"
  | .opName => "OpName"
  | .opMemberName => "OpMemberName"
  | .opString => "OpString"
  | .opLine => "OpLine"
  | .opExtension => "OpExtension"
  | .opExtInstImport => "OpExtInstImport"
  | .opExtInst => "OpExtInst"
  | .opMemoryModel => "OpMemoryModel"
  | .opEntryPoint => "OpEntryPoint"
  | .opExecutionMode => "OpExecutionMode"
  | .opCapability => "OpCapability"
  | .opTypeVoid => "OpTypeVoid"
  | .opTypeBool => "OpTypeBool"
  | .opTypeInt => "OpTypeInt"
  | .opTypeFloat => "OpTypeFloat"
  | .opTypeVector => "OpTypeVector"
  | .opTypeMatrix => "OpTypeMatrix"
  | .opTypeImage => "OpTypeImage"
  | .opTypeSampler => "OpTypeSampler"
  | .opTypeSampledImage => "OpTypeSampledImage"
  | .opTypeArray => "OpTypeArray"
  | .opTypeRuntimeArray => "OpTypeRuntimeArray"
  | .opTypeStruct => "OpTypeStruct"
  | .opTypeOpaque => "OpTypeOpaque"
  | .opTypePointer => "OpTypePointer"
  | .opTypeFunction => "OpTypeFunction"
  | .opConstantTrue => "OpConstantTrue"
  | .opConstantFalse => "OpConstantFalse"
  | .opConstant => "OpConstant"
  | .opConstantComposite => "OpConstantComposite"
  | .opConstantNull => "OpConstantNull"
  | .opFunction => "OpFunction"
  | .opFunctionParameter => "OpFunctionParameter"
  | .opFunctionEnd => "OpFunctionEnd"
  | .opFunctionCall => "OpFunctionCall"
  | .opVariable => "OpVariable"
  | .opLoad => "OpLoad"
  | .opStore => "OpStore"
  | .opCopyMemory => "OpCopyMemory"
  | .opCopyMemorySized => "OpCopyMemorySized"
  | .opAccessChain => "OpAccessChain"
  | .opInBoundsAccessChain => "OpInBoundsAccessChain"
  | .opPtrAccessChain => "OpPtrAccessChain"
  | .opDecorate => "OpDecorate"
  | .opMemberDecorate => "OpMemberDecorate"
  | .opVectorShuffle => "OpVectorShuffle"
  | .opCompositeConstruct => "OpCompositeConstruct"
  | .opCompositeExtract => "OpCompositeExtract"
  | .opCompositeInsert => "OpCompositeInsert"
  | .opSampledImage => "OpSampledImage"
  | .opImageSampleImplicitLod => "OpImageSampleImplicitLod"
  | .opImageSampleExplicitLod => "OpImageSampleExplicitLod"
  | .opImageSampleDrefImplicitLod => "OpImageSampleDrefImplicitLod"
  | .opImageFetch => "OpImageFetch"
  | .opImageGather => "OpImageGather"
  | .opImageRead => "OpImageRead"
  | .opImageWrite => "OpImageWrite"
  | .opConvertFToU => "OpConvertFToU"
  | .opConvertFToS => "OpConvertFToS"
  | .opConvertSToF => "OpConvertSToF"
  | .opConvertUToF => "OpConvertUToF"
  | .opUConvert => "OpUConvert"
  | .opSConvert => "OpSConvert"
  | .opFConvert => "OpFConvert"
  | .opBitcast => "OpBitcast"
  | .opSNegate => "OpSNegate"
  | .opFNegate => "OpFNegate"
  | .opIAdd => "OpIAdd"
  | .opFAdd => "OpFAdd"
  | .opISub => "OpISub"
  | .opFSub => "OpFSub"
  | .opIMul => "OpIMul"
  | .opFMul => "OpFMul"
  | .opUDiv => "OpUDiv"
  | .opSDiv => "OpSDiv"
  | .opFDiv => "OpFDiv"
  | .opUMod => "OpUMod"
  | .opSRem => "OpSRem"
  | .opSMod => "OpSMod"
  | .opFRem => "OpFRem"
  | .opLogicalOr => "OpLogicalOr"
  | .opLogicalAnd => "OpLogicalAnd"
  | .opLogicalNot => "OpLogicalNot"
  | .opSelect => "OpSelect"
  | .opIEqual => "OpIEqual"
  | .opINotEqual => "OpINotEqual"
  | .opUGreaterThan => "OpUGreaterThan"
  | .opSGreaterThan => "OpSGreaterThan"
  | .opULessThan => "OpULessThan"
  | .opSLessThan => "OpSLessThan"
  | .opFOrdEqual => "OpFOrdEqual"
  | .opFOrdLessThan => "OpFOrdLessThan"
  | .opFOrdGreaterThan => "OpFOrdGreaterThan"
  | .opShiftRightLogical => "OpShiftRightLogical"
  | .opShiftRightArithmetic => "OpShiftRightArithmetic"
  | .opShiftLeftLogical => "OpShiftLeftLogical"
  | .opBitwiseOr => "OpBitwiseOr"
  | .opBitwiseXor => "OpBitwiseXor"
  | .opBitwiseAnd => "OpBitwiseAnd"
  | .opNot => "OpNot"
  | .opControlBarrier => "OpControlBarrier"
  | .opMemoryBarrier => "OpMemoryBarrier"
  | .opPhi => "OpPhi"
  | .opLoopMerge => "OpLoopMerge"
  | .opSelectionMerge => "OpSelectionMerge"
  | .opLabel => "OpLabel"
  | .opBranch => "OpBranch"
  | .opBranchConditional => "OpBranchConditional"
  | .opSwitch => "OpSwitch"
  | .opKill => "OpKill"
  | .opReturn => "OpReturn"
  | .opReturnValue => "OpReturnValue"
  | .opUnreachable => "OpUnreachable"
  | .opImageSparseSampleImplicitLod => "OpImageSparseSampleImplicitLod"
  | .opNoLine => "OpNoLine"
  | .opModuleProcessed => "OpModuleProcessed"
  | .opExecutionModeId => "OpExecutionModeId"

def ofMnemonic? (text : String) : Option Opcode :=
  all.find? (·.mnemonic == text)

def ofValue? (n : Nat) : Option Opcode :=
  all.find? (·.value == n)

/-- Block terminators: the instructions that may stand last in a block. -/
def isTerminator : Opcode → Bool
  | .opBranch | .opBranchConditional | .opSwitch | .opKill | .opReturn | .opReturnValue
  | .opUnreachable => true
  | _ => false

end Opcode

end SpirvText
