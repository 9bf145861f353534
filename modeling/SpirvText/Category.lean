/-!
# Symbolic operands

A symbolic operand is a 32-bit word that is written by name: either one value out of an
enumeration (`Export`, `RTE`), or a mask whose bits have names (`Volatile|Aligned`).  This module
holds the categories of such operands and the names each of them knows.
-/

namespace SpirvText

/-- What a symbolic operand enumerates. -/
inductive Category where
  | capability | sourceLanguage | addressingModel | memoryModel | executionModel | executionMode
  | storageClass | dim | imageFormat | accessQualifier | decoration | builtIn | scope
  | functionParameterAttribute | fpRoundingMode | fpFastMathMode | linkageType | functionControl
  | selectionControl | loopControl | memoryOperand | imageOperand
  deriving DecidableEq, Repr

namespace Category

def all : List Category :=
  [.capability, .sourceLanguage, .addressingModel, .memoryModel, .executionModel, .executionMode,
   .storageClass, .dim, .imageFormat, .accessQualifier, .decoration, .builtIn, .scope,
   .functionParameterAttribute, .fpRoundingMode, .fpFastMathMode, .linkageType, .functionControl,
   .selectionControl, .loopControl, .memoryOperand, .imageOperand]

def name : Category → String
  | .capability => "Capability"
  | .sourceLanguage => "SourceLanguage"
  | .addressingModel => "AddressingModel"
  | .memoryModel => "MemoryModel"
  | .executionModel => "ExecutionModel"
  | .executionMode => "ExecutionMode"
  | .storageClass => "StorageClass"
  | .dim => "Dim"
  | .imageFormat => "ImageFormat"
  | .accessQualifier => "AccessQualifier"
  | .decoration => "Decoration"
  | .builtIn => "BuiltIn"
  | .scope => "Scope"
  | .functionParameterAttribute => "FunctionParameterAttribute"
  | .fpRoundingMode => "FPRoundingMode"
  | .fpFastMathMode => "FPFastMathMode"
  | .linkageType => "LinkageType"
  | .functionControl => "FunctionControl"
  | .selectionControl => "SelectionControl"
  | .loopControl => "LoopControl"
  | .memoryOperand => "MemoryOperand"
  | .imageOperand => "ImageOperand"

/-- Whether the bits of a word are named one by one. -/
def isMask : Category → Bool
  | .fpFastMathMode | .functionControl | .selectionControl | .loopControl | .memoryOperand
  | .imageOperand => true
  | _ => false

/-- The named values of a category, or its named bits, in the order they are written. -/
def table : Category → List (UInt32 × String)
  | .capability =>
    [(0, "Matrix"), (1, "Shader"), (2, "Geometry"), (3, "Tessellation"), (4, "Addresses"),
     (5, "Linkage"), (6, "Kernel"), (7, "Vector16"), (8, "Float16Buffer"), (9, "Float16"),
     (10, "Float64"), (11, "Int64"), (12, "Int64Atomics"), (13, "ImageBasic"),
     (14, "ImageReadWrite"), (15, "ImageMipmap"), (17, "Pipes"), (18, "Groups"),
     (19, "DeviceEnqueue"), (20, "LiteralSampler"), (21, "AtomicStorage"), (22, "Int16"),
     (38, "GenericPointer"), (39, "Int8")]
  | .sourceLanguage =>
    [(0, "Unknown"), (1, "ESSL"), (2, "GLSL"), (3, "OpenCL_C"), (4, "OpenCL_CPP"), (5, "HLSL"),
     (6, "CPP_for_OpenCL")]
  | .addressingModel =>
    [(0, "Logical"), (1, "Physical32"), (2, "Physical64"), (5348, "PhysicalStorageBuffer64")]
  | .memoryModel =>
    [(0, "Simple"), (1, "GLSL450"), (2, "OpenCL"), (3, "Vulkan")]
  | .executionModel =>
    [(0, "Vertex"), (1, "TessellationControl"), (2, "TessellationEvaluation"), (3, "Geometry"),
     (4, "Fragment"), (5, "GLCompute"), (6, "Kernel")]
  | .executionMode =>
    [(0, "Invocations"), (1, "SpacingEqual"), (2, "SpacingFractionalEven"),
     (3, "SpacingFractionalOdd"), (4, "VertexOrderCw"), (5, "VertexOrderCcw"),
     (6, "PixelCenterInteger"), (7, "OriginUpperLeft"), (8, "OriginLowerLeft"),
     (9, "EarlyFragmentTests"), (10, "PointMode"), (11, "Xfb"), (12, "DepthReplacing"),
     (14, "DepthGreater"), (15, "DepthLess"), (16, "DepthUnchanged"), (17, "LocalSize"),
     (18, "LocalSizeHint"), (30, "VecTypeHint"), (31, "ContractionOff"), (33, "Initializer"),
     (34, "Finalizer"), (35, "SubgroupSize"), (36, "SubgroupsPerWorkgroup"), (38, "LocalSizeId")]
  | .storageClass =>
    [(0, "UniformConstant"), (1, "Input"), (2, "Uniform"), (3, "Output"), (4, "Workgroup"),
     (5, "CrossWorkgroup"), (6, "Private"), (7, "Function"), (8, "Generic"), (9, "PushConstant"),
     (10, "AtomicCounter"), (11, "Image"), (12, "StorageBuffer")]
  | .dim =>
    [(0, "1D"), (1, "2D"), (2, "3D"), (3, "Cube"), (4, "Rect"), (5, "Buffer"), (6, "SubpassData")]
  | .imageFormat =>
    [(0, "Unknown"), (1, "Rgba32f"), (2, "Rgba16f"), (3, "R32f"), (4, "Rgba8"), (5, "Rgba8Snorm"),
     (21, "Rgba32i"), (22, "Rgba16i"), (23, "Rgba8i"), (24, "R32i"), (30, "Rgba32ui"),
     (31, "Rgba16ui"), (32, "Rgba8ui"), (33, "R32ui")]
  | .accessQualifier =>
    [(0, "ReadOnly"), (1, "WriteOnly"), (2, "ReadWrite")]
  | .decoration =>
    [(0, "RelaxedPrecision"), (1, "SpecId"), (2, "Block"), (3, "BufferBlock"), (4, "RowMajor"),
     (5, "ColMajor"), (6, "ArrayStride"), (7, "MatrixStride"), (8, "GLSLShared"),
     (9, "GLSLPacked"), (10, "CPacked"), (11, "BuiltIn"), (13, "NoPerspective"), (14, "Flat"),
     (15, "Patch"), (16, "Centroid"), (17, "Sample"), (18, "Invariant"), (19, "Restrict"),
     (20, "Aliased"), (21, "Volatile"), (22, "Constant"), (23, "Coherent"), (24, "NonWritable"),
     (25, "NonReadable"), (26, "Uniform"), (27, "UniformId"), (28, "SaturatedConversion"),
     (29, "Stream"), (30, "Location"), (31, "Component"), (32, "Index"), (33, "Binding"),
     (34, "DescriptorSet"), (35, "Offset"), (36, "XfbBuffer"), (37, "XfbStride"),
     (38, "FuncParamAttr"), (39, "FPRoundingMode"), (40, "FPFastMathMode"),
     (41, "LinkageAttributes"), (42, "NoContraction"), (43, "InputAttachmentIndex"),
     (44, "Alignment"), (45, "MaxByteOffset"), (46, "AlignmentId"), (47, "MaxByteOffsetId"),
     (5635, "UserSemantic")]
  | .builtIn =>
    [(0, "Position"), (1, "PointSize"), (3, "ClipDistance"), (4, "CullDistance"), (5, "VertexId"),
     (6, "InstanceId"), (7, "PrimitiveId"), (8, "InvocationId"), (9, "Layer"),
     (10, "ViewportIndex"), (11, "TessLevelOuter"), (12, "TessLevelInner"), (13, "TessCoord"),
     (14, "PatchVertices"), (15, "FragCoord"), (16, "PointCoord"), (17, "FrontFacing"),
     (18, "SampleId"), (19, "SamplePosition"), (20, "SampleMask"), (22, "FragDepth"),
     (23, "HelperInvocation"), (24, "NumWorkgroups"), (25, "WorkgroupSize"), (26, "WorkgroupId"),
     (27, "LocalInvocationId"), (28, "GlobalInvocationId"), (29, "LocalInvocationIndex"),
     (30, "WorkDim"), (31, "GlobalSize"), (32, "EnqueuedWorkgroupSize"), (33, "GlobalOffset"),
     (34, "GlobalLinearId"), (36, "SubgroupSize"), (37, "SubgroupMaxSize"), (38, "NumSubgroups"),
     (39, "NumEnqueuedSubgroups"), (40, "SubgroupId"), (41, "SubgroupLocalInvocationId"),
     (42, "VertexIndex"), (43, "InstanceIndex")]
  | .scope =>
    [(0, "CrossDevice"), (1, "Device"), (2, "Workgroup"), (3, "Subgroup"), (4, "Invocation"),
     (5, "QueueFamily"), (6, "ShaderCallKHR")]
  | .functionParameterAttribute =>
    [(0, "Zext"), (1, "Sext"), (2, "ByVal"), (3, "Sret"), (4, "NoAlias"), (5, "NoCapture"),
     (6, "NoWrite"), (7, "NoReadWrite")]
  | .fpRoundingMode =>
    [(0, "RTE"), (1, "RTZ"), (2, "RTP"), (3, "RTN")]
  | .fpFastMathMode =>
    [(0x1, "NotNaN"), (0x2, "NotInf"), (0x4, "NSZ"), (0x8, "AllowRecip"), (0x10, "Fast")]
  | .linkageType =>
    [(0, "Export"), (1, "Import"), (2, "LinkOnceODR")]
  | .functionControl =>
    [(0x1, "Inline"), (0x2, "DontInline"), (0x4, "Pure"), (0x8, "Const")]
  | .selectionControl =>
    [(0x1, "Flatten"), (0x2, "DontFlatten")]
  | .loopControl =>
    [(0x1, "Unroll"), (0x2, "DontUnroll"), (0x4, "DependencyInfinite"), (0x8, "DependencyLength")]
  | .memoryOperand =>
    [(0x1, "Volatile"), (0x2, "Aligned"), (0x4, "Nontemporal"), (0x8, "MakePointerAvailable"),
     (0x10, "MakePointerVisible"), (0x20, "NonPrivatePointer")]
  | .imageOperand =>
    [(0x1, "Bias"), (0x2, "Lod"), (0x4, "Grad"), (0x8, "ConstOffset"), (0x10, "Offset"),
     (0x20, "ConstOffsets"), (0x40, "Sample"), (0x80, "MinLod"), (0x100, "MakeTexelAvailable"),
     (0x200, "MakeTexelVisible"), (0x400, "NonPrivateTexel"), (0x800, "VolatileTexel"),
     (0x1000, "SignExtend"), (0x2000, "ZeroExtend"), (0x4000, "Nontemporal"), (0x10000, "Offsets")]

/-- The bit of a memory operand mask that calls for an alignment literal. -/
def alignedBit : UInt32 := 0x2

end Category

end SpirvText
