import SpirvText.Numeral

/-!
# Extended instruction sets

An extended instruction is named by the set it comes from and its number in that set.  A set that
is not known here has no named instructions, and their numbers stand for themselves.
-/

namespace SpirvText

inductive ExtSet where
  | openClStd | glslStd450 | debugInfo100 | openClDebugInfo100 | amdTrinaryMinMax
  /-- Any set that is not known by name. -/
  | unknown
  deriving DecidableEq, Repr

namespace ExtSet

/-- The sets that are known, with the names they are imported by. -/
def known : List (String × ExtSet) :=
  [("OpenCL.std", .openClStd), ("GLSL.std.450", .glslStd450),
   ("NonSemantic.Shader.DebugInfo.100", .debugInfo100),
   ("OpenCL.DebugInfo.100", .openClDebugInfo100),
   ("SPV_AMD_shader_trinary_minmax", .amdTrinaryMinMax)]

def ofName (name : String) : ExtSet :=
  (known.lookup name).getD .unknown

def name? (set : ExtSet) : Option String :=
  (known.find? (·.2 == set)).map (·.1)

def label : ExtSet → String
  | .openClStd => "OpenClStd"
  | .glslStd450 => "GlslStd450"
  | .debugInfo100 => "DebugInfo100"
  | .openClDebugInfo100 => "OpenClDebugInfo100"
  | .amdTrinaryMinMax => "AmdTrinaryMinMax"
  | .unknown => "Unknown"

def openClStdTable : List (UInt32 × String) :=
  [(0, "acos"), (1, "acosh"), (2, "acospi"), (3, "asin"), (4, "asinh"), (5, "asinpi"), (6, "atan"),
   (7, "atan2"), (8, "atanh"), (9, "atanpi"), (10, "atan2pi"), (11, "cbrt"), (12, "ceil"),
   (13, "copysign"), (14, "cos"), (15, "cosh"), (16, "cospi"), (17, "erfc"), (18, "erf"),
   (19, "exp"), (20, "exp2"), (21, "exp10"), (22, "expm1"), (23, "fabs"), (24, "fdim"),
   (25, "floor"), (26, "fma"), (27, "fmax"), (28, "fmin"), (29, "fmod"), (30, "fract"),
   (31, "frexp"), (32, "hypot"), (33, "ilogb"), (34, "ldexp"), (35, "lgamma"), (36, "lgamma_r"),
   (37, "log"), (38, "log2"), (39, "log10"), (40, "log1p"), (41, "logb"), (42, "mad"),
   (43, "maxmag"), (44, "minmag"), (45, "modf"), (46, "nan"), (47, "nextafter"), (48, "pow"),
   (49, "pown"), (50, "powr"), (51, "remainder"), (52, "remquo"), (53, "rint"), (54, "rootn"),
   (55, "round"), (56, "rsqrt"), (57, "sin"), (58, "sincos"), (59, "sinh"), (60, "sinpi"),
   (61, "sqrt"), (62, "tan"), (63, "tanh"), (64, "tanpi"), (65, "tgamma"), (66, "trunc"),
   (171, "vloadn"), (172, "vstoren"), (173, "vload_half"), (174, "vload_halfn"),
   (175, "vstore_half"), (176, "vstore_half_r"), (177, "vstore_halfn"), (178, "vstore_halfn_r"),
   (179, "vloada_halfn"), (180, "vstorea_halfn"), (181, "vstorea_halfn_r"), (182, "shuffle"),
   (183, "shuffle2"), (184, "printf"), (185, "prefetch")]

def glslStd450Table : List (UInt32 × String) :=
  [(1, "Round"), (2, "RoundEven"), (3, "Trunc"), (4, "FAbs"), (5, "SAbs"), (6, "FSign"),
   (7, "SSign"), (8, "Floor"), (9, "Ceil"), (10, "Fract"), (11, "Radians"), (12, "Degrees"),
   (13, "Sin"), (14, "Cos"), (15, "Tan"), (16, "Asin"), (17, "Acos"), (18, "Atan"), (19, "Sinh"),
   (20, "Cosh"), (21, "Tanh"), (22, "Asinh"), (23, "Acosh"), (24, "Atanh"), (25, "Atan2"),
   (26, "Pow"), (27, "Exp"), (28, "Log"), (29, "Exp2"), (30, "Log2"), (31, "Sqrt"),
   (32, "InverseSqrt"), (33, "Determinant"), (34, "MatrixInverse"), (35, "Modf"),
   (36, "ModfStruct"), (37, "FMin"), (38, "UMin"), (39, "SMin"), (40, "FMax"), (41, "UMax"),
   (42, "SMax"), (43, "FClamp"), (44, "UClamp"), (45, "SClamp"), (46, "FMix"), (47, "IMix"),
   (48, "Step"), (49, "SmoothStep"), (50, "Fma"), (51, "Frexp"), (52, "FrexpStruct"),
   (53, "Ldexp"), (66, "Length"), (67, "Distance"), (68, "Cross"), (69, "Normalize"),
   (70, "FaceForward"), (71, "Reflect"), (72, "Refract"), (73, "FindILsb"), (74, "FindSMsb"),
   (75, "FindUMsb"), (76, "InterpolateAtCentroid"), (77, "InterpolateAtSample"),
   (78, "InterpolateAtOffset"), (79, "NMin"), (80, "NMax"), (81, "NClamp")]

/-- The debug instructions that both debug information sets number alike. -/
def sharedDebugTable : List (UInt32 × String) :=
  [(0, "DebugInfoNone"), (1, "DebugCompilationUnit"), (2, "DebugTypeBasic"),
   (3, "DebugTypePointer"), (4, "DebugTypeQualifier"), (5, "DebugTypeArray"),
   (6, "DebugTypeVector"), (7, "DebugTypedef"), (8, "DebugTypeFunction"), (9, "DebugTypeEnum"),
   (10, "DebugTypeComposite"), (11, "DebugTypeMember"), (12, "DebugTypeInheritance"),
   (13, "DebugTypePtrToMember"), (14, "DebugTypeTemplate"), (15, "DebugTypeTemplateParameter"),
   (16, "DebugTypeTemplateTemplateParameter"), (17, "DebugTypeTemplateParameterPack"),
   (18, "DebugGlobalVariable"), (19, "DebugFunctionDeclaration"), (20, "DebugFunction"),
   (21, "DebugLexicalBlock"), (22, "DebugLexicalBlockDiscriminator"), (23, "DebugScope"),
   (24, "DebugNoScope"), (25, "DebugInlinedAt"), (26, "DebugLocalVariable"),
   (27, "DebugInlinedVariable"), (28, "DebugDeclare"), (29, "DebugValue"), (30, "DebugOperation"),
   (31, "DebugExpression"), (32, "DebugMacroDef"), (33, "DebugMacroUndef"),
   (34, "DebugImportedEntity"), (35, "DebugSource")]

def shaderDebugTable : List (UInt32 × String) :=
  [(101, "DebugFunctionDefinition"), (102, "DebugSourceContinued"), (103, "DebugLine"),
   (104, "DebugNoLine"), (105, "DebugBuildIdentifier"), (106, "DebugStoragePath"),
   (107, "DebugEntryPoint"), (108, "DebugTypeMatrix")]

def amdTrinaryMinMaxTable : List (UInt32 × String) :=
  [(1, "FMin3AMD"), (2, "UMin3AMD"), (3, "SMin3AMD"), (4, "FMax3AMD"), (5, "UMax3AMD"),
   (6, "SMax3AMD"), (7, "FMid3AMD"), (8, "UMid3AMD"), (9, "SMid3AMD")]

def table : ExtSet → List (UInt32 × String)
  | .openClStd => openClStdTable
  | .glslStd450 => glslStd450Table
  | .debugInfo100 => sharedDebugTable ++ shaderDebugTable
  | .openClDebugInfo100 => sharedDebugTable
  | .amdTrinaryMinMax => amdTrinaryMinMaxTable
  | .unknown => []

/-- The name of instruction `number`, or the number in decimal if it has none. -/
def instructionName (set : ExtSet) (number : UInt32) : String :=
  (set.table.lookup number).getD (toString number.toNat)

/-- Reads the name or the decimal number of an instruction. -/
def parseInstruction? (set : ExtSet) (text : String) : Option UInt32 :=
  match set.table.find? (·.2 == text) with
  | some (number, _) => some number
  | none => Numeral.word? 10 text.toList

/-- Whether instruction `number` takes a rounding mode as its last operand. -/
def endsWithRoundingMode (set : ExtSet) (number : UInt32) : Bool :=
  set == .openClStd && (number == 176 || number == 178 || number == 181)

end ExtSet

end SpirvText
