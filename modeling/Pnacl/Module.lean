import Pnacl.Memory
import Pnacl.RecordValues
import Pnacl.Runtime

/-!
# Modules

The data that the reader builds: types, values, constants, instructions, basic blocks, functions. Counts that the source
keeps next to a pointer (`num_types`, `num_values`, `num_bbs` and so on) are the lengths of the lists. Allocation is left
out: it succeeds, and `pn_allocator_realloc_add` extends the last block, so the model accepts every file that the code
accepts. A count never reaches `2 ^ 32`, since its array is one allocation of less than `2 ^ 32` bytes.

`PNHost` is what the reader takes from the host: the contents of memory that the code reads without having set it, and
the addresses of the instruction streams.
-/

namespace Pnacl

open Lib

/-- `PN_INVALID_TYPE_ID` and `PN_INVALID_BB_ID`; both ids are `uint16_t`. -/
def PN_INVALID_TYPE_ID : Nat := 2 ^ 16 - 1
def PN_INVALID_BB_ID : Nat := 2 ^ 16 - 1

/-- `PNType`: the code with the members of the union that it uses. The entries of a new table are `unset`, all bytes
zero, until a type record fills them in. -/
inductive PNType where
  | unset
  | void
  | float
  | double
  | integer (width : Nat) (basicType : PNBasicType)
  | function (isVarargs returnType : Nat) (argTypes : List Nat)
deriving Repr, DecidableEq

/-- `type->basic_type`. -/
def PNType.basicType : PNType → PNBasicType
  | .unset | .void => .void
  | .float => .float
  | .double => .double
  | .integer _ basicType => basicType
  | .function _ _ _ => .int32

/-- `PNValueCode`, with the index that goes with it; a local variable has none. -/
inductive PNValueCode where
  | function (index : Nat)
  | globalVar (index : Nat)
  | constant (index : Nat)
  | functionArg (index : Nat)
  | localVar
deriving Repr, DecidableEq

/-- `PNValue`. -/
structure PNValue where
  code : PNValueCode
  typeId : Nat
deriving Repr, DecidableEq

/-- `PNConstantCode`. -/
inductive PNConstantCode where
  | undef | integer | float
deriving Repr, DecidableEq

/-- `PNConstant`. The value has the width of the type; that of an undefined constant is never set. -/
structure PNConstant where
  code : PNConstantCode
  typeId : Nat
  basicType : PNBasicType
  value : Option Nat
deriving Repr, DecidableEq

/-- `PNPhiIncoming`. -/
structure PNPhiIncoming where
  bbId : Nat
  valueId : Nat
deriving Repr, DecidableEq

/-- `PNSwitchCase`. -/
structure PNSwitchCase where
  value : Int
  bb : Nat
deriving Repr, DecidableEq

/-- `PNInstruction`. The targets of BR and SWITCH are kept as the record encodes them, since the source cuts them to 16
bits where it stores them (`toBbId`). `caseBbs` are the targets of all cases, also of those without values. -/
inductive PNInstruction where
  | binop (resultValueId value0Id value1Id binopOpcode flags : Nat)
  | cast (resultValueId valueId castOpcode typeId : Nat)
  | ret (valueId : Nat)
  | br (trueBb : Nat) (falseBb : Option Nat) (valueId : Nat)
  | switch (typeId valueId defaultBb : Nat) (cases : List PNSwitchCase) (caseBbs : List Nat)
  | unreachable
  | phi (resultValueId typeId : Nat) (incoming : List PNPhiIncoming)
  | alloca (resultValueId sizeId alignment : Nat)
  | load (resultValueId srcId alignment typeId : Nat)
  | store (destId valueId alignment : Nat)
  | cmp2 (resultValueId value0Id value1Id cmp2Opcode : Nat)
  | vselect (resultValueId condId trueValueId falseValueId : Nat)
  | forwardtyperef (valueId typeId : Nat)
  | call (resultValueId callingConvention calleeId : Nat) (argIds : List Nat) (returnTypeId : Nat)
      (isIndirect isTailCall : Bool)
deriving Repr, DecidableEq

/-- The `PNBasicBlockId` in which a block number is stored. -/
def toBbId (bb : Nat) : Nat := bb % 2 ^ 16

/-- The `PNTypeId` in which a type number is stored. -/
def toTypeId (typeId : Nat) : Nat := typeId % 2 ^ 16

/-- `PNPhiUse`. -/
structure PNPhiUse where
  destValueId : Nat
  incoming : PNPhiIncoming
deriving Repr, DecidableEq

/-- `PNPhiAssign`. -/
structure PNPhiAssign where
  bbId : Nat
  sourceValueId : Nat
  destValueId : Nat
deriving Repr, DecidableEq

/-- `PNBasicBlock`. -/
structure PNBasicBlock where
  instructions : List PNInstruction := []
  phiUses : List PNPhiUse := []
  phiAssigns : List PNPhiAssign := []
  fastPhiAssign : Bool := false
deriving Repr, DecidableEq

/-- `PNGlobalVar`. -/
structure PNGlobalVar where
  numInitializers : Nat
  alignment : Nat
  offset : Nat
  isConstant : Bool
deriving Repr, DecidableEq

/-- What the code finds in memory that it has not set, and where it writes the instruction streams. -/
structure PNHost where
  /-- The local `code` of a record whose abbreviation has no operations, by bit offset. -/
  code : Nat → Nat
  /-- The memory behind `module->types`. -/
  type : Nat → PNType
  /-- The memory behind `bb_offsets`. -/
  bbOffset : Nat → Nat
  /-- The value of an undefined constant. -/
  constant : Nat → Nat
  /-- The address of the instruction stream of a function, which has less than 4 GiB. -/
  instructions : Nat → Nat
  instructions_le : ∀ functionId, instructions functionId + 2 ^ 32 ≤ 2 ^ 64

/-- A host whose memory is zero; streams are written to address 4096. -/
def zeroHost : PNHost where
  code _ := 0
  type _ := .unset
  bbOffset _ := 0
  constant _ := 0
  instructions _ := 4096
  instructions_le _ := by decide

/-- `PNFunction`. `name` is a C string. `instructions` is the stream with the address that it was written to; it is set
when the body has been read. -/
structure PNFunction where
  name : Option (List Nat)
  typeId : Nat
  intrinsicId : PNIntrinsicId
  numArgs : Nat
  callingConvention : Nat
  isProto : Bool
  linkage : Nat
  constants : List PNConstant
  bbs : List PNBasicBlock
  values : List PNValue
  numInstructions : Nat
  instructions : Option (Nat × PNIstream)
deriving Repr, DecidableEq

/-- The instructions of all blocks. -/
def PNFunction.insts (f : PNFunction) : List PNInstruction := f.bbs.flatMap PNBasicBlock.instructions

/-- `PNModule`. The bounds of the global variables, which are fields of `PNMemory`, are kept here. -/
structure PNModule where
  version : Nat
  functions : List PNFunction
  types : List PNType
  numGlobalVars : Nat
  /-- The array of the last COUNT record; a variable that has no VAR record yet is not set. -/
  globalVars : List (Option PNGlobalVar)
  values : List PNValue
  knownFunctions : PNIntrinsicId → Nat
  memory : PNMemory
  globalvarStart : Nat
  globalvarEnd : Nat

/-- `pn_module_init`. -/
def pnModuleInit (memory : PNMemory) : PNModule where
  version := 0
  functions := []
  types := []
  numGlobalVars := 0
  globalVars := []
  values := []
  knownFunctions _ := PN_INVALID_FUNCTION_ID
  memory := memory
  globalvarStart := 0
  globalvarEnd := 0

/-- `PN_MAX_BLOCK_IDS`. -/
def PN_MAX_BLOCK_IDS : Nat := 20

/-- `PNBlockInfoContext`. -/
structure PNBlockInfoContext where
  blockAbbrevMap : Nat → List PNAbbrev := fun _ => []
  useRelativeIds : Bool := false

/-- The calls of the `PNReadContext` callbacks, with what a callback can see. -/
inductive PNReadEvent where
  | typeNumEntries (numTypes : Nat)
  | functionNumblocks (functionId numBbs : Nat)
  | functionInstruction (functionId numBbs numTypes : Nat) (instruction : Option PNInstruction)
  | constantsSettype (functionId typeId : Nat)
  | constantsValue (functionId : Nat) (constant : PNConstant)
deriving Repr, DecidableEq

/-- What the block readers share. -/
structure PNReadState where
  module : PNModule
  context : PNBlockInfoContext
  trace : List PNReadEvent

/-! ## Ids and numbers -/

/-- Subtraction of two `uint32_t`. -/
def subU32 (a b : Nat) : Nat := (a + 2 ^ 32 - b % 2 ^ 32) % 2 ^ 32

/-- An id of a record, which may be relative to `relId`. -/
def absoluteId (useRelativeIds : Bool) (relId id : Nat) : Nat := if useRelativeIds then subU32 relId id else id

/-- `(1 << n) >> 1` in a `PNAlignment`; `1 << 31` is negative, and the low half of `(1 << 31) >> 1` is zero. -/
def alignmentOf (n : Nat) : Except Stop Nat :=
  if 31 < n then .error (.undefined "shift by more than 31") else .ok (if n = 31 then 0 else 2 ^ n / 2 % 2 ^ 16)

/-! ## `pn_module.h` and `pn_function.h` -/

/-- `pn_type_id_check`; the argument is a `PNTypeId`. -/
def pnTypeIdCheck (module : PNModule) (typeId : Nat) : Except Stop Unit :=
  pnCheck (toTypeId typeId < module.types.length) "type_id < module->num_types"

/-- `module->types[type_id]`. -/
def PNModule.type (host : PNHost) (module : PNModule) (typeId : Nat) : PNType := module.types.getD typeId (host.type typeId)

/-- Is this an integer type of that width? -/
def PNType.isInteger (width : Nat) : PNType → Bool
  | .integer w _ => w = width
  | _ => false

/-- `pn_module_find_integer_type`. -/
def pnModuleFindIntegerType (module : PNModule) (width : Nat) : Except Stop Nat :=
  match module.types.findIdx? (PNType.isInteger width) with
  | some n => .ok (toTypeId n)
  | none => pnFatal "No integer type found of width %d." [width]

/-- `pn_module_find_pointer_type`. -/
def pnModuleFindPointerType (module : PNModule) : Except Stop Nat := pnModuleFindIntegerType module 32

/-- `pn_function_id_check`. -/
def pnFunctionIdCheck (module : PNModule) (functionId : Nat) : Except Stop Unit :=
  pnCheck (functionId < module.functions.length) "function_id < module->num_functions"

/-- `pn_module_value_id_check`. -/
def pnModuleValueIdCheck (module : PNModule) (valueId : Nat) : Except Stop Unit :=
  pnCheck (valueId < module.values.length) "value_id < module->num_values"

/-- `pn_module_append_value`, filled in. -/
def pnModuleAppendValue (module : PNModule) (value : PNValue) : PNModule := { module with values := module.values ++ [value] }

/-- `pn_function_num_values`: the id of the next value. -/
def pnFunctionNumValues (module : PNModule) (function : PNFunction) : Nat := module.values.length + function.values.length

/-- `pn_function_get_value`. -/
def pnFunctionGetValue (module : PNModule) (function : PNFunction) (valueId : Nat) : Except Stop PNValue :=
  match (module.values ++ function.values)[valueId]? with
  | some value => .ok value
  | none => pnFatal "accessing invalid value %d (max %d)\n" [valueId, pnFunctionNumValues module function]

/-- `pn_function_append_value`, filled in. -/
def pnFunctionAppendValue (function : PNFunction) (value : PNValue) : PNFunction :=
  { function with values := function.values ++ [value] }

/-- `pn_function_append_constant`, filled in. -/
def pnFunctionAppendConstant (function : PNFunction) (constant : PNConstant) : PNFunction :=
  { function with constants := function.constants ++ [constant] }

end Pnacl
