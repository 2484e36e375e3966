import Pnacl.InstructionRecords
import Pnacl.Opcodes
import Pnacl.PhiAssigns
import Pnacl.ResultTypes

/-!
# The reader

`pn_read.h`: the header, the module block and its subblocks. Every block reader is an instance of `PNBlockReader`; its
state is what the source keeps in locals and in the module. `fuel` bounds each loop.
-/

namespace Pnacl

open Lib

variable (host : PNHost) (dedupe : Bool) (fuel : Nat)

/-- A block ends at a word boundary. -/
def alignEnd {σ : Type} (s : σ) (bs : PNBitStream) : Except Stop (σ × PNBitStream) := do
  let bs ← pnBitstreamAlign32 bs
  .ok (s, bs)

/-- The record is finished. -/
def finish {σ : Type} (s : σ) (reader : PNRecordReader) : Except Stop (σ × PNBitStream) := do
  let bs ← pnRecordReaderFinish fuel reader
  .ok (s, bs)

/-- `default` of the `switch` over the record codes. -/
def badRecordCode {α : Type} (code : Nat) : Except Stop α := pnFatal "bad record code: %d.\n" [code]

/-! ## Block info -/

/-- The state of `pn_blockinfo_block_read`. -/
structure PNBlockinfoState where
  rs : PNReadState
  blockId : Nat

def pnBlockinfoBlock : PNBlockReader PNBlockinfoState where
  endBlock := alignEnd
  subblock _ _ := pnFatal "unexpected subblock in blockinfo_block\n" []
  defineAbbrev s ab := do
    let context ← pnBlockInfoContextAppendAbbrev s.rs.context s.blockId ab
    .ok { s with rs := { s.rs with context := context } }
  record s code reader :=
    match code with
    | 1 => do
      let (blockId, reader) ← pnRecordReadUint32 reader "block id"
      finish fuel { s with blockId := blockId } reader
    | 2 | 3 => finish fuel s reader
    | code => badRecordCode code

/-- `pn_blockinfo_block_read`. -/
def pnBlockinfoBlockRead (rs : PNReadState) (bs : PNBitStream) : Except Stop (PNReadState × PNBitStream) := do
  let (s, bs) ← readBlock host (pnBlockinfoBlock fuel) fuel ⟨rs, 2 ^ 32 - 1⟩ [] bs
  .ok (s.rs, bs)

/-! ## Types -/

/-- The state of `pn_type_block_read`. -/
structure PNTypeState where
  rs : PNReadState
  currentTypeId : Nat

/-- `PN_CHECK` in front of every type. -/
def PNTypeState.check (s : PNTypeState) : Except Stop Unit :=
  pnCheck (s.currentTypeId < s.rs.module.types.length) "current_type_id < module->num_types"

/-- The next type is filled in. -/
def PNTypeState.fill (s : PNTypeState) (type : PNType) : PNTypeState where
  rs := { s.rs with module := { s.rs.module with types := s.rs.module.types.set s.currentTypeId type } }
  currentTypeId := toTypeId (s.currentTypeId + 1)

/-- The basic type of an integer type. -/
def basicTypeOfWidth (width : Nat) : Except Stop PNBasicType :=
  match width with
  | 1 => .ok .int1
  | 8 => .ok .int8
  | 16 => .ok .int16
  | 32 => .ok .int32
  | 64 => .ok .int64
  | width => pnFatal "Bad integer width: %d\n" [Int.bmod width (2 ^ 32)]

/-- The argument types of a function type. -/
def readArgTypes (module : PNModule) : Nat → PNRecordReader → List Nat → Except Stop (List Nat × PNRecordReader)
  | 0, reader, args => .ok (args, reader)
  | n + 1, reader, args => do
    let (typeId, reader) ← pnRecordReadUint16 reader "arg type"
    pnTypeIdCheck module typeId
    readArgTypes module n reader (args ++ [typeId])

def pnTypeBlock : PNBlockReader PNTypeState where
  endBlock s bs := do
    pnCheck (s.currentTypeId = s.rs.module.types.length) "current_type_id == module->num_types"
    alignEnd s bs
  subblock _ _ := pnFatal "unexpected subblock in type_block\n" []
  defineAbbrev s _ := .ok s
  record s code reader :=
    match code with
    | 1 => do
      let (numTypes, reader) ← pnRecordReadUint32 reader "num types"
      finish fuel { s with rs := { s.rs with
        module := { s.rs.module with types := List.replicate numTypes .unset }
        trace := s.rs.trace ++ [.typeNumEntries numTypes] } } reader
    | 2 => do
      s.check
      finish fuel (s.fill .void) reader
    | 3 => do
      s.check
      finish fuel (s.fill .float) reader
    | 4 => do
      s.check
      finish fuel (s.fill .double) reader
    | 7 => do
      s.check
      let (width, reader) ← pnRecordReadUint32 reader "width"
      let basicType ← basicTypeOfWidth width
      finish fuel (s.fill (.integer width basicType)) reader
    | 21 => do
      s.check
      let (isVarargs, reader) ← pnRecordReadUint32 reader "is_varargs"
      let (returnType, reader) ← pnRecordReadUint32 reader "return_type"
      pnTypeIdCheck s.rs.module returnType
      let (numArgs, reader) ← pnRecordNumValuesLeft fuel reader
      let (argTypes, reader) ← readArgTypes s.rs.module numArgs reader []
      finish fuel (s.fill (.function (isVarargs % 2 ^ 8) (toTypeId returnType) argTypes)) reader
    | code => badRecordCode code

/-- `pn_type_block_read`. -/
def pnTypeBlockRead (rs : PNReadState) (bs : PNBitStream) : Except Stop (PNReadState × PNBitStream) := do
  let (s, bs) ← readBlock host (pnTypeBlock fuel) fuel ⟨rs, 0⟩ (rs.context.blockAbbrevMap 17) bs
  .ok (s.rs, bs)

/-! ## Global variables -/

/-- `pn_function_id_to_pointer`. -/
def pnFunctionIdToPointer (functionId : Nat) : Nat := (functionId + PN_MAX_BUILTINS) * 4 % 2 ^ 32

/-- `PNRelocInfo`. -/
structure PNRelocInfo where
  offset : Nat
  index : Nat
  addend : Nat

/-- The state of `pn_globalvar_block_read`. `globalVar` is what the pointer `global_var` points to, and `index` its place in
`module->global_vars`; it has none once a COUNT record has replaced the array. -/
structure PNGlobalvarState where
  rs : PNReadState
  globalVar : Option PNGlobalVar
  index : Option Nat
  numGlobalVars : Nat
  initializerId : Nat
  dataOffset : Nat
  relocInfos : List PNRelocInfo

def PNGlobalvarState.setModule (s : PNGlobalvarState) (module : PNModule) : PNGlobalvarState :=
  { s with rs := { s.rs with module := module } }

/-- Store `*global_var`. -/
def PNGlobalvarState.setVar (s : PNGlobalvarState) (var : PNGlobalVar) : PNGlobalvarState :=
  let module := s.rs.module
  let globalVars := match s.index with
    | some index => module.globalVars.set index (some var)
    | none => module.globalVars
  { s.setModule { module with globalVars := globalVars } with globalVar := some var }

/-- The number of the enumerator. -/
def PNValueCode.toNat : PNValueCode → Nat
  | .function _ => 0 | .globalVar _ => 1 | .constant _ => 2 | .functionArg _ => 3 | .localVar => 4

/-- `pn_globalvar_write_reloc`; `value_id` is below `num_values`. -/
def pnGlobalvarWriteReloc (module : PNModule) (valueId offset addend : Nat) : Except Stop PNModule :=
  match (module.values.getD valueId ⟨.localVar, 0⟩).code with
  | .globalVar index =>
    match module.globalVars[index]? with
    | some (some var) => do
      let memory ← pnMemoryWrite module.memory 4 offset ((var.offset + addend) % 2 ^ 32)
      .ok { module with memory := memory }
    | _ => .error (.undefined "global variable that is not set")
  | .function index => do
    pnCheck (addend = 0) "addend == 0"
    let memory ← pnMemoryWrite module.memory 4 offset (pnFunctionIdToPointer index)
    .ok { module with memory := memory }
  | code => pnFatal "Unexpected globalvar reloc. code: %d\n" [code.toNat]

/-- The relocations that were left for the end of the block. -/
def writeRelocs (module : PNModule) : List PNRelocInfo → Except Stop PNModule
  | [] => .ok module
  | r :: rest => do
    pnCheck (r.index < module.values.length) "reloc_infos[i].index < module->num_values"
    let module ← pnGlobalvarWriteReloc module r.index r.offset r.addend
    writeRelocs module rest

/-- The next initializer of the current variable. -/
def PNGlobalvarState.nextInitializer (s : PNGlobalvarState) : Except Stop PNGlobalvarState :=
  match s.globalVar with
  | none => .error (.check "global_var")
  | some var => do
    pnCheck (s.initializerId < var.numInitializers) "initializer_id < global_var->num_initializers"
    .ok { s with initializerId := (s.initializerId + 1) % 2 ^ 32 }

/-- The loop of DATA. -/
def readData : Nat → PNRecordReader → PNMemory → Nat → Except Stop (PNMemory × Nat × PNRecordReader)
  | 0, _, _, _ => .error .fuel
  | fuel + 1, reader, memory, dataOffset => do
    let (value, reader) ← pnRecordTryReadUint32 reader
    match value with
    | none => .ok (memory, dataOffset, reader)
    | some value =>
      if 256 ≤ value then pnFatal "globalvar data out of range: %d\n" [Int.bmod value (2 ^ 32)]
      else if memory.size < (dataOffset + 1) % 2 ^ 32 then
        pnFatal "memory-size is too small (%u < %u).\n" [memory.size, ((dataOffset + 1) % 2 ^ 32 : Nat)]
      else
        let memory := { memory with data := storeBytes memory.data dataOffset 1 value }
        readData fuel reader memory ((dataOffset + 1) % 2 ^ 32)

/-- VAR: a new variable, and its value. -/
def readVar (s : PNGlobalvarState) (reader : PNRecordReader) : Except Stop (PNGlobalvarState × PNRecordReader) := do
  let module := s.rs.module
  let id := module.numGlobalVars
  pnCheck (id < s.numGlobalVars) "global_var_id < num_global_vars"
  let (n, reader) ← pnRecordReadUint32 reader "alignment"
  let alignment ← alignmentOf n
  let (isConstant, reader) ← pnRecordReadUint32 reader "is_constant"
  pnCheck (pnIsPowerOfTwo alignment) "pn_is_power_of_two(global_var->alignment)"
  let dataOffset := pnAlignUp s.dataOffset alignment
  let typeId ← pnModuleFindPointerType module
  let module := pnModuleAppendValue { module with numGlobalVars := id + 1 } ⟨.globalVar id, typeId⟩
  let s := { s.setModule module with index := some id, dataOffset := dataOffset, initializerId := 0 }
  .ok (s.setVar ⟨1, alignment, dataOffset, isConstant ≠ 0⟩, reader)

/-- RELOC: written at once if the value is known. -/
def readReloc (s : PNGlobalvarState) (reader : PNRecordReader) : Except Stop (PNGlobalvarState × PNRecordReader) := do
  let s ← s.nextInitializer
  let (index, reader) ← pnRecordReadUint32 reader "reloc index"
  let (addend, reader) ← pnRecordTryReadUint32 reader
  let addend := addend.getD 0
  let next := { s with dataOffset := (s.dataOffset + 4) % 2 ^ 32 }
  if index < s.rs.module.values.length then do
    let module ← pnGlobalvarWriteReloc s.rs.module index s.dataOffset addend
    .ok (next.setModule module, reader)
  else .ok ({ next with relocInfos := s.relocInfos ++ [⟨s.dataOffset, index, addend⟩] }, reader)

def pnGlobalvarBlock : PNBlockReader PNGlobalvarState where
  endBlock s bs := do
    let bs ← pnBitstreamAlign32 bs
    let module ← writeRelocs s.rs.module s.relocInfos
    .ok (s.setModule { module with globalvarEnd := s.dataOffset }, bs)
  subblock _ _ := pnFatal "unexpected subblock in globalvar_block\n" []
  defineAbbrev s _ := .ok s
  record s code reader :=
    match code with
    | 0 => do
      let (s, reader) ← readVar s reader
      finish fuel s reader
    | 1 =>
      match s.globalVar with
      | none => .error (.check "global_var")
      | some var => do
        let (numInitializers, reader) ← pnRecordReadUint32 reader "num_initializers"
        finish fuel (s.setVar { var with numInitializers := numInitializers }) reader
    | 2 => do
      let s ← s.nextInitializer
      let (numBytes, reader) ← pnRecordReadUint32 reader "num_bytes"
      let memory := s.rs.module.memory
      pnMemoryCheck memory s.dataOffset numBytes
      let memory := { memory with data := fillBytes memory.data s.dataOffset 0 numBytes }
      finish fuel { s.setModule { s.rs.module with memory := memory } with
        dataOffset := (s.dataOffset + numBytes) % 2 ^ 32 } reader
    | 3 => do
      let s ← s.nextInitializer
      let (memory, dataOffset, reader) ← readData fuel reader s.rs.module.memory s.dataOffset
      finish fuel { s.setModule { s.rs.module with memory := memory } with dataOffset := dataOffset } reader
    | 4 => do
      let (s, reader) ← readReloc s reader
      finish fuel s reader
    | 5 => do
      let (count, reader) ← pnRecordReadUint32 reader "global var count"
      let module := { s.rs.module with globalVars := List.replicate count none }
      finish fuel { s.setModule module with numGlobalVars := count, index := none } reader
    | code => badRecordCode code

/-- `pn_globalvar_block_read`. -/
def pnGlobalvarBlockRead (rs : PNReadState) (bs : PNBitStream) : Except Stop (PNReadState × PNBitStream) := do
  let rs := { rs with module := { rs.module with globalvarStart := PN_MEMORY_GUARD_SIZE } }
  let (s, bs) ← readBlock host (pnGlobalvarBlock fuel) fuel ⟨rs, none, none, 0, 0, PN_MEMORY_GUARD_SIZE, []⟩
    (rs.context.blockAbbrevMap 19) bs
  .ok (s.rs, bs)

/-! ## Symbols -/

/-- `name[i] = pn_record_read_int32(&reader, "name char")`. -/
def readName : Nat → PNRecordReader → List Nat → Except Stop (List Nat × PNRecordReader)
  | 0, reader, name => .ok (name, reader)
  | n + 1, reader, name => do
    let (c, reader) ← pnRecordReadUint32 reader "name char"
    readName n reader (name ++ [c % 2 ^ 8])

/-- `strcmp(name, i_name) == 0` for each intrinsic: the first that matches. -/
def findIntrinsic (name : List Nat) : Option PNIntrinsicId :=
  (pnIntrinsics.find? fun i => name.takeWhile (· ≠ 0) = i.2.toList.map Char.toNat).map Prod.fst

/-- The name of a function, which may be that of an intrinsic. -/
def nameFunction (module : PNModule) (functionId : Nat) (name : Option (List Nat)) : Except Stop PNModule :=
  match name with
  | none => .error (.undefined "strcmp of a null pointer")
  | some name =>
    match findIntrinsic name with
    | some id => .ok { module with
        functions := module.functions.modify functionId fun f => { f with name := some name, intrinsicId := id }
        knownFunctions := fun i => if i = id then functionId else module.knownFunctions i }
    | none => .ok { module with
        functions := module.functions.modify functionId fun f => { f with name := some name } }

/-- ENTRY of a symbol table. -/
def readSymbol (module : PNModule) (reader : PNRecordReader) : Except Stop (PNModule × PNRecordReader) := do
  let (valueId, reader) ← pnRecordReadUint32 reader "value_id"
  pnModuleValueIdCheck module valueId
  let (len, reader) ← pnRecordNumValuesLeft fuel reader
  let (name, reader) ← readName len reader []
  let name := if len = 0 then none else some name
  match (module.values.getD valueId ⟨.localVar, 0⟩).code with
  | .function index => do
    let module ← nameFunction module index name
    .ok (module, reader)
  | _ => .ok (module, reader)

def pnValueSymtabBlock : PNBlockReader PNReadState where
  endBlock := alignEnd
  subblock _ _ := pnFatal "unexpected subblock in valuesymtab_block\n" []
  defineAbbrev s _ := .ok s
  record s code reader :=
    match code with
    | 1 => do
      let (module, reader) ← readSymbol fuel s.module reader
      finish fuel { s with module := module } reader
    | 2 => finish fuel s reader
    | code => badRecordCode code

/-- `pn_value_symtab_block_read`. -/
def pnValueSymtabBlockRead (rs : PNReadState) (bs : PNBitStream) : Except Stop (PNReadState × PNBitStream) :=
  readBlock host (pnValueSymtabBlock fuel) fuel rs (rs.context.blockAbbrevMap 14) bs

/-! ## Constants -/

/-- The state of `pn_constants_block_read`. -/
structure PNConstantsState where
  rs : PNReadState
  functionId : Nat
  function : PNFunction
  curTypeId : Nat
  curBasicType : PNBasicType

/-- A constant and its value. -/
def PNConstantsState.append (s : PNConstantsState) (code : PNConstantCode) (value : Option Nat) : PNConstantsState :=
  let constant : PNConstant := ⟨code, s.curTypeId, s.curBasicType, value⟩
  -- the index is a `PNConstantId`
  let id := s.function.constants.length % 2 ^ 16
  { s with
    function := pnFunctionAppendValue (pnFunctionAppendConstant s.function constant) ⟨.constant id, s.curTypeId⟩
    rs := { s.rs with trace := s.rs.trace ++ [.constantsValue s.functionId constant] } }

/-- The value of an INTEGER constant. -/
def readIntegerConstant (basicType : PNBasicType) (reader : PNRecordReader) : Except Stop (Nat × PNRecordReader) :=
  match basicType with
  | .int1 => do
    let (data, reader) ← pnRecordReadDecodedInt32 reader "integer value"
    .ok ((data % 2).toNat, reader)
  | .int8 => do
    let (data, reader) ← pnRecordReadDecodedInt32 reader "integer value"
    .ok ((data % 2 ^ 8).toNat, reader)
  | .int16 => do
    let (data, reader) ← pnRecordReadDecodedInt32 reader "integer value"
    .ok ((data % 2 ^ 16).toNat, reader)
  | .int32 => do
    let (data, reader) ← pnRecordReadDecodedInt32 reader "integer value"
    .ok ((data % 2 ^ 32).toNat, reader)
  | .int64 => do
    let (data, reader) ← pnRecordReadDecodedInt64 reader "integer64 value"
    .ok ((data % 2 ^ 64).toNat, reader)
  | .void | .float | .double => .error .unreachable

/-- The bits of a FLOAT constant. -/
def readFloatConstant (basicType : PNBasicType) (reader : PNRecordReader) : Except Stop (Nat × PNRecordReader) :=
  match basicType with
  | .float => pnRecordReadUint32 reader "float value"
  | .double => pnRecordReadUint64 reader "double value"
  | .void | .int1 | .int8 | .int16 | .int32 | .int64 => .error .unreachable

def pnConstantsBlock : PNBlockReader PNConstantsState where
  endBlock := alignEnd
  subblock _ _ := pnFatal "unexpected subblock in constants_block\n" []
  defineAbbrev s _ := .ok s
  record s code reader :=
    match code with
    | 1 => do
      let (typeId, reader) ← pnRecordReadUint32 reader "current type"
      pnTypeIdCheck s.rs.module typeId
      let typeId := toTypeId typeId
      finish fuel { s with
        curTypeId := typeId
        curBasicType := (s.rs.module.type host typeId).basicType
        rs := { s.rs with trace := s.rs.trace ++ [.constantsSettype s.functionId typeId] } } reader
    | 3 => finish fuel (s.append .undef none) reader
    | 4 => do
      let (value, reader) ← readIntegerConstant s.curBasicType reader
      finish fuel (s.append .integer (some value)) reader
    | 6 => do
      let (value, reader) ← readFloatConstant s.curBasicType reader
      finish fuel (s.append .float (some value)) reader
    | code => badRecordCode code

/-- `pn_constants_block_read`. -/
def pnConstantsBlockRead (rs : PNReadState) (functionId : Nat) (function : PNFunction) (bs : PNBitStream) :
    Except Stop (PNReadState × PNFunction × PNBitStream) := do
  let (s, bs) ← readBlock host (pnConstantsBlock host fuel) fuel ⟨rs, functionId, function, PN_INVALID_TYPE_ID, .void⟩
    (rs.context.blockAbbrevMap 11) bs
  .ok (s.rs, s.function, bs)

/-! ## Functions -/

/-- The state of `pn_function_block_read`. `function` is kept outside the module while its body is read. `curBb` is the
index of the block that `cur_bb` points to; it has none once a DECLAREBLOCKS record has replaced the array. -/
structure PNFunctionState where
  rs : PNReadState
  functionId : Nat
  function : PNFunction
  numBbs : Nat
  prevBbId : Nat
  curBbId : Nat
  curBb : Option Nat

/-- The function as it is in the module. -/
def PNFunctionState.store (s : PNFunctionState) : PNReadState :=
  { s.rs with module := { s.rs.module with functions := s.rs.module.functions.set s.functionId s.function } }

/-- Take the function out of the module again. -/
def PNFunctionState.load (s : PNFunctionState) (rs : PNReadState) : PNFunctionState :=
  { s with rs := rs, function := rs.module.functions.getD s.functionId s.function }

/-- The passes at the end of a function. -/
def pnFunctionPasses (module : PNModule) (functionId : Nat) (function : PNFunction) : Except Stop PNFunction := do
  let function ← pnFunctionCalculateResultValueTypes host module function
  let function := pnFunctionCalculateUses function
  let function ← pnFunctionCalculatePhiAssigns function
  pnFunctionCalculateOpcodes host module function (host.instructions functionId)

/-- DECLAREBLOCKS; the record is not finished. -/
def readDeclareblocks (s : PNFunctionState) (reader : PNRecordReader) : Except Stop (PNFunctionState × PNBitStream) := do
  let (numBbs, reader) ← pnRecordReadUint32 reader "num basic blocks"
  .ok ({ s with
    function := { s.function with bbs := List.replicate numBbs {} }
    curBb := none
    rs := { s.rs with trace := s.rs.trace ++ [.functionNumblocks s.functionId numBbs] } }, reader.bs)

/-- Begin the next block, if the last instruction ended one. -/
def PNFunctionState.beginBb (s : PNFunctionState) : Except Stop PNFunctionState :=
  if s.prevBbId ≠ s.curBbId then do
    pnCheck (s.curBbId < s.function.bbs.length) "cur_bb_id < function->num_bbs"
    .ok { s with prevBbId := s.curBbId, curBb := some s.curBbId, numBbs := s.numBbs + 1 }
  else .ok s

/-- `pn_basic_block_append_instruction`. -/
def PNBasicBlock.append (bb : PNBasicBlock) (inst : PNInstruction) : PNBasicBlock :=
  { bb with instructions := bb.instructions ++ [inst] }

/-- The instruction is appended to the current block and its value to the function. -/
def PNFunction.append (function : PNFunction) (curBb : Option Nat) (inst : PNInstruction) (value : Option PNValue) :
    PNFunction :=
  { function with
    bbs := match curBb with
      | some n => function.bbs.modify n (·.append inst)
      | none => function.bbs
    values := function.values ++ value.toList
    numInstructions := function.numInstructions + 1 }

/-- The instruction that `function_instruction` is called with: RET does not set the pointer. -/
def PNInstruction.forCallback : PNInstruction → Option PNInstruction
  | .ret _ => none
  | inst => some inst

/-- An instruction is done: the callback, and the next block behind a terminator. -/
def PNFunctionState.append (s : PNFunctionState) (inst : PNInstruction) (value : Option PNValue) : PNFunctionState :=
  { s with
    function := s.function.append s.curBb inst value
    curBbId := if inst.isTerminator then toBbId (s.curBbId + 1) else s.curBbId
    rs := { s.rs with trace := s.rs.trace ++ [.functionInstruction s.functionId s.function.bbs.length
      s.rs.module.types.length inst.forCallback] } }

def pnFunctionBlock : PNBlockReader PNFunctionState where
  endBlock s bs := do
    pnCheck (s.numBbs = s.function.bbs.length) "num_bbs == function->num_bbs"
    let function ← pnFunctionPasses host s.rs.module s.functionId s.function
    alignEnd { s with function := function } bs
  subblock s bs := do
    let (id, bs) ← pnBitstreamReadVbr bs 8
    match id with
    | 11 => do
      let (rs, function, bs) ← pnConstantsBlockRead host fuel s.rs s.functionId s.function bs
      .ok ({ s with rs := rs, function := function }, bs)
    | 14 => do
      let (rs, bs) ← pnValueSymtabBlockRead host fuel s.store bs
      .ok (s.load rs, bs)
    | id => pnFatal "bad block id %d\n" [Int.bmod id (2 ^ 32)]
  defineAbbrev s _ := .ok s
  record s code reader :=
    if code = PN_FUNCTION_CODE_DECLAREBLOCKS then readDeclareblocks s reader
    else do
      let relId := pnFunctionNumValues s.rs.module s.function
      let s ← s.beginBb
      let r ← readInstruction host dedupe fuel s.rs.module s.rs.context.useRelativeIds relId code reader
      finish fuel (s.append r.instruction r.value) r.reader

/-- The arguments are the first values of a function. -/
def appendArgs (function : PNFunction) (argTypes : List Nat) : PNFunction :=
  { function with values := function.values ++ argTypes.zipIdx.map fun (typeId, i) => ⟨.functionArg i, typeId⟩ }

/-- `pn_function_block_read`. -/
def pnFunctionBlockRead (rs : PNReadState) (functionId : Nat) (bs : PNBitStream) :
    Except Stop (PNReadState × PNBitStream) :=
  match rs.module.functions[functionId]? with
  | none => .error (.undefined "functions out of range")
  | some function =>
    match rs.module.type host function.typeId with
    | .function _ _ argTypes => do
      cAssert (argTypes.length = function.numArgs) "type->num_args == function->num_args"
      let (s, bs) ← readBlock host (pnFunctionBlock host dedupe fuel) fuel
        ⟨rs, functionId, appendArgs function argTypes, 0, 2 ^ 16 - 1, 0, none⟩ (rs.context.blockAbbrevMap 12) bs
      .ok (s.store, bs)
    | _ => .error (.assert "type->code == PN_TYPE_CODE_FUNCTION")

/-! ## The module -/

/-- The state of `pn_module_block_read`. -/
structure PNModuleState where
  rs : PNReadState
  functionId : Nat

/-- The next function that has a body. -/
def skipProtos (functions : List PNFunction) (functionId : Nat) : Nat :=
  functionId + ((functions.drop functionId).takeWhile PNFunction.isProto).length

/-- The FUNCTION record of the module. -/
def readFunction (rs : PNReadState) (reader : PNRecordReader) : Except Stop (PNReadState × PNRecordReader) := do
  let module := rs.module
  let (typeId, reader) ← pnRecordReadUint32 reader "type_id"
  pnTypeIdCheck module typeId
  let typeId := toTypeId typeId
  let (callingConvention, reader) ← pnRecordReadUint32 reader "calling_convention"
  let (isProto, reader) ← pnRecordReadUint32 reader "is_proto"
  let (linkage, reader) ← pnRecordReadUint32 reader "linkage"
  match module.type host typeId with
  | .function _ _ argTypes =>
    let function : PNFunction := {
      name := none
      typeId := typeId
      intrinsicId := .null
      numArgs := argTypes.length
      callingConvention := callingConvention
      isProto := isProto % 2 ^ 8 ≠ 0
      linkage := linkage
      constants := []
      bbs := []
      values := []
      numInstructions := 0
      instructions := none }
    let value : PNValue := ⟨.function module.functions.length, typeId⟩
    .ok ({ rs with module := pnModuleAppendValue { module with functions := module.functions ++ [function] } value },
      reader)
  | _ => .error (.check "function_type->code == PN_TYPE_CODE_FUNCTION")

def pnModuleBlock : PNBlockReader PNModuleState where
  endBlock := alignEnd
  subblock s bs := do
    let (id, bs) ← pnBitstreamReadVbr bs 8
    match id with
    | 0 => do
      let (rs, bs) ← pnBlockinfoBlockRead host fuel s.rs bs
      .ok ({ s with rs := rs }, bs)
    | 17 => do
      let (rs, bs) ← pnTypeBlockRead host fuel s.rs bs
      .ok ({ s with rs := rs }, bs)
    | 19 => do
      let (rs, bs) ← pnGlobalvarBlockRead host fuel s.rs bs
      .ok ({ s with rs := rs }, bs)
    | 14 => do
      let (rs, bs) ← pnValueSymtabBlockRead host fuel s.rs bs
      .ok ({ s with rs := rs }, bs)
    | 12 => do
      let functionId := skipProtos s.rs.module.functions s.functionId
      pnFunctionIdCheck s.rs.module functionId
      let (rs, bs) ← pnFunctionBlockRead host dedupe fuel s.rs functionId bs
      .ok (⟨rs, functionId + 1⟩, bs)
    | id => pnFatal "bad block id %d\n" [Int.bmod id (2 ^ 32)]
  defineAbbrev s _ := .ok s
  record s code reader :=
    match code with
    | 1 => do
      let (version, reader) ← pnRecordReadUint32 reader "module version"
      finish fuel { s with rs := { s.rs with
        module := { s.rs.module with version := version }
        context := { s.rs.context with useRelativeIds := version = 1 } } } reader
    | 8 => do
      let (rs, reader) ← readFunction host s.rs reader
      finish fuel { s with rs := rs } reader
    | code => badRecordCode code

/-- The signature. -/
def readSignature : List Char → PNBitStream → Except Stop PNBitStream
  | [], bs => .ok bs
  | c :: rest, bs => do
    let (v, bs) ← pnBitstreamRead bs 8
    if v ≠ c.toNat then pnFatal "Expected '%c'\n" [c.toNat] else readSignature rest bs

/-- The header fields. -/
def readHeaderFields : Nat → PNBitStream → Except Stop PNBitStream
  | 0, bs => .ok bs
  | n + 1, bs => do
    let (ftype, bs) ← pnBitstreamRead bs 4
    let (id, bs) ← pnBitstreamRead bs 4
    if id ≠ 1 then pnFatal "bad header id: %d\n" [id]
    else do
      let (_, bs) ← pnBitstreamRead bs 8
      let (length, bs) ← pnBitstreamRead bs 16
      match ftype with
      | 0 => do
        let bs ← pnBitstreamSkipBytes bs length
        readHeaderFields n bs
      | 1 => do
        let (_, bs) ← pnBitstreamRead bs 32
        readHeaderFields n bs
      | ftype => pnFatal "bad ftype %d\n" [ftype]

/-- `pn_header_read`. -/
def pnHeaderRead (bs : PNBitStream) : Except Stop PNBitStream := do
  let bs ← readSignature ['P', 'E', 'X', 'E'] bs
  let (numFields, bs) ← pnBitstreamRead bs 16
  let (_, bs) ← pnBitstreamRead bs 16
  readHeaderFields numFields bs

/-- `pn_module_read`, with the calls of the callbacks. -/
def pnModuleRead (module : PNModule) (bs : PNBitStream) : Except Stop (PNReadState × PNBitStream) := do
  let bs ← pnHeaderRead bs
  let (entry, bs) ← pnBitstreamRead bs 2
  if entry ≠ pnEntrySubblock then pnFatal "expected subblock at top-level\n" []
  else do
    let (blockId, bs) ← pnBitstreamReadVbr bs 8
    pnCheck (blockId = 8) "block_id == PN_BLOCKID_MODULE"
    let (s, bs) ← readBlock host (pnModuleBlock host dedupe fuel) fuel ⟨⟨module, {}, []⟩, 0⟩ [] bs
    .ok (s.rs, bs)

/-- Read these bytes. -/
def readFile (bytes : List UInt8) : Except Stop (PNReadState × PNBitStream) :=
  pnModuleRead zeroHost true bytes.length (pnModuleInit ⟨fun _ => 0, 2 ^ 16⟩)
    (pnBitstreamInit (fun i => bytes.getD i 0) bytes.length)

end Pnacl
