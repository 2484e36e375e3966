import Pnacl.Module

/-!
# Opcodes and the instruction stream

`pn_calculate_opcodes.h`: every instruction gets an opcode that is specialised for the basic types of its operands, and
is written into the instruction stream of its function. A first pass measures the blocks, a second one writes them; the
targets of branches and phi assigns become addresses in the stream.
-/

namespace Pnacl

open Lib

/-! ## Opcode tables -/

/-- The number of the enumerator. -/
def PNBasicType.toNat : PNBasicType → Nat
  | .void => 0 | .int1 => 1 | .int8 => 2 | .int16 => 3 | .int32 => 4 | .int64 => 5 | .float => 6 | .double => 7

/-- The enumerator of `PNBinOp` with this number. -/
def PNBinOp.ofNat? (n : Nat) : Option PNBinOp :=
  [.add, .sub, .mul, .udiv, .sdiv, .urem, .srem, .shl, .lshr, .ashr, .and, .or, .xor][n]?

/-- The name in messages. -/
def PNBinOp.name : PNBinOp → String
  | .add => "BINOP_ADD" | .sub => "BINOP_SUB" | .mul => "BINOP_MUL" | .udiv => "BINOP_UDIV" | .sdiv => "BINOP_SDIV"
  | .urem => "BINOP_UREM" | .srem => "BINOP_SREM" | .shl => "BINOP_SHL" | .lshr => "BINOP_LSHR" | .ashr => "BINOP_ASHR"
  | .and => "BINOP_AND" | .or => "BINOP_OR" | .xor => "BINOP_XOR"

/-- The basic types for which there is an opcode. -/
def PNBinOp.types : PNBinOp → List PNBasicType
  | .add | .sub | .mul => [.double, .float, .int8, .int16, .int32, .int64]
  | .udiv | .urem | .shl | .lshr | .ashr => [.int8, .int16, .int32, .int64]
  | .sdiv => [.double, .float, .int32, .int64]
  | .srem => [.int32, .int64]
  | .and | .or | .xor => [.int1, .int8, .int16, .int32, .int64]

/-- The enumerator of `PNCast` with this number. -/
def PNCast.ofNat? : Nat → Option PNCast
  | 0 => some .trunc | 1 => some .zext | 2 => some .sext | 3 => some .fptoui | 4 => some .fptosi | 5 => some .uitofp
  | 6 => some .sitofp | 7 => some .fptrunc | 8 => some .fpext | 11 => some .bitcast | _ => none

/-- The name in messages. -/
def PNCast.name : PNCast → String
  | .trunc => "CAST_TRUNC" | .zext => "CAST_ZEXT" | .sext => "CAST_SEXT" | .fptoui => "CAST_FPTOUI"
  | .fptosi => "CAST_FPTOSI" | .uitofp => "CAST_UITOFP" | .sitofp => "CAST_SITOFP" | .fptrunc => "CAST_FPTRUNC"
  | .fpext => "CAST_FPEXT" | .bitcast => "CAST_BITCAST"

/-- The pairs of basic types for which there is an opcode. -/
def PNCast.types : PNCast → List (PNBasicType × PNBasicType)
  | .trunc => [(.int8, .int1), (.int16, .int1), (.int16, .int8), (.int32, .int1), (.int32, .int8), (.int32, .int16),
      (.int64, .int8), (.int64, .int16), (.int64, .int32)]
  | .zext | .sext => [(.int1, .int8), (.int1, .int16), (.int1, .int32), (.int1, .int64), (.int8, .int16),
      (.int8, .int32), (.int8, .int64), (.int16, .int32), (.int16, .int64), (.int32, .int64)]
  | .fptoui | .fptosi => [(.double, .int8), (.double, .int16), (.double, .int32), (.double, .int64), (.float, .int8),
      (.float, .int16), (.float, .int32), (.float, .int64)]
  | .uitofp | .sitofp => [(.int8, .double), (.int8, .float), (.int16, .double), (.int16, .float), (.int32, .double),
      (.int32, .float), (.int64, .double), (.int64, .float)]
  | .fptrunc => [(.double, .float)]
  | .fpext => [(.float, .double)]
  | .bitcast => [(.double, .int64), (.float, .int32), (.int32, .float), (.int64, .double)]

/-- The enumerator of `PNCmp2` with this number. -/
def PNCmp2.ofNat? (n : Nat) : Option PNCmp2 :=
  if n < 32 then
    [.fcmpFalse, .fcmpOeq, .fcmpOgt, .fcmpOge, .fcmpOlt, .fcmpOle, .fcmpOne, .fcmpOrd, .fcmpUno, .fcmpUeq, .fcmpUgt,
      .fcmpUge, .fcmpUlt, .fcmpUle, .fcmpUne, .fcmpTrue][n]?
  else [.icmpEq, .icmpNe, .icmpUgt, .icmpUge, .icmpUlt, .icmpUle, .icmpSgt, .icmpSge, .icmpSlt, .icmpSle][n - 32]?

/-- The name in messages. -/
def PNCmp2.name : PNCmp2 → String
  | .fcmpFalse => "FCMP_FALSE" | .fcmpOeq => "FCMP_OEQ" | .fcmpOgt => "FCMP_OGT" | .fcmpOge => "FCMP_OGE"
  | .fcmpOlt => "FCMP_OLT" | .fcmpOle => "FCMP_OLE" | .fcmpOne => "FCMP_ONE" | .fcmpOrd => "FCMP_ORD"
  | .fcmpUno => "FCMP_UNO" | .fcmpUeq => "FCMP_UEQ" | .fcmpUgt => "FCMP_UGT" | .fcmpUge => "FCMP_UGE"
  | .fcmpUlt => "FCMP_ULT" | .fcmpUle => "FCMP_ULE" | .fcmpUne => "FCMP_UNE" | .fcmpTrue => "FCMP_TRUE"
  | .icmpEq => "ICMP_EQ" | .icmpNe => "ICMP_NE" | .icmpUgt => "ICMP_UGT" | .icmpUge => "ICMP_UGE"
  | .icmpUlt => "ICMP_ULT" | .icmpUle => "ICMP_ULE" | .icmpSgt => "ICMP_SGT" | .icmpSge => "ICMP_SGE"
  | .icmpSlt => "ICMP_SLT" | .icmpSle => "ICMP_SLE"

/-- The basic types for which there is an opcode. -/
def PNCmp2.types : PNCmp2 → List PNBasicType
  | .fcmpFalse | .fcmpTrue => []
  | .fcmpOeq | .fcmpOgt | .fcmpOge | .fcmpOlt | .fcmpOle | .fcmpOne | .fcmpOrd | .fcmpUno | .fcmpUeq | .fcmpUgt
  | .fcmpUge | .fcmpUlt | .fcmpUle | .fcmpUne => [.double, .float]
  | .icmpEq | .icmpNe | .icmpUgt | .icmpUge | .icmpUlt | .icmpUle | .icmpSgt | .icmpSge | .icmpSlt | .icmpSle =>
    [.int8, .int16, .int32, .int64]

/-- `PN_IF_TYPE` for each of the types, then `PN_END_IF_TYPE`. -/
def ifType (name : String) (types : List PNBasicType) (type0 : PNBasicType) (opcode : PNBasicType → PNOpcode) :
    Except Stop PNOpcode :=
  if type0 ∈ types then .ok (opcode type0) else pnFatal s!"PN_{name} with basic type %d unsupported:\n" [type0.toNat]

theorem ifType_eq_ok {name : String} {types : List PNBasicType} {t : PNBasicType} {opcode : PNBasicType → PNOpcode} {r : PNOpcode}
    (h : ifType name types t opcode = .ok r) : t ∈ types ∧ r = opcode t := by
  unfold ifType at h
  split at h
  · exact ⟨‹_›, (Except.ok.inj h).symm⟩
  · cases h

/-- The opcode of a BINOP; it is not stored if the operator is unknown. -/
def binopOpcode (n : Nat) (type0 : PNBasicType) : Except Stop (Option PNOpcode) :=
  match PNBinOp.ofNat? n with
  | some op => do
    let opcode ← ifType op.name op.types type0 (.binop op)
    .ok (some opcode)
  | none => .ok none

/-- The opcode of a CMP2; it is not stored if the predicate is unknown. -/
def cmp2Opcode (n : Nat) (type0 : PNBasicType) : Except Stop (Option PNOpcode) :=
  match PNCmp2.ofNat? n with
  | some op => do
    let opcode ← ifType op.name op.types type0 (.cmp2 op)
    .ok (some opcode)
  | none => .ok none

/-- The opcode of a CAST; it is not stored if the operator is unknown. -/
def castOpcode (n : Nat) (type0 type1 : PNBasicType) : Except Stop (Option PNOpcode) :=
  match PNCast.ofNat? n with
  | some op =>
    let name := op.name
    if (type0, type1) ∈ op.types then .ok (some (.cast op type0 type1))
    else pnFatal s!"PN_{name} with basic types %d and %d unsupported.\n" [type0.toNat, type1.toNat]
  | none => .ok none

/-! ## Lowering -/

section Lower

variable (host : PNHost) (module : PNModule) (function : PNFunction)

/-- The basic type of a value. -/
def basicTypeOf (valueId : Nat) : Except Stop PNBasicType := do
  let value ← pnFunctionGetValue module function valueId
  .ok (module.type host value.typeId).basicType

/-- The operation of `llvm.nacl.atomic.rmw`, from its constant first argument. -/
def atomicRmwOpcode (argIds : List Nat) (w : PNAtomicWidth) : Except Stop PNOpcode := do
  pnCheck (argIds.length = 4) "i->num_args == 4"
  let value ← pnFunctionGetValue module function (argIds.getD 0 0)
  match value.code with
  | .constant index =>
    match function.constants[index]? with
    | none => .error (.undefined "constant of another function")
    | some constant =>
      pnCheck (constant.basicType = .int32) "op->basic_type == PN_BASIC_TYPE_INT32"
      match constant.value.getD (host.constant index) with
      | 1 => .ok (.atomicRmw .add w)
      | 2 => .ok (.atomicRmw .sub w)
      | 3 => .ok (.atomicRmw .and w)
      | 4 => .ok (.atomicRmw .or w)
      | 5 => .ok (.atomicRmw .xor w)
      | 6 => .ok (.atomicRmw .exchange w)
      | _ => .error .unreachable
  | _ => .error (.check "opcode->code == PN_VALUE_CODE_CONSTANT")

/-- The opcode of a call. -/
def callOpcode (calleeId : Nat) (argIds : List Nat) (isIndirect : Bool) : Except Stop PNOpcode :=
  if isIndirect then .ok .call
  else do
    let callee ← pnFunctionGetValue module function calleeId
    match callee.code with
    | .function index =>
      match module.functions[index]? with
      | none => .error (.undefined "functions out of range")
      | some calleeFunction =>
        match calleeFunction.intrinsicId with
        | .null => .ok .call
        | .llvmNaclAtomicRmw w => atomicRmwOpcode host module function argIds w
        | id => .ok (.intrinsic id)
    | _ => .error (.assert "callee->code == PN_VALUE_CODE_FUNCTION")

/-- `PN_CALL_FLAGS_INDIRECT`, `PN_CALL_FLAGS_TAIL_CALL` and `PN_CALL_FLAGS_RETURN_TYPE_VOID`. -/
def callFlags (isIndirect isTailCall isVoid : Bool) : Nat :=
  (if isIndirect then 1 else 0) + (if isTailCall then 2 else 0) + if isVoid then 4 else 0

/-- `bb_offsets[bb_id]`. -/
def bbOffsetAt (bbOffsets : List Nat) (bb : Nat) : Nat := bbOffsets.getD (toBbId bb) (host.bbOffset (toBbId bb))

/-- What the writing pass stores for an instruction. `none` for a phi or a forward type reference. -/
def lowerInstruction (bbOffsets : List Nat) : PNInstruction → Except Stop (Option PNRuntimeInstruction)
  | .binop resultValueId value0Id value1Id opcode _ => do
    let type0 ← basicTypeOf host module function value0Id
    let type1 ← basicTypeOf host module function value1Id
    if type0 ≠ type1 then
      pnFatal "Expected binop to have the same basic type for each operand. Got %d and %d\n" [type0.toNat, type1.toNat]
    else do
      let opcode ← binopOpcode opcode type0
      .ok (some (.binop opcode resultValueId value0Id value1Id))
  | .cast resultValueId valueId opcode typeId => do
    let type0 ← basicTypeOf host module function valueId
    let opcode ← castOpcode opcode type0 (module.type host typeId).basicType
    .ok (some (.cast opcode resultValueId valueId))
  | .ret valueId => .ok (some (if valueId ≠ PN_INVALID_VALUE_ID then .retValue valueId else .ret))
  | .br trueBb falseBb valueId =>
    if valueId ≠ PN_INVALID_VALUE_ID then do
      let type0 ← basicTypeOf host module function valueId
      let _ ← ifType "BR" [.int1] type0 fun _ => .brInt1
      .ok (some (.brInt1 valueId (bbOffsetAt host bbOffsets trueBb)
        (bbOffsetAt host bbOffsets (falseBb.getD PN_INVALID_BB_ID))))
    else .ok (some (.br (bbOffsetAt host bbOffsets trueBb)))
  | .switch _ valueId defaultBb cases _ => do
    let type0 ← basicTypeOf host module function valueId
    let opcode ← ifType "SWITCH" [.int1, .int8, .int16, .int32, .int64] type0 .switch
    .ok (some (.switch opcode valueId (bbOffsetAt host bbOffsets defaultBb) cases.length
      (cases.map fun c => ⟨c.value, bbOffsetAt host bbOffsets c.bb⟩)))
  | .unreachable => .ok (some .unreachable)
  | .alloca resultValueId sizeId alignment => do
    let type0 ← basicTypeOf host module function sizeId
    let opcode ← ifType "ALLOCA" [.int32] type0 .alloca
    .ok (some (.alloca opcode resultValueId sizeId alignment))
  | .load resultValueId srcId alignment typeId => do
    let srcType ← basicTypeOf host module function srcId
    if srcType ≠ .int32 then
      pnFatal "Expected load src to have the int32 basic type, not %d.\n" [srcType.toNat]
    else do
      let opcode ← ifType "LOAD" [.double, .float, .int8, .int16, .int32, .int64] (module.type host typeId).basicType .load
      .ok (some (.load opcode resultValueId srcId alignment))
  | .store destId valueId alignment => do
    let type0 ← basicTypeOf host module function valueId
    let destType ← basicTypeOf host module function destId
    if destType ≠ .int32 then
      pnFatal "Expected store dest to have the int32 basic type, not %d.\n" [destType.toNat]
    else do
      let opcode ← ifType "STORE" [.double, .float, .int8, .int16, .int32, .int64] type0 .store
      .ok (some (.store opcode destId valueId alignment))
  | .cmp2 resultValueId value0Id value1Id opcode => do
    let type0 ← basicTypeOf host module function value0Id
    let type1 ← basicTypeOf host module function value1Id
    if type0 ≠ type1 then
      pnFatal "Expected cmp2 to have the same basic type for each operand. Got %d and %d\n" [type0.toNat, type1.toNat]
    else do
      let opcode ← cmp2Opcode opcode type0
      .ok (some (.cmp2 opcode resultValueId value0Id value1Id))
  | .vselect resultValueId condId trueValueId falseValueId => do
    let type0 ← basicTypeOf host module function trueValueId
    let type1 ← basicTypeOf host module function falseValueId
    let type2 ← basicTypeOf host module function condId
    if type2 ≠ .int1 then pnFatal "Expected vselect cond to have basic type int1, not %d.\n" [type2.toNat]
    else if type0 ≠ type1 then
      pnFatal "Expected vselect to have the same basic type for true and false branches. Got %d and %d\n"
        [type0.toNat, type1.toNat]
    else .ok (some (.vselect resultValueId condId trueValueId falseValueId))
  | .call resultValueId _ calleeId argIds returnTypeId isIndirect isTailCall => do
    let opcode ← callOpcode host module function calleeId argIds isIndirect
    .ok (some (.call opcode resultValueId calleeId (argIds.length % 2 ^ 8)
      (callFlags isIndirect isTailCall (module.type host returnTypeId = .void)) argIds))
  | .phi _ _ _ | .forwardtyperef _ _ => .ok none

/-- `sizeof` of what is stored for an instruction. -/
def PNInstruction.streamSize : PNInstruction → Nat
  | .binop _ _ _ _ _ | .alloca _ _ _ | .load _ _ _ _ | .store _ _ _ | .cmp2 _ _ _ _ => 16
  | .cast _ _ _ _ => 12
  | .ret valueId => if valueId ≠ PN_INVALID_VALUE_ID then 8 else 4
  | .br _ _ valueId => if valueId ≠ PN_INVALID_VALUE_ID then 24 else 16
  | .switch _ _ _ cases _ => 24 + 16 * cases.length
  | .unreachable => 4
  | .vselect _ _ _ _ => 20
  | .call _ _ _ argIds _ _ _ => 16 + 4 * argIds.length
  | .phi _ _ _ | .forwardtyperef _ _ => 0

/-- The instructions that set `write_phi_assigns`. -/
def PNInstruction.isBranch : PNInstruction → Bool
  | .br _ _ _ | .switch _ _ _ _ _ => true
  | _ => false

/-- The measuring pass stores nothing. -/
def storedInstruction (bbOffsets : List Nat) (write : Bool) (inst : PNInstruction) :
    Except Stop (Option PNRuntimeInstruction) :=
  if write then lowerInstruction host module function bbOffsets inst else .ok none

/-- The loop over the instructions of a block. -/
def writeInstructions (bbOffsets : List Nat) (write : Bool) : List PNInstruction → Nat → Except Stop (Nat × PNIstream)
  | [], offset => .ok (offset, [])
  | inst :: rest, offset => do
    let stored ← storedInstruction host module function bbOffsets write inst
    let (offset', stream) ← writeInstructions bbOffsets write rest (offset + inst.streamSize)
    .ok (offset', (stored.toList.map fun i => (offset, i)) ++ stream)

/-- The phi table of a block. -/
def PNBasicBlock.phiTable (host : PNHost) (bbOffsets : List Nat) (bb : PNBasicBlock) : PNRuntimeInstruction :=
  .phiTable (bb.phiAssigns.length % 2 ^ 16) (if bb.fastPhiAssign then 1 else 0)
    (bb.phiAssigns.map fun a => ⟨bbOffsetAt host bbOffsets a.bbId, a.sourceValueId, a.destValueId⟩)

/-- `pn_basic_block_write_instruction_stream`: the next offset, and what was written. -/
def pnBasicBlockWriteInstructionStream (bb : PNBasicBlock) (bbOffsets : List Nat) (offset : Nat) (write : Bool) :
    Except Stop (Nat × PNIstream) := do
  let (offset, stream) ← writeInstructions host module function bbOffsets write bb.instructions offset
  if bb.instructions.any PNInstruction.isBranch then
    let table := bb.phiTable host bbOffsets
    .ok (offset + table.sizeof, if write then stream ++ [(offset, table)] else stream)
  else .ok (offset, stream)

/-- The measuring pass: the offset of every block and the end. The size of the stream is a `uint32_t`. -/
def measureBlocks : List PNBasicBlock → Nat → Except Stop (List Nat × Nat)
  | [], offset => .ok ([], offset)
  | bb :: rest, offset => do
    let offset ← pnAlignUpPointer offset 4
    let (next, _) ← pnBasicBlockWriteInstructionStream host module function bb [] offset false
    if 2 ^ 32 ≤ next then .error (.undefined "istream_size does not hold the stream")
    else do
      let (offsets, last) ← measureBlocks rest next
      .ok (offset :: offsets, last)

/-- The writing pass. -/
def writeBlocks (bbOffsets : List Nat) : List PNBasicBlock → List Nat → Nat → Except Stop (Nat × PNIstream)
  | bb :: rest, bbOffset :: offsets, offset => do
    let offset ← pnAlignUpPointer offset 4
    pnCheck (offset = bbOffset) "offset == bb_offsets[n]"
    let (next, stream) ← pnBasicBlockWriteInstructionStream host module function bb bbOffsets offset true
    let (last, more) ← writeBlocks bbOffsets rest offsets next
    .ok (last, stream ++ more)
  | _, _, offset => .ok (offset, [])

/-- The trap instruction behind the last block. -/
def trapInstruction : PNRuntimeInstruction :=
  .call (.intrinsic .llvmTrap) PN_INVALID_VALUE_ID PN_INVALID_VALUE_ID 0 (callFlags true false true) []

/-- `pn_function_calculate_opcodes`; the stream is allocated at `base`. -/
def pnFunctionCalculateOpcodes (base : Nat) : Except Stop PNFunction := do
  let (offsets, last) ← measureBlocks host module function function.bbs 0
  if 2 ^ 32 ≤ last + trapInstruction.sizeof then .error (.undefined "istream_size does not hold the stream")
  else do
    let bbOffsets := offsets.map (base + ·)
    let (last, stream) ← writeBlocks host module function bbOffsets function.bbs bbOffsets base
    .ok { function with instructions := some (base, stream ++ [(last, trapInstruction)]) }

end Lower

end Pnacl
