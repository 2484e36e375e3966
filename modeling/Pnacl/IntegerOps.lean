import Pnacl.Lib.CInt
import Pnacl.Opcodes
import Pnacl.Thread

/-!
# Integer instructions

The cases of `pn_thread_execute_instruction` for BINOP, CAST, CMP2 and VSELECT: each opcode names an operation of C and the members
of the union `PNRuntimeValue` that it reads and writes. The opcodes of floating point are left to `float`.
-/

namespace Pnacl

open Lib

/-- The integer members of `PNRuntimeValue`. -/
inductive PNMember where
  | i8 | u8 | i16 | u16 | i32 | u32 | i64 | u64
deriving Repr, DecidableEq

def PNMember.type : PNMember → CType
  | .i8 => ⟨8, true⟩ | .u8 => ⟨8, false⟩ | .i16 => ⟨16, true⟩ | .u16 => ⟨16, false⟩
  | .i32 => ⟨32, true⟩ | .u32 => ⟨32, false⟩ | .i64 => ⟨64, true⟩ | .u64 => ⟨64, false⟩

/-- The bits of a member. All members start at the first byte. -/
def PNMember.bits (m : PNMember) (value : Nat) : BitVec m.type.width := BitVec.ofNat m.type.width value

/-- `value.m`. -/
def PNMember.read (m : PNMember) (value : Nat) : Int := m.type.value (m.bits value)

/-- `pn_executor_value_m`. The bytes behind the member stay what they were in the local `ret`. -/
def pnExecutorValue (ret : Nat) (m : PNMember) (x : Int) : Nat :=
  2 ^ m.type.width * (ret / 2 ^ m.type.width) + (BitVec.ofInt m.type.width x).toNat

/-- `PN_OPCODE_BINOP(op, ty)` for each opcode. -/
def binopCase : PNBinOp → PNBasicType → Option (COp × PNMember)
  | .add, .int8 => some (.add, .u8)
  | .add, .int16 => some (.add, .u16)
  | .add, .int32 => some (.add, .u32)
  | .add, .int64 => some (.add, .u64)
  | .and, .int1 | .and, .int8 => some (.and, .u8)
  | .and, .int16 => some (.and, .u16)
  | .and, .int32 => some (.and, .u32)
  | .and, .int64 => some (.and, .u64)
  | .ashr, .int8 => some (.shr, .i8)
  | .ashr, .int16 => some (.shr, .i16)
  | .ashr, .int32 => some (.shr, .i32)
  | .ashr, .int64 => some (.shr, .i64)
  | .lshr, .int8 => some (.shr, .u8)
  | .lshr, .int16 => some (.shr, .u16)
  | .lshr, .int32 => some (.shr, .u32)
  | .lshr, .int64 => some (.shr, .u64)
  | .mul, .int8 => some (.mul, .u8)
  | .mul, .int16 => some (.mul, .u16)
  | .mul, .int32 => some (.mul, .u32)
  | .mul, .int64 => some (.mul, .u64)
  | .or, .int1 | .or, .int8 => some (.or, .u8)
  | .or, .int16 => some (.or, .u16)
  | .or, .int32 => some (.or, .u32)
  | .or, .int64 => some (.or, .u64)
  | .sdiv, .int32 => some (.div, .i32)
  | .sdiv, .int64 => some (.div, .i64)
  | .shl, .int8 => some (.shl, .u8)
  | .shl, .int16 => some (.shl, .u16)
  | .shl, .int32 => some (.shl, .u32)
  | .shl, .int64 => some (.shl, .u64)
  | .srem, .int32 => some (.mod, .i32)
  | .srem, .int64 => some (.mod, .i64)
  | .sub, .int8 => some (.sub, .u8)
  | .sub, .int16 => some (.sub, .u16)
  | .sub, .int32 => some (.sub, .u32)
  | .sub, .int64 => some (.sub, .u64)
  | .udiv, .int8 => some (.div, .u8)
  | .udiv, .int16 => some (.div, .u16)
  | .udiv, .int32 => some (.div, .u32)
  | .udiv, .int64 => some (.div, .u64)
  | .urem, .int8 => some (.mod, .u8)
  | .urem, .int16 => some (.mod, .u16)
  | .urem, .int32 => some (.mod, .u32)
  | .urem, .int64 => some (.mod, .u64)
  | .xor, .int1 | .xor, .int8 => some (.xor, .u8)
  | .xor, .int16 => some (.xor, .u16)
  | .xor, .int32 => some (.xor, .u32)
  | .xor, .int64 => some (.xor, .u64)
  | _, _ => none

/-- `PN_OPCODE_CAST` and its variants for a type `i1`; these name the wider type. -/
inductive PNCastCase where
  | cast (source target : PNMember)
  | sext1 (target : PNMember)
  | trunc1 (source : PNMember)
  | zext1 (target : PNMember)
deriving Repr, DecidableEq

/-- The macro for each opcode. -/
def castCase : PNCast → PNBasicType → PNBasicType → Option PNCastCase
  | .sext, .int1, .int8 => some (.sext1 .i8)
  | .sext, .int1, .int16 => some (.sext1 .i16)
  | .sext, .int1, .int32 => some (.sext1 .i32)
  | .sext, .int1, .int64 => some (.sext1 .i64)
  | .sext, .int8, .int16 => some (.cast .i8 .i16)
  | .sext, .int8, .int32 => some (.cast .i8 .i32)
  | .sext, .int8, .int64 => some (.cast .i8 .i64)
  | .sext, .int16, .int32 => some (.cast .i16 .i32)
  | .sext, .int16, .int64 => some (.cast .i16 .i64)
  | .sext, .int32, .int64 => some (.cast .i32 .i64)
  | .trunc, .int8, .int1 => some (.trunc1 .u8)
  | .trunc, .int16, .int1 => some (.trunc1 .u16)
  | .trunc, .int16, .int8 => some (.cast .i16 .i8)
  | .trunc, .int32, .int1 => some (.trunc1 .u32)
  | .trunc, .int32, .int8 => some (.cast .i32 .i8)
  | .trunc, .int32, .int16 => some (.cast .i32 .i16)
  | .trunc, .int64, .int8 => some (.cast .i64 .i8)
  | .trunc, .int64, .int16 => some (.cast .i64 .i16)
  | .trunc, .int64, .int32 => some (.cast .i64 .i32)
  | .zext, .int1, .int8 => some (.zext1 .u8)
  | .zext, .int1, .int16 => some (.zext1 .u16)
  | .zext, .int1, .int32 => some (.zext1 .u32)
  | .zext, .int1, .int64 => some (.zext1 .u64)
  | .zext, .int8, .int16 => some (.cast .u8 .u16)
  | .zext, .int8, .int32 => some (.cast .u8 .u32)
  | .zext, .int8, .int64 => some (.cast .u8 .u64)
  | .zext, .int16, .int32 => some (.cast .u16 .u32)
  | .zext, .int16, .int64 => some (.cast .u16 .u64)
  | .zext, .int32, .int64 => some (.cast .u32 .u64)
  | _, _, _ => none

/-- `PN_OPCODE_CMP2(op, ty)` for each opcode. -/
def cmp2Case : PNCmp2 → PNBasicType → Option (CRel × PNMember)
  | .icmpEq, .int8 => some (.eq, .u8)
  | .icmpEq, .int16 => some (.eq, .u16)
  | .icmpEq, .int32 => some (.eq, .u32)
  | .icmpEq, .int64 => some (.eq, .u64)
  | .icmpNe, .int8 => some (.ne, .u8)
  | .icmpNe, .int16 => some (.ne, .u16)
  | .icmpNe, .int32 => some (.ne, .u32)
  | .icmpNe, .int64 => some (.ne, .u64)
  | .icmpSge, .int8 => some (.ge, .i8)
  | .icmpSge, .int16 => some (.ge, .i16)
  | .icmpSge, .int32 => some (.ge, .i32)
  | .icmpSge, .int64 => some (.ge, .i64)
  | .icmpSgt, .int8 => some (.gt, .i8)
  | .icmpSgt, .int16 => some (.gt, .i16)
  | .icmpSgt, .int32 => some (.gt, .i32)
  | .icmpSgt, .int64 => some (.gt, .i64)
  | .icmpSle, .int8 => some (.le, .i8)
  | .icmpSle, .int16 => some (.le, .i16)
  | .icmpSle, .int32 => some (.le, .i32)
  | .icmpSle, .int64 => some (.le, .i64)
  | .icmpSlt, .int8 => some (.lt, .i8)
  | .icmpSlt, .int16 => some (.lt, .i16)
  | .icmpSlt, .int32 => some (.lt, .i32)
  | .icmpSlt, .int64 => some (.lt, .i64)
  | .icmpUge, .int8 => some (.ge, .u8)
  | .icmpUge, .int16 => some (.ge, .u16)
  | .icmpUge, .int32 => some (.ge, .u32)
  | .icmpUge, .int64 => some (.ge, .u64)
  | .icmpUgt, .int8 => some (.gt, .u8)
  | .icmpUgt, .int16 => some (.gt, .u16)
  | .icmpUgt, .int32 => some (.gt, .u32)
  | .icmpUgt, .int64 => some (.gt, .u64)
  | .icmpUle, .int8 => some (.le, .u8)
  | .icmpUle, .int16 => some (.le, .u16)
  | .icmpUle, .int32 => some (.le, .u32)
  | .icmpUle, .int64 => some (.le, .u64)
  | .icmpUlt, .int8 => some (.lt, .u8)
  | .icmpUlt, .int16 => some (.lt, .u16)
  | .icmpUlt, .int32 => some (.lt, .u32)
  | .icmpUlt, .int64 => some (.lt, .u64)
  | _, _ => none

/-- `PN_OPCODE_BINOP(op, ty)`. -/
def pnOpcodeBinop (ret : Nat) (op : COp) (ty : PNMember) (value0 value1 : Nat) : Except Stop Nat :=
  match op.apply ty.type (ty.bits value0) (ty.bits value1) with
  | some x => .ok (pnExecutorValue ret ty x)
  | none => .error (.undefined "integer arithmetic")

/-- `PN_OPCODE_CAST(from, to)` and its variants. -/
def PNCastCase.exec (ret value : Nat) : PNCastCase → Nat
  | .cast source target => pnExecutorValue ret target (source.read value)
  | .sext1 target => pnExecutorValue ret target (-(PNMember.u8.read value % 2))
  | .trunc1 source => pnExecutorValue ret .u8 (source.read value % 2)
  | .zext1 target => pnExecutorValue ret target (PNMember.u8.read value % 2)

/-- `PN_OPCODE_CMP2(op, ty)`. -/
def pnOpcodeCmp2 (ret : Nat) (op : CRel) (ty : PNMember) (value0 value1 : Nat) : Nat :=
  pnExecutorValue ret .u8 (if op.eval (ty.read value0) (ty.read value1) then 1 else 0)

section

variable (float : PNOpcode → List Nat → Nat) (ret : Nat) (value : Nat → Nat)

/-- The result of BINOP, CAST, CMP2 and VSELECT; `value` reads the operands. -/
def instructionResult : PNRuntimeInstruction → Except Stop Nat
  | .binop (some (.binop op type0)) _ value0Id value1Id =>
    match binopCase op type0 with
    | some (cop, ty) => pnOpcodeBinop ret cop ty (value value0Id) (value value1Id)
    | none => .ok (float (.binop op type0) [value value0Id, value value1Id])
  | .cast (some (.cast op type0 type1)) _ valueId =>
    match op, castCase op type0 type1 with
    | .bitcast, _ => .ok (value valueId)
    | _, some c => .ok (c.exec ret (value valueId))
    | _, none => .ok (float (.cast op type0 type1) [value valueId])
  | .cmp2 (some (.cmp2 op type0)) _ value0Id value1Id =>
    match cmp2Case op type0 with
    | some (rel, ty) => .ok (pnOpcodeCmp2 ret rel ty (value value0Id) (value value1Id))
    | none => .ok (float (.cmp2 op type0) [value value0Id, value value1Id])
  | .vselect _ condId trueValueId falseValueId =>
    .ok (value (if PNMember.u8.read (value condId) % 2 = 1 then trueValueId else falseValueId))
  | _ => .error (.undefined "opcode not set")

/-- `i->result_value_id` of these. -/
def PNRuntimeInstruction.resultValueId : PNRuntimeInstruction → Nat
  | .binop _ id _ _ | .cast _ id _ | .cmp2 _ id _ _ | .vselect id _ _ _ => id
  | _ => PN_INVALID_VALUE_ID

end

/-- BINOP, CAST, CMP2 and VSELECT. -/
def opcodeInteger (ex : PNExecutor) (float : PNOpcode → List Nat → Nat) (ret : Nat) (i : PNRuntimeInstruction) (th : PNThread) :
    Except Stop PNThread := do
  let result ← instructionResult float ret (pnThreadGetValue ex th) i
  let th ← pnThreadSetValue ex th i.resultValueId result
  .ok { th with inst := th.inst + i.sizeof }

end Pnacl
