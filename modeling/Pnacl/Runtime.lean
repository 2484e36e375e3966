import Pnacl.Basic
import Mathlib.Tactic.Ring

/-!
# Runtime instructions

The images of instructions in the instruction stream of a function, with their operands and sizes as an LP64 compiler
lays them out, and the opcodes. An opcode is named by the operation and the basic types that it is specialised for.
-/

namespace Pnacl

/-- `PN_INVALID_VALUE_ID` and `PN_INVALID_FUNCTION_ID`. -/
def PN_INVALID_VALUE_ID : Nat := 2 ^ 32 - 1
def PN_INVALID_FUNCTION_ID : Nat := 2 ^ 32 - 1

/-- `PN_MAX_BUILTINS`, without the builtins for PPAPI. -/
def PN_MAX_BUILTINS : Nat := 48

/-- `PNBasicType`. -/
inductive PNBasicType where
  | void | int1 | int8 | int16 | int32 | int64 | float | double
deriving Repr, DecidableEq

/-- `PNBinOp`. -/
inductive PNBinOp where
  | add | sub | mul | udiv | sdiv | urem | srem | shl | lshr | ashr | and | or | xor
deriving Repr, DecidableEq

/-- `PNCast`. -/
inductive PNCast where
  | trunc | zext | sext | fptoui | fptosi | uitofp | sitofp | fptrunc | fpext | bitcast
deriving Repr, DecidableEq

/-- `PNCmp2`. -/
inductive PNCmp2 where
  | fcmpFalse | fcmpOeq | fcmpOgt | fcmpOge | fcmpOlt | fcmpOle | fcmpOne | fcmpOrd
  | fcmpUno | fcmpUeq | fcmpUgt | fcmpUge | fcmpUlt | fcmpUle | fcmpUne | fcmpTrue
  | icmpEq | icmpNe | icmpUgt | icmpUge | icmpUlt | icmpUle | icmpSgt | icmpSge | icmpSlt | icmpSle
deriving Repr, DecidableEq

/-- The widths of the atomic intrinsics, in the order of their opcodes. -/
inductive PNAtomicWidth where
  | i8 | i16 | i32 | i64
deriving Repr, DecidableEq

/-- `PNIntrinsicId`. -/
inductive PNIntrinsicId where
  | null
  | llvmBswapI16 | llvmBswapI32 | llvmBswapI64 | llvmCtlzI32 | llvmCtlzI64 | llvmCttzI32 | llvmCttzI64
  | llvmFabsF32 | llvmFabsF64 | llvmMemcpy | llvmMemmove | llvmMemset
  | llvmNaclAtomicCmpxchg (w : PNAtomicWidth) | llvmNaclAtomicFenceAll | llvmNaclAtomicLoad (w : PNAtomicWidth)
  | llvmNaclAtomicRmw (w : PNAtomicWidth) | llvmNaclAtomicStore (w : PNAtomicWidth)
  | llvmNaclLongjmp | llvmNaclReadTp | llvmNaclSetjmp | llvmSqrtF32 | llvmSqrtF64
  | llvmStackrestore | llvmStacksave | llvmTrap | start
deriving Repr, DecidableEq

/-- The names of `PN_FOREACH_INTRINSIC`. -/
def pnIntrinsics : List (PNIntrinsicId × String) := [
  (.llvmBswapI16, "llvm.bswap.i16"), (.llvmBswapI32, "llvm.bswap.i32"), (.llvmBswapI64, "llvm.bswap.i64"),
  (.llvmCtlzI32, "llvm.ctlz.i32"), (.llvmCtlzI64, "llvm.ctlz.i64"),
  (.llvmCttzI32, "llvm.cttz.i32"), (.llvmCttzI64, "llvm.cttz.i64"),
  (.llvmFabsF32, "llvm.fabs.f32"), (.llvmFabsF64, "llvm.fabs.f64"),
  (.llvmMemcpy, "llvm.memcpy.p0i8.p0i8.i32"), (.llvmMemmove, "llvm.memmove.p0i8.p0i8.i32"),
  (.llvmMemset, "llvm.memset.p0i8.i32"),
  (.llvmNaclAtomicCmpxchg .i8, "llvm.nacl.atomic.cmpxchg.i8"),
  (.llvmNaclAtomicCmpxchg .i16, "llvm.nacl.atomic.cmpxchg.i16"),
  (.llvmNaclAtomicCmpxchg .i32, "llvm.nacl.atomic.cmpxchg.i32"),
  (.llvmNaclAtomicCmpxchg .i64, "llvm.nacl.atomic.cmpxchg.i64"),
  (.llvmNaclAtomicFenceAll, "llvm.nacl.atomic.fence.all"),
  (.llvmNaclAtomicLoad .i8, "llvm.nacl.atomic.load.i8"), (.llvmNaclAtomicLoad .i16, "llvm.nacl.atomic.load.i16"),
  (.llvmNaclAtomicLoad .i32, "llvm.nacl.atomic.load.i32"), (.llvmNaclAtomicLoad .i64, "llvm.nacl.atomic.load.i64"),
  (.llvmNaclAtomicRmw .i8, "llvm.nacl.atomic.rmw.i8"), (.llvmNaclAtomicRmw .i16, "llvm.nacl.atomic.rmw.i16"),
  (.llvmNaclAtomicRmw .i32, "llvm.nacl.atomic.rmw.i32"), (.llvmNaclAtomicRmw .i64, "llvm.nacl.atomic.rmw.i64"),
  (.llvmNaclAtomicStore .i8, "llvm.nacl.atomic.store.i8"), (.llvmNaclAtomicStore .i16, "llvm.nacl.atomic.store.i16"),
  (.llvmNaclAtomicStore .i32, "llvm.nacl.atomic.store.i32"), (.llvmNaclAtomicStore .i64, "llvm.nacl.atomic.store.i64"),
  (.llvmNaclLongjmp, "llvm.nacl.longjmp"), (.llvmNaclReadTp, "llvm.nacl.read.tp"),
  (.llvmNaclSetjmp, "llvm.nacl.setjmp"), (.llvmSqrtF32, "llvm.sqrt.f32"), (.llvmSqrtF64, "llvm.sqrt.f64"),
  (.llvmStackrestore, "llvm.stackrestore"), (.llvmStacksave, "llvm.stacksave"), (.llvmTrap, "llvm.trap"),
  (.start, "_start")]

/-- The operations that `llvm.nacl.atomic.rmw` is specialised for. -/
inductive PNAtomicOp where
  | add | sub | and | or | xor | exchange
deriving Repr, DecidableEq

/-- `PNOpcode`. -/
inductive PNOpcode where
  | alloca (type0 : PNBasicType)
  | binop (op : PNBinOp) (type0 : PNBasicType)
  | br
  | brInt1
  | call
  | cast (op : PNCast) (type0 type1 : PNBasicType)
  | cmp2 (op : PNCmp2) (type0 : PNBasicType)
  | load (type0 : PNBasicType)
  | ret
  | retValue
  | store (type0 : PNBasicType)
  | switch (type0 : PNBasicType)
  | unreachable
  | vselect
  | intrinsic (id : PNIntrinsicId)
  | atomicRmw (op : PNAtomicOp) (w : PNAtomicWidth)
deriving Repr, DecidableEq

/-- `PNRuntimePhiAssign`. -/
structure PNRuntimePhiAssign where
  inst : Nat
  sourceValueId : Nat
  destValueId : Nat
deriving Repr, DecidableEq

/-- `PNRuntimeSwitchCase`. -/
structure PNRuntimeSwitchCase where
  value : Int
  inst : Nat
deriving Repr, DecidableEq

/-- The structs of the instruction stream. An opcode that the source does not store is `none`. The argument ids of a
call, the cases of a switch and the assigns of the phi table follow their struct; `phiTable` is the table behind a
branch, two `uint16_t` and the assigns. -/
inductive PNRuntimeInstruction where
  | alloca (opcode : PNOpcode) (resultValueId sizeId alignment : Nat)
  | binop (opcode : Option PNOpcode) (resultValueId value0Id value1Id : Nat)
  | br (inst : Nat)
  | brInt1 (valueId trueInst falseInst : Nat)
  | call (opcode : PNOpcode) (resultValueId calleeId numArgs flags : Nat) (argIds : List Nat)
  | cast (opcode : Option PNOpcode) (resultValueId valueId : Nat)
  | cmp2 (opcode : Option PNOpcode) (resultValueId value0Id value1Id : Nat)
  | load (opcode : PNOpcode) (resultValueId srcId alignment : Nat)
  | ret
  | retValue (valueId : Nat)
  | store (opcode : PNOpcode) (destId valueId alignment : Nat)
  | switch (opcode : PNOpcode) (valueId defaultInst numCases : Nat) (cases : List PNRuntimeSwitchCase)
  | unreachable
  | vselect (resultValueId condId trueValueId falseValueId : Nat)
  | phiTable (numPhiAssigns fastPhiAssign : Nat) (phiAssigns : List PNRuntimePhiAssign)
deriving Repr, DecidableEq

/-- The bytes that a struct and what follows it take. -/
def PNRuntimeInstruction.sizeof : PNRuntimeInstruction → Nat
  | .alloca _ _ _ _ | .binop _ _ _ _ | .br _ | .cmp2 _ _ _ _ | .load _ _ _ _ | .store _ _ _ _ => 16
  | .brInt1 _ _ _ => 24
  | .call _ _ _ _ _ argIds => 16 + 4 * argIds.length
  | .cast _ _ _ => 12
  | .ret | .unreachable => 4
  | .retValue _ => 8
  | .switch _ _ _ _ cases => 24 + 16 * cases.length
  | .vselect _ _ _ _ => 20
  | .phiTable _ _ phiAssigns => 4 + 16 * phiAssigns.length

/-- An instruction stream: what was written at which address. -/
abbrev PNIstream := List (Nat × PNRuntimeInstruction)

/-- The struct at an address. -/
def PNIstream.at (s : PNIstream) (inst : Nat) : Option PNRuntimeInstruction := s.lookup inst

end Pnacl
