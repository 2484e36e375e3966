import Pnacl.Opcodes
import Pnacl.Thread

/-!
# Atomic intrinsics

The cases of `pn_thread_execute_instruction` that access guest memory, by their opcodes. `PN_OPCODE_INTRINSIC_STORE` writes 32 bits
for every width, so an atomic store has the effect of a plain store exactly where the bytes between the two widths are already what
they should be (`atomicStore_iff`). `PN_OPCODE_INTRINSIC_RMW` returns its old value as a `u32`, so at 64 bits the upper half of the
result is what the local held before (`atomicUpdate_iff`).
-/

namespace Pnacl

open Lib

/-! ## Opcodes -/

/-- The suffix of an atomic opcode names the member. -/
def PNAtomicWidth.type : PNAtomicWidth → PNIntType
  | .i8 => .u8
  | .i16 => .u16
  | .i32 => .u32
  | .i64 => .u64

/-- The type of LOAD and STORE. -/
def PNBasicType.memoryType : PNBasicType → Option PNMemoryType
  | .double => some .f64
  | .float => some .f32
  | .int8 => some (.int .u8)
  | .int16 => some (.int .u16)
  | .int32 => some (.int .u32)
  | .int64 => some (.int .u64)
  | .void | .int1 => none

/-- The macro argument `op` of `PN_OPCODE_INTRINSIC_RMW`, or the exchange. -/
def PNAtomicOp.rmwOp : PNAtomicOp → PNRmwOp
  | .add => .add
  | .sub => .sub
  | .and => .and
  | .or => .or
  | .xor => .xor
  | .exchange => .exchange

/-- The intrinsic that an opcode executes, if it accesses memory. -/
def PNOpcode.memoryIntrinsic : PNOpcode → Option PNMemoryIntrinsic
  | .intrinsic .llvmMemcpy => some .memcpy
  | .intrinsic .llvmMemset => some .memset
  | .intrinsic .llvmMemmove => some .memmove
  | .intrinsic (.llvmNaclAtomicCmpxchg w) => some (.cmpxchg w.type)
  | .intrinsic (.llvmNaclAtomicLoad w) => some (.atomicLoad w.type)
  | .intrinsic (.llvmNaclAtomicStore w) => some (.atomicStore w.type)
  | .atomicRmw op w => some (.rmw op.rmwOp w.type)
  | _ => none

/-- An instruction with its operands read. `i->num_args` counts the arguments. -/
def PNRuntimeInstruction.memoryInst (value : Nat → PNRuntimeValue) : PNRuntimeInstruction → Option PNMemoryInst
  | .load (.load type0) _ srcId _ => type0.memoryType.map fun ty => .load ty (value srcId)
  | .store (.store type0) destId valueId _ => type0.memoryType.map fun ty => .store ty (value destId) (value valueId)
  | .call opcode resultValueId _ numArgs _ argIds =>
    opcode.memoryIntrinsic.map fun f => .call f (resultValueId ≠ PN_INVALID_VALUE_ID) ((argIds.take numArgs).map value)
  | _ => none

/-- `i->result_value_id` of these. -/
def PNRuntimeInstruction.memoryResultId : PNRuntimeInstruction → Nat
  | .load _ id _ _ | .call _ id _ _ _ _ => id
  | _ => PN_INVALID_VALUE_ID

/-- `pn_executor_value_ty`. The bytes behind the member stay what they were in the local `ret`. -/
def PNResult.union (ret : Nat) (r : PNResult) : Nat := 2 ^ (8 * r.bytes) * (ret / 2 ^ (8 * r.bytes)) + r.value

/-- The result value and the memory after an instruction; `value` reads the operands. -/
def memoryResult (ret : Nat) (value : Nat → PNRuntimeValue) (i : PNRuntimeInstruction) (memory : PNMemory) :
    Except Stop (Option Nat × PNMemory) :=
  match i.memoryInst value with
  | none => .error (.undefined "not an access of memory")
  | some inst => do
    let (result, memory) ← inst.exec memory
    .ok (result.map (PNResult.union ret), memory)

/-- Set the result value, if there is one. -/
def setMemoryResult (ex : PNExecutor) (th : PNThread) (resultValueId : Nat) : Option Nat → Except Stop PNThread
  | none => .ok th
  | some result => pnThreadSetValue ex th resultValueId result

/-- LOAD, STORE and the intrinsics that access memory. -/
def opcodeMemory (ex : PNExecutor) (ret : Nat) (i : PNRuntimeInstruction) (th : PNThread) : Except Stop PNThread := do
  let (result, memory) ← memoryResult ret (fun id => UInt64.ofNat (pnThreadGetValue ex th id)) i th.memory
  let th ← setMemoryResult ex { th with memory := memory } i.memoryResultId result
  .ok { th with inst := th.inst + i.sizeof }

/-! ## Checked accesses -/

section Access

variable {m m' : PNMemory} {n addr v : Nat}

/-- `pn_memory_check` accepts the range. -/
def PNMemory.Accepts (m : PNMemory) (addr n : Nat) : Prop := PN_MEMORY_GUARD_SIZE ≤ addr ∧ (addr + n) % 2 ^ 32 ≤ m.size

instance : Decidable (m.Accepts addr n) := inferInstanceAs (Decidable (_ ∧ _))

theorem pnMemoryCheck_of_accepts (h : m.Accepts addr n) : pnMemoryCheck m addr n = .ok () := pnMemoryCheck_eq_ok.mpr h

theorem pnMemoryRead_of_accepts (h : m.Accepts addr n) : pnMemoryRead m n addr = .ok (loadBytes m.data addr n) := by
  rw [pnMemoryRead, pnMemoryCheck_of_accepts h]; rfl

theorem pnMemoryWrite_of_accepts (h : m.Accepts addr n) :
    pnMemoryWrite m n addr v = .ok { m with data := storeBytes m.data addr n v } := by
  rw [pnMemoryWrite, pnMemoryCheck_of_accepts h]; rfl

theorem pnMemoryWrite_eq_ok : pnMemoryWrite m n addr v = .ok m' ↔
    m.Accepts addr n ∧ m' = { m with data := storeBytes m.data addr n v } := by
  constructor
  · intro h
    obtain ⟨u, hc, h⟩ := bind_eq_ok.mp h
    cases h
    exact ⟨pnMemoryCheck_eq_ok.mp hc, rfl⟩
  · rintro ⟨h, rfl⟩
    exact pnMemoryWrite_of_accepts h

end Access

/-! ## Stores -/

/-- The basic type of the width. -/
def PNAtomicWidth.basicType : PNAtomicWidth → PNBasicType
  | .i8 => .int8
  | .i16 => .int16
  | .i32 => .int32
  | .i64 => .int64

/-- The bytes of the width. -/
def PNAtomicWidth.bytes (w : PNAtomicWidth) : Nat := w.type.sizeof

/-- A call of `llvm.nacl.atomic.store`, of the value, the address and the memory order. -/
def atomicStoreCall (w : PNAtomicWidth) (calleeId flags valueId destId orderId : Nat) : PNRuntimeInstruction :=
  .call (.intrinsic (.llvmNaclAtomicStore w)) PN_INVALID_VALUE_ID calleeId 3 flags [valueId, destId, orderId]

/-- STORE of the same width. -/
def plainStore (w : PNAtomicWidth) (destId valueId alignment : Nat) : PNRuntimeInstruction :=
  .store (.store w.basicType) destId valueId alignment

/-- Byte `i` of memory after a little-endian store of `v` at `addr`. -/
def byteOf (v addr i : Nat) : UInt8 := UInt8.ofNat (v >>> (8 * (i - addr)))

/-- The atomic store behaves as the plain one: the same addresses, the value in the bytes at the address, no other guest byte. -/
structure AgreesWithStore (m : PNMemory) (n addr v : Nat) (atomic plain : Except Stop (Option Nat × PNMemory)) : Prop where
  accepted : (∃ m', atomic = .ok (none, m')) ↔ ∃ m', plain = .ok (none, m')
  bytes : ∀ m', atomic = .ok (none, m') → ∀ i, addr ≤ i → i < addr + n → m'.data i = byteOf v addr i
  others : ∀ m', atomic = .ok (none, m') → ∀ i, PN_MEMORY_GUARD_SIZE ≤ i → i < m.size → (i < addr ∨ addr + n ≤ i) →
    m'.data i = m.data i
  size_eq : ∀ m', atomic = .ok (none, m') → m'.size = m.size

/-- A write of 32 bits does for one of `n` bytes: both are accepted or none is, the bytes that it leaves out hold the value, and the
guest bytes that it adds are zero. -/
structure FitsStore32 (m : PNMemory) (n addr v : Nat) : Prop where
  accepted : m.Accepts addr 4 ↔ m.Accepts addr n
  left : m.Accepts addr n → ∀ i, addr + 4 ≤ i → i < addr + n → m.data i = byteOf v addr i
  added : m.Accepts addr n → ∀ i, addr + n ≤ i → i < addr + 4 → i < m.size → m.data i = 0

section Store

variable {m m' : PNMemory} {ret : Nat} {value : Nat → PNRuntimeValue} {w : PNAtomicWidth}
  {calleeId flags valueId destId orderId alignment : Nat}

theorem PNAtomicWidth.memoryType_basicType (w : PNAtomicWidth) : w.basicType.memoryType = some (.int w.type) := by
  cases w <;> rfl

/-- What a plain store does. -/
theorem plainStore_eq_ok : memoryResult ret value (plainStore w destId valueId alignment) m = .ok (none, m') ↔
    m.Accepts ((value destId).member 4) w.bytes ∧
      m' = { m with data := storeBytes m.data ((value destId).member 4) w.bytes ((value valueId).member w.bytes) } := by
  rw [memoryResult, plainStore, PNRuntimeInstruction.memoryInst, w.memoryType_basicType]
  simp only [Option.map_some, PNMemoryInst.exec, PNMemoryType.sizeof, bind_assoc, ok_bind, Option.map_none]
  rw [bind_eq_ok]
  constructor
  · rintro ⟨m₁, hw, h⟩
    cases h
    exact pnMemoryWrite_eq_ok.mp hw
  · rintro ⟨ha, rfl⟩
    exact ⟨_, pnMemoryWrite_of_accepts ha, rfl⟩

/-- What an atomic store does: 32 bits for every width. -/
theorem atomicStore_eq_ok :
    memoryResult ret value (atomicStoreCall w calleeId flags valueId destId orderId) m = .ok (none, m') ↔
      m.Accepts ((value destId).member 4) 4 ∧
        m' = { m with data := storeBytes m.data ((value destId).member 4) 4 ((value valueId).member w.bytes % 2 ^ 32) } := by
  have hg : (PNMemoryIntrinsic.atomicStore w.type).guards false [value valueId, value destId, value orderId] = .ok () := rfl
  have hi : (atomicStoreCall w calleeId flags valueId destId orderId).memoryInst value =
      some (.call (.atomicStore w.type) false [value valueId, value destId, value orderId]) := rfl
  rw [memoryResult, hi]
  simp only [PNMemoryInst.exec, hg, ok_bind, PNMemoryIntrinsic.exec, pnOpcodeIntrinsicStore, bind_assoc, Option.map_none]
  rw [bind_eq_ok]
  constructor
  · rintro ⟨m₁, hw, h⟩
    cases h
    exact pnMemoryWrite_eq_ok.mp hw
  · rintro ⟨ha, rfl⟩
    exact ⟨_, pnMemoryWrite_of_accepts ha, rfl⟩

/-- The bytes of the lower 32 bits. -/
theorem byteOf_mod {v addr i : Nat} (h : addr ≤ i) (hi : i < addr + 4) : byteOf (v % 2 ^ 32) addr i = byteOf v addr i := by
  unfold byteOf
  apply UInt8.toNat_inj.mp
  rw [UInt8.toNat_ofNat', UInt8.toNat_ofNat']
  apply Nat.eq_of_testBit_eq
  intro j
  simp only [Nat.testBit_mod_two_pow, Nat.testBit_shiftRight]
  by_cases hj : j < 8
  · simp [hj]
    omega
  · simp [hj]

/-- A value of `n` bytes has no others. -/
theorem byteOf_eq_zero {v n addr i : Nat} (hv : v < 2 ^ (8 * n)) (h : addr + n ≤ i) : byteOf v addr i = 0 := by
  have hz : v >>> (8 * (i - addr)) = 0 := by
    rw [Nat.shiftRight_eq_div_pow]
    exact Nat.div_eq_of_lt (Nat.lt_of_lt_of_le hv (Nat.pow_le_pow_right (by omega) (by omega)))
  rw [byteOf, hz]
  rfl

/-- The 32 bits of an atomic store, compared byte by byte with the value. -/
theorem agreesWithStore_iff {n addr v : Nat} {atomic plain : Except Stop (Option Nat × PNMemory)} (hv : v < 2 ^ (8 * n))
    (hat : ∀ m', atomic = .ok (none, m') ↔ m.Accepts addr 4 ∧ m' = { m with data := storeBytes m.data addr 4 (v % 2 ^ 32) })
    (hpl : ∀ m', plain = .ok (none, m') ↔ m.Accepts addr n ∧ m' = { m with data := storeBytes m.data addr n v }) :
    AgreesWithStore m n addr v atomic plain ↔ FitsStore32 m n addr v := by
  have hin {i : Nat} (h : addr ≤ i) (hi : i < addr + 4) : storeBytes m.data addr 4 (v % 2 ^ 32) i = byteOf v addr i := by
    rw [storeBytes, if_pos ⟨h, hi⟩]
    exact byteOf_mod h hi
  constructor
  · intro h
    have hacc : m.Accepts addr 4 ↔ m.Accepts addr n := by
      constructor
      · intro h4
        obtain ⟨m', hm⟩ := h.accepted.mp ⟨_, (hat _).mpr ⟨h4, rfl⟩⟩
        exact ((hpl m').mp hm).1
      · intro hn
        obtain ⟨m', hm⟩ := h.accepted.mpr ⟨_, (hpl _).mpr ⟨hn, rfl⟩⟩
        exact ((hat m').mp hm).1
    refine ⟨hacc, fun hn i h₁ h₂ => ?_, fun hn i h₁ h₂ hs => ?_⟩
    · have hb := h.bytes _ ((hat _).mpr ⟨hacc.mpr hn, rfl⟩) i (by omega) h₂
      rw [← hb]
      exact (storeBytes_outside (.inr h₁)).symm
    · have ho := h.others _ ((hat _).mpr ⟨hacc.mpr hn, rfl⟩) i (by have := hn.1; omega) hs (.inr h₁)
      rw [← ho]
      exact (hin (by omega) h₂).trans (byteOf_eq_zero hv h₁)
  · intro h
    refine ⟨⟨?_, ?_⟩, ?_, ?_, ?_⟩
    · rintro ⟨m', hm⟩
      exact ⟨_, (hpl _).mpr ⟨h.accepted.mp ((hat m').mp hm).1, rfl⟩⟩
    · rintro ⟨m', hm⟩
      exact ⟨_, (hat _).mpr ⟨h.accepted.mpr ((hpl m').mp hm).1, rfl⟩⟩
    · intro m' hm i h₁ h₂
      obtain ⟨h4, rfl⟩ := (hat m').mp hm
      by_cases hi : i < addr + 4
      · exact hin h₁ hi
      · exact (storeBytes_outside (.inr (by omega))).trans (h.left (h.accepted.mp h4) i (by omega) h₂)
    · intro m' hm i hg hs hi
      obtain ⟨h4, rfl⟩ := (hat m').mp hm
      by_cases hr : addr ≤ i ∧ i < addr + 4
      · rw [h.added (h.accepted.mp h4) i (by omega) hr.2 hs]
        exact (hin hr.1 hr.2).trans (byteOf_eq_zero hv (by omega))
      · exact storeBytes_outside (by omega)
    · intro m' hm
      obtain ⟨-, rfl⟩ := (hat m').mp hm
      rfl

/-- **Atomic stores.** An atomic store agrees with the plain store of its width iff a write of 32 bits does for one of that width,
for every memory, address and value. -/
theorem atomicStore_iff (m : PNMemory) (ret : Nat) (value : Nat → PNRuntimeValue) (w : PNAtomicWidth)
    (calleeId flags valueId destId orderId alignment : Nat) :
    AgreesWithStore m w.bytes ((value destId).member 4) ((value valueId).member w.bytes)
        (memoryResult ret value (atomicStoreCall w calleeId flags valueId destId orderId) m)
        (memoryResult ret value (plainStore w destId valueId alignment) m) ↔
      FitsStore32 m w.bytes ((value destId).member 4) ((value valueId).member w.bytes) :=
  agreesWithStore_iff (Nat.mod_lt _ (by positivity)) (fun _ => atomicStore_eq_ok) fun _ => plainStore_eq_ok

/-- An atomic store of 8 bits at 65536 into memory full of ones clears the three bytes behind it. -/
theorem atomicStore_i8_clears :
    ∃ m', memoryResult 0 (fun id => if id = 1 then 65536 else 0xAB) (atomicStoreCall .i8 0 0 0 1 2) ⟨fun _ => 0xFF, 2 ^ 20⟩ =
        .ok (none, m') ∧
      m'.data 65537 = 0 ∧
      ¬AgreesWithStore ⟨fun _ => 0xFF, 2 ^ 20⟩ 1 65536 0xAB
        (memoryResult 0 (fun id => if id = 1 then 65536 else 0xAB) (atomicStoreCall .i8 0 0 0 1 2) ⟨fun _ => 0xFF, 2 ^ 20⟩)
        (memoryResult 0 (fun id => if id = 1 then 65536 else 0xAB) (plainStore .i8 1 0 1) ⟨fun _ => 0xFF, 2 ^ 20⟩) := by
  refine ⟨_, rfl, by decide, fun h => ?_⟩
  have := h.others _ rfl 65537 (by decide) (by decide) (.inr (by decide))
  revert this
  decide

end Store

/-! ## Read-modify-write -/

/-- The atomic intrinsics that read and write: an operation of `llvm.nacl.atomic.rmw`, or `llvm.nacl.atomic.cmpxchg`. -/
inductive PNAtomicUpdate where
  | rmw (op : PNAtomicOp)
  | cmpxchg
deriving Repr, DecidableEq

/-- The intrinsic that a program calls for it. -/
def PNAtomicUpdate.intrinsic (w : PNAtomicWidth) : PNAtomicUpdate → PNIntrinsicId
  | .rmw _ => .llvmNaclAtomicRmw w
  | .cmpxchg => .llvmNaclAtomicCmpxchg w

/-- The opcode that it is executed by. -/
def PNAtomicUpdate.opcode (w : PNAtomicWidth) : PNAtomicUpdate → PNOpcode
  | .rmw op => .atomicRmw op w
  | .cmpxchg => .intrinsic (.llvmNaclAtomicCmpxchg w)

/-- The result in memory: `old op operand`, the new value, or the desired value if `old` is the expected one. -/
def PNAtomicUpdate.result {w : Nat} (old operand desired : BitVec w) : PNAtomicUpdate → BitVec w
  | .rmw .add => old + operand
  | .rmw .sub => old - operand
  | .rmw .and => old &&& operand
  | .rmw .or => old ||| operand
  | .rmw .xor => old ^^^ operand
  | .rmw .exchange => operand
  | .cmpxchg => if old = operand then desired else old

/-- The arguments: the operation or the address first, then the operand or the expected and the desired value, then memory orders.
The operation is a constant of the function. -/
structure AtomicArgs where
  address : Nat
  operand : Nat
  desired : Nat
  order0 : Nat
  order1 : Nat
  operation : Nat

/-- The argument ids in the order of the intrinsic. -/
def PNAtomicUpdate.argIds (args : AtomicArgs) : PNAtomicUpdate → List Nat
  | .rmw _ => [args.operation, args.address, args.operand, args.order0]
  | .cmpxchg => [args.address, args.operand, args.desired, args.order0, args.order1]

/-- A call of the intrinsic: the callee is a function of that name, and the operation, if it takes one, is a constant of type `i32` that
the operand holds when the call is executed. -/
structure AtomicCall (host : PNHost) (module : PNModule) (function : PNFunction) (value : Nat → PNRuntimeValue) (w : PNAtomicWidth)
    (a : PNAtomicUpdate) (args : AtomicArgs) (calleeId : Nat) : Prop where
  callee : ∃ typeId index f, pnFunctionGetValue module function calleeId = .ok ⟨.function index, typeId⟩ ∧
    module.functions[index]? = some f ∧ f.intrinsicId = a.intrinsic w
  operation : ∀ op, a = .rmw op → ∃ typeId index c, pnFunctionGetValue module function args.operation = .ok ⟨.constant index, typeId⟩ ∧
    function.constants[index]? = some c ∧ c.basicType = .int32 ∧ c.value.getD (host.constant index) = op.rmwOp.opval ∧
    (value args.operation).member 4 = op.rmwOp.opval

/-- Where the atomic load of the width returns `old`, the result is in memory, no other byte has changed and the result value, read at
the width, is `old`; where the load stops, so does the update. -/
structure ReturnsOld (m : PNMemory) (w : PNAtomicWidth) (address order : PNRuntimeValue)
    (result : BitVec (8 * w.bytes) → BitVec (8 * w.bytes)) (exec : Except Stop (Option Nat × PNMemory)) : Prop where
  accepted : ∀ r m₁, (PNMemoryInst.call (.atomicLoad w.type) true [address, order]).exec m = .ok (some r, m₁) →
    ∃ v m', exec = .ok (some v, m') ∧
      BitVec.ofNat _ (loadBytes m'.data (address.member 4) w.bytes) = result (BitVec.ofNat _ r.value) ∧
      (∀ i, i < address.member 4 ∨ address.member 4 + w.bytes ≤ i → m'.data i = m.data i) ∧ m'.size = m.size ∧
      v % 2 ^ (8 * w.bytes) = r.value
  rejected : ∀ e, (PNMemoryInst.call (.atomicLoad w.type) true [address, order]).exec m = .error e → exec = .error e

/-- The operation that lowering finds in the constant. -/
theorem atomicRmwOpcode_eq {host : PNHost} {module : PNModule} {function : PNFunction} {w : PNAtomicWidth} {op : PNAtomicOp}
    {argIds : List Nat} {index typeId : Nat} {c : PNConstant} (hlen : argIds.length = 4)
    (hv : pnFunctionGetValue module function (argIds.getD 0 0) = .ok ⟨.constant index, typeId⟩)
    (hc : function.constants[index]? = some c) (ht : c.basicType = .int32)
    (ho : c.value.getD (host.constant index) = op.rmwOp.opval) :
    atomicRmwOpcode host module function argIds w = .ok (.atomicRmw op w) := by
  rw [atomicRmwOpcode, pnCheck_bind hlen, hv, ok_bind]
  simp only [hc, ho]
  rw [pnCheck_bind ht]
  cases op <;> rfl

section Update

variable {host : PNHost} {module : PNModule} {function : PNFunction} {value : Nat → PNRuntimeValue} {w : PNAtomicWidth}
  {a : PNAtomicUpdate} {args : AtomicArgs} {calleeId ret : Nat} {m : PNMemory}

/-- **Specialisation.** Lowering chooses the opcode of the operation and the width. -/
theorem lower_atomicUpdate (h : AtomicCall host module function value w a args calleeId) (bbOffsets : List Nat)
    (resultValueId callingConvention returnTypeId : Nat) (isTailCall : Bool) :
    ∃ flags, lowerInstruction host module function bbOffsets
        (.call resultValueId callingConvention calleeId (a.argIds args) returnTypeId false isTailCall) =
      .ok (some (.call (a.opcode w) resultValueId calleeId (a.argIds args).length flags (a.argIds args))) := by
  obtain ⟨typeId, index, f, hv, hf, hi⟩ := h.callee
  have hop : callOpcode host module function calleeId (a.argIds args) false = .ok (a.opcode w) := by
    simp only [callOpcode, Bool.false_eq_true, if_false, hv, ok_bind, hf, hi]
    cases a with
    | rmw op =>
      obtain ⟨_, _, c, hv', hc, ht, ho, -⟩ := h.operation op rfl
      exact atomicRmwOpcode_eq rfl hv' hc ht ho
    | cmpxchg => rfl
  refine ⟨callFlags false isTailCall (module.type host returnTypeId = .void), ?_⟩
  rw [lowerInstruction, hop, ok_bind]
  cases a <;> rfl

theorem ofNat_mod_self (n x : Nat) : BitVec.ofNat n (x % 2 ^ n) = BitVec.ofNat n x := by
  apply BitVec.eq_of_toNat_eq
  simp

/-- The new value of an operation of C is that on bit vectors. -/
theorem apply_eq_result (op : PNAtomicOp) (n old x y : Nat) (hx : x < 2 ^ (8 * n)) :
    BitVec.ofNat (8 * n) (op.rmwOp.apply n old x) =
      (PNAtomicUpdate.rmw op).result (BitVec.ofNat (8 * n) old) (BitVec.ofNat (8 * n) x) y := by
  cases op with
  | add =>
    apply BitVec.eq_of_toNat_eq
    simp [PNAtomicOp.rmwOp, PNRmwOp.apply, PNAtomicUpdate.result]
  | sub =>
    apply BitVec.eq_of_toNat_eq
    simp [PNAtomicOp.rmwOp, PNRmwOp.apply, PNAtomicUpdate.result, Nat.mod_eq_of_lt hx, Nat.add_comm]
  | and | or | xor =>
    apply BitVec.eq_of_getLsbD_eq
    intro i hi
    simp [PNAtomicOp.rmwOp, PNRmwOp.apply, PNAtomicUpdate.result, hi]
  | exchange => rfl

/-- The `u32` member of a result and the bytes that the local had behind it. -/
theorem union_mod (w : PNAtomicWidth) (ret old : Nat) (h : old < 2 ^ (8 * w.bytes)) :
    PNResult.union ret ⟨4, old % 2 ^ 32⟩ % 2 ^ (8 * w.bytes) = old ↔ (w = .i64 → ret / 2 ^ 32 % 2 ^ 32 = old / 2 ^ 32) := by
  cases w <;> simp [PNResult.union, PNAtomicWidth.bytes, PNAtomicWidth.type, PNIntType.sizeof] at h ⊢ <;> omega

/-- At 64 bits an operation of `llvm.nacl.atomic.rmw` leaves the upper half of the local as it was; it is the upper half of the result
only if it is that of the value in memory. -/
def UpperHalfReturned (m : PNMemory) (w : PNAtomicWidth) (a : PNAtomicUpdate) (addr ret : Nat) : Prop :=
  a ≠ .cmpxchg → w = .i64 → m.Accepts addr 8 → ret / 2 ^ 32 % 2 ^ 32 = loadBytes m.data (addr + 4) 4

/-- An instruction of RMW that passed its check. -/
theorem rmw_exec (op : PNAtomicOp) (m : PNMemory) (w : PNAtomicWidth) (addr x : Nat) (hacc : m.Accepts addr w.bytes) :
    pnOpcodeIntrinsicRmw m op.rmwOp w.bytes addr x =
      .ok (some ⟨4, loadBytes m.data addr w.bytes % 2 ^ 32⟩,
        { m with data := storeBytes m.data addr w.bytes (op.rmwOp.apply w.bytes (loadBytes m.data addr w.bytes) x) }) := by
  rw [pnOpcodeIntrinsicRmw, pnMemoryRead_of_accepts hacc, ok_bind, pnMemoryWrite_of_accepts hacc, ok_bind]

/-- The atomic load of the width. -/
theorem atomicLoad_exec (m : PNMemory) (w : PNAtomicWidth) (address order : PNRuntimeValue) :
    (PNMemoryInst.call (.atomicLoad w.type) true [address, order]).exec m =
      (pnMemoryRead m w.bytes (address.member 4) >>= fun old => .ok (some ⟨w.bytes, old⟩, m)) := rfl

theorem PNAtomicUpdate.rmw_memoryInst {op : PNAtomicOp} {resultValueId flags : Nat} :
    PNRuntimeInstruction.memoryInst value (.call ((PNAtomicUpdate.rmw op).opcode w) resultValueId calleeId
        ((PNAtomicUpdate.rmw op).argIds args).length flags ((PNAtomicUpdate.rmw op).argIds args)) =
      some (.call (.rmw op.rmwOp w.type) (resultValueId ≠ PN_INVALID_VALUE_ID)
        [value args.operation, value args.address, value args.operand, value args.order0]) := rfl

theorem PNAtomicUpdate.cmpxchg_memoryInst {resultValueId flags : Nat} :
    PNRuntimeInstruction.memoryInst value (.call (PNAtomicUpdate.cmpxchg.opcode w) resultValueId calleeId
        (PNAtomicUpdate.cmpxchg.argIds args).length flags (PNAtomicUpdate.cmpxchg.argIds args)) =
      some (.call (.cmpxchg w.type) (resultValueId ≠ PN_INVALID_VALUE_ID)
        [value args.address, value args.operand, value args.desired, value args.order0, value args.order1]) := rfl

/-- An update that writes `new old` and returns `v`, where the load returns `old`. -/
theorem returnsOld_iff {address order : PNRuntimeValue} {result : BitVec (8 * w.bytes) → BitVec (8 * w.bytes)}
    {exec : Except Stop (Option Nat × PNMemory)} {old : Nat} (v : Nat) (m' : PNMemory)
    (hold : old = loadBytes m.data (address.member 4) w.bytes)
    (hacc : m.Accepts (address.member 4) w.bytes → exec = .ok (some v, m') ∧
      BitVec.ofNat _ (loadBytes m'.data (address.member 4) w.bytes) = result (BitVec.ofNat _ old) ∧
      (∀ i, i < address.member 4 ∨ address.member 4 + w.bytes ≤ i → m'.data i = m.data i) ∧ m'.size = m.size)
    (hrej : ∀ e, pnMemoryRead m w.bytes (address.member 4) = .error e → exec = .error e) :
    ReturnsOld m w address order result exec ↔ (m.Accepts (address.member 4) w.bytes → v % 2 ^ (8 * w.bytes) = old) := by
  constructor
  · intro h ha
    obtain ⟨he, -⟩ := hacc ha
    have hload := atomicLoad_exec m w address order
    rw [pnMemoryRead_of_accepts ha, ok_bind] at hload
    obtain ⟨v', _, he', -, -, -, hv⟩ := h.accepted _ _ hload
    rw [he] at he'
    cases he'
    rw [hold]
    exact hv
  · intro h
    refine ⟨fun r m₁ hr => ?_, fun e he => hrej e ?_⟩
    · rw [atomicLoad_exec] at hr
      obtain ⟨x, hx, hr⟩ := bind_eq_ok.mp hr
      cases hr
      have ha : m.Accepts (address.member 4) w.bytes := by
        obtain ⟨u, hc, -⟩ := bind_eq_ok.mp hx
        exact pnMemoryCheck_eq_ok.mp hc
      rw [pnMemoryRead_of_accepts ha] at hx
      cases hx
      obtain ⟨he, hnew, hout, hsize⟩ := hacc ha
      rw [← hold]
      exact ⟨v, m', he, hnew, hout, hsize, h ha⟩
    · rw [atomicLoad_exec] at he
      cases hx : pnMemoryRead m w.bytes (address.member 4) with
      | error e' =>
        rw [hx] at he
        cases he
        rfl
      | ok x =>
        rw [hx] at he
        cases he

/-- The `u32` of a stored result is read back in full unless it is one of 64 bits. -/
theorem rmw_returnsOld_iff (op : PNAtomicOp) (resultValueId flags : Nat) (hop : (value args.operation).member 4 = op.rmwOp.opval) :
    ReturnsOld m w (value args.address) (value args.order0)
        (fun old => (PNAtomicUpdate.rmw op).result old (BitVec.ofNat _ ((value args.operand).member w.bytes))
          (BitVec.ofNat _ ((value args.desired).member w.bytes)))
        (memoryResult ret value (.call ((PNAtomicUpdate.rmw op).opcode w) resultValueId calleeId
          ((PNAtomicUpdate.rmw op).argIds args).length flags ((PNAtomicUpdate.rmw op).argIds args)) m) ↔
      UpperHalfReturned m w (.rmw op) ((value args.address).member 4) ret := by
  have hexec : memoryResult ret value (.call ((PNAtomicUpdate.rmw op).opcode w) resultValueId calleeId
      ((PNAtomicUpdate.rmw op).argIds args).length flags ((PNAtomicUpdate.rmw op).argIds args)) m =
      (pnOpcodeIntrinsicRmw m op.rmwOp w.bytes ((value args.address).member 4) ((value args.operand).member w.bytes) >>=
        fun p => .ok (p.1.map (PNResult.union ret), p.2)) := by
    rw [memoryResult, PNAtomicUpdate.rmw_memoryInst]
    simp only [PNMemoryInst.exec, PNMemoryIntrinsic.guards, bind_assoc]
    exact (pnCheck_bind (by rfl)).trans (pnCheck_bind hop)
  rw [hexec]
  set addr := (value args.address).member 4 with haddr
  set x := (value args.operand).member w.bytes with hx
  have hlt := loadBytes_lt m.data addr w.bytes
  refine (returnsOld_iff (PNResult.union ret ⟨4, loadBytes m.data addr w.bytes % 2 ^ 32⟩)
    { m with data := storeBytes m.data addr w.bytes (op.rmwOp.apply w.bytes (loadBytes m.data addr w.bytes) x) } rfl ?_ ?_).trans ?_
  · intro ha
    rw [rmw_exec op m w addr x ha]
    refine ⟨rfl, ?_, fun i hi => storeBytes_outside hi, rfl⟩
    rw [loadBytes_storeBytes, ofNat_mod_self]
    exact apply_eq_result op _ _ _ _ (Nat.mod_lt _ (by positivity))
  · intro e he
    rw [pnOpcodeIntrinsicRmw, he]
    rfl
  · rw [union_mod w ret _ hlt]
    have hupper : loadBytes m.data addr 8 / 2 ^ 32 = loadBytes m.data (addr + 4) 4 := by
      have hl := loadBytes_lt m.data addr 4
      rw [loadBytes_add m.data addr 4 4]
      omega
    constructor
    · rintro h - rfl ha
      rw [← hupper]
      exact h ha rfl
    · rintro h ha rfl
      exact (h (by simp) rfl ha).trans hupper.symm

/-- The result of `cmpxchg` has the member of its width. -/
theorem cmpxchg_returnsOld (resultValueId flags : Nat) :
    ReturnsOld m w (value args.address) (value args.order0)
        (fun old => PNAtomicUpdate.cmpxchg.result old (BitVec.ofNat _ ((value args.operand).member w.bytes))
          (BitVec.ofNat _ ((value args.desired).member w.bytes)))
        (memoryResult ret value (.call (PNAtomicUpdate.cmpxchg.opcode w) resultValueId calleeId
          (PNAtomicUpdate.cmpxchg.argIds args).length flags (PNAtomicUpdate.cmpxchg.argIds args)) m) := by
  have hexec : memoryResult ret value (.call (PNAtomicUpdate.cmpxchg.opcode w) resultValueId calleeId
      (PNAtomicUpdate.cmpxchg.argIds args).length flags (PNAtomicUpdate.cmpxchg.argIds args)) m =
      (pnOpcodeIntrinsicCmpxchg m w.bytes ((value args.address).member 4) ((value args.operand).member w.bytes)
        ((value args.desired).member w.bytes) >>= fun p => .ok (p.1.map (PNResult.union ret), p.2)) := by
    rw [memoryResult, PNAtomicUpdate.cmpxchg_memoryInst]
    simp only [PNMemoryInst.exec, PNMemoryIntrinsic.guards, bind_assoc]
    exact pnCheck_bind (by rfl)
  rw [hexec]
  set addr := (value args.address).member 4 with haddr
  set expected := (value args.operand).member w.bytes with hexpected
  set desired := (value args.desired).member w.bytes with hdesired
  have hlt := loadBytes_lt m.data addr w.bytes
  have hx : expected < 2 ^ (8 * w.bytes) := Nat.mod_lt _ (by positivity)
  refine (returnsOld_iff (PNResult.union ret ⟨w.bytes, loadBytes m.data addr w.bytes⟩)
    (if loadBytes m.data addr w.bytes = expected then { m with data := storeBytes m.data addr w.bytes desired } else m)
    rfl ?_ ?_).mpr ?_
  · intro ha
    have heq : BitVec.ofNat (8 * w.bytes) (loadBytes m.data addr w.bytes) = BitVec.ofNat _ expected ↔
        loadBytes m.data addr w.bytes = expected := by
      rw [← BitVec.toNat_inj, BitVec.toNat_ofNat, BitVec.toNat_ofNat, Nat.mod_eq_of_lt hlt, Nat.mod_eq_of_lt hx]
    rw [pnOpcodeIntrinsicCmpxchg, pnMemoryRead_of_accepts ha, ok_bind, PNAtomicUpdate.result]
    by_cases hc : loadBytes m.data addr w.bytes = expected
    · rw [if_pos hc, if_pos hc, if_pos (heq.mpr hc), pnMemoryWrite_of_accepts ha, ok_bind]
      refine ⟨rfl, ?_, fun i hi => storeBytes_outside hi, rfl⟩
      rw [loadBytes_storeBytes, ofNat_mod_self]
    · rw [if_neg hc, if_neg hc, if_neg (mt heq.mp hc)]
      exact ⟨rfl, rfl, fun _ _ => rfl, rfl⟩
  · intro e he
    rw [pnOpcodeIntrinsicCmpxchg, he]
    rfl
  · intro _
    rw [PNResult.union, Nat.mul_add_mod, Nat.mod_eq_of_lt hlt]

/-- **Atomic updates.** Lowering a call of an atomic intrinsic gives an instruction that leaves the result of its operation in memory
and returns the value that an atomic load of the same width would have returned, for every memory and operands, except that the
operations of `llvm.nacl.atomic.rmw` return only the lower 32 bits. -/
theorem atomicUpdate_iff (h : AtomicCall host module function value w a args calleeId) (bbOffsets : List Nat) (ret : Nat)
    (m : PNMemory) (resultValueId callingConvention returnTypeId : Nat) (isTailCall : Bool) :
    ∃ i, lowerInstruction host module function bbOffsets
        (.call resultValueId callingConvention calleeId (a.argIds args) returnTypeId false isTailCall) = .ok (some i) ∧
      (ReturnsOld m w (value args.address) (value args.order0)
          (fun old => a.result old (BitVec.ofNat _ ((value args.operand).member w.bytes))
            (BitVec.ofNat _ ((value args.desired).member w.bytes)))
          (memoryResult ret value i m) ↔
        UpperHalfReturned m w a ((value args.address).member 4) ret) := by
  obtain ⟨flags, hl⟩ := lower_atomicUpdate h bbOffsets resultValueId callingConvention returnTypeId isTailCall
  refine ⟨_, hl, ?_⟩
  cases a with
  | rmw op =>
    obtain ⟨_, _, _, -, -, -, -, hop⟩ := h.operation op rfl
    exact rmw_returnsOld_iff op resultValueId flags hop
  | cmpxchg => exact iff_of_true (cmpxchg_returnsOld resultValueId flags) fun hne => absurd rfl hne

end Update

/-! ## A sum of 64 bits -/

/-- A function with the constant 1, which selects the addition, and an argument. -/
def demoAdder : PNFunction where
  name := none
  typeId := 0
  intrinsicId := .null
  numArgs := 1
  callingConvention := 0
  isProto := false
  linkage := 0
  constants := [⟨.integer, 0, .int32, some 1⟩]
  bbs := []
  values := [⟨.functionArg 0, 0⟩, ⟨.constant 0, 0⟩]
  numInstructions := 0
  instructions := none

/-- A module whose function 0 is `llvm.nacl.atomic.rmw`. -/
def demoAtomics (w : PNAtomicWidth) : PNModule :=
  { pnModuleInit ⟨fun _ => 0, 2 ^ 20⟩ with
    types := [.integer 32 .int32]
    functions := [{ demoAdder with intrinsicId := .llvmNaclAtomicRmw w }]
    values := [⟨.function 0, 0⟩] }

/-- Value 1, the address, is 65536, and the constant is 1. -/
def demoOperands : Nat → PNRuntimeValue := fun id => if id = 1 then 65536 else 1

def demoArgs : AtomicArgs := ⟨1, 2, 2, 2, 2, 2⟩

theorem demoCall (w : PNAtomicWidth) : AtomicCall zeroHost (demoAtomics w) demoAdder demoOperands w (.rmw .add) demoArgs 0 where
  callee := ⟨0, 0, { demoAdder with intrinsicId := .llvmNaclAtomicRmw w }, rfl, rfl, rfl⟩
  operation op h := by
    cases h
    exact ⟨0, 0, ⟨.integer, 0, .int32, some 1⟩, rfl, rfl, rfl, rfl, rfl⟩

/-- An addition of 32 bits returns the value in memory. -/
theorem atomicUpdate_iff_add32 : ∃ i, lowerInstruction zeroHost (demoAtomics .i32) demoAdder []
      (.call 3 0 0 ((PNAtomicUpdate.rmw .add).argIds demoArgs) 0 false false) = .ok (some i) ∧
    ReturnsOld ⟨fun _ => 0xFF, 2 ^ 20⟩ .i32 65536 1 (fun old => old + BitVec.ofNat _ 1)
      (memoryResult 0 demoOperands i ⟨fun _ => 0xFF, 2 ^ 20⟩) := by
  obtain ⟨i, hl, h⟩ := atomicUpdate_iff (demoCall .i32) [] 0 ⟨fun _ => 0xFF, 2 ^ 20⟩ 3 0 0 false
  exact ⟨i, hl, h.mpr fun _ hw => by cases hw⟩

/-- An addition of 64 bits to `2 ^ 32` returns 0, where the atomic load returns `2 ^ 32`. -/
theorem atomicAdd_i64_truncates : ∃ i m', lowerInstruction zeroHost (demoAtomics .i64) demoAdder []
      (.call 3 0 0 ((PNAtomicUpdate.rmw .add).argIds demoArgs) 0 false false) = .ok (some i) ∧
    (PNMemoryInst.call (.atomicLoad .u64) true [65536, 1]).exec ⟨fun i => if i = 65540 then 1 else 0, 2 ^ 20⟩ =
      .ok (some ⟨8, 2 ^ 32⟩, ⟨fun i => if i = 65540 then 1 else 0, 2 ^ 20⟩) ∧
    memoryResult 0 demoOperands i ⟨fun i => if i = 65540 then 1 else 0, 2 ^ 20⟩ = .ok (some 0, m') ∧
    ¬ReturnsOld ⟨fun i => if i = 65540 then 1 else 0, 2 ^ 20⟩ .i64 65536 1 (fun old => old + BitVec.ofNat _ 1)
      (memoryResult 0 demoOperands i ⟨fun i => if i = 65540 then 1 else 0, 2 ^ 20⟩) := by
  refine ⟨_, _, rfl, rfl, rfl, fun h => ?_⟩
  obtain ⟨v, m', he, -, -, -, hv⟩ := h.accepted ⟨8, 2 ^ 32⟩ _ rfl
  cases he
  revert hv
  decide

end Pnacl
