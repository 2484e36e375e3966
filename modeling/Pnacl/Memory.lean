import Pnacl.Basic
import Pnacl.Lib.Bytes

/-!
# Guest memory

`PNMemory` of the executor and the instructions through which the guest reaches it: loads, stores, the atomic
intrinsics and the block intrinsics. Every access is guarded by `pn_memory_check`, which adds offset and size in 32
bits. An instruction stays inside the guest's memory exactly when none of the additions it checks wraps to a sum that
the check accepts (`memory_confined_iff`).
-/

namespace Pnacl

open Lib

/-- `PN_MEMORY_GUARD_SIZE`. -/
def PN_MEMORY_GUARD_SIZE : Nat := 1024

/-- `PN_EINVAL`, what a builtin returns for an argument it cannot take. -/
def PN_EINVAL : Nat := 22

/-- `PNMemory`: `data` maps an offset from the data pointer to the host byte there, also behind the guest's `size`. -/
structure PNMemory where
  data : Nat → UInt8
  size : Nat

/-- `pn_memory_check`; `offset + size` is a sum of two `uint32_t`. -/
def pnMemoryCheck (memory : PNMemory) (offset size : Nat) : Except Stop Unit :=
  if offset < PN_MEMORY_GUARD_SIZE then
    pnFatal "memory access out of bounds: %u < %u\n" [offset, PN_MEMORY_GUARD_SIZE]
  else if (offset + size) % 2 ^ 32 > memory.size then
    pnFatal "memory-size is too small (%u < %u).\n" [memory.size, ((offset + size) % 2 ^ 32 : Nat)]
  else .ok ()

/-- `PN_DEFINE_MEMORY_READ` for a type of `n` bytes. -/
def pnMemoryRead (memory : PNMemory) (n offset : Nat) : Except Stop Nat := do
  pnMemoryCheck memory offset n
  .ok (loadBytes memory.data offset n)

/-- `PN_DEFINE_MEMORY_WRITE` for a type of `n` bytes. -/
def pnMemoryWrite (memory : PNMemory) (n offset value : Nat) : Except Stop PNMemory := do
  pnMemoryCheck memory offset n
  .ok { memory with data := storeBytes memory.data offset n value }

/-! ## The instructions -/

/-- The integer types of the atomic intrinsics. -/
inductive PNIntType where
  | u8 | u16 | u32 | u64
deriving Repr, DecidableEq

/-- The types of the load and store opcodes. -/
inductive PNMemoryType where
  | int (ty : PNIntType)
  | f32
  | f64
deriving Repr, DecidableEq

def PNIntType.sizeof : PNIntType → Nat
  | .u8 => 1
  | .u16 => 2
  | .u32 => 4
  | .u64 => 8

def PNMemoryType.sizeof : PNMemoryType → Nat
  | .int ty => ty.sizeof
  | .f32 => 4
  | .f64 => 8

/-- The bits of a `PNRuntimeValue`, a union of 64 bits. -/
abbrev PNRuntimeValue := UInt64

/-- The member of the union that has `n` bytes. -/
def PNRuntimeValue.member (v : PNRuntimeValue) (n : Nat) : Nat := v.toNat % 2 ^ (8 * n)

/-- The operators of `PN_OPCODE_INTRINSIC_RMW` and the exchange of `PN_OPCODE_INTRINSIC_EXCHANGE`. -/
inductive PNRmwOp where
  | add | sub | and | or | xor | exchange
deriving Repr, DecidableEq

/-- The `opval` the first argument has to be. -/
def PNRmwOp.opval : PNRmwOp → Nat
  | .add => 1
  | .sub => 2
  | .and => 3
  | .or => 4
  | .xor => 5
  | .exchange => 6

/-- `new_value`, in a type of `n` bytes. -/
def PNRmwOp.apply (op : PNRmwOp) (n old value : Nat) : Nat :=
  match op with
  | .add => (old + value) % 2 ^ (8 * n)
  | .sub => (old + (2 ^ (8 * n) - value)) % 2 ^ (8 * n)
  | .and => old &&& value
  | .or => old ||| value
  | .xor => old ^^^ value
  | .exchange => value

/-- The intrinsics that access guest memory. -/
inductive PNMemoryIntrinsic where
  | memcpy | memset | memmove
  | cmpxchg (ty : PNIntType)
  | atomicLoad (ty : PNIntType)
  | rmw (op : PNRmwOp) (ty : PNIntType)
  | atomicStore (ty : PNIntType)
deriving Repr, DecidableEq

/-- An instruction that accesses guest memory, with the run-time values of its operands. `hasResult` is
`i->result_value_id != PN_INVALID_VALUE_ID`. -/
inductive PNMemoryInst where
  | load (ty : PNMemoryType) (src : PNRuntimeValue)
  | store (ty : PNMemoryType) (dest value : PNRuntimeValue)
  | call (f : PNMemoryIntrinsic) (hasResult : Bool) (args : List PNRuntimeValue)

/-- What an instruction stores into its result value: the bytes of the union member, and its value. -/
structure PNResult where
  bytes : Nat
  value : Nat
deriving Repr, DecidableEq

/-- `PN_ARG(n, ty)` for a type of `bytes` bytes. -/
def pnArg (args : List PNRuntimeValue) (n bytes : Nat) : Nat := (args.getD n 0).member bytes

/-- The `PN_CHECK`s in front of an intrinsic. -/
def PNMemoryIntrinsic.guards (f : PNMemoryIntrinsic) (hasResult : Bool) (args : List PNRuntimeValue) :
    Except Stop Unit :=
  match f with
  | .memcpy | .memset | .memmove => do
    pnCheck (args.length = 5) "i->num_args == 5"
    pnCheck (hasResult = false) "i->result_value_id == PN_INVALID_VALUE_ID"
  | .cmpxchg _ => pnCheck (args.length = 5) "i->num_args == 5"
  | .atomicLoad _ => pnCheck (args.length = 2) "i->num_args == 2"
  | .rmw op _ => do
    pnCheck (args.length = 4) "i->num_args == 4"
    pnCheck (pnArg args 0 4 = op.opval) "PN_ARG(0, u32) == opval"
  | .atomicStore _ => do
    pnCheck (args.length = 3) "i->num_args == 3"
    pnCheck (hasResult = false) "i->result_value_id == PN_INVALID_VALUE_ID"

/-- `PN_OPCODE_INTRINSIC_CMPXCHG`. -/
def pnOpcodeIntrinsicCmpxchg (memory : PNMemory) (n addr expected desired : Nat) :
    Except Stop (Option PNResult × PNMemory) := do
  let read ← pnMemoryRead memory n addr
  if read = expected then
    let memory ← pnMemoryWrite memory n addr desired
    .ok (some ⟨n, read⟩, memory)
  else .ok (some ⟨n, read⟩, memory)

/-- `PN_OPCODE_INTRINSIC_RMW` and `PN_OPCODE_INTRINSIC_EXCHANGE`: the result is the `u32` member for every type. -/
def pnOpcodeIntrinsicRmw (memory : PNMemory) (op : PNRmwOp) (n addr value : Nat) :
    Except Stop (Option PNResult × PNMemory) := do
  let old ← pnMemoryRead memory n addr
  let memory ← pnMemoryWrite memory n addr (op.apply n old value)
  .ok (some ⟨4, old % 2 ^ 32⟩, memory)

/-- `PN_OPCODE_INTRINSIC_STORE`: a 32-bit write for every type. -/
def pnOpcodeIntrinsicStore (memory : PNMemory) (value addr : Nat) : Except Stop (Option PNResult × PNMemory) := do
  let memory ← pnMemoryWrite memory 4 addr (value % 2 ^ 32)
  .ok (none, memory)

/-- `PN_OPCODE_INTRINSIC_LLVM_MEMCPY`; `memcpy` has no meaning on ranges that overlap. -/
def pnOpcodeIntrinsicMemcpy (memory : PNMemory) (dst src len : Nat) : Except Stop (Option PNResult × PNMemory) :=
  if len > 0 then do
    pnMemoryCheck memory dst len
    pnMemoryCheck memory src len
    if dst < src + len ∧ src < dst + len then .error (.undefined "memcpy between overlapping ranges")
    else .ok (none, { memory with data := copyBytes memory.data dst src len })
  else .ok (none, memory)

/-- `PN_OPCODE_INTRINSIC_LLVM_MEMMOVE`. -/
def pnOpcodeIntrinsicMemmove (memory : PNMemory) (dst src len : Nat) : Except Stop (Option PNResult × PNMemory) :=
  if len > 0 then do
    pnMemoryCheck memory dst len
    pnMemoryCheck memory src len
    .ok (none, { memory with data := copyBytes memory.data dst src len })
  else .ok (none, memory)

/-- `PN_OPCODE_INTRINSIC_LLVM_MEMSET`. -/
def pnOpcodeIntrinsicMemset (memory : PNMemory) (dst value len : Nat) : Except Stop (Option PNResult × PNMemory) :=
  if len > 0 then do
    pnMemoryCheck memory dst len
    .ok (none, { memory with data := fillBytes memory.data dst (UInt8.ofNat value) len })
  else .ok (none, memory)

/-- The intrinsic behind its guards. -/
def PNMemoryIntrinsic.exec (f : PNMemoryIntrinsic) (memory : PNMemory) (args : List PNRuntimeValue) :
    Except Stop (Option PNResult × PNMemory) :=
  match f with
  | .memcpy => pnOpcodeIntrinsicMemcpy memory (pnArg args 0 4) (pnArg args 1 4) (pnArg args 2 4)
  | .memset => pnOpcodeIntrinsicMemset memory (pnArg args 0 4) (pnArg args 1 1) (pnArg args 2 4)
  | .memmove => pnOpcodeIntrinsicMemmove memory (pnArg args 0 4) (pnArg args 1 4) (pnArg args 2 4)
  | .cmpxchg ty =>
    pnOpcodeIntrinsicCmpxchg memory ty.sizeof (pnArg args 0 4) (pnArg args 1 ty.sizeof) (pnArg args 2 ty.sizeof)
  | .atomicLoad ty => do
    let value ← pnMemoryRead memory ty.sizeof (pnArg args 0 4)
    .ok (some ⟨ty.sizeof, value⟩, memory)
  | .rmw op ty => pnOpcodeIntrinsicRmw memory op ty.sizeof (pnArg args 1 4) (pnArg args 2 ty.sizeof)
  | .atomicStore ty => pnOpcodeIntrinsicStore memory (pnArg args 0 ty.sizeof) (pnArg args 1 4)

/-- Execute one instruction on guest memory. -/
def PNMemoryInst.exec (i : PNMemoryInst) (memory : PNMemory) : Except Stop (Option PNResult × PNMemory) :=
  match i with
  | .load ty src => do
    let value ← pnMemoryRead memory ty.sizeof (src.member 4)
    .ok (some ⟨ty.sizeof, value⟩, memory)
  | .store ty dest value => do
    let memory ← pnMemoryWrite memory ty.sizeof (dest.member 4) (value.member ty.sizeof)
    .ok (none, memory)
  | .call f hasResult args => do
    f.guards hasResult args
    f.exec memory args

/-- Execute instructions one after the other. -/
def pnMemoryRun (memory : PNMemory) : List PNMemoryInst → Except Stop PNMemory
  | [] => .ok memory
  | i :: is => do
    let (_, memory) ← i.exec memory
    pnMemoryRun memory is

/-! ## Ranges -/

/-- The ranges, as offset and size, that an intrinsic hands to `pn_memory_check`. -/
def PNMemoryIntrinsic.ranges (f : PNMemoryIntrinsic) (args : List PNRuntimeValue) : List (Nat × Nat) :=
  match f with
  | .memcpy | .memmove =>
    let len := pnArg args 2 4
    if len > 0 then [(pnArg args 0 4, len), (pnArg args 1 4, len)] else []
  | .memset =>
    let len := pnArg args 2 4
    if len > 0 then [(pnArg args 0 4, len)] else []
  | .cmpxchg ty | .atomicLoad ty => [(pnArg args 0 4, ty.sizeof)]
  | .rmw _ ty => [(pnArg args 1 4, ty.sizeof)]
  | .atomicStore _ => [(pnArg args 1 4, 4)]

/-- The ranges that an instruction hands to `pn_memory_check`. -/
def PNMemoryInst.ranges : PNMemoryInst → List (Nat × Nat)
  | .load ty src => [(src.member 4, ty.sizeof)]
  | .store ty dest _ => [(dest.member 4, ty.sizeof)]
  | .call f hasResult args =>
    match f.guards hasResult args with
    | .ok _ => f.ranges args
    | .error _ => []

/-- As unbounded integers, the range lies in `data[1024 .. size)`. -/
def PNMemory.InBounds (m : PNMemory) (r : Nat × Nat) : Prop := PN_MEMORY_GUARD_SIZE ≤ r.1 ∧ r.1 + r.2 ≤ m.size

/-- If the check accepts the range, it is in bounds. -/
def PNMemory.CheckedInBounds (m : PNMemory) (r : Nat × Nat) : Prop := pnMemoryCheck m r.1 r.2 = .ok () → m.InBounds r

/-- The sum of offset and size leaves 32 bits, and what is left of it is not above the size of the memory. -/
def WrapsInto (size : Nat) (r : Nat × Nat) : Prop :=
  PN_MEMORY_GUARD_SIZE ≤ r.1 ∧ 2 ^ 32 ≤ r.1 + r.2 ∧ r.1 + r.2 - 2 ^ 32 ≤ size

theorem pnMemoryCheck_eq_ok {m : PNMemory} {o n : Nat} :
    pnMemoryCheck m o n = .ok () ↔ PN_MEMORY_GUARD_SIZE ≤ o ∧ (o + n) % 2 ^ 32 ≤ m.size := by
  unfold pnMemoryCheck pnFatal
  split
  · simp; omega
  · split
    · simp; omega
    · simp; omega

/-- What one check is worth: it confines the range unless the sum wraps into the memory. -/
theorem checkedInBounds_iff {m : PNMemory} (hm : m.size < 2 ^ 32) {r : Nat × Nat} (h1 : r.1 < 2 ^ 32)
    (h2 : r.2 < 2 ^ 32) : m.CheckedInBounds r ↔ ¬WrapsInto m.size r := by
  rw [PNMemory.CheckedInBounds, pnMemoryCheck_eq_ok, PNMemory.InBounds, WrapsInto]
  by_cases hw : r.1 + r.2 < 2 ^ 32
  · rw [Nat.mod_eq_of_lt hw]; omega
  · rw [Nat.mod_eq_sub_mod (by omega), Nat.mod_eq_of_lt (by omega)]; omega

theorem PNRuntimeValue.member_four_lt (v : PNRuntimeValue) : v.member 4 < 2 ^ 32 := Nat.mod_lt _ (by omega)

theorem PNIntType.sizeof_le (ty : PNIntType) : ty.sizeof ≤ 8 := by cases ty <;> decide

theorem PNMemoryType.sizeof_le (ty : PNMemoryType) : ty.sizeof ≤ 8 := by
  cases ty with
  | int ty => exact ty.sizeof_le
  | f32 => decide
  | f64 => decide

theorem PNMemoryIntrinsic.ranges_lt {f : PNMemoryIntrinsic} {args : List PNRuntimeValue} {r : Nat × Nat}
    (hr : r ∈ f.ranges args) : r.1 < 2 ^ 32 ∧ r.2 < 2 ^ 32 := by
  have h4 (k : Nat) : pnArg args k 4 < 2 ^ 32 := PNRuntimeValue.member_four_lt _
  have h8 (ty : PNIntType) : ty.sizeof < 2 ^ 32 := Nat.lt_of_le_of_lt ty.sizeof_le (by omega)
  cases f with
  | memcpy | memset | memmove =>
    simp only [ranges] at hr
    split at hr
    · simp only [List.mem_cons, List.not_mem_nil, or_false] at hr
      rcases hr with rfl | rfl <;> exact ⟨h4 _, h4 _⟩
    · cases hr
  | cmpxchg ty | atomicLoad ty | rmw op ty | atomicStore ty =>
    rw [List.mem_singleton.mp hr]
    exact ⟨h4 _, by first | exact h8 _ | simp⟩

/-- The guest supplies 32-bit offsets and lengths. -/
theorem PNMemoryInst.ranges_lt {i : PNMemoryInst} {r : Nat × Nat} (hr : r ∈ i.ranges) :
    r.1 < 2 ^ 32 ∧ r.2 < 2 ^ 32 := by
  cases i with
  | load ty src | store ty src value =>
    rw [List.mem_singleton.mp hr]
    exact ⟨src.member_four_lt, Nat.lt_of_le_of_lt ty.sizeof_le (by omega)⟩
  | call f hasResult args =>
    rw [ranges] at hr
    split at hr
    · exact PNMemoryIntrinsic.ranges_lt hr
    · cases hr

/-! ## Confinement -/

/-- The memories are the same except for guest bytes. -/
structure SameHost (m m' : PNMemory) : Prop where
  size_eq : m'.size = m.size
  guard : SameBytes m.data m'.data 0 PN_MEMORY_GUARD_SIZE
  behind : ∀ b, SameBytes m.data m'.data m.size b

/-- The memories have the same guest bytes. -/
structure SameGuest (m m' : PNMemory) : Prop where
  size_eq : m'.size = m.size
  bytes : SameBytes m.data m'.data PN_MEMORY_GUARD_SIZE m.size

/-- Two runs end alike: with the same stop, or with the same result and the same guest bytes. -/
inductive SameOutcome {α : Type} : Except Stop (α × PNMemory) → Except Stop (α × PNMemory) → Prop where
  | error (e : Stop) : SameOutcome (.error e) (.error e)
  | ok (r : α) {m m' : PNMemory} (h : SameGuest m m') : SameOutcome (.ok (r, m)) (.ok (r, m'))

/-- **Confinement** of one instruction: ranges that pass the check are in bounds, no other byte is written, and the
outcome does not depend on any other byte. -/
structure Confined (m : PNMemory) (i : PNMemoryInst) : Prop where
  inBounds : ∀ r ∈ i.ranges, m.CheckedInBounds r
  writes : ∀ r m', i.exec m = .ok (r, m') → SameHost m m'
  reads : ∀ m', SameGuest m m' → SameOutcome (i.exec m) (i.exec m')

variable {m m' m₂ : PNMemory} {o n v : Nat}

theorem SameHost.refl (m : PNMemory) : SameHost m m := ⟨rfl, fun _ _ _ => rfl, fun _ _ _ _ => rfl⟩

theorem SameHost.trans (h : SameHost m m') (h' : SameHost m' m₂) : SameHost m m₂ where
  size_eq := h'.size_eq.trans h.size_eq
  guard i ha hb := (h'.guard i ha hb).trans (h.guard i ha hb)
  behind b i ha hb := (h'.behind b i (h.size_eq ▸ ha) hb).trans (h.behind b i ha hb)

theorem pnMemoryCheck_congr (h : SameGuest m m') (o n : Nat) : pnMemoryCheck m' o n = pnMemoryCheck m o n := by
  unfold pnMemoryCheck
  rw [h.size_eq]

theorem SameOutcome.bind {α β : Type} {x : Except Stop α} {f f' : α → Except Stop (β × PNMemory)}
    (h : ∀ a, x = .ok a → SameOutcome (f a) (f' a)) : SameOutcome (x >>= f) (x >>= f') := by
  cases x with
  | error e => exact .error e
  | ok a => exact h a rfl

/-- A checked access: the same check, then alike continuations on a range that is in bounds. -/
theorem SameOutcome.check {α : Type} {f f' : Except Stop (α × PNMemory)} (hc : m.CheckedInBounds (o, n))
    (hs : SameGuest m m') (h : m.InBounds (o, n) → SameOutcome f f') :
    SameOutcome (pnMemoryCheck m o n >>= fun _ => f) (pnMemoryCheck m' o n >>= fun _ => f') := by
  rw [pnMemoryCheck_congr hs]
  exact .bind fun _ ha => h (hc ha)

theorem pnMemoryRead_congr (hc : m.CheckedInBounds (o, n)) (hs : SameGuest m m') :
    pnMemoryRead m' n o = pnMemoryRead m n o := by
  unfold pnMemoryRead
  rw [pnMemoryCheck_congr hs]
  cases hk : pnMemoryCheck m o n with
  | error e => rfl
  | ok u =>
    have hb : m.InBounds (o, n) := hc hk
    rw [ok_bind, ok_bind, loadBytes_congr (hs.bytes.mono hb.1 hb.2)]

theorem pnMemoryWrite_bind_congr {α : Type} {f f' : PNMemory → Except Stop (α × PNMemory)}
    (hc : m.CheckedInBounds (o, n)) (hs : SameGuest m m')
    (h : ∀ a b, SameGuest a b → SameOutcome (f a) (f' b)) :
    SameOutcome (pnMemoryWrite m n o v >>= f) (pnMemoryWrite m' n o v >>= f') := by
  unfold pnMemoryWrite
  simp only [bind_assoc, ok_bind]
  exact .check hc hs fun _ => h _ _ ⟨hs.size_eq, storeBytes_congr hs.bytes⟩

/-- A write that returns changes only the range it checked. -/
theorem pnMemoryWrite_sameHost (hc : m.CheckedInBounds (o, n)) (h : pnMemoryWrite m n o v = .ok m') :
    SameHost m m' := by
  obtain ⟨_, hk, hm⟩ := bind_eq_ok.mp h
  obtain ⟨hlo, hhi⟩ := hc hk
  cases hm
  refine ⟨rfl, fun i _ hi => storeBytes_outside (.inl ?_), fun _ i hi _ => storeBytes_outside (.inr ?_)⟩
  · exact Nat.lt_of_lt_of_le hi hlo
  · exact Nat.le_trans hhi hi

/-! ### Writes -/

theorem copyBytes_sameHost {dst src len : Nat} (h : m.InBounds (dst, len)) :
    SameHost m { m with data := copyBytes m.data dst src len } where
  size_eq := rfl
  guard _ _ hi := copyBytes_outside (.inl (Nat.lt_of_lt_of_le hi h.1))
  behind _ _ hi _ := copyBytes_outside (.inr (Nat.le_trans h.2 hi))

theorem fillBytes_sameHost {dst len : Nat} {b : UInt8} (h : m.InBounds (dst, len)) :
    SameHost m { m with data := fillBytes m.data dst b len } where
  size_eq := rfl
  guard _ _ hi := fillBytes_outside (.inl (Nat.lt_of_lt_of_le hi h.1))
  behind _ _ hi _ := fillBytes_outside (.inr (Nat.le_trans h.2 hi))

variable {args : List PNRuntimeValue} {res : Option PNResult}

theorem PNMemoryIntrinsic.exec_sameHost {f : PNMemoryIntrinsic} (hc : ∀ r ∈ f.ranges args, m.CheckedInBounds r)
    (h : f.exec m args = .ok (res, m')) : SameHost m m' := by
  cases f with
  | memcpy =>
    simp only [exec, pnOpcodeIntrinsicMemcpy] at h
    simp only [ranges] at hc
    split at h
    next hl =>
      rw [if_pos hl] at hc
      obtain ⟨_, hd, h⟩ := bind_eq_ok.mp h
      obtain ⟨_, _, h⟩ := bind_eq_ok.mp h
      split at h
      · cases h
      · cases h
        exact copyBytes_sameHost (hc _ (by simp) hd)
    next => cases h; exact .refl m
  | memset =>
    simp only [exec, pnOpcodeIntrinsicMemset] at h
    simp only [ranges] at hc
    split at h
    next hl =>
      rw [if_pos hl] at hc
      obtain ⟨_, hd, h⟩ := bind_eq_ok.mp h
      cases h
      exact fillBytes_sameHost (hc _ (by simp) hd)
    next => cases h; exact .refl m
  | memmove =>
    simp only [exec, pnOpcodeIntrinsicMemmove] at h
    simp only [ranges] at hc
    split at h
    next hl =>
      rw [if_pos hl] at hc
      obtain ⟨_, hd, h⟩ := bind_eq_ok.mp h
      obtain ⟨_, _, h⟩ := bind_eq_ok.mp h
      cases h
      exact copyBytes_sameHost (hc _ (by simp) hd)
    next => cases h; exact .refl m
  | cmpxchg ty =>
    obtain ⟨read, _, h⟩ := bind_eq_ok.mp h
    split at h
    · obtain ⟨_, hw, h⟩ := bind_eq_ok.mp h
      cases h
      exact pnMemoryWrite_sameHost (hc _ (List.mem_singleton_self _)) hw
    · cases h; exact .refl m
  | atomicLoad ty =>
    obtain ⟨_, _, h⟩ := bind_eq_ok.mp h
    cases h; exact .refl m
  | rmw op ty =>
    obtain ⟨_, _, h⟩ := bind_eq_ok.mp h
    obtain ⟨_, hw, h⟩ := bind_eq_ok.mp h
    cases h
    exact pnMemoryWrite_sameHost (hc _ (List.mem_singleton_self _)) hw
  | atomicStore ty =>
    obtain ⟨_, hw, h⟩ := bind_eq_ok.mp h
    cases h
    exact pnMemoryWrite_sameHost (hc _ (List.mem_singleton_self _)) hw

/-- An instruction whose checks are worth something writes guest bytes only. -/
theorem PNMemoryInst.exec_sameHost {i : PNMemoryInst} (hc : ∀ r ∈ i.ranges, m.CheckedInBounds r)
    (h : i.exec m = .ok (res, m')) : SameHost m m' := by
  cases i with
  | load ty src =>
    obtain ⟨_, _, h⟩ := bind_eq_ok.mp h
    cases h; exact .refl m
  | store ty dest value =>
    obtain ⟨_, hw, h⟩ := bind_eq_ok.mp h
    cases h
    exact pnMemoryWrite_sameHost (hc _ (List.mem_singleton_self _)) hw
  | call f hasResult args =>
    obtain ⟨_, hg, h⟩ := bind_eq_ok.mp h
    rw [ranges, hg] at hc
    exact PNMemoryIntrinsic.exec_sameHost hc h

/-! ### Reads -/

theorem copyBytes_sameGuest {dst src len : Nat} (hs : SameGuest m m') (h : m.InBounds (src, len)) :
    SameGuest { m with data := copyBytes m.data dst src len } { m' with data := copyBytes m'.data dst src len } :=
  ⟨hs.size_eq, copyBytes_congr hs.bytes h.1 h.2⟩

theorem PNMemoryIntrinsic.exec_congr {f : PNMemoryIntrinsic} (hc : ∀ r ∈ f.ranges args, m.CheckedInBounds r)
    (hs : SameGuest m m') : SameOutcome (f.exec m args) (f.exec m' args) := by
  cases f with
  | memcpy =>
    simp only [exec, pnOpcodeIntrinsicMemcpy]
    simp only [ranges] at hc
    split
    next hl =>
      rw [if_pos hl] at hc
      refine .check (hc _ (by simp)) hs fun _ => .check (hc _ (by simp)) hs fun hb => ?_
      split
      · exact .error _
      · exact .ok none (copyBytes_sameGuest hs hb)
    next => exact .ok none hs
  | memset =>
    simp only [exec, pnOpcodeIntrinsicMemset]
    simp only [ranges] at hc
    split
    next hl =>
      rw [if_pos hl] at hc
      exact .check (hc _ (by simp)) hs fun _ => .ok none ⟨hs.size_eq, fillBytes_congr hs.bytes⟩
    next => exact .ok none hs
  | memmove =>
    simp only [exec, pnOpcodeIntrinsicMemmove]
    simp only [ranges] at hc
    split
    next hl =>
      rw [if_pos hl] at hc
      exact .check (hc _ (by simp)) hs fun _ => .check (hc _ (by simp)) hs fun hb =>
        .ok none (copyBytes_sameGuest hs hb)
    next => exact .ok none hs
  | cmpxchg ty =>
    have hr := hc _ (List.mem_singleton_self _)
    simp only [exec, pnOpcodeIntrinsicCmpxchg]
    rw [pnMemoryRead_congr hr hs]
    refine .bind fun read _ => ?_
    split
    · exact pnMemoryWrite_bind_congr hr hs fun a b h => .ok _ h
    · exact .ok _ hs
  | atomicLoad ty =>
    simp only [exec]
    rw [pnMemoryRead_congr (hc _ (List.mem_singleton_self _)) hs]
    exact .bind fun _ _ => .ok _ hs
  | rmw op ty =>
    have hr := hc _ (List.mem_singleton_self _)
    simp only [exec, pnOpcodeIntrinsicRmw]
    rw [pnMemoryRead_congr hr hs]
    exact .bind fun _ _ => pnMemoryWrite_bind_congr hr hs fun a b h => .ok _ h
  | atomicStore ty =>
    exact pnMemoryWrite_bind_congr (hc _ (List.mem_singleton_self _)) hs fun a b h => .ok _ h

/-- An instruction whose checks are worth something reads guest bytes only. -/
theorem PNMemoryInst.exec_congr {i : PNMemoryInst} (hc : ∀ r ∈ i.ranges, m.CheckedInBounds r)
    (hs : SameGuest m m') : SameOutcome (i.exec m) (i.exec m') := by
  cases i with
  | load ty src =>
    simp only [exec]
    rw [pnMemoryRead_congr (hc _ (List.mem_singleton_self _)) hs]
    exact .bind fun _ _ => .ok _ hs
  | store ty dest value =>
    exact pnMemoryWrite_bind_congr (hc _ (List.mem_singleton_self _)) hs fun a b h => .ok _ h
  | call f hasResult args =>
    simp only [exec]
    refine .bind fun _ hg => ?_
    rw [ranges, hg] at hc
    exact PNMemoryIntrinsic.exec_congr hc hs

/-! ### Runs -/

theorem confined_iff (hm : m.size < 2 ^ 32) (i : PNMemoryInst) :
    Confined m i ↔ ∀ r ∈ i.ranges, ¬WrapsInto m.size r := by
  have key (r : Nat × Nat) (hr : r ∈ i.ranges) : m.CheckedInBounds r ↔ ¬WrapsInto m.size r :=
    checkedInBounds_iff hm (PNMemoryInst.ranges_lt hr).1 (PNMemoryInst.ranges_lt hr).2
  constructor
  · intro h r hr
    exact (key r hr).mp (h.inBounds r hr)
  · intro h
    have hc : ∀ r ∈ i.ranges, m.CheckedInBounds r := fun r hr => (key r hr).mpr (h r hr)
    exact ⟨hc, fun _ _ he => PNMemoryInst.exec_sameHost hc he, fun _ hs => PNMemoryInst.exec_congr hc hs⟩

/-- No instruction of the run changes the host's bytes if none of its checks wraps into the memory. -/
theorem pnMemoryRun_sameHost : ∀ {is : List PNMemoryInst} {m m' : PNMemory}, m.size < 2 ^ 32 →
    (∀ i ∈ is, ∀ r ∈ i.ranges, ¬WrapsInto m.size r) → pnMemoryRun m is = .ok m' → SameHost m m'
  | [], m, m', _, _, h => by cases h; exact .refl m
  | i :: is, m, m', hm, hw, h => by
    obtain ⟨⟨res, m₁⟩, he, h⟩ := bind_eq_ok.mp h
    have h1 : SameHost m m₁ := ((confined_iff hm i).mpr (hw i (List.mem_cons_self ..))).writes res m₁ he
    have hw' : ∀ j ∈ is, ∀ r ∈ j.ranges, ¬WrapsInto m₁.size r := by
      rw [h1.size_eq]
      exact fun j hj => hw j (List.mem_cons_of_mem _ hj)
    exact h1.trans (pnMemoryRun_sameHost (h1.size_eq ▸ hm) hw' h)

/-- The size of the memory never changes. -/
theorem pnMemoryWrite_size (h : pnMemoryWrite m n o v = .ok m') : m'.size = m.size := by
  obtain ⟨_, _, h⟩ := bind_eq_ok.mp h
  cases h; rfl

theorem PNMemoryIntrinsic.exec_size {f : PNMemoryIntrinsic} (h : f.exec m args = .ok (res, m')) :
    m'.size = m.size := by
  cases f with
  | memcpy | memset | memmove =>
    simp only [exec, pnOpcodeIntrinsicMemcpy, pnOpcodeIntrinsicMemset, pnOpcodeIntrinsicMemmove] at h
    split at h
    · simp only [bind_eq_ok] at h
      grind
    · cases h; rfl
  | cmpxchg ty =>
    obtain ⟨read, _, h⟩ := bind_eq_ok.mp h
    split at h
    · obtain ⟨_, hw, h⟩ := bind_eq_ok.mp h
      cases h
      exact pnMemoryWrite_size hw
    · cases h; rfl
  | atomicLoad ty =>
    obtain ⟨_, _, h⟩ := bind_eq_ok.mp h
    cases h; rfl
  | rmw op ty =>
    obtain ⟨_, _, h⟩ := bind_eq_ok.mp h
    obtain ⟨_, hw, h⟩ := bind_eq_ok.mp h
    cases h
    exact pnMemoryWrite_size hw
  | atomicStore ty =>
    obtain ⟨_, hw, h⟩ := bind_eq_ok.mp h
    cases h
    exact pnMemoryWrite_size hw

theorem PNMemoryInst.exec_size {i : PNMemoryInst} (h : i.exec m = .ok (res, m')) : m'.size = m.size := by
  cases i with
  | load ty src =>
    obtain ⟨_, _, h⟩ := bind_eq_ok.mp h
    cases h; rfl
  | store ty dest value =>
    obtain ⟨_, hw, h⟩ := bind_eq_ok.mp h
    cases h
    exact pnMemoryWrite_size hw
  | call f hasResult args =>
    obtain ⟨_, _, h⟩ := bind_eq_ok.mp h
    exact PNMemoryIntrinsic.exec_size h

theorem pnMemoryRun_size : ∀ {is : List PNMemoryInst} {m m' : PNMemory}, pnMemoryRun m is = .ok m' → m'.size = m.size
  | [], _, _, h => by cases h; rfl
  | _ :: _, _, _, h => by
    obtain ⟨⟨_, m₁⟩, he, h⟩ := bind_eq_ok.mp h
    exact (pnMemoryRun_size h).trans (PNMemoryInst.exec_size he)

/-- **Guest memory confinement.** Whatever the guest did before (a run of any instructions on any memory), the next
instruction is confined to `data[1024 .. size)` iff no sum that it lets `pn_memory_check` compute wraps into the
memory; and a run whose instructions all meet this changes no byte outside. -/
theorem memory_confined_iff (m₀ : PNMemory) (hm : m₀.size ≤ 2 ^ 32 - 4096) (run : List PNMemoryInst) :
    (∀ m i, pnMemoryRun m₀ run = .ok m → (Confined m i ↔ ∀ r ∈ i.ranges, ¬WrapsInto m.size r)) ∧
      ((∀ i ∈ run, ∀ r ∈ i.ranges, ¬WrapsInto m₀.size r) → ∀ m, pnMemoryRun m₀ run = .ok m → SameHost m₀ m) := by
  constructor
  · intro m i h
    have := pnMemoryRun_size h
    exact confined_iff (by omega) i
  · intro hw m h
    exact pnMemoryRun_sameHost (by omega) hw h

/-- A load below the top of a memory of 1 MiB is confined. -/
theorem memory_confined_iff_load :
    Confined ⟨fun _ => 0, 2 ^ 20⟩ (.load (.int .u32) 0xFFFFC) := by
  refine ((memory_confined_iff ⟨fun _ => 0, 2 ^ 20⟩ (by decide) []).1 _ _ rfl).mpr ?_
  intro r hr
  rw [List.mem_singleton.mp hr]
  unfold WrapsInto
  decide

/-- A 32-bit load at `0xFFFFFFFC`: the sum of offset and size is `0`, and the check accepts it. -/
theorem load_at_top_not_confined :
    let m : PNMemory := ⟨fun _ => 0, 2 ^ 20⟩
    let i : PNMemoryInst := .load (.int .u32) 0xFFFFFFFC
    (0xFFFFFFFC, 4) ∈ i.ranges ∧ pnMemoryCheck m 0xFFFFFFFC 4 = .ok () ∧ ¬m.InBounds (0xFFFFFFFC, 4) ∧
      (∃ r, i.exec m = .ok (r, m)) ∧ ¬Confined m i := by
  intro m i
  have hr : (0xFFFFFFFC, 4) ∈ i.ranges := List.mem_singleton_self _
  have hk : pnMemoryCheck m 0xFFFFFFFC 4 = .ok () := rfl
  have hb : ¬m.InBounds (0xFFFFFFFC, 4) := by unfold PNMemory.InBounds; decide
  exact ⟨hr, hk, hb, ⟨_, rfl⟩, fun h => hb (h.inBounds _ hr hk)⟩

end Pnacl
