import Pnacl.BodyMeaning
import Pnacl.Frames
import Pnacl.PhiEdges

/-!
# Executing the body of a function

The cases of `pn_thread_execute_instruction` that stay in their frame: the instructions that set a value, STORE and the branches.
They keep the frame (`FrameState.sets`), and a branch can stop for lack of memory only (`phiAssigns_returns`).
-/

namespace Pnacl

open Lib

/-! ## The instructions -/

/-- `PN_OPCODE_LOAD(ty)`; the bytes behind the member of the union stay what they were. -/
def opcodeLoad (ex : PNExecutor) (ret : Nat) (type0 : PNBasicType) (resultValueId srcId : Nat) (th : PNThread) :
    Except Stop PNThread := do
  let value ← pnMemoryRead th.memory type0.bytes (pnThreadGetValue ex th srcId % 2 ^ 32)
  let th ← pnThreadSetValue ex th resultValueId (2 ^ (8 * type0.bytes) * (ret / 2 ^ (8 * type0.bytes)) + value)
  .ok { th with inst := th.inst + 16 }

/-- `PN_OPCODE_STORE(ty)`. -/
def opcodeStore (ex : PNExecutor) (type0 : PNBasicType) (destId valueId : Nat) (th : PNThread) : Except Stop PNThread := do
  let memory ← pnMemoryWrite th.memory type0.bytes (pnThreadGetValue ex th destId % 2 ^ 32)
    (pnThreadGetValue ex th valueId % 2 ^ (8 * type0.bytes))
  .ok { th with memory := memory, inst := th.inst + 16 }

/-- What a step depends on besides the thread: `malloc`, the bytes in a local variable that is not set, and floating point. -/
structure StepHost where
  malloc : Malloc
  ret : Nat
  float : PNOpcode → List Nat → Nat

/-- `pn_thread_execute_instruction`; ALLOCA, CALL with the intrinsics and the returns are `other`. -/
def executeInstruction (ex : PNExecutor) (stream : PNIstream) (other : PNRuntimeInstruction → PNThread → Except Stop PNThread)
    (step : StepHost) (th : PNThread) : Except Stop PNThread :=
  match stream.at th.inst with
  | none => .error (.undefined "no instruction at this address")
  | some (.binop opcode res id₀ id₁) => opcodeInteger ex step.float step.ret (.binop opcode res id₀ id₁) th
  | some (.cast opcode res id) => opcodeInteger ex step.float step.ret (.cast opcode res id) th
  | some (.cmp2 opcode res id₀ id₁) => opcodeInteger ex step.float step.ret (.cmp2 opcode res id₀ id₁) th
  | some (.vselect res cond id₀ id₁) => opcodeInteger ex step.float step.ret (.vselect res cond id₀ id₁) th
  | some (.load (.load type0) res src _) => opcodeLoad ex step.ret type0 res src th
  | some (.store (.store type0) dest id _) => opcodeStore ex type0 dest id th
  | some (.br _) | some (.brInt1 _ _ _) | some (.switch _ _ _ _ _) => opcodeBranch ex stream step.malloc th
  | some r => other r th

/-- One instruction after the other. -/
def executeInstructions (ex : PNExecutor) (stream : PNIstream) (other : PNRuntimeInstruction → PNThread → Except Stop PNThread) :
    List StepHost → PNThread → Except Stop PNThread
  | [], th => .ok th
  | step :: steps, th => do
    let th ← executeInstruction ex stream other step th
    executeInstructions ex stream other steps th

/-! ## Lack of memory -/

/-- What `pn_malloc` says. -/
def outOfMemory : Stop := .fatal "Out of memory.\n" []

section Alloc

variable {malloc : Nat → Nat} {a : PNAllocator} {align size : Nat}

theorem newChunk_outOfMemory (hi : a.minChunkSize ≤ 2 ^ 63) (hm : MallocOk malloc a.chunks) (ha : IsAlign align)
    (hs : size < 2 ^ 31) : Avoids (· ≠ outOfMemory) (pnAllocatorNewChunk malloc a size align) fun _ => True := by
  have halign : align < 2 ^ 32 := ha.2
  obtain ⟨n, hn, hle⟩ : ∃ r, pnNextPowerOfTwo (max (size + PNAllocatorChunk.sizeof + align - 1) a.minChunkSize) = .ok r ∧
      max (size + PNAllocatorChunk.sizeof + align - 1) a.minChunkSize ≤ r := by
    apply pnNextPowerOfTwo_spec
    simp only [PNAllocatorChunk.sizeof]
    omega
  unfold pnAllocatorNewChunk
  rw [pnCheck_bind (show size < 0x80000000 from hs), hn, ok_bind]
  unfold pnMalloc
  by_cases h0 : malloc n = 0
  · rw [if_pos h0]
    exact .error (not_not.mpr rfl)
  · have hr : malloc n + n ≤ addressLimit := hm.range n h0
    simp only [addressLimit, PNAllocatorChunk.sizeof] at hr hle
    obtain ⟨p, hp, -⟩ := pnAlignUpPointer_spec (p := malloc n + PNAllocatorChunk.sizeof) ha.1
      (by simp only [PNAllocatorChunk.sizeof]; omega)
    rw [if_neg h0, ok_bind, pnIsAlignedPointer_eight (hm.aligned n), ok_bind, cAssert_bind rfl,
      Nat.mod_eq_of_lt (a := malloc n + PNAllocatorChunk.sizeof) (by simp only [PNAllocatorChunk.sizeof]; omega), hp]
    exact .ok trivial

theorem allocInNewChunk_outOfMemory (hi : a.Inv) (hm : MallocOk malloc a.chunks) (ha : IsAlign align) (hs : size < 2 ^ 31) :
    Avoids (· ≠ outOfMemory) (allocInNewChunk malloc a size align) fun _ => True := by
  have halign := ha.2
  refine Avoids.bind (Q := fun r => FreshChunk a.chunks r.1 size align) ?_ fun r hf => ?_
  · have hspec := newChunk_spec hi.min_le hm ha size
    exact ⟨fun r hr => (hspec.of_ok hr).1, (newChunk_outOfMemory hi.min_le hm ha hs).2⟩
  · have hroom := hf.room
    have hend := hf.wf.end_le
    simp only [addressLimit] at hend
    dsimp only
    rw [pnAlignUpPointer_self ha.1 (by omega) hf.aligned, ok_bind, Nat.mod_eq_of_lt (by omega), pnCheck_bind (by omega),
      cAssert_bind hroom]
    exact .ok trivial

/-- A small allocation stops for lack of memory only. -/
theorem alloc_outOfMemory (hi : a.Inv) (hm : MallocOk malloc a.chunks) (ha : IsAlign align) (hs : size < 2 ^ 31) :
    Avoids (· ≠ outOfMemory) (pnAllocatorAlloc malloc a size align) fun _ => True := by
  unfold pnAllocatorAlloc
  split
  next => exact allocInNewChunk_outOfMemory hi hm ha hs
  next c cs hcs =>
    have hc : c.Wf := hi.wf c (by rw [hcs]; exact List.mem_cons_self ..)
    have hcur := hc.current_le
    have hend := hc.end_le
    have halign := ha.2
    simp only [addressLimit] at hend
    obtain ⟨ret, hret, -, hlt, -⟩ := pnAlignUpPointer_spec (p := c.current) ha.1 (by omega)
    have hsum : (ret + size) % 2 ^ 64 = ret + size := Nat.mod_eq_of_lt (by omega)
    rw [hret, ok_bind, hsum, pnCheck_bind (Nat.le_add_right ret size)]
    split
    · exact allocInNewChunk_outOfMemory hi hm ha hs
    · exact .ok trivial

end Alloc

/-! ## The frame -/

/-- The frame and all that is not a value is as it was. -/
structure KeepsFrame (th th' : PNThread) : Prop where
  allocator : th'.allocator = th.allocator
  currentFrame : th'.currentFrame = th.currentFrame
  record : readFrame th'.mem th.currentFrame = readFrame th.mem th.currentFrame
  inst : th'.inst = th.inst
  functionId : th'.functionId = th.functionId
  memory : th'.memory = th.memory

theorem KeepsFrame.refl (th : PNThread) : KeepsFrame th th := ⟨rfl, rfl, rfl, rfl, rfl, rfl⟩

theorem KeepsFrame.trans {th th₁ th' : PNThread} (h : KeepsFrame th th₁) (h' : KeepsFrame th₁ th') : KeepsFrame th th' where
  allocator := h'.allocator.trans h.allocator
  currentFrame := h'.currentFrame.trans h.currentFrame
  record := by
    have hrecord := h'.record
    rw [h.currentFrame] at hrecord
    exact hrecord.trans h.record
  inst := h'.inst.trans h.inst
  functionId := h'.functionId.trans h.functionId
  memory := h'.memory.trans h.memory

section Frame

variable {ex : PNExecutor} {th th' : PNThread} {n destInst : Nat}

theorem FrameState.keeps (h : FrameState th n) (hk : KeepsFrame th th') : FrameState th' n := by
  have hrecord : readFrame th'.mem th'.currentFrame = readFrame th.mem th.currentFrame := by
    rw [hk.currentFrame]
    exact hk.record
  refine ⟨hk.allocator ▸ h.inv, ?_, ?_, ?_⟩
  · rw [hk.allocator, hk.currentFrame]
    exact h.frame
  · rw [hk.allocator, hrecord]
    exact h.values
  · rw [hrecord, hk.currentFrame]
    exact h.disjoint

theorem FrameState.setValue_keeps (h : FrameState th n) {id w : Nat} (hlt : id < ex.numValues + n)
    (hs : pnThreadSetValue ex th id w = .ok th') : KeepsFrame th th' := by
  obtain ⟨hid, -⟩ := setValue_ok hs
  obtain ⟨-, -, rfl⟩ := h.setValue hlt hs
  have hdis := h.disjoint
  generalize (readFrame th.mem th.currentFrame).functionValues = values at hdis ⊢
  simp only [PNBlock.Disjoint] at hdis
  exact ⟨rfl, rfl, readFrame_congr (update_sameWords (by omega)), rfl, rfl, rfl⟩

theorem FrameState.sets (h : FrameState th n) (hs : Sets ex (fun id => id < ex.numValues + n) th th') : KeepsFrame th th' := by
  induction hs with
  | refl th => exact .refl th
  | step hid hset _ ih =>
    have hk := h.setValue_keeps hid hset
    exact hk.trans (ih (h.keeps hk))

/-! ## The phi assigns -/

/-- The destinations on the way to `destInst` are values of the function. -/
def DestsLocal (ex : PNExecutor) (n destInst : Nat) (as : List PNRuntimePhiAssign) : Prop :=
  ∀ m ∈ movesTo destInst as, ex.numValues ≤ m.dest ∧ m.dest < ex.numValues + n ∧ m.dest ≠ PN_INVALID_VALUE_ID

/-- The second pass returns if the destinations are values of the function. -/
theorem phiAssignsWrite_returns : ∀ {as : List PNRuntimePhiAssign} (temp : Nat) {th : PNThread}, FrameState th n →
    DestsLocal ex n destInst as → ∃ th', phiAssignsWrite ex destInst th temp as = .ok th'
  | [], _, th, _, _ => ⟨th, rfl⟩
  | a :: as, temp, th, h, hr => by
    rw [phiAssignsWrite]
    split
    · next heq =>
      rw [DestsLocal, movesTo_cons_of_eq heq] at hr
      obtain ⟨hge, hlt, hne⟩ := hr _ (List.mem_cons_self ..)
      have hset := h.setValue_returns hge hlt hne (th.mem temp)
      rw [hset, ok_bind]
      exact phiAssignsWrite_returns _ (h.setValue hlt hset).1 fun m hm => hr m (List.mem_cons_of_mem _ hm)
    · next hne =>
      rw [DestsLocal, movesTo_cons_of_ne hne] at hr
      exact phiAssignsWrite_returns _ h hr

/-- The state between the two passes: the array is apart from the frame and its values. -/
theorem FrameState.read (ex : PNExecutor) {malloc : Malloc} {as : List PNRuntimePhiAssign} {temp : Nat} {a : PNAllocator}
    (h : FrameState th n) (hm : MallocOk (malloc th.allocator.chunks) th.allocator.chunks) (hlen : as.length < 2 ^ 16)
    (hal : pnAllocatorAlloc (malloc th.allocator.chunks) th.allocator (PNRuntimeValue.sizeof * as.length) PNRuntimeValue.sizeof =
      .ok (temp, a)) :
    FrameState (phiAssignsRead ex { th with allocator := a } temp as) n ∧ a.Inv ∧ Extends th.allocator a ∧
      KeepsFrame { th with allocator := a } (phiAssignsRead ex { th with allocator := a } temp as) := by
  obtain ⟨hi, hx, -, -, hd⟩ := alloc_block h.inv hm isAlign_eight (by unfold PNRuntimeValue.sizeof; omega) hal
  obtain ⟨heq, hout⟩ := phiAssignsRead_eq ex as temp { th with allocator := a }
  have hdf := hd _ h.frame
  simp only [PNBlock.Disjoint, PNRuntimeValue.sizeof] at hdf
  have hframe : SameWords th.mem (phiAssignsRead ex { th with allocator := a } temp as).mem th.currentFrame PNCallFrame.sizeof :=
    fun p hlo hhi => hout p (by omega)
  have hk : KeepsFrame { th with allocator := a } (phiAssignsRead ex { th with allocator := a } temp as) := by
    have hrecord := readFrame_congr hframe
    rw [heq] at hrecord ⊢
    exact ⟨rfl, rfl, hrecord, rfl, rfl, rfl⟩
  have h₁ : FrameState { th with allocator := a } n := ⟨hi, h.frame.mono hx, h.values.mono hx, h.disjoint⟩
  exact ⟨h₁.keeps hk, hi, hx, hk⟩

/-- **The phi assigns** of an edge stop for lack of memory or return, and keep the frame. -/
theorem phiAssigns_returns {malloc : Malloc} (fast : Bool) {as : List PNRuntimePhiAssign} (h : FrameState th n)
    (hm : MallocOk (malloc th.allocator.chunks) th.allocator.chunks) (hlen : as.length < 2 ^ 16)
    (hlt : ∀ a ∈ as, a.destValueId < ex.numValues + n) (hr : DestsLocal ex n destInst as)
    (hf : MarkFound th.allocator (pnAllocatorMark th.allocator)) :
    Avoids (· ≠ outOfMemory) (pnThreadDoPhiAssigns ex malloc fast as destInst th) fun th' => KeepsFrame th th' := by
  cases fast with
  | true =>
    rw [pnThreadDoPhiAssigns, if_pos rfl]
    obtain ⟨th', hth'⟩ := phiAssignsInPlace_returns h hr
    rw [hth']
    exact .ok (h.sets (phiAssignsInPlace_sets hlt hth'))
  | false =>
    rw [pnThreadDoPhiAssigns, if_neg (by decide)]
    have hsize : PNRuntimeValue.sizeof * as.length < 2 ^ 31 := by
      unfold PNRuntimeValue.sizeof
      omega
    refine Avoids.bind_ok (alloc_outOfMemory h.inv hm isAlign_eight hsize).2 fun x hal => ?_
    obtain ⟨temp, a⟩ := x
    obtain ⟨h₁, hi, hx, hk₁⟩ := h.read ex hm hlen hal
    obtain ⟨th₂, hw⟩ := phiAssignsWrite_returns temp h₁ hr
    dsimp only
    rw [hw, ok_bind]
    have hk₂ := h₁.sets (phiAssignsWrite_sets hlt hw)
    have hk := hk₁.trans hk₂
    have hreset : pnAllocatorResetToMark th₂.allocator (pnAllocatorMark th.allocator) = th.allocator := by
      rw [hk.allocator]
      exact resetToMark_restores h.inv (hf.safe h.inv (.refl _)) hi hx
    exact .ok ⟨hreset, hk.currentFrame, hk.record, hk.inst, hk.functionId, hk.memory⟩

end Frame

end Pnacl
