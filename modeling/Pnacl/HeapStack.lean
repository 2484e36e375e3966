import Pnacl.FrameOps
import Pnacl.PageMap

/-!
# The heap and the stack of the main thread

The heap grows from below when MMAP moves `heap_end` back, the stack of the main thread from above with every ALLOCA. A frame
remembers the top of the stack in `memory_stack_top`; the frame of a callee starts with its caller's.

- `Tops`: no frame's top is above its caller's, and neither is a value that STACKSAVE answered in it;
- `StackInv.step`: every step that is `HeapSafe` keeps this, and `heap_end` below the top of the current frame;
- `heap_below_stack`: the heap and the stack in every state of every run.
-/

namespace Pnacl

open Lib

/-! ## The instructions -/

/-- `PNRuntimeInstructionAlloca`. -/
structure PNRuntimeInstructionAlloca where
  resultValueId : Nat
  sizeId : Nat
  alignment : Nat
deriving Repr, DecidableEq

/-- `sizeof(PNRuntimeInstructionAlloca)`. -/
def PNRuntimeInstructionAlloca.sizeof : Nat := 16

/-- The main thread, with the heap. `saved` is a history variable: the values that STACKSAVE answered in the frame at an
address. -/
structure PNMainThread where
  th : PNThread
  heapStart : Nat
  heapEnd : Nat
  mappedPages : PNBitSet
  saved : Nat → List Nat

def PNMainThread.heap (s : PNMainThread) : PNGuestHeap := ⟨s.th.memory, s.heapStart, s.heapEnd, s.mappedPages⟩

def PNMainThread.setHeap (s : PNMainThread) (h : PNGuestHeap) : PNMainThread :=
  { s with th := { s.th with memory := h.memory }, heapStart := h.heapStart, heapEnd := h.heapEnd, mappedPages := h.mappedPages }

/-- `thread->current_frame->memory_stack_top`. -/
def PNThread.stackTop (th : PNThread) : Nat := (readFrame th.mem th.currentFrame).memoryStackTop

section

variable (ex : PNExecutor)

/-- The size operand, in 32 bits. -/
def allocaSize (i : PNRuntimeInstructionAlloca) (th : PNThread) : Nat := pnThreadGetValue ex th i.sizeId % 2 ^ 32

/-- Where the stack ends behind an ALLOCA. -/
def allocaTop (i : PNRuntimeInstructionAlloca) (th : PNThread) : Nat :=
  pnAlignDown ((th.stackTop + 2 ^ 32 - allocaSize ex i th) % 2 ^ 32) i.alignment

/-- `PN_OPCODE_ALLOCA_INT32` of the main thread. -/
def opcodeAlloca (heapEnd : Nat) (i : PNRuntimeInstructionAlloca) (th : PNThread) : Except Stop PNThread :=
  let result := allocaTop ex i th
  if result < heapEnd then pnFatal "Out of stack\n" []
  else do
    let th ← pnThreadSetValue ex (th.modifyFrame fun f => { f with memoryStackTop := result }) i.resultValueId result
    .ok { th with inst := th.inst + PNRuntimeInstructionAlloca.sizeof }

/-- `PN_OPCODE_INTRINSIC_LLVM_STACKSAVE`. -/
def opcodeStacksave (th : PNThread) : Except Stop PNThread := do
  let i := ex.callAt th.inst
  pnCheck (i.argIds.length = 0) "i->num_args == 0"
  pnCheck (i.resultValueId ≠ PN_INVALID_VALUE_ID) "i->result_value_id != PN_INVALID_VALUE_ID"
  let th ← pnThreadSetValue ex th i.resultValueId th.stackTop
  .ok { th with inst := th.inst + i.size }

/-- The argument of STACKRESTORE. -/
def restoreValue (th : PNThread) : Nat := pnThreadGetValue ex th ((ex.callAt th.inst).argIds.getD 0 0) % 2 ^ 32

/-- `PN_OPCODE_INTRINSIC_LLVM_STACKRESTORE`. -/
def opcodeStackrestore (th : PNThread) : Except Stop PNThread := do
  let i := ex.callAt th.inst
  pnCheck (i.argIds.length = 1) "i->num_args == 1"
  pnCheck (i.resultValueId = PN_INVALID_VALUE_ID) "i->result_value_id == PN_INVALID_VALUE_ID"
  let value := restoreValue ex th
  .ok { th.modifyFrame fun f => { f with memoryStackTop := value } with inst := th.inst + i.size }

/-- The strings of `argv` or `envp` are copied behind each other; `lens` are their lengths with the terminating zero. -/
def checkStrings (memory : PNMemory) : Nat → List Nat → Except Stop Nat
  | dataOffset, [] => .ok dataOffset
  | dataOffset, len :: lens => do
    pnMemoryCheck memory (dataOffset % 2 ^ 32) (len % 2 ^ 32)
    checkStrings memory (dataOffset + len) lens

/-- `pn_memory_init_startinfo`, as far as it concerns `heap_start`. -/
def pnMemoryInitStartinfo (memory : PNMemory) (globalvarEnd : Nat) (argLens envLens : List Nat) : Except Stop Nat := do
  let startinfoStart := pnAlignUp globalvarEnd 4
  let size := 4 * (3 + (argLens.length + 1) + (envLens.length + 1) + 3)
  pnMemoryCheck memory startinfoStart (size % 2 ^ 32)
  let dataOffset ← checkStrings memory (startinfoStart + size) (argLens ++ envLens)
  .ok (pnAlignUp (dataOffset % 2 ^ 32) PN_PAGESIZE)

/-- What can happen next. MMAP and MUNMAP are called by any thread; what such a call does to a frame of the main thread is a
step of its own. -/
inductive PNStackOp where
  | alloca (i : PNRuntimeInstructionAlloca)
  | stacksave
  | stackrestore
  | mmap (args : List PNRuntimeValue)
  | munmap (args : List PNRuntimeValue)
  | thread (op : PNThreadOp)

/-- A new frame has saved nothing yet. -/
def savedBehind (saved : Nat → List Nat) (th' : PNThread) : PNThreadOp → Nat → List Nat
  | .call _ _ => Function.update saved th'.currentFrame []
  | _ => saved

/-- One step. -/
def PNStackOp.exec (s : PNMainThread) : PNStackOp → Except Stop PNMainThread
  | .alloca i => do
    let th ← opcodeAlloca ex s.heapEnd i s.th
    .ok { s with th := th }
  | .stacksave => do
    let th ← opcodeStacksave ex s.th
    .ok { s with
      th := th
      saved := Function.update s.saved s.th.currentFrame (s.th.stackTop :: s.saved s.th.currentFrame) }
  | .stackrestore => do
    let th ← opcodeStackrestore ex s.th
    .ok { s with th := th }
  | .mmap args => do
    let (_, h) ← pnBuiltinNaclIrtMemoryMmap s.heap s.th.stackTop args
    .ok (s.setHeap h)
  | .munmap args => do
    let (_, h) ← pnBuiltinNaclIrtMemoryMunmap s.heap args
    .ok (s.setHeap h)
  | .thread op => do
    let th ← op.exec ex s.th
    .ok { s with th := th, saved := savedBehind s.saved th op }

/-- Other instructions leave the top of the stack alone, and nothing changes the size of memory. -/
def PNThreadOp.KeepsSizes (th : PNThread) : PNThreadOp → Prop
  | .other _ _ _ memoryStackTop memory => memoryStackTop = th.stackTop ∧ memory.size = th.memory.size
  | .elsewhere _ memory => memory.size = th.memory.size
  | _ => True

/-- The step is one that an accepted module can give: results go to values of the function, and STACKRESTORE gets a value that
STACKSAVE answered in the same frame. -/
def PNStackOp.Promised (s : PNMainThread) : PNStackOp → Prop
  | .alloca i => i.resultValueId < ex.numValues + (ex.functions s.th.functionId).numValues
  | .stacksave => ResultInRange ex s.th.functionId (ex.callAt s.th.inst)
  | .stackrestore => restoreValue ex s.th ∈ s.saved s.th.currentFrame
  | .mmap _ | .munmap _ => True
  | .thread op => op.Promised ex s.th ∧ op.KeepsSizes s.th

/-- The top of the frame that called the one at `f`. -/
def callerTop (th : PNThread) (f : Nat) : Nat :=
  if (readFrame th.mem f).parent = ex.sentinel then ex.stackEnd
  else (readFrame th.mem (readFrame th.mem f).parent).memoryStackTop

/-- The stack top in the copy that LONGJMP writes back lies between the heap and the caller's top. -/
def LongjmpAbove (heapEnd : Nat) (th : PNThread) : PNThreadOp → Prop
  | .longjmp fuel => ∀ id f buf, longjmpId ex th = .ok id →
      searchFrames ex th id fuel th.currentFrame = .ok (some (f, buf)) →
      heapEnd ≤ (readJmpBuf th.mem buf).frame.memoryStackTop ∧
        (readJmpBuf th.mem buf).frame.memoryStackTop ≤ callerTop ex th f
  | _ => True

/-- The pages that MMAP needs follow each other in the heap, or `heap_end` does not wrap when it moves. -/
def GrowFits (h : PNGuestHeap) (pages : Nat) : Prop :=
  (∃ s, h.heapStart / 4096 ≤ s ∧ s + pages ≤ h.heapEnd / 4096 ∧ 0 < pages ∧ FreeRun h.mappedPages s pages) ∨
    h.heapEnd + 4096 * pages < 2 ^ 32

/-- ALLOCA does not ask for more than there is below the top, STACKRESTORE and LONGJMP do not go below `heap_end`, moving
`heap_end` does not wrap, and the frames are safe. -/
def PNStackOp.HeapSafe (s : PNMainThread) : PNStackOp → Prop
  | .alloca i => allocaSize ex i s.th ≤ s.th.stackTop
  | .stackrestore => s.heapEnd ≤ restoreValue ex s.th
  | .mmap args => GrowFits s.heap (pageCount (pnArg args 1 4) % 2 ^ 20)
  | .stacksave | .munmap _ => True
  | .thread op => op.FrameSafe ex s.th ∧ LongjmpAbove ex s.heapEnd s.th op

/-- The states of the runs in which every step meets `S`. -/
inductive StackRun (S : PNMainThread → PNStackOp → Prop) : PNMainThread → Prop where
  | init {malloc : Malloc} {mem : PNWords} {memory : PNMemory} {mark : PNAllocatorMark} {globalvarEnd heapStart : Nat}
      {argLens envLens : List Nat} {h : PNGuestHeap} {th : PNThread} (hm : MallocFresh ex malloc) (hsize : memory.size < 2 ^ 32)
      (hend : ex.stackEnd = memory.size) (hstart : pnMemoryInitStartinfo memory globalvarEnd argLens envLens = .ok heapStart)
      (hheap : pnExecutorInitHeap memory heapStart = .ok h) (hth : pnExecutorInit ex malloc mem memory mark = .ok th) :
      StackRun S ⟨th, h.heapStart, h.heapEnd, h.mappedPages, fun _ => []⟩
  | step {s s' : PNMainThread} (op : PNStackOp) (h : StackRun S s) (alive : s.th.dead = false) (hp : op.Promised ex s)
      (hs : S s op) (he : op.exec ex s = .ok s') : StackRun S s'

end

variable {ex : PNExecutor} {th th' : PNThread} {s s' : PNMainThread} {e : Entry} {es : List Entry} {mem mem' : PNWords}
  {saved saved' : Nat → List Nat}

/-! ## What the steps do to the frames -/

theorem FramesInv.stackTop_eq (h : FramesInv ex th (e :: es)) : th.stackTop = (readFrame th.mem e.addr).memoryStackTop := by
  unfold PNThread.stackTop
  rw [h.current]
  rfl

/-- Storing into `memory_stack_top`. -/
theorem FramesInv.modifyTop (h : FramesInv ex th (e :: es)) (stackTop : Nat) :
    Stayed ex stackTop th (th.modifyFrame fun f => { f with memoryStackTop := stackTop }) e es := by
  have hfix := h.head
  obtain ⟨h₁, hsame, hframe⟩ := h.modifyFrame (f := fun f => { f with memoryStackTop := stackTop })
    ⟨hfix.functionId, hfix.mark, hfix.values, hfix.parent⟩
  exact ⟨h₁, hsame.subset fun b hb => List.mem_cons_of_mem _ hb, by rw [hframe], rfl⟩

/-- Setting a value of the function behind a step that stays, and going on. -/
theorem Stayed.setValue {stackTop id w inst : Nat} {th₁ : PNThread} (h : Stayed ex stackTop th th₁ e es)
    (hr : e.HasValue ex id) (hset : pnThreadSetValue ex th₁ id w = .ok th') :
    Stayed ex stackTop th { th' with inst := inst } e es := by
  have c := h.inv.setValue hr hset
  refine ⟨(h.inv.calm c).fields rfl rfl rfl rfl, h.same.trans (c.same.subset fun b hb => List.mem_cons_of_mem _ hb), ?_, ?_⟩
  · exact (congrArg PNCallFrame.memoryStackTop (c.readFrame e (List.mem_cons_self ..))).trans h.top
  · rw [← h.dead, c.eq]

theorem Stayed.refl (h : FramesInv ex th (e :: es)) : Stayed ex th.stackTop th th e es :=
  ⟨h, .refl _ _, h.stackTop_eq.symm, rfl⟩

theorem opcodeAlloca_spec (h : FramesInv ex th (e :: es)) {heapEnd : Nat} {i : PNRuntimeInstructionAlloca}
    (hr : e.HasValue ex i.resultValueId) (ha : opcodeAlloca ex heapEnd i th = .ok th') :
    heapEnd ≤ allocaTop ex i th ∧ Stayed ex (allocaTop ex i th) th th' e es ∧
      pnThreadGetValue ex th' i.resultValueId = allocaTop ex i th ∧ th'.memory = th.memory := by
  unfold opcodeAlloca at ha
  simp only at ha
  split at ha
  · cases ha
  next hlt =>
    obtain ⟨th₁, hset, ha⟩ := bind_eq_ok.mp ha
    cases ha
    have hst := h.modifyTop (allocaTop ex i th)
    refine ⟨Nat.le_of_not_lt hlt, hst.setValue hr hset, ?_, ?_⟩
    · have hi := hst.inv.calm (hst.inv.setValue hr hset)
      obtain ⟨hlo, -, -, heq⟩ := setValue_ok hset
      have hv : (readFrame (th.modifyFrame fun f => { f with memoryStackTop := allocaTop ex i th }).mem
          (th.modifyFrame fun f => { f with memoryStackTop := allocaTop ex i th }).currentFrame).functionValues = e.values := by
        rw [hst.inv.current]
        exact hst.inv.head.values
      rw [hv] at heq
      have := hi.getValue i.resultValueId
      rw [if_pos hlo] at this
      refine Eq.trans this ?_
      simp only [heq, PNThread.store, Function.update_self]
    · obtain ⟨-, -, -, rfl⟩ := setValue_ok hset
      rfl

theorem opcodeStacksave_spec (h : FramesInv ex th (e :: es)) (hr : ResultInRange ex e.functionId (ex.callAt th.inst))
    (hs : opcodeStacksave ex th = .ok th') : Stayed ex th.stackTop th th' e es ∧ th'.memory = th.memory := by
  unfold opcodeStacksave at hs
  obtain ⟨-, hs⟩ := pnCheck_bind_eq_ok.mp hs
  obtain ⟨hne, hs⟩ := pnCheck_bind_eq_ok.mp hs
  obtain ⟨th₁, hset, hs⟩ := bind_eq_ok.mp hs
  cases hs
  have hrange : e.HasValue ex (ex.callAt th.inst).resultValueId := (hr.resolve_left hne).2
  refine ⟨(Stayed.refl h).setValue hrange hset, ?_⟩
  obtain ⟨-, -, -, rfl⟩ := setValue_ok hset
  rfl

theorem opcodeStackrestore_spec (h : FramesInv ex th (e :: es)) (hs : opcodeStackrestore ex th = .ok th') :
    Stayed ex (restoreValue ex th) th th' e es ∧ th'.memory = th.memory := by
  unfold opcodeStackrestore at hs
  obtain ⟨-, hs⟩ := pnCheck_bind_eq_ok.mp hs
  obtain ⟨-, hs⟩ := pnCheck_bind_eq_ok.mp hs
  cases hs
  have hst := h.modifyTop (restoreValue ex th)
  exact ⟨⟨hst.inv.fields rfl rfl rfl rfl, hst.same, hst.top, rfl⟩, rfl⟩

/-! ## The size of memory -/

theorem Sets.memory {P : Nat → Prop} (h : Sets ex P th th') : th'.memory = th.memory := by
  induction h with
  | refl => rfl
  | step _ h₁ _ ih =>
    obtain ⟨-, -, -, rfl⟩ := setValue_ok h₁
    exact ih

theorem pnThreadPushFunction_memory {malloc : Malloc} {functionId : Nat}
    (h : pnThreadPushFunction ex malloc th functionId = .ok th') : th'.memory = th.memory := by
  obtain ⟨⟨frame, a₁⟩, -, h⟩ := bind_eq_ok.mp h
  obtain ⟨prev, -, h⟩ := bind_eq_ok.mp h
  obtain ⟨⟨values, a₂⟩, -, h⟩ := bind_eq_ok.mp h
  dsimp only at h
  split at h
  · cases h
  · exact (setValues_sets (P := fun _ => True) (fun _ _ => trivial) h).memory

/-- The size of memory behind an operation. -/
def PNThreadOp.memorySize (th : PNThread) : PNThreadOp → Nat
  | .other _ _ _ _ memory | .elsewhere _ memory => memory.size
  | _ => th.memory.size

/-- No operation of the thread itself changes the size of memory. -/
theorem PNThreadOp.exec_size {op : PNThreadOp} (h : op.exec ex th = .ok th') : th'.memory.size = op.memorySize th := by
  cases op with
  | call malloc functionId =>
    obtain ⟨-, h⟩ := cAssert_bind_eq_ok.mp h
    obtain ⟨th₁, hp, h⟩ := bind_eq_ok.mp h
    rw [(copyArguments_sets h).memory, pnThreadPushFunction_memory hp]
    rfl
  | ret =>
    obtain ⟨f, -, h⟩ := bind_eq_ok.mp h
    obtain ⟨frame, -, h⟩ := bind_eq_ok.mp h
    split at h
    · cases h
      rfl
    · cases h
      rfl
  | retValue valueId =>
    obtain ⟨f, -, h⟩ := bind_eq_ok.mp h
    obtain ⟨frame, -, h⟩ := bind_eq_ok.mp h
    split at h
    · obtain ⟨th₁, hset, h⟩ := bind_eq_ok.mp h
      obtain ⟨-, -, -, rfl⟩ := setValue_ok hset
      cases h
      rfl
    · cases h
      rfl
  | setjmp malloc =>
    obtain ⟨-, h⟩ := pnCheck_bind_eq_ok.mp h
    obtain ⟨-, h⟩ := pnCheck_bind_eq_ok.mp h
    obtain ⟨⟨buf, a⟩, -, h⟩ := bind_eq_ok.mp h
    obtain ⟨memory, hw, h⟩ := bind_eq_ok.mp h
    obtain ⟨th₁, hset, h⟩ := bind_eq_ok.mp h
    obtain ⟨-, -, -, rfl⟩ := setValue_ok hset
    obtain ⟨_, -, hw⟩ := bind_eq_ok.mp hw
    cases hw
    cases h
    rfl
  | longjmp fuel =>
    obtain ⟨-, h⟩ := pnCheck_bind_eq_ok.mp h
    obtain ⟨-, h⟩ := pnCheck_bind_eq_ok.mp h
    obtain ⟨id, -, h⟩ := bind_eq_ok.mp h
    obtain ⟨found, -, h⟩ := bind_eq_ok.mp h
    cases found with
    | none => cases h
    | some x =>
      obtain ⟨frame, -, h⟩ := bind_eq_ok.mp h
      obtain ⟨b, -, h⟩ := bind_eq_ok.mp h
      obtain ⟨_, -, h⟩ := bind_eq_ok.mp h
      obtain ⟨th₁, hset, h⟩ := bind_eq_ok.mp h
      obtain ⟨-, -, -, rfl⟩ := setValue_ok hset
      cases h
      rfl
  | phiAssigns malloc fast assigns destInst =>
    obtain ⟨th₁, hd, h⟩ := bind_eq_ok.mp h
    cases h
    unfold pnThreadDoPhiAssigns at hd
    cases fast with
    | true => rw [(phiAssignsInPlace_sets (P := fun _ => True) (fun _ _ => trivial) hd).memory]; rfl
    | false =>
      rw [if_neg (by decide)] at hd
      obtain ⟨⟨temp, a⟩, -, hd⟩ := bind_eq_ok.mp hd
      obtain ⟨th₂, hw, hd⟩ := bind_eq_ok.mp hd
      cases hd
      have hm := (phiAssignsWrite_sets (P := fun _ => True) (fun _ _ => trivial) hw).memory
      rw [(phiAssignsRead_eq ex assigns temp { th with allocator := a }).1] at hm
      exact congrArg PNMemory.size hm
  | other inst locationInst values stackTop memory =>
    obtain ⟨th₁, -, h⟩ := bind_eq_ok.mp h
    cases h
    rfl
  | elsewhere setjmps memory =>
    cases h
    rfl

/-! ## The invariant -/

/-- The top of the stack for the next frame. -/
def topOf (ex : PNExecutor) (mem : PNWords) : List Entry → Nat
  | [] => ex.stackEnd
  | e :: _ => (readFrame mem e.addr).memoryStackTop

/-- The stack goes down from caller to callee, and STACKRESTORE cannot bring it above the caller's top. -/
def Tops (ex : PNExecutor) (mem : PNWords) (saved : Nat → List Nat) : List Entry → Prop
  | [] => True
  | e :: es => (readFrame mem e.addr).memoryStackTop ≤ topOf ex mem es ∧ (∀ v ∈ saved e.addr, v ≤ topOf ex mem es) ∧
      Tops ex mem saved es

/-- The records of the frames are the same. -/
def SameFrames (mem mem' : PNWords) (es : List Entry) : Prop := ∀ e ∈ es, readFrame mem' e.addr = readFrame mem e.addr

theorem SameOn.frames (h : SameOn mem mem' (baseBlocks ex es)) : SameFrames mem mem' es :=
  fun _ he => h.readFrame (frameBlock_mem he)

theorem topOf_congr (h : SameFrames mem mem' es) : topOf ex mem' es = topOf ex mem es := by
  cases es with
  | nil => rfl
  | cons e es => exact congrArg PNCallFrame.memoryStackTop (h e (List.mem_cons_self ..))

theorem Tops.congr (h : Tops ex mem saved es) (hm : SameFrames mem mem' es)
    (hs : ∀ e ∈ es, ∀ v ∈ saved' e.addr, v ∈ saved e.addr) : Tops ex mem' saved' es := by
  induction es with
  | nil => trivial
  | cons e es ih =>
    have hm' : SameFrames mem mem' es := fun e he => hm e (List.mem_cons_of_mem _ he)
    obtain ⟨h₁, h₂, h₃⟩ := h
    refine ⟨?_, fun v hv => ?_, ih h₃ hm' fun e he => hs e (List.mem_cons_of_mem _ he)⟩
    · rw [hm e (List.mem_cons_self ..), topOf_congr hm']
      exact h₁
    · rw [topOf_congr hm']
      exact h₂ v (hs e (List.mem_cons_self ..) v hv)

theorem Tops.le_stackEnd (h : Tops ex mem saved es) : topOf ex mem es ≤ ex.stackEnd := by
  induction es with
  | nil => exact Nat.le_refl _
  | cons e es ih => exact h.1.trans (ih h.2.2)

theorem Tops.split {pre post : List Entry} (h : Tops ex mem saved (pre ++ e :: post)) : Tops ex mem saved (e :: post) := by
  induction pre with
  | nil => exact h
  | cons _ pre ih => exact ih h.2.2

/-- Heap and stack of the main thread. -/
structure StackInv (ex : PNExecutor) (s : PNMainThread) (es : List Entry) : Prop where
  frames : FramesInv ex s.th es
  heap : HeapInv s.heap
  start : s.heapStart ≤ s.heapEnd
  tops : Tops ex s.th.mem s.saved es
  below : s.heapEnd ≤ topOf ex s.th.mem es
  size : ex.stackEnd = s.th.memory.size

theorem StackInv.stackTop_eq (h : StackInv ex s es) : s.th.stackTop = topOf ex s.th.mem es := by
  cases es with
  | nil =>
    unfold PNThread.stackTop
    rw [h.frames.current]
    exact h.frames.sentinel.2
  | cons e es => exact h.frames.stackTop_eq

/-- Memory of the same size keeps the heap. -/
theorem HeapInv.memory {h : PNGuestHeap} (hi : HeapInv h) {memory : PNMemory} (hs : memory.size = h.memory.size) :
    HeapInv { h with memory := memory } :=
  ⟨hs ▸ hi.size_lt, hi.start_aligned, hi.end_aligned, hi.end_lt, hi.words_le, hi.start_le, hi.clear⟩

/-- A step that stays in the frame, to a top between the heap and the caller's. -/
theorem StackInv.stay (h : StackInv ex s (e :: es)) {stackTop : Nat} (hst : Stayed ex stackTop s.th th' e es)
    (hm : th'.memory.size = s.th.memory.size) (hlo : s.heapEnd ≤ stackTop) (hhi : stackTop ≤ topOf ex s.th.mem es)
    (hs : ∀ e' ∈ es, ∀ v ∈ saved' e'.addr, v ∈ s.saved e'.addr) (hv : ∀ v ∈ saved' e.addr, v ≤ topOf ex s.th.mem es) :
    StackInv ex { s with th := th', saved := saved' } (e :: es) := by
  obtain ⟨-, -, htops⟩ := h.tops
  have hsame : SameFrames s.th.mem th'.mem es := hst.same.frames
  refine ⟨hst.inv, h.heap.memory hm, h.start, ⟨?_, ?_, htops.congr hsame hs⟩, ?_, h.size.trans hm.symm⟩
  · rw [hst.top, topOf_congr hsame]
    exact hhi
  · rw [topOf_congr hsame]
    exact hv
  · exact hlo.trans (Nat.le_of_eq hst.top.symm)

theorem pnAlignDown_le (size align : Nat) : pnAlignDown size align ≤ size := Nat.and_le_left

/-- ALLOCA of a size that is available does not wrap. -/
theorem allocaTop_add_le {i : PNRuntimeInstructionAlloca} (hlt : th.stackTop < 2 ^ 32)
    (hs : allocaSize ex i th ≤ th.stackTop) : allocaTop ex i th + allocaSize ex i th ≤ th.stackTop := by
  have := pnAlignDown_le ((th.stackTop + 2 ^ 32 - allocaSize ex i th) % 2 ^ 32) i.alignment
  unfold allocaTop
  omega

theorem StackInv.alloca (h : StackInv ex s (e :: es)) {i : PNRuntimeInstructionAlloca} (hr : e.HasValue ex i.resultValueId)
    (hs : allocaSize ex i s.th ≤ s.th.stackTop) (ha : opcodeAlloca ex s.heapEnd i s.th = .ok th') :
    StackInv ex { s with th := th' } (e :: es) := by
  obtain ⟨hlo, hst, -, hm⟩ := opcodeAlloca_spec h.frames hr ha
  obtain ⟨htop, hv, -⟩ := h.tops
  have heq : s.th.stackTop = (readFrame s.th.mem e.addr).memoryStackTop := h.frames.stackTop_eq
  have hlt : s.th.stackTop < 2 ^ 32 := by
    have := h.tops.le_stackEnd
    have := h.heap.size_lt
    rw [h.stackTop_eq]
    simp only [PNMainThread.heap] at this
    rw [← h.size] at this
    omega
  have := allocaTop_add_le hlt hs
  exact h.stay hst (congrArg PNMemory.size hm) hlo (by omega) (fun _ _ _ hv => hv) hv

theorem StackInv.stacksave (h : StackInv ex s (e :: es)) (hr : ResultInRange ex e.functionId (ex.callAt s.th.inst))
    (hs : opcodeStacksave ex s.th = .ok th') : StackInv ex { s with
      th := th'
      saved := Function.update s.saved s.th.currentFrame (s.th.stackTop :: s.saved s.th.currentFrame) } (e :: es) := by
  obtain ⟨hst, hm⟩ := opcodeStacksave_spec h.frames hr hs
  obtain ⟨htop, hv, -⟩ := h.tops
  have heq : s.th.stackTop = (readFrame s.th.mem e.addr).memoryStackTop := h.frames.stackTop_eq
  have hcur : s.th.currentFrame = e.addr := h.frames.current
  refine h.stay hst (congrArg PNMemory.size hm) (heq ▸ h.below) (heq ▸ htop) (fun e' he' v hmem => ?_) fun v hmem => ?_
  · rw [hcur, Function.update_of_ne (h.frames.below_ne e' he')] at hmem
    exact hmem
  · rw [hcur, Function.update_self] at hmem
    rcases List.mem_cons.mp hmem with rfl | hmem
    · rw [heq]
      exact htop
    · exact hv v hmem

theorem StackInv.stackrestore (h : StackInv ex s (e :: es)) (hp : restoreValue ex s.th ∈ s.saved s.th.currentFrame)
    (hlo : s.heapEnd ≤ restoreValue ex s.th) (hs : opcodeStackrestore ex s.th = .ok th') :
    StackInv ex { s with th := th' } (e :: es) := by
  obtain ⟨hst, hm⟩ := opcodeStackrestore_spec h.frames hs
  obtain ⟨-, hv, -⟩ := h.tops
  rw [h.frames.current] at hp
  exact h.stay hst (congrArg PNMemory.size hm) hlo (hv _ hp) (fun _ _ _ hv => hv) hv

/-- MMAP moves `heap_end` up to the top of the stack at most. -/
theorem StackInv.mmap (h : StackInv ex s es) {args : List PNRuntimeValue} {r : Nat} {g : PNGuestHeap}
    (hs : GrowFits s.heap (pageCount (pnArg args 1 4) % 2 ^ 20))
    (he : pnBuiltinNaclIrtMemoryMmap s.heap s.th.stackTop args = .ok (r, g)) : StackInv ex (s.setHeap g) es := by
  rcases mmap_cases he with ⟨-, rfl⟩ | he
  · exact h
  have hinv := mmapAnonymous_inv h.heap he
  have bounds : g.heapStart = s.heapStart ∧ s.heapEnd ≤ g.heapEnd ∧ g.heapEnd ≤ topOf ex s.th.mem es ∧
      g.memory.size = s.th.memory.size := by
    have hb := h.below
    have htop := h.stackTop_eq
    rcases mmapAnonymous_cases he with ⟨a, -, -, -, -, hf⟩ | ⟨hnone, -, htop', -, hf⟩
    · exact ⟨hf.heapStart, Nat.le_of_eq hf.heapEnd.symm, hf.heapEnd ▸ hb, hf.size⟩
    · rcases hs with ⟨a, hlo, hhi, hpos, hrun⟩ | hlt
      · exact absurd hrun (hnone hpos a hlo hhi)
      · have hend := hf.heapEnd
        simp only at hend
        rw [Nat.mod_eq_of_lt hlt] at hend htop'
        simp only [PNMainThread.heap] at hend htop'
        exact ⟨hf.heapStart, by omega, by omega, hf.size⟩
  obtain ⟨h₁, h₂, h₃, h₄⟩ := bounds
  refine ⟨h.frames.fields rfl rfl rfl rfl, hinv, ?_, h.tops, h₃, h.size.trans h₄.symm⟩
  simp only [PNMainThread.setHeap]
  have := h.start
  omega

theorem StackInv.munmap (h : StackInv ex s es) {args : List PNRuntimeValue} {r : Nat} {g : PNGuestHeap}
    (he : pnBuiltinNaclIrtMemoryMunmap s.heap args = .ok (r, g)) : StackInv ex (s.setHeap g) es := by
  obtain ⟨hm, hs, hend, -, -⟩ := munmap_spec h.heap he
  have hb := h.below
  have hst := h.start
  simp only [PNMainThread.heap] at hm hs hend
  refine ⟨h.frames.fields rfl rfl rfl rfl, munmap_inv h.heap he, ?_, h.tops, ?_, ?_⟩
  · simp only [PNMainThread.setHeap]
    omega
  · exact (Nat.le_of_eq hend).trans hb
  · simp only [PNMainThread.setHeap, hm]
    exact h.size

/-! ## The operations on frames -/

/-- A step forgets saved values at most. -/
theorem mem_savedBehind {op : PNThreadOp} {a v : Nat} (h : v ∈ savedBehind saved th' op a) : v ∈ saved a := by
  unfold savedBehind at h
  split at h
  · rw [Function.update_apply] at h
    split at h
    · cases h
    · exact h
  · exact h

theorem FramesInv.callerTop_eq {pre post : List Entry} (h : FramesInv ex th (pre ++ e :: post)) :
    callerTop ex th e.addr = topOf ex th.mem post := by
  have hp := h.pop pre
  have hpar : (readFrame th.mem e.addr).parent = top ex post := hp.head.parent
  unfold callerTop
  rw [hpar]
  cases post with
  | nil => exact if_pos rfl
  | cons e' post => exact if_neg (hp.pop [e]).links.1

/-- The memory behind an operation keeps its size. -/
theorem PNThreadOp.KeepsSizes.size {op : PNThreadOp} (h : op.KeepsSizes th) (he : op.exec ex th = .ok th') :
    th'.memory.size = th.memory.size := by
  rw [PNThreadOp.exec_size he]
  cases op with
  | other => exact h.2
  | elsewhere => exact h
  | call | ret | retValue | setjmp | longjmp | phiAssigns => rfl

theorem PNThreadOp.KeepsSizes.stackTop {op : PNThreadOp} (h : op.KeepsSizes th) : op.stackTop th.stackTop = th.stackTop := by
  cases op with
  | other => exact h.1
  | call | ret | retValue | setjmp | longjmp | phiAssigns | elsewhere => rfl

theorem StackInv.thread (h : StackInv ex s (e :: es)) {op : PNThreadOp} (hp : op.Promised ex s.th) (hk : op.KeepsSizes s.th)
    (hs : op.FrameSafe ex s.th) (hl : LongjmpAbove ex s.heapEnd s.th op) (he : op.exec ex s.th = .ok th') :
    ∃ es', StackInv ex { s with th := th', saved := savedBehind s.saved th' op } es' ∧ (th'.dead = false → es' ≠ []) := by
  have hm := hk.size he
  have hb := h.below
  have hheap := h.heap.memory hm
  have hsize := h.size.trans hm.symm
  obtain ⟨htop, hv, htops⟩ := h.tops
  have hsub : ∀ e' : Entry, ∀ v ∈ savedBehind s.saved th' op e'.addr, v ∈ s.saved e'.addr := fun _ _ hv => mem_savedBehind hv
  obtain ⟨es', hi', hst⟩ := h.frames.step hp hs he
  cases hst with
  | stay _ hst =>
    rw [← h.frames.stackTop_eq, hk.stackTop, h.frames.stackTop_eq] at hst
    exact ⟨_, h.stay hst hm hb htop (fun e' _ => hsub e') fun v hmem => hv v (hsub e v hmem), fun _ => List.cons_ne_nil _ _⟩
  | @call e' _ _ _ _ hop hc =>
    subst hop
    have hbelow : SameFrames s.th.mem th'.mem es := hc.same.subset (fun b hb => List.mem_cons_of_mem _ hb) |>.frames
    have hcaller : (readFrame th'.mem e.addr).memoryStackTop = (readFrame s.th.mem e.addr).memoryStackTop := by
      rw [hc.caller]
    refine ⟨_, ⟨hi', hheap, h.start, ⟨?_, ?_, ?_, ?_, htops.congr hbelow fun e' _ => hsub e'⟩, ?_, hsize⟩,
      fun _ => List.cons_ne_nil _ _⟩
    · exact Nat.le_of_eq (hc.top.trans hcaller.symm)
    · intro v hmem
      simp only [savedBehind, show th'.currentFrame = e'.addr from hi'.current, Function.update_self] at hmem
      cases hmem
    · rw [hcaller, topOf_congr hbelow]
      exact htop
    · rw [topOf_congr hbelow]
      exact fun v hmem => hv v (hsub e v hmem)
    · exact hb.trans (Nat.le_of_eq hc.top.symm)
  | @ret _ e' es hop hr =>
    have hsame : SameFrames s.th.mem th'.mem (e' :: es) := by
      intro x hx
      rcases List.mem_cons.mp hx with rfl | hx
      · exact hr.same.readFrame (List.mem_cons_self ..)
      · exact hr.same.readFrame (List.mem_cons_of_mem _ (frameBlock_mem hx))
    refine ⟨_, ⟨hi', hheap, h.start, htops.congr hsame fun e' _ => hsub e', ?_, hsize⟩, fun _ => List.cons_ne_nil _ _⟩
    rw [topOf_congr hsame]
    exact hb.trans htop
  | last _ hd =>
    refine ⟨[], ⟨hi', hheap, h.start, trivial, hb.trans htop, hsize⟩, fun h' => ?_⟩
    rw [hd] at h'
    cases h'
  | @jump _ pre e' post fuel id buf hop hes hid hf hj =>
    subst hop
    obtain ⟨hlo, hhi⟩ := hl id e'.addr buf hid hf
    have htops' := h.tops
    have hfr := h.frames
    rw [hes] at htops' hfr
    rw [hfr.callerTop_eq] at hhi
    obtain ⟨-, hv', htops'⟩ := htops'.split
    have hsame : SameFrames s.th.mem th'.mem post := hj.same.frames
    have heq : (readFrame th'.mem e'.addr).memoryStackTop = (readJmpBuf s.th.mem buf).frame.memoryStackTop := by
      rw [hj.frame]
    refine ⟨_, ⟨hi', hheap, h.start, ⟨?_, ?_, htops'.congr hsame fun e' _ => hsub e'⟩, ?_, hsize⟩,
      fun _ => List.cons_ne_nil _ _⟩
    · rw [heq, topOf_congr hsame]
      exact hhi
    · rw [topOf_congr hsame]
      exact fun v hmem => hv' v (hsub e' v hmem)
    · exact hlo.trans (Nat.le_of_eq heq.symm)

/-! ## Runs -/

theorem checkStrings_le {memory : PNMemory} {lens : List Nat} {off r : Nat} (h : checkStrings memory off lens = .ok r)
    (hoff : off % 2 ^ 32 ≤ memory.size) : r % 2 ^ 32 ≤ memory.size := by
  induction lens generalizing off with
  | nil =>
    cases h
    exact hoff
  | cons len lens ih =>
    obtain ⟨_, hc, h⟩ := bind_eq_ok.mp h
    refine ih h ?_
    have := (pnMemoryCheck_eq_ok.mp hc).2
    rw [Nat.add_mod]
    exact this

/-- The heap starts inside memory. -/
theorem pnMemoryInitStartinfo_le {memory : PNMemory} {globalvarEnd heapStart : Nat} {argLens envLens : List Nat}
    (hsize : memory.size < 2 ^ 32) (hpage : memory.size % 4096 = 0)
    (h : pnMemoryInitStartinfo memory globalvarEnd argLens envLens = .ok heapStart) : heapStart ≤ memory.size := by
  obtain ⟨_, hc, h⟩ := bind_eq_ok.mp h
  obtain ⟨off, hs, h⟩ := bind_eq_ok.mp h
  cases h
  have hle := checkStrings_le hs (by
    have := (pnMemoryCheck_eq_ok.mp hc).2
    rw [Nat.add_mod] at this ⊢
    simpa using this)
  rw [pnAlignUp_pagesize]
  omega

/-- The invariant at the start. -/
theorem StackInv.init {malloc : Malloc} {memory : PNMemory} {mark : PNAllocatorMark} {globalvarEnd heapStart : Nat}
    {argLens envLens : List Nat} {h : PNGuestHeap} (hm : MallocFresh ex malloc) (hsize : memory.size < 2 ^ 32)
    (hend : ex.stackEnd = memory.size) (hstart : pnMemoryInitStartinfo memory globalvarEnd argLens envLens = .ok heapStart)
    (hheap : pnExecutorInitHeap memory heapStart = .ok h) (hth : pnExecutorInit ex malloc mem memory mark = .ok th) :
    ∃ es, StackInv ex ⟨th, h.heapStart, h.heapEnd, h.mappedPages, fun _ => []⟩ es ∧ es ≠ [] := by
  obtain ⟨e, hi, htop, hmem, -⟩ := pnExecutorInit_frames hm hth
  have hfields : memory.size % 4096 = 0 ∧ h.memory = memory ∧ h.heapStart = heapStart ∧ h.heapEnd = heapStart := by
    obtain ⟨hpage, hheap⟩ := pnCheck_bind_eq_ok.mp hheap
    obtain ⟨_, hheap⟩ := pnCheck_bind_eq_ok.mp hheap
    obtain ⟨_, _, hheap⟩ := bind_eq_ok.mp hheap
    cases hheap
    exact ⟨hpage, rfl, rfl, rfl⟩
  obtain ⟨hpage, hmem', hs, he⟩ := hfields
  have hle := pnMemoryInitStartinfo_le hsize hpage hstart
  have hinv := pnExecutorInitHeap_inv hsize (by omega) hheap
  refine ⟨[e], ⟨hi, ?_, ?_, ⟨Nat.le_of_eq htop, (fun v hv => by cases hv), trivial⟩, ?_, ?_⟩, List.cons_ne_nil _ _⟩
  · exact hinv.memory (by rw [hmem, hmem'] : th.memory.size = h.memory.size)
  · simp only [hs, he, Nat.le_refl]
  · simp only [topOf, htop, he, hend]
    exact hle
  · simp only [hmem, hend]

/-- **Every safe step keeps heap and stack apart.** -/
theorem StackInv.step (h : StackInv ex s (e :: es)) {op : PNStackOp} (hp : op.Promised ex s) (hs : op.HeapSafe ex s)
    (he : op.exec ex s = .ok s') : ∃ es', StackInv ex s' es' ∧ (s'.th.dead = false → es' ≠ []) := by
  have hrun : s.th.functionId = e.functionId := h.frames.running e rfl
  cases op with
  | alloca i =>
    obtain ⟨th, ha, he⟩ := bind_eq_ok.mp he
    cases he
    unfold PNStackOp.Promised at hp
    rw [hrun] at hp
    exact ⟨_, h.alloca hp hs ha, fun _ => List.cons_ne_nil _ _⟩
  | stacksave =>
    obtain ⟨th, ha, he⟩ := bind_eq_ok.mp he
    cases he
    exact ⟨_, h.stacksave (hrun ▸ hp) ha, fun _ => List.cons_ne_nil _ _⟩
  | stackrestore =>
    obtain ⟨th, ha, he⟩ := bind_eq_ok.mp he
    cases he
    exact ⟨_, h.stackrestore hp hs ha, fun _ => List.cons_ne_nil _ _⟩
  | mmap args =>
    obtain ⟨⟨r, g⟩, hg, he⟩ := bind_eq_ok.mp he
    cases he
    exact ⟨_, h.mmap hs hg, fun _ => List.cons_ne_nil _ _⟩
  | munmap args =>
    obtain ⟨⟨r, g⟩, hg, he⟩ := bind_eq_ok.mp he
    cases he
    exact ⟨_, h.munmap hg, fun _ => List.cons_ne_nil _ _⟩
  | thread op =>
    obtain ⟨th, ht, he⟩ := bind_eq_ok.mp he
    cases he
    exact h.thread hp.1 hp.2 hs.1 hs.2 ht

theorem StackRun.inv (h : StackRun ex (fun s op => op.HeapSafe ex s) s) :
    ∃ es, StackInv ex s es ∧ (s.th.dead = false → es ≠ []) := by
  induction h with
  | init hm hsize hend hstart hheap hth =>
    obtain ⟨es, hi, hne⟩ := StackInv.init hm hsize hend hstart hheap hth
    exact ⟨es, hi, fun _ => hne⟩
  | step op _ alive hp hs he ih =>
    obtain ⟨es, hi, hne⟩ := ih
    obtain ⟨e, es, rfl⟩ := List.exists_cons_of_ne_nil (hne alive)
    exact hi.step hp hs he

/-- **Heap and stack of the main thread.** In every state of a run whose steps are all `HeapSafe` the heap lies below the
stack and both inside memory; and an ALLOCA that succeeds there answers an address behind the heap, with its bytes below the
old top iff the size is one that the stack has. -/
theorem heap_below_stack (ex : PNExecutor) (s : PNMainThread) (h : StackRun ex (fun s op => op.HeapSafe ex s) s) :
    (s.heapStart ≤ s.heapEnd ∧ s.heapEnd ≤ s.th.stackTop ∧ s.th.stackTop ≤ s.th.memory.size) ∧
      ∀ i s', s.th.dead = false → (PNStackOp.alloca i).Promised ex s → (PNStackOp.alloca i).exec ex s = .ok s' →
        s.heapEnd ≤ pnThreadGetValue ex s'.th i.resultValueId ∧
          (pnThreadGetValue ex s'.th i.resultValueId + allocaSize ex i s.th ≤ s.th.stackTop ↔
            allocaSize ex i s.th ≤ s.th.stackTop) := by
  obtain ⟨es, hi, hne⟩ := h.inv
  have hle : s.th.stackTop ≤ s.th.memory.size := by
    rw [hi.stackTop_eq, ← hi.size]
    exact hi.tops.le_stackEnd
  refine ⟨⟨hi.start, ?_, hle⟩, fun i s' alive hp he => ?_⟩
  · rw [hi.stackTop_eq]
    exact hi.below
  · obtain ⟨e, es, rfl⟩ := List.exists_cons_of_ne_nil (hne alive)
    obtain ⟨th, ha, he⟩ := bind_eq_ok.mp he
    cases he
    have hr : e.HasValue ex i.resultValueId := by
      have hrun : s.th.functionId = e.functionId := hi.frames.running e rfl
      unfold PNStackOp.Promised at hp
      rw [hrun] at hp
      exact hp
    obtain ⟨hlo, -, hval, -⟩ := opcodeAlloca_spec hi.frames hr ha
    rw [hval]
    have hlt : s.th.stackTop < 2 ^ 32 := hle.trans_lt hi.heap.size_lt
    exact ⟨hlo, fun hle => by omega, fun hs => allocaTop_add_le hlt hs⟩

/-! ## A small program

The start function sets its first value to a size and allocates as many bytes. -/

def demoAlloca : PNRuntimeInstructionAlloca := ⟨0, 0, 16⟩

def demoSize (size : Nat) (th : PNThread) : PNThreadOp := .other (th.inst + 8) 0 [(0, size)] th.stackTop th.memory

def demoStack (size : Nat) : Except Stop (PNMainThread × PNMainThread) := do
  let heapStart ← pnMemoryInitStartinfo demoMemory 2048 [] []
  let h ← pnExecutorInitHeap demoMemory heapStart
  let th ← pnExecutorInit demoExecutor demoMalloc (fun _ => 0) demoMemory ⟨0, 0, 0, 0⟩
  let s ← (PNStackOp.thread (demoSize size th)).exec demoExecutor ⟨th, h.heapStart, h.heapEnd, h.mappedPages, fun _ => []⟩
  let s' ← (PNStackOp.alloca demoAlloca).exec demoExecutor s
  .ok (s, s')

theorem demoAlloca_promised (s : PNMainThread) : (PNStackOp.alloca demoAlloca).Promised demoExecutor s := by
  unfold PNStackOp.Promised demoAlloca demoExecutor demoFunctions
  dsimp only
  split <;> decide

/-- The two states are those of a run, if `S` allows the first step. -/
theorem demoStack_run {S : PNMainThread → PNStackOp → Prop} (size newTop : Nat)
    (hS : ∀ s th, S s (.thread (demoSize size th)))
    (hd : (demoStack size).toOption.map (fun (s, s') => (s.th.dead, [s.heapEnd, s.th.stackTop,
      allocaSize demoExecutor demoAlloca s.th, s'.th.stackTop, s'.th.memory.size, pnThreadGetValue demoExecutor s'.th 0])) =
        some (false, [4096, 65536, size, newTop, 65536, newTop])) :
    ∃ s s', StackRun demoExecutor S s ∧ s.th.dead = false ∧ (PNStackOp.alloca demoAlloca).exec demoExecutor s = .ok s' ∧
      s.heapEnd = 4096 ∧ s.th.stackTop = 65536 ∧ allocaSize demoExecutor demoAlloca s.th = size ∧ s'.th.stackTop = newTop ∧
      s'.th.memory.size = 65536 ∧ pnThreadGetValue demoExecutor s'.th 0 = newTop := by
  obtain ⟨⟨s, s'⟩, e, hv⟩ := eq_ok_of_toOption hd
  simp only [Prod.mk.injEq, List.cons.injEq, and_true] at hv
  obtain ⟨h₄, h₁, h₂, h₃, h₅, h₆, h₇⟩ := hv
  obtain ⟨heapStart, e₁, e⟩ := bind_eq_ok.mp e
  obtain ⟨h, e₂, e⟩ := bind_eq_ok.mp e
  obtain ⟨th, e₃, e⟩ := bind_eq_ok.mp e
  obtain ⟨s₁, e₄, e⟩ := bind_eq_ok.mp e
  obtain ⟨s₂, e₅, e⟩ := bind_eq_ok.mp e
  cases e
  refine ⟨s, s', .step (.thread (demoSize size th)) (.init demoMalloc_fresh (by decide) rfl e₁ e₂ e₃) ?_ ⟨?_, rfl, rfl⟩ (hS _ _) e₄,
    h₄, e₅, h₁, h₂, h₃, h₅, h₆, h₇⟩
  · obtain ⟨-, -, -, -, hdead⟩ := pnExecutorInit_frames demoMalloc_fresh e₃
    exact hdead
  · intro v hv
    cases List.mem_singleton.mp hv
    exact demoAlloca_promised ⟨th, 0, 0, h.mappedPages, fun _ => []⟩

theorem heap_below_stack_alloca : ∃ s s', s.heapEnd = 4096 ∧ s.th.stackTop = 65536 ∧
    (PNStackOp.alloca demoAlloca).exec demoExecutor s = .ok s' ∧ s.heapEnd ≤ pnThreadGetValue demoExecutor s'.th 0 ∧
    pnThreadGetValue demoExecutor s'.th 0 + 100 ≤ s.th.stackTop := by
  obtain ⟨s, s', hrun, alive, he, hend, htop, hsize, -⟩ :=
    demoStack_run (S := fun s op => op.HeapSafe demoExecutor s) 100 65424 (fun _ _ => ⟨trivial, trivial⟩) (by decide +kernel)
  obtain ⟨hlo, hhi⟩ := (heap_below_stack demoExecutor s hrun).2 demoAlloca s' alive (demoAlloca_promised s) he
  rw [hsize] at hhi
  exact ⟨s, s', hend, htop, he, hlo, hhi.mpr (by rw [htop]; decide)⟩

/-- An ALLOCA of `2 ^ 32 - 16` bytes moves the top of the stack up, past the end of memory. -/
theorem alloca_wraps : ∃ s s', StackRun demoExecutor (fun _ _ => True) s ∧
    (PNStackOp.alloca demoAlloca).exec demoExecutor s = .ok s' ∧ StackRun demoExecutor (fun _ _ => True) s' ∧
    ¬s'.th.stackTop ≤ s'.th.memory.size ∧
    ¬pnThreadGetValue demoExecutor s'.th 0 + allocaSize demoExecutor demoAlloca s.th ≤ s.th.stackTop := by
  obtain ⟨s, s', hrun, alive, he, -, htop, hsize, htop', hmem, hval⟩ :=
    demoStack_run (S := fun _ _ => True) (2 ^ 32 - 16) 65552 (fun _ _ => trivial) (by decide +kernel)
  refine ⟨s, s', hrun, he, hrun.step _ alive (demoAlloca_promised s) trivial he, ?_, ?_⟩
  · rw [htop', hmem]
    decide
  · rw [hval, hsize, htop]
    decide

end Pnacl
