import Pnacl.AllocatorMark
import Pnacl.Memory
import Pnacl.Runtime
import Mathlib.Logic.Function.Basic

/-!
# Threads: call frames and jump buffers

The part of the executor that keeps its records in the thread's allocator: CALL, RET, RET_VALUE, SETJMP, LONGJMP and the
phi assigns of a branch. Frames, value arrays and jump buffers are laid out in words of 8 bytes as an LP64 compiler lays
them out, so `mem` maps the address of a word to its contents. An access that leaves the memory of the live chunks stops
the thread as undefined. `malloc` may answer differently at every step and sees the live chunks.

Instructions other than these change only the values, the stack top and the saved instruction pointer of the current
frame, the guest's memory and the instruction pointer; they are one operation (`other`). `elsewhere` is what other threads
do: they write guest memory and take jump buffer ids.
-/

namespace Pnacl

open Lib

/-- `PNLocation`. -/
structure PNLocation where
  functionId : Nat
  inst : Nat
deriving Repr, DecidableEq

/-- `PNCallFrame`. -/
structure PNCallFrame where
  location : PNLocation
  mark : PNAllocatorMark
  functionValues : Nat
  parent : Nat
  jmpbufHead : Nat
  memoryStackTop : Nat
deriving Repr, DecidableEq

/-- `PNJmpBuf`. -/
structure PNJmpBuf where
  id : Nat
  frame : PNCallFrame
  next : Nat
deriving Repr, DecidableEq

/-- `sizeof(PNCallFrame)`, `sizeof(PNJmpBuf)` and `sizeof(PNRuntimeValue)`. -/
def PNCallFrame.sizeof : Nat := 80
def PNJmpBuf.sizeof : Nat := 96
def PNRuntimeValue.sizeof : Nat := 8

/-- `PN_DEFAULT_ALIGN`. -/
def PN_DEFAULT_ALIGN : Nat := 8

/-- The contents of memory, by the address of a word. -/
abbrev PNWords := Nat → Nat

/-- The frame at `p`. -/
def readFrame (mem : PNWords) (p : Nat) : PNCallFrame where
  location := ⟨mem p, mem (p + 8)⟩
  mark := ⟨mem (p + 16), mem (p + 24), mem (p + 32), mem (p + 40)⟩
  functionValues := mem (p + 48)
  parent := mem (p + 56)
  jmpbufHead := mem (p + 64)
  memoryStackTop := mem (p + 72)

/-- Store a frame at `p`. -/
def writeFrame (mem : PNWords) (p : Nat) (f : PNCallFrame) : PNWords := fun a =>
  if a = p then f.location.functionId
  else if a = p + 8 then f.location.inst
  else if a = p + 16 then f.mark.current
  else if a = p + 24 then f.mark.lastAlloc
  else if a = p + 32 then f.mark.totalUsed
  else if a = p + 40 then f.mark.internalFragmentation
  else if a = p + 48 then f.functionValues
  else if a = p + 56 then f.parent
  else if a = p + 64 then f.jmpbufHead
  else if a = p + 72 then f.memoryStackTop
  else mem a

/-- The jump buffer at `p`. -/
def readJmpBuf (mem : PNWords) (p : Nat) : PNJmpBuf := ⟨mem p, readFrame mem (p + 8), mem (p + 88)⟩

/-- Store a jump buffer at `p`. -/
def writeJmpBuf (mem : PNWords) (p : Nat) (b : PNJmpBuf) : PNWords := fun a =>
  if a = p then b.id
  else if a = p + 88 then b.next
  else writeFrame mem (p + 8) b.frame a

/-- `PNRuntimeInstructionCall` with its argument ids. -/
structure PNRuntimeInstructionCall where
  resultValueId : Nat
  argIds : List Nat
deriving Repr, DecidableEq

/-- `sizeof(PNRuntimeInstructionCall) + num_args * sizeof(PNValueId)`. -/
def PNRuntimeInstructionCall.size (i : PNRuntimeInstructionCall) : Nat := 16 + 4 * i.argIds.length

/-- What the executor reads of a `PNFunction`. -/
structure PNRuntimeFunction where
  numArgs : Nat
  numValues : Nat
  constants : List Nat
  instructions : Nat
deriving Repr, DecidableEq

/-- The fixed part of `PNExecutor` and its module; the counts are `uint32_t`. `callAt` is the call instruction at an address;
`sentinel` is the address of `sentinel_frame`. -/
structure PNExecutor where
  numValues : Nat
  moduleValues : Nat → Nat
  numFunctions : Nat
  functions : Nat → PNRuntimeFunction
  callAt : Nat → PNRuntimeInstructionCall
  sentinel : Nat
  stackEnd : Nat
  startFunctionId : Nat
  startinfoStart : Nat
  numFunctions_lt : numFunctions < 2 ^ 32
  numValues_lt : ∀ functionId, (functions functionId).numValues < 2 ^ 32

/-- `PNThread`, with the guest memory and the `next_jmpbuf_id` of its executor. `numSetjmps` counts the SETJMPs so far;
the next id is this number in 32 bits. `dead` is `state == PN_THREAD_DEAD`. -/
structure PNThread where
  allocator : PNAllocator
  mem : PNWords
  currentFrame : Nat
  inst : Nat
  functionId : Nat
  memory : PNMemory
  numSetjmps : Nat
  dead : Bool

/-- `malloc` sees the live chunks. -/
abbrev Malloc := List PNAllocatorChunk → Nat → Nat

section

variable (ex : PNExecutor)

/-- The `n` bytes at `p` are in a chunk that was not freed. -/
def PNThread.live (th : PNThread) (p n : Nat) : Bool :=
  th.allocator.chunks.any fun c => c.addr + PNAllocatorChunk.sizeof ≤ p ∧ p + n ≤ c.endp

/-- Store a word. -/
def PNThread.store (th : PNThread) (p w : Nat) : PNThread := { th with mem := Function.update th.mem p w }

/-- Read the frame at `p`. -/
def PNThread.frame (th : PNThread) (p : Nat) : Except Stop PNCallFrame :=
  if p = ex.sentinel ∨ th.live p PNCallFrame.sizeof then .ok (readFrame th.mem p)
  else .error (.undefined "frame in freed memory")

/-- Read the jump buffer at `p`. -/
def PNThread.jmpbuf (th : PNThread) (p : Nat) : Except Stop PNJmpBuf :=
  if th.live p PNJmpBuf.sizeof then .ok (readJmpBuf th.mem p) else .error (.undefined "jmpbuf in freed memory")

/-- `pn_executor_get_value_from_frame`. -/
def pnExecutorGetValueFromFrame (mem : PNWords) (frame : PNCallFrame) (valueId : Nat) : Nat :=
  if valueId ≥ ex.numValues then mem (frame.functionValues + 8 * (valueId - ex.numValues)) else ex.moduleValues valueId

/-- `pn_thread_get_value`. -/
def pnThreadGetValue (th : PNThread) (valueId : Nat) : Nat :=
  pnExecutorGetValueFromFrame ex th.mem (readFrame th.mem th.currentFrame) valueId

/-- `pn_thread_set_value`. The array is in a chunk of at most 4 GiB, so `PN_INVALID_VALUE_ID` is never an index of it. -/
def pnThreadSetValue (th : PNThread) (valueId value : Nat) : Except Stop PNThread := do
  cAssert (valueId ≥ ex.numValues) "value_id >= thread->executor->module->num_values"
  let values := (readFrame th.mem th.currentFrame).functionValues
  let p := values + 8 * (valueId - ex.numValues)
  if valueId ≠ PN_INVALID_VALUE_ID ∧ th.live values (p + 8 - values) then
    .ok (th.store p value)
  else .error (.undefined "function_values out of range")

/-- Set values in order. -/
def setValues (th : PNThread) : List (Nat × Nat) → Except Stop PNThread
  | [] => .ok th
  | (valueId, value) :: rest => do
    let th ← pnThreadSetValue ex th valueId value
    setValues th rest

/-- The values of the constants, which follow the arguments. -/
def constantValues (function : PNRuntimeFunction) : List (Nat × Nat) :=
  function.constants.zipIdx.map fun (value, n) => (ex.numValues + function.numArgs + n, value)

/-- `pn_thread_push_function`. -/
def pnThreadPushFunction (malloc : Malloc) (th : PNThread) (functionId : Nat) : Except Stop PNThread := do
  let function := ex.functions functionId
  let (frame, a) ← pnAllocatorAlloc (malloc th.allocator.chunks) th.allocator PNCallFrame.sizeof PN_DEFAULT_ALIGN
  let prev ← th.frame ex th.currentFrame
  let (values, a) ← pnAllocatorAlloc (malloc a.chunks) a (PNRuntimeValue.sizeof * function.numValues) PNRuntimeValue.sizeof
  let record : PNCallFrame := {
    location := ⟨functionId, function.instructions⟩
    mark := pnAllocatorMark a
    functionValues := values
    parent := th.currentFrame
    jmpbufHead := 0
    memoryStackTop := prev.memoryStackTop }
  if function.instructions = 0 then pnFatal "Unimplemented intrinsic: %s\n" []
  else
    let th := { th with
      allocator := a
      mem := writeFrame th.mem frame record
      currentFrame := frame
      functionId := functionId
      inst := function.instructions }
    setValues ex th (constantValues ex function)

/-- The loop of CALL that copies the arguments from the caller's frame `old`, from the `n`th on. -/
def copyArguments (old : Nat) (th : PNThread) : Nat → List Nat → Except Stop PNThread
  | _, [] => .ok th
  | n, argId :: rest => do
    let arg := pnExecutorGetValueFromFrame ex th.mem (readFrame th.mem old) argId
    let th ← pnThreadSetValue ex th (ex.numValues + n) arg
    copyArguments old th (n + 1) rest

/-- Store into a field of the current frame. -/
def PNThread.modifyFrame (th : PNThread) (f : PNCallFrame → PNCallFrame) : PNThread :=
  { th with mem := writeFrame th.mem th.currentFrame (f (readFrame th.mem th.currentFrame)) }

/-- `thread->current_frame->location.inst = thread->inst`. -/
def PNThread.saveInst (th : PNThread) : PNThread :=
  th.modifyFrame fun f => { f with location := ⟨f.location.functionId, th.inst⟩ }

/-- `PN_OPCODE_CALL` of a function with a frame; `functionId` is what the callee resolves to. -/
def opcodeCall (malloc : Malloc) (functionId : Nat) (th : PNThread) : Except Stop PNThread := do
  let i := ex.callAt th.inst
  let old := th.currentFrame
  let th := th.saveInst
  cAssert (functionId < ex.numFunctions) "new_function_id < module->num_functions"
  let th ← pnThreadPushFunction ex malloc th functionId
  copyArguments ex old th 0 i.argIds

/-- Go on behind the call at `location`. -/
def PNThread.resume (th : PNThread) (location : PNLocation) : PNThread :=
  { th with
    inst := location.inst + (ex.callAt location.inst).size
    functionId := location.functionId }

/-- `pn_allocator_reset_to_mark(&thread->allocator, mark)`. -/
def PNThread.resetTo (th : PNThread) (mark : PNAllocatorMark) : PNThread :=
  { th with allocator := pnAllocatorResetToMark th.allocator mark }

/-- `PN_OPCODE_RET`. -/
def opcodeRet (th : PNThread) : Except Stop PNThread := do
  let f ← th.frame ex th.currentFrame
  let th := { th with currentFrame := f.parent }
  let frame ← th.frame ex th.currentFrame
  if frame.location.functionId ≠ PN_INVALID_FUNCTION_ID then
    .ok ((th.resetTo frame.mark).resume ex frame.location)
  else .ok { th with dead := true }

/-- `PN_OPCODE_RET_VALUE`. -/
def opcodeRetValue (valueId : Nat) (th : PNThread) : Except Stop PNThread := do
  let value := pnThreadGetValue ex th valueId
  let f ← th.frame ex th.currentFrame
  let th := { th with currentFrame := f.parent }
  let frame ← th.frame ex th.currentFrame
  if frame.location.functionId ≠ PN_INVALID_FUNCTION_ID then
    let th ← pnThreadSetValue ex th (ex.callAt frame.location.inst).resultValueId value
    .ok ((th.resetTo frame.mark).resume ex frame.location)
  else .ok { th with dead := true }

/-- Fill a new jump buffer: the next id, a copy of the frame and the frame's list. -/
def PNThread.fillJmpBuf (th : PNThread) (buf : Nat) : PNThread :=
  let frame := readFrame th.mem th.currentFrame
  { th with
    mem := writeJmpBuf th.mem buf ⟨th.numSetjmps % 2 ^ 32, frame, frame.jmpbufHead⟩
    numSetjmps := th.numSetjmps + 1 }

/-- `thread->current_frame->jmpbuf_head = buf`. -/
def PNThread.linkJmpBuf (th : PNThread) (buf : Nat) : PNThread := th.modifyFrame fun f => { f with jmpbufHead := buf }

/-- `PN_OPCODE_INTRINSIC_LLVM_NACL_SETJMP`. -/
def opcodeSetjmp (malloc : Malloc) (th : PNThread) : Except Stop PNThread := do
  let i := ex.callAt th.inst
  pnCheck (i.argIds.length = 1) "i->num_args == 1"
  pnCheck (i.resultValueId ≠ PN_INVALID_VALUE_ID) "i->result_value_id != PN_INVALID_VALUE_ID"
  let id := th.numSetjmps % 2 ^ 32
  let th := th.saveInst
  let jmpbufP := pnThreadGetValue ex th (i.argIds.getD 0 0) % 2 ^ 32
  let (buf, a) ← pnAllocatorAlloc (malloc th.allocator.chunks) th.allocator PNJmpBuf.sizeof PN_DEFAULT_ALIGN
  let th := (PNThread.fillJmpBuf { th with allocator := a } buf).linkJmpBuf buf
  let memory ← pnMemoryWrite th.memory 4 jmpbufP id
  let th ← pnThreadSetValue ex { th with memory := memory } i.resultValueId 0
  .ok { th with inst := th.inst + i.size }

/-- The inner loop of LONGJMP: look for `id` in a frame's jump buffers. -/
def searchBufs (th : PNThread) (id : Nat) : Nat → Nat → Except Stop (Option Nat)
  | 0, _ => .error .fuel
  | fuel + 1, buf =>
    if buf = 0 then .ok none
    else do
      let b ← th.jmpbuf buf
      if b.id = id then .ok (some buf) else searchBufs th id fuel b.next

/-- The outer loop of LONGJMP: the frame and the jump buffer that were found. -/
def searchFrames (th : PNThread) (id : Nat) : Nat → Nat → Except Stop (Option (Nat × Nat))
  | 0, _ => .error .fuel
  | fuel + 1, f =>
    if f = ex.sentinel then .ok none
    else do
      let frame ← th.frame ex f
      match ← searchBufs th id fuel frame.jmpbufHead with
      | some buf => .ok (some (f, buf))
      | none => searchFrames th id fuel frame.parent

/-- What LONGJMP does once it has found the buffer: the buffer is read after the reset. -/
def jumpTo (th : PNThread) (f buf value : Nat) : Except Stop PNThread := do
  let frame ← th.frame ex f
  let th := PNThread.resetTo { th with currentFrame := f } frame.mark
  let b ← th.jmpbuf buf
  let _ ← th.frame ex f
  let th := th.modifyFrame fun _ => b.frame
  let location := b.frame.location
  let th ← pnThreadSetValue ex th (ex.callAt location.inst).resultValueId value
  .ok (th.resume ex location)

/-- The id that LONGJMP reads from guest memory, through its first argument. -/
def longjmpId (th : PNThread) : Except Stop Nat :=
  pnMemoryRead th.memory 4 (pnThreadGetValue ex th ((ex.callAt th.inst).argIds.getD 0 0) % 2 ^ 32)

/-- The value that LONGJMP passes, its second argument. -/
def longjmpValue (th : PNThread) : Nat := pnThreadGetValue ex th ((ex.callAt th.inst).argIds.getD 1 0)

/-- `PN_OPCODE_INTRINSIC_LLVM_NACL_LONGJMP`; `fuel` bounds the search. -/
def opcodeLongjmp (fuel : Nat) (th : PNThread) : Except Stop PNThread := do
  let i := ex.callAt th.inst
  pnCheck (i.argIds.length = 2) "i->num_args == 2"
  pnCheck (i.resultValueId = PN_INVALID_VALUE_ID) "i->result_value_id == PN_INVALID_VALUE_ID"
  let id ← longjmpId ex th
  match ← searchFrames ex th id fuel th.currentFrame with
  | some (f, buf) => jumpTo ex th f buf (longjmpValue ex th)
  | none => pnFatal "Invalid jmpbuf target: %d\n" [id]

/-- The in-place loop of `pn_thread_do_phi_assigns`. -/
def phiAssignsInPlace (destInst : Nat) (th : PNThread) : List PNRuntimePhiAssign → Except Stop PNThread
  | [] => .ok th
  | assign :: rest =>
    if assign.inst = destInst then do
      let th ← pnThreadSetValue ex th assign.destValueId (pnThreadGetValue ex th assign.sourceValueId)
      phiAssignsInPlace destInst th rest
    else phiAssignsInPlace destInst th rest

/-- The first pass: read the sources into the array at `temp`. -/
def phiAssignsRead (th : PNThread) (temp : Nat) : List PNRuntimePhiAssign → PNThread
  | [] => th
  | assign :: rest =>
    let value := pnThreadGetValue ex th assign.sourceValueId
    phiAssignsRead (th.store temp value) (temp + 8) rest

/-- The second pass: write the destinations from the array at `temp`. -/
def phiAssignsWrite (destInst : Nat) (th : PNThread) (temp : Nat) : List PNRuntimePhiAssign → Except Stop PNThread
  | [] => .ok th
  | assign :: rest =>
    if assign.inst = destInst then do
      let th ← pnThreadSetValue ex th assign.destValueId (th.mem temp)
      phiAssignsWrite destInst th (temp + 8) rest
    else phiAssignsWrite destInst th (temp + 8) rest

/-- `pn_thread_do_phi_assigns`. -/
def pnThreadDoPhiAssigns (malloc : Malloc) (fast : Bool) (assigns : List PNRuntimePhiAssign) (destInst : Nat)
    (th : PNThread) : Except Stop PNThread :=
  if fast then phiAssignsInPlace ex destInst th assigns
  else do
    let mark := pnAllocatorMark th.allocator
    let (temp, a) ← pnAllocatorAlloc (malloc th.allocator.chunks) th.allocator (PNRuntimeValue.sizeof * assigns.length)
      PNRuntimeValue.sizeof
    let th := phiAssignsRead ex { th with allocator := a } temp assigns
    let th ← phiAssignsWrite ex destInst th temp assigns
    .ok (th.resetTo mark)

/-- `pn_executor_init`, as far as it concerns the start thread. -/
def pnExecutorInit (malloc : Malloc) (mem : PNWords) (memory : PNMemory) (mark : PNAllocatorMark) :
    Except Stop PNThread := do
  let a ← pnAllocatorInit (64 * 1024)
  let sentinelFrame : PNCallFrame := ⟨⟨PN_INVALID_FUNCTION_ID, 0⟩, mark, 0, 0, 0, ex.stackEnd⟩
  let th : PNThread := {
    allocator := a
    mem := writeFrame mem ex.sentinel sentinelFrame
    currentFrame := ex.sentinel
    inst := 0
    functionId := PN_INVALID_FUNCTION_ID
    memory := memory
    numSetjmps := 0
    dead := false }
  pnCheck (ex.startFunctionId ≠ PN_INVALID_FUNCTION_ID) "start_function_id != PN_INVALID_FUNCTION_ID"
  let start := ex.functions ex.startFunctionId
  pnCheck (start.instructions ≠ 0) "start_function->instructions"
  let th ← pnThreadPushFunction ex malloc th ex.startFunctionId
  pnCheck (start.numArgs = 1) "start_function->num_args == 1"
  pnThreadSetValue ex th ex.numValues ex.startinfoStart

/-- What a thread, or another one, can do next. -/
inductive PNThreadOp where
  | call (malloc : Malloc) (functionId : Nat)
  | ret
  | retValue (valueId : Nat)
  | setjmp (malloc : Malloc)
  | longjmp (fuel : Nat)
  | phiAssigns (malloc : Malloc) (fast : Bool) (assigns : List PNRuntimePhiAssign) (destInst : Nat)
  | other (inst locationInst : Nat) (values : List (Nat × Nat)) (memoryStackTop : Nat) (memory : PNMemory)
  | elsewhere (setjmps : Nat) (memory : PNMemory)

/-- One step of the thread. -/
def PNThreadOp.exec (op : PNThreadOp) (th : PNThread) : Except Stop PNThread :=
  match op with
  | .call malloc functionId => opcodeCall ex malloc functionId th
  | .ret => opcodeRet ex th
  | .retValue valueId => opcodeRetValue ex valueId th
  | .setjmp malloc => opcodeSetjmp ex malloc th
  | .longjmp fuel => opcodeLongjmp ex fuel th
  | .phiAssigns malloc fast assigns destInst => do
    let th ← pnThreadDoPhiAssigns ex malloc fast assigns destInst th
    .ok { th with inst := destInst }
  | .other inst locationInst values memoryStackTop memory => do
    let th := th.modifyFrame fun f =>
      { f with memoryStackTop := memoryStackTop, location := ⟨f.location.functionId, locationInst⟩ }
    let th ← setValues ex th values
    .ok { th with inst := inst, memory := memory }
  | .elsewhere setjmps memory => .ok { th with numSetjmps := th.numSetjmps + setjmps, memory := memory }

end

end Pnacl
