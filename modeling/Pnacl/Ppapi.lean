import Pnacl.SchedulerRing

/-!
# The PPAPI event loop

The executor in the build with PN_PPAPI, as far as the event loop goes: the threads with their links, states and frames, the
queue of events and the list of free ones, and the interfaces that GET_INTERFACE events resolve. PPAPI_START puts the event
thread in the place of the start thread; when a function on the event thread has returned, `pn_executor_run_step` finishes the
current event and handles the next one (`eventTurn`).

The frames of a thread are a list, the current one first; below the last one is `sentinel_frame`. What an instruction computes
is given from outside (`PNPpapiInst`), and any thread that runs may be next (`PpapiStep`). `allocated`, `log` and `saved` are
history variables.
-/

namespace Pnacl

open Lib

/-- `PN_MAX_BUILTINS` with the builtins for PPAPI. -/
def PN_PPAPI_MAX_BUILTINS : Nat := PN_MAX_BUILTINS + 9

def PN_BUILTIN_PPB_GET_INTERFACE : Nat := PN_MAX_BUILTINS + 2

def PN_MODULE_ID : Nat := 0xcabba6e
def PN_INSTANCE_ID : Nat := 0xc0de5

def PN_INVALID_INTERFACE_TABLE : Nat := 2 ^ 32 - 1

/-- `PNPppInterfaceId`. -/
def PN_PPP_INTERFACE_INSTANCE_1_0 : Nat := 0
def PN_PPP_INTERFACE_INSTANCE_1_1 : Nat := 1

/-- `PNThreadState` with PN_PPAPI. -/
inductive PNPpapiThreadState where
  | running | blocked | dead | eventLoop | idle
deriving Repr, DecidableEq

/-- `PNEventType`. -/
inductive PNEventType where
  | none | getInterface | didCreate | didChangeView
deriving Repr, DecidableEq

/-- What the event loop uses of `PNCallFrame`: `values` is `function_values`, and `jmpbufs` the list at `jmpbuf_head`, each with its
id and the stack top in its copy of the frame. -/
structure PNPpapiFrame where
  functionId : Nat
  values : Nat → Nat
  memoryStackTop : Nat
  jmpbufs : List (Nat × Nat)

/-- `PNThread`. -/
structure PNPpapiThread where
  next : Nat
  prev : Nat
  state : PNPpapiThreadState
  futexState : PNFutexState
  tls : Nat
  id : Nat
  frames : List PNPpapiFrame
  exitValue : Nat

/-- `PNEvent`; `outIface` is the index of the interface that `out_iface_p` points to. -/
structure PNEventRecord where
  next : Nat
  prev : Nat
  type : PNEventType
  interface : Nat
  outIface : Nat
deriving Repr, DecidableEq

/-- `sizeof(PNEvent)`. -/
def PNEventRecord.sizeof : Nat := 40

/-- What an observer sees of the events. -/
inductive PNEventLog where
  | enqueue (event : Nat)
  | dequeue (event : Nat)
  /-- A GET_INTERFACE event is finished: the interface has this value. -/
  | complete (interface value : Nat)
  /-- The handler of a DID_CREATE event is called, through the interface with this value. -/
  | start (event interface value : Nat)
deriving Repr, DecidableEq

/-- `PNPpapi`, without the event thread. -/
structure PNPpapi where
  allocator : PNAllocator
  events : Nat → PNEventRecord
  currentEvent : Nat
  freeEvents : Nat
  shutdownFunc : Nat
  getInterfaceFunc : Nat
  allocated : List Nat
  log : List PNEventLog

/-- What the event loop uses of `PNExecutor` and its memory. `saved` lists what STACKSAVE answered to the event thread. -/
structure PNPpapiExecutor where
  threads : Nat → PNPpapiThread
  mainThread : Nat
  memory : PNMemory
  heapEnd : Nat
  pppInterfaces : Nat → Nat
  ppapi : PNPpapi
  nextJmpbufId : Nat
  exiting : Bool
  saved : List Nat

/-- The fixed part: the program, the names of the interfaces in guest memory, and the addresses of `start_thread`,
`event_thread` and `sentinel_event`, which are parts of the executor. -/
structure PNPpapiEnv where
  ex : PNExecutor
  interfaceNames : Nat → Nat
  startThread : Nat
  eventThread : Nat
  sentinelEvent : Nat
  threads_ne : eventThread ≠ startThread
  sentinelEvent_pos : 0 < sentinelEvent

/-! ## Events -/

def PNPpapi.setEvent (p : PNPpapi) (e : Nat) (f : PNEventRecord → PNEventRecord) : PNPpapi :=
  { p with events := Function.update p.events e (f (p.events e)) }

/-- `e->next = q` and `e->prev = q`. -/
def PNPpapi.setNext (p : PNPpapi) (e q : Nat) : PNPpapi := p.setEvent e fun r => { r with next := q }
def PNPpapi.setPrev (p : PNPpapi) (e q : Nat) : PNPpapi := p.setEvent e fun r => { r with prev := q }

def PNPpapi.record (p : PNPpapi) (l : PNEventLog) : PNPpapi := { p with log := p.log ++ [l] }

/-- `pn_event_allocate`. -/
def pnEventAllocate (malloc : Malloc) (p : PNPpapi) : Except Stop (Nat × PNPpapi) :=
  if p.freeEvents ≠ 0 then .ok (p.freeEvents, { p with freeEvents := (p.events p.freeEvents).next })
  else do
    let (e, a) ← pnAllocatorAlloc (malloc p.allocator.chunks) p.allocator PNEventRecord.sizeof PN_DEFAULT_ALIGN
    .ok (e, { p with allocator := a, allocated := e :: p.allocated })

/-- `pn_event_free`. -/
def pnEventFree (p : PNPpapi) (e : Nat) : PNPpapi := { p.setNext e p.freeEvents with freeEvents := e }

section

variable (env : PNPpapiEnv)

/-- `pn_event_enqueue`. -/
def pnEventEnqueue (p : PNPpapi) (e : Nat) : PNPpapi :=
  let p := p.setNext e env.sentinelEvent
  let p := p.setPrev e (p.events env.sentinelEvent).prev
  let p := p.setNext (p.events env.sentinelEvent).prev e
  let p := p.setPrev env.sentinelEvent e
  p.record (.enqueue e)

/-- `pn_event_dequeue`; 0 is NULL. -/
def pnEventDequeue (p : PNPpapi) : Nat × PNPpapi :=
  let result := (p.events env.sentinelEvent).next
  if result = env.sentinelEvent then (0, p)
  else
    let p := p.setNext (p.events result).prev (p.events result).next
    let p := p.setPrev (p.events result).next (p.events result).prev
    let p := p.setPrev result 0
    let p := p.setNext result 0
    (result, p.record (.dequeue result))

/-! ## Threads and frames -/

def PNPpapiExecutor.update (x : PNPpapiExecutor) (t : Nat) (f : PNPpapiThread → PNPpapiThread) : PNPpapiExecutor :=
  { x with threads := Function.update x.threads t (f (x.threads t)) }

/-- `t->next = p`, `t->prev = p` and `t->state = state`. -/
def PNPpapiExecutor.setNext (x : PNPpapiExecutor) (t p : Nat) : PNPpapiExecutor := x.update t fun th => { th with next := p }
def PNPpapiExecutor.setPrev (x : PNPpapiExecutor) (t p : Nat) : PNPpapiExecutor := x.update t fun th => { th with prev := p }
def PNPpapiExecutor.setState (x : PNPpapiExecutor) (t : Nat) (state : PNPpapiThreadState) : PNPpapiExecutor :=
  x.update t fun th => { th with state := state }

/-- `thread->current_frame->memory_stack_top`. -/
def PNPpapiExecutor.stackTop (x : PNPpapiExecutor) (t : Nat) : Nat :=
  match (x.threads t).frames with
  | [] => env.ex.stackEnd
  | f :: _ => f.memoryStackTop

/-- Change the current frame. -/
def PNPpapiExecutor.modifyFrame (x : PNPpapiExecutor) (t : Nat) (f : PNPpapiFrame → PNPpapiFrame) : PNPpapiExecutor :=
  x.update t fun th => { th with frames := th.frames.modifyHead f }

/-- `thread->current_frame->memory_stack_top = top`. -/
def PNPpapiExecutor.setTop (x : PNPpapiExecutor) (t top : Nat) : PNPpapiExecutor :=
  x.modifyFrame t fun f => { f with memoryStackTop := top }

/-- `pn_thread_set_param_value`. -/
def pnThreadSetParamValue (x : PNPpapiExecutor) (t index value : Nat) : PNPpapiExecutor :=
  x.modifyFrame t fun f => { f with values := Function.update f.values index value }

/-- The values of a new frame: the constants follow the arguments. -/
def frameValues (function : PNRuntimeFunction) (n : Nat) : Nat :=
  if function.numArgs ≤ n then function.constants.getD (n - function.numArgs) 0 else 0

/-- `pn_thread_push_function`. -/
def pnPpapiPushFunction (x : PNPpapiExecutor) (t functionId : Nat) : Except Stop PNPpapiExecutor :=
  let function := env.ex.functions functionId
  if function.instructions = 0 then pnFatal "Unimplemented intrinsic: %s\n" []
  else
    .ok (x.update t fun th => { th with frames := ⟨functionId, frameValues function, x.stackTop env t, []⟩ :: th.frames })

/-- `pn_thread_push_function_pointer`; the function is returned too. -/
def pnThreadPushFunctionPointer (x : PNPpapiExecutor) (t func : Nat) : Except Stop (PNRuntimeFunction × PNPpapiExecutor) := do
  let functionId := (func >>> 2 + 2 ^ 32 - PN_PPAPI_MAX_BUILTINS) % 2 ^ 32
  pnCheck (functionId < env.ex.numFunctions) "function_id < module->num_functions"
  let x ← pnPpapiPushFunction env x t functionId
  .ok (env.ex.functions functionId, x)

/-! ## PPAPI_START -/

/-- The event thread takes the place of the thread that called PPAPI_START. -/
def replaceThread (x : PNPpapiExecutor) (t : Nat) : PNPpapiExecutor :=
  let th := x.threads t
  let n := env.eventThread
  let x := x.update n fun e =>
    { e with frames := [], tls := th.tls, id := th.id, state := .running, futexState := .none }
  let x := x.setNext n (x.threads t).next
  let x := x.setPrev n (x.threads t).prev
  let x := x.setPrev (x.threads t).next n
  let x := x.setNext (x.threads t).prev n
  let x := x.setNext t n
  let x := x.setPrev t 0
  { x.setState t .eventLoop with mainThread := n }

/-- `pn_builtin_NACL_IRT_PPAPIHOOK_PPAPI_START`. -/
def pnBuiltinPpapiStart (malloc : Malloc) (x : PNPpapiExecutor) (t : Nat) (args : List PNRuntimeValue) :
    Except Stop PNPpapiExecutor := do
  pnCheck (args.length = 1) "num_args == 1"
  let startFunctionsP := pnArg args 0 4
  let initializeFunc ← pnMemoryRead x.memory 4 startFunctionsP
  let shutdownFunc ← pnMemoryRead x.memory 4 ((startFunctionsP + 4) % 2 ^ 32)
  let getInterfaceFunc ← pnMemoryRead x.memory 4 ((startFunctionsP + 8) % 2 ^ 32)
  pnCheck (t = env.startThread) "thread == &executor->start_thread"
  pnCheck (t = x.mainThread) "thread == executor->main_thread"
  let x := replaceThread env { x with
    ppapi := { x.ppapi with shutdownFunc := shutdownFunc, getInterfaceFunc := getInterfaceFunc } } t
  let (function, x) ← pnThreadPushFunctionPointer env x env.eventThread initializeFunc
  pnCheck (function.numArgs = 2) "new_function->num_args == 2"
  let x := pnThreadSetParamValue x env.eventThread 0 PN_MODULE_ID
  let x := pnThreadSetParamValue x env.eventThread 1 (PN_BUILTIN_PPB_GET_INTERFACE * 4)
  let x := x.setTop env.eventThread (x.stackTop env t)
  let (event, p) ← pnEventAllocate malloc x.ppapi
  let p := p.setEvent event fun r => { r with type := .didCreate }
  .ok { x with ppapi := pnEventEnqueue env p event }

/-! ## Handling events -/

/-- `pn_ppapi_get_interface`. -/
def pnPpapiGetInterface (malloc : Malloc) (x : PNPpapiExecutor) (interface : Nat) : Except Stop (Nat × PNPpapiExecutor) :=
  let result := x.pppInterfaces interface
  if result = PN_INVALID_INTERFACE_TABLE then do
    let (event, p) ← pnEventAllocate malloc x.ppapi
    let p := p.setEvent event fun r => { r with type := .getInterface, interface := interface, outIface := interface }
    .ok (result, { x with ppapi := pnEventEnqueue env p event })
  else .ok (result, x)

/-- The end of the case of DID_CREATE: call the function at offset 0 of the interface. -/
def startDidCreate (x : PNPpapiExecutor) (t event interface instanceIface : Nat) : Except Stop PNPpapiExecutor := do
  let didCreateFunc ← pnMemoryRead x.memory 4 instanceIface
  let (function, x) ← pnThreadPushFunctionPointer env x t didCreateFunc
  pnCheck (function.numArgs = 4) "new_function->num_args == 4"
  let x := pnThreadSetParamValue x t 0 PN_INSTANCE_ID
  let x := pnThreadSetParamValue x t 1 0
  let x := pnThreadSetParamValue x t 2 0
  let x := pnThreadSetParamValue x t 3 0
  let x := x.setState t .running
  .ok { x with ppapi := { x.ppapi.record (.start event interface instanceIface) with currentEvent := event } }

/-- The case of DID_CREATE in `pn_event_handle_next`. -/
def handleDidCreate (malloc : Malloc) (x : PNPpapiExecutor) (t event : Nat) : Except Stop PNPpapiExecutor := do
  let (instanceIface, x) ← pnPpapiGetInterface env malloc x PN_PPP_INTERFACE_INSTANCE_1_1
  if instanceIface = PN_INVALID_INTERFACE_TABLE then .ok { x with ppapi := pnEventEnqueue env x.ppapi event }
  else if instanceIface = 0 then do
    let (instanceIface, x) ← pnPpapiGetInterface env malloc x PN_PPP_INTERFACE_INSTANCE_1_0
    if instanceIface = PN_INVALID_INTERFACE_TABLE then .ok { x with ppapi := pnEventEnqueue env x.ppapi event }
    else if instanceIface = 0 then pnFatal "no version of PPP_INSTANCE found.\n" []
    else startDidCreate env x t event PN_PPP_INTERFACE_INSTANCE_1_0 instanceIface
  else startDidCreate env x t event PN_PPP_INTERFACE_INSTANCE_1_1 instanceIface

/-- The case of GET_INTERFACE in `pn_event_handle_next`. -/
def handleGetInterface (x : PNPpapiExecutor) (t event : Nat) : Except Stop PNPpapiExecutor := do
  let interface := (x.ppapi.events event).interface
  let (_, x) ← pnThreadPushFunctionPointer env x t x.ppapi.getInterfaceFunc
  let x := pnThreadSetParamValue x t 0 (env.interfaceNames interface)
  let x := x.setState t .running
  .ok { x with ppapi := { x.ppapi with currentEvent := event } }

/-- `pn_event_handle_next`. -/
def pnEventHandleNext (malloc : Malloc) (x : PNPpapiExecutor) (t : Nat) : Except Stop PNPpapiExecutor :=
  let (event, p) := pnEventDequeue env x.ppapi
  let x := { x with ppapi := { p with currentEvent := 0 } }
  if event = 0 then .ok x
  else
    match (x.ppapi.events event).type with
    | .getInterface => handleGetInterface env x t event
    | .didCreate => handleDidCreate env malloc x t event
    | .didChangeView => .ok x
    | .none => pnFatal "unknown event: %d\n" [0]

/-- `pn_event_finish`. -/
def pnEventFinish (x : PNPpapiExecutor) (t : Nat) : PNPpapiExecutor :=
  let event := x.ppapi.currentEvent
  if event = 0 then x
  else
    let x :=
      if (x.ppapi.events event).type = .getInterface then
        let out := (x.ppapi.events event).outIface
        let value := (x.threads t).exitValue % 2 ^ 32
        { x with
          pppInterfaces := Function.update x.pppInterfaces out value
          ppapi := x.ppapi.record (.complete out value) }
      else x
    { x with ppapi := pnEventFree x.ppapi event }

/-- What `pn_executor_run_step` does behind the quantum of the main thread, when it is dead or idle. -/
def eventTurn (malloc : Malloc) (x : PNPpapiExecutor) (t : Nat) : Except Stop PNPpapiExecutor := do
  cAssert (t ≠ env.startThread) "thread != &executor->start_thread"
  cAssert ((x.threads env.startThread).state = .eventLoop) "executor->start_thread.state == PN_THREAD_EVENT_LOOP"
  let x := pnEventFinish x t
  let x ← pnEventHandleNext env malloc x t
  if (x.threads t).state = .dead then .ok (x.setState t .idle) else .ok x

/-! ## Instructions -/

/-- What an instruction does, with the values that it computes. -/
inductive PNPpapiInst where
  /-- It changes values of the current frame, guest memory and `heap_end`. -/
  | other (values : Nat → Nat) (memory : PNMemory) (heapEnd : Nat)
  | call (functionId : Nat) (values : Nat → Nat)
  | ret
  | retValue (value : Nat)
  | alloca (size alignment : Nat)
  | stacksave
  | stackrestore (value : Nat)
  | setjmp
  | longjmp (id : Nat)
  | ppapiStart (malloc : Malloc) (args : List PNRuntimeValue)
  /-- THREAD_CREATE of a thread in the record `n`. -/
  | threadCreate (n functionId stackTop tls : Nat)
  | threadExit
  | futexWait
  | futexWake (woken : List Nat)
  /-- BASIC_EXIT or LLVM_TRAP. -/
  | exit

/-- The inner loop of LONGJMP: the stack top in the copy, and the buffers that the copy has. -/
def findBuf (id : Nat) : List (Nat × Nat) → Option (Nat × List (Nat × Nat))
  | [] => none
  | (bufId, top) :: rest => if bufId = id then some (top, rest) else findBuf id rest

/-- The outer loop of LONGJMP: the frames behind the jump. -/
def longjmpFrames (id : Nat) : List PNPpapiFrame → Option (List PNPpapiFrame)
  | [] => none
  | f :: fs =>
    match findBuf id f.jmpbufs with
    | some (top, rest) => some ({ f with memoryStackTop := top, jmpbufs := rest } :: fs)
    | none => longjmpFrames id fs

/-- RET and RET_VALUE: a thread that returns from its first frame dies, and with the start thread the program. -/
def returnFrame (x : PNPpapiExecutor) (t : Nat) (value : Option Nat) : PNPpapiExecutor :=
  let x := x.update t fun th => { th with frames := th.frames.tail }
  match (x.threads t).frames with
  | _ :: _ => x
  | [] =>
    let x := x.setState t .dead
    if t = env.startThread then { x with exiting := true }
    else x.update t fun th => { th with exitValue := value.getD th.exitValue }

/-- The links and fields of a new thread. -/
def linkPpapiThread (x : PNPpapiExecutor) (t n tls : Nat) : PNPpapiExecutor :=
  let x := x.update n fun th => { th with frames := [], tls := tls, state := .running, futexState := .none }
  let x := x.setNext n (x.threads t).next
  let x := x.setPrev n t
  let x := x.setPrev (x.threads t).next n
  x.setNext t n

/-- Threads that FUTEX_WAKE lets run again. -/
def wakeThreads (x : PNPpapiExecutor) : List Nat → PNPpapiExecutor
  | [] => x
  | i :: rest =>
    if (x.threads i).state = .blocked then
      wakeThreads (x.update i fun th => { th with state := .running, futexState := .woken }) rest
    else wakeThreads x rest

/-- `pn_thread_execute_instruction`. -/
def PNPpapiInst.exec (x : PNPpapiExecutor) (t : Nat) : PNPpapiInst → Except Stop PNPpapiExecutor
  | .other values memory heapEnd =>
    .ok { x.modifyFrame t fun f => { f with values := values } with memory := memory, heapEnd := heapEnd }
  | .call functionId values => do
    let x ← pnPpapiPushFunction env x t functionId
    .ok (x.modifyFrame t fun f => { f with values := values })
  | .ret => .ok (returnFrame env x t none)
  | .retValue value => .ok (returnFrame env x t (some value))
  | .alloca size alignment =>
    let top := pnAlignDown ((x.stackTop env t + 2 ^ 32 - size) % 2 ^ 32) alignment
    if t = x.mainThread ∧ top < x.heapEnd then pnFatal "Out of stack\n" []
    else .ok (x.setTop t top)
  | .stacksave => .ok { x with saved := if t = env.eventThread then x.stackTop env t :: x.saved else x.saved }
  | .stackrestore value => .ok (x.setTop t value)
  | .setjmp =>
    .ok { x.modifyFrame t fun f => { f with jmpbufs := (x.nextJmpbufId, f.memoryStackTop) :: f.jmpbufs } with
      nextJmpbufId := (x.nextJmpbufId + 1) % 2 ^ 32 }
  | .longjmp id =>
    match longjmpFrames id (x.threads t).frames with
    | some frames => .ok (x.update t fun th => { th with frames := frames })
    | none => pnFatal "Invalid jmpbuf target: %d\n" [id]
  | .ppapiStart malloc args => pnBuiltinPpapiStart env malloc x t args
  | .threadCreate n functionId stackTop tls => do
    let x ← pnPpapiPushFunction env (linkPpapiThread x t n tls) n functionId
    .ok (x.setTop n stackTop)
  | .threadExit => do
    pnCheck (t ≠ x.mainThread) "thread != executor->main_thread"
    .ok (x.setState t .dead)
  | .futexWait => .ok (x.setState t .blocked)
  | .futexWake woken => .ok (wakeThreads x woken)
  | .exit => .ok { x.setState t .dead with exiting := true }

/-! ## Runs -/

/-- A record that no thread uses. -/
def unusedThread : PNPpapiThread := ⟨0, 0, .dead, .none, 0, 0, [], 0⟩

/-- `pn_executor_init`, as far as it concerns the start thread and the events. -/
def pnExecutorInitPpapi (events : Nat → PNEventRecord) (memory : PNMemory) (heapStart : Nat) :
    Except Stop PNPpapiExecutor := do
  let a ← pnAllocatorInit (64 * 1024)
  let start : PNPpapiThread := ⟨env.startThread, env.startThread, .running, .none, 0, 0, [], 0⟩
  let sentinel := { events env.sentinelEvent with next := env.sentinelEvent, prev := env.sentinelEvent }
  let x : PNPpapiExecutor := {
    threads := Function.update (fun _ => unusedThread) env.startThread start
    mainThread := env.startThread
    memory := memory
    heapEnd := heapStart
    pppInterfaces := fun _ => PN_INVALID_INTERFACE_TABLE
    ppapi := ⟨a, Function.update events env.sentinelEvent sentinel, 0, 0, 0, 0, [], []⟩
    nextJmpbufId := 0
    exiting := false
    saved := [] }
  let x ← pnPpapiPushFunction env x env.startThread env.ex.startFunctionId
  .ok (pnThreadSetParamValue x env.startThread 0 env.ex.startinfoStart)

/-- A thread is unlinked from the ring. -/
def unlinkThread (x : PNPpapiExecutor) (t : Nat) : PNPpapiExecutor :=
  let x := x.setNext (x.threads t).prev (x.threads t).next
  x.setPrev (x.threads t).next (x.threads t).prev

/-- What can happen next. -/
inductive PNPpapiOp where
  /-- A thread executes an instruction. -/
  | execute (t : Nat) (inst : PNPpapiInst)
  /-- The main thread, dead or idle, has ended its quantum. -/
  | turn (malloc : Malloc)
  /-- Another thread is dead and is unlinked. -/
  | unlink (t : Nat)
  /-- The deadline of a blocked thread passes. -/
  | timeOut (t : Nat)

/-- `next` reaches the thread from the main thread. -/
def PNPpapiExecutor.OnRing (x : PNPpapiExecutor) (t : Nat) : Prop := ∃ k, (fun t => (x.threads t).next)^[k] x.mainThread = t

/-- The step can come now. -/
def PNPpapiOp.Enabled (x : PNPpapiExecutor) : PNPpapiOp → Prop
  | .execute t _ => x.OnRing t ∧ (x.threads t).state = .running
  | .turn _ => (x.threads x.mainThread).state = .dead ∨ (x.threads x.mainThread).state = .idle
  | .unlink t => x.OnRing t ∧ t ≠ x.mainThread ∧ (x.threads t).state = .dead
  | .timeOut t => x.OnRing t ∧ (x.threads t).state = .blocked

def PNPpapiOp.exec (x : PNPpapiExecutor) : PNPpapiOp → Except Stop PNPpapiExecutor
  | .execute t inst => inst.exec env x t
  | .turn malloc => eventTurn env malloc x x.mainThread
  | .unlink t => .ok (unlinkThread x t)
  | .timeOut t => .ok (x.update t fun th => { th with state := .running, futexState := .timedout })

/-- What is promised of a step: `malloc` keeps its blocks apart from the events and from `sentinel_event`, and THREAD_CREATE gets a
record of its own. -/
def PNPpapiOp.Promised : PNPpapiOp → Prop
  | .execute _ (.ppapiStart malloc _) | .turn malloc => MallocApart env.sentinelEvent PNEventRecord.sizeof malloc
  | .execute _ (.threadCreate n _ _ _) => n ≠ env.startThread ∧ n ≠ env.eventThread
  | _ => True

/-- The states of the runs in which every step meets `S`. -/
inductive PpapiRun (S : PNPpapiExecutor → PNPpapiOp → Prop) : PNPpapiExecutor → Prop where
  | init {events : Nat → PNEventRecord} {memory : PNMemory} {heapStart : Nat} {x : PNPpapiExecutor}
      (h : pnExecutorInitPpapi env events memory heapStart = .ok x) : PpapiRun S x
  | step {x x' : PNPpapiExecutor} (op : PNPpapiOp) (h : PpapiRun S x) (alive : x.exiting = false) (he : op.Enabled x)
      (hp : op.Promised env) (hS : S x op) (hx : op.exec env x = .ok x') : PpapiRun S x'

end

end Pnacl
