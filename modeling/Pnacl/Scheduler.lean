import Pnacl.Thread
import Pnacl.ThreadStorage
import Pnacl.Lib.Ring

/-!
# The scheduler

Threads as `pn_executor_run_step` and the thread and futex builtins see them (build without PN_PPAPI): the links of the
ring and of the list of dead threads, the state, what a thread waits for, the instruction pointer and the values of the
current frame. The builtins are those of the source; what another instruction does to its own thread and to memory is
given from outside (`PNOracle`), and so are the answers of `malloc` and of `gettimeofday`. `created` is a history variable:
the thread records that were ever set up.

`PNRunState.step` is one turn of a loop of `pn_executor_run_step`: one instruction of the quantum, the end of the quantum
with the unlinking of a dead thread, or one thread looked at by the schedule loop.
-/

namespace Pnacl

open Lib

def PN_EAGAIN : Nat := 11
def PN_ETIMEDOUT : Nat := 110

/-- The builtins with an effect on the scheduler, by their number. -/
def PN_BUILTIN_NULL : Nat := 0
def PN_BUILTIN_NACL_IRT_BASIC_EXIT : Nat := 2
def PN_BUILTIN_NACL_IRT_THREAD_CREATE : Nat := 43
def PN_BUILTIN_NACL_IRT_THREAD_EXIT : Nat := 44
def PN_BUILTIN_NACL_IRT_FUTEX_WAIT_ABS : Nat := 46
def PN_BUILTIN_NACL_IRT_FUTEX_WAKE : Nat := 47

/-- `PN_INSTRUCTIONS_QUANTUM`. -/
def PN_INSTRUCTIONS_QUANTUM : Nat := 100

/-- `PN_NANOSECONDS_IN_A_MICROSECOND`. -/
def PN_NANOSECONDS_IN_A_MICROSECOND : Nat := 1000

/-- `PNThreadState`. -/
inductive PNThreadState where
  | running | blocked | dead
deriving Repr, DecidableEq

/-- `PNFutexState`. -/
inductive PNFutexState where
  | none | woken | timedout
deriving Repr, DecidableEq

/-- The fields of `PNThread` that the scheduler and the builtins use; `values` is what `pn_thread_get_value` reads. -/
structure PNSchedThread where
  next : Nat
  prev : Nat
  state : PNThreadState
  futexState : PNFutexState
  id : Nat
  waitAddr : Nat
  hasTimeout : Bool
  timeoutSec : Nat
  timeoutUsec : Nat
  inst : Nat
  values : Nat → PNRuntimeValue

/-- `sizeof(PNThread)`. -/
def PNSchedThread.sizeof : Nat := 176

/-- The threads of an executor, by address. -/
structure PNSched where
  threads : Nat → PNSchedThread
  deadThreads : Nat
  memory : PNMemory
  allocator : PNAllocator
  nextThreadId : Nat
  exiting : Bool
  created : List Nat

/-- The fixed part: the program, the callee id of the indirect calls in it, and the address of `start_thread`, which is also
the main thread. -/
structure PNSchedEnv where
  ex : PNExecutor
  calleeAt : Nat → Option Nat
  startThread : Nat
  numValues_lt : ex.numValues < 2 ^ 32
  startThread_pos : 0 < startThread

/-- What an instruction that is no call of a builtin does. -/
inductive PNOtherInst where
  /-- It works on its own thread and on memory. -/
  | other (inst : Nat) (values : Nat → PNRuntimeValue) (memory : PNMemory)
  /-- RET or RET_VALUE from the top frame of the thread. -/
  | retTop
  /-- `LLVM_TRAP`. -/
  | trap

/-- What the rest of the machine answers at one instruction. -/
structure PNOracle where
  inst : PNOtherInst
  malloc : Malloc
  /-- The values of the first frame of a new thread. -/
  startValues : Nat → PNRuntimeValue
  /-- What a builtin without effect on the scheduler returns, and the memory behind it. -/
  result : Nat
  memory : PNMemory

/-- What an observer of the futex builtins sees of an instruction. -/
inductive PNEvent where
  | quiet
  /-- FUTEX_WAIT_ABS returned EAGAIN. -/
  | waitAgain (thread inst addr value : Nat)
  /-- FUTEX_WAIT_ABS blocked its thread. -/
  | waitBlock (thread inst addr value : Nat)
  /-- FUTEX_WAIT_ABS, called again after it blocked, returned. -/
  | waitReturn (thread inst result : Nat)
  /-- FUTEX_WAKE returned; it unblocked the threads `woken`. -/
  | wake (thread addr nwake countP : Nat) (woken : List Nat)
  /-- The scheduler found that the deadline of a blocked thread passed. -/
  | timeout (thread : Nat)
deriving Repr, DecidableEq

/-- Change the record of a thread. -/
def PNSched.update (s : PNSched) (t : Nat) (f : PNSchedThread → PNSchedThread) : PNSched :=
  { s with threads := Function.update s.threads t (f (s.threads t)) }

/-- `t->next = p` and `t->prev = p`. -/
def PNSched.setNext (s : PNSched) (t p : Nat) : PNSched := s.update t fun th => { th with next := p }
def PNSched.setPrev (s : PNSched) (t p : Nat) : PNSched := s.update t fun th => { th with prev := p }

section Builtins

variable (env : PNSchedEnv)

/-- The timeout of FUTEX_WAIT_ABS: whether there is one, the seconds and the microseconds. -/
def readTimeout (memory : PNMemory) (abstimeP : Nat) : Except Stop (Bool × Nat × Nat) :=
  if abstimeP ≠ 0 then do
    let sec ← pnMemoryRead memory 8 abstimeP
    let nsec ← pnMemoryRead memory 4 ((abstimeP + 8) % 2 ^ 32)
    .ok (true, sec, nsec / PN_NANOSECONDS_IN_A_MICROSECOND)
  else .ok (false, 0, 0)

/-- FUTEX_WAIT_ABS in the state PN_FUTEX_NONE. -/
def futexWait (s : PNSched) (t addrP value abstimeP : Nat) : Except Stop (Nat × PNEvent × PNSched) := do
  let read ← pnMemoryRead s.memory 4 addrP
  if read ≠ value then .ok (PN_EAGAIN, .waitAgain t (s.threads t).inst addrP value, s)
  else do
    let (hasTimeout, sec, usec) ← readTimeout s.memory abstimeP
    .ok (0, .waitBlock t (s.threads t).inst addrP value, s.update t fun th =>
      { th with waitAddr := addrP, hasTimeout := hasTimeout, timeoutSec := sec, timeoutUsec := usec, state := .blocked })

/-- `pn_builtin_NACL_IRT_FUTEX_WAIT_ABS`. -/
def pnBuiltinNaclIrtFutexWaitAbs (s : PNSched) (t : Nat) (args : List PNRuntimeValue) :
    Except Stop (Nat × PNEvent × PNSched) := do
  pnCheck (args.length = 3) "num_args == 3"
  match (s.threads t).futexState with
  | .none => futexWait s t (pnArg args 0 4) (pnArg args 1 4) (pnArg args 2 4)
  | .timedout =>
    .ok (PN_ETIMEDOUT, .waitReturn t (s.threads t).inst PN_ETIMEDOUT, s.update t fun th => { th with futexState := .none })
  | .woken => .ok (0, .waitReturn t (s.threads t).inst 0, s.update t fun th => { th with futexState := .none })

/-- FUTEX_WAKE lets a thread run again. -/
def PNSchedThread.wake (th : PNSchedThread) : PNSchedThread := { th with state := .running, futexState := .woken }

/-- The loop of FUTEX_WAKE; `woken` lists the threads it unblocked. -/
def wakeLoop (t addrP nwake : Nat) : Nat → PNSched → Nat → List Nat → Except Stop (List Nat × PNSched)
  | 0, _, _, _ => .error .fuel
  | fuel + 1, s, i, woken =>
    if i ≠ t ∧ woken.length < nwake then
      if (s.threads i).state = .blocked ∧ (s.threads i).waitAddr = addrP then
        wakeLoop t addrP nwake fuel (s.update i .wake) (s.threads i).next (woken ++ [i])
      else wakeLoop t addrP nwake fuel s (s.threads i).next woken
    else .ok (woken, s)

/-- `pn_builtin_NACL_IRT_FUTEX_WAKE`. No ring has more threads than were created. -/
def pnBuiltinNaclIrtFutexWake (s : PNSched) (t : Nat) (args : List PNRuntimeValue) :
    Except Stop (Nat × PNEvent × PNSched) := do
  pnCheck (args.length = 3) "num_args == 3"
  let addrP := pnArg args 0 4
  let nwake := pnArg args 1 4
  let countP := pnArg args 2 4
  let (woken, s) ← wakeLoop t addrP nwake (s.created.length + 1) s (s.threads t).next []
  let memory ← pnMemoryWrite s.memory 4 countP woken.length
  .ok (0, .wake t addrP nwake countP woken, { s with memory := memory })

/-- The record of a new thread: the head of the dead threads, or new memory. -/
def takeThread (malloc : Malloc) (s : PNSched) : Except Stop (Nat × PNSched) :=
  if s.deadThreads ≠ 0 then
    .ok (s.deadThreads, { s with deadThreads := (s.threads s.deadThreads).next })
  else do
    let (p, a) ← pnAllocatorAlloc (malloc s.allocator.chunks) s.allocator PNSchedThread.sizeof PN_DEFAULT_ALIGN
    .ok (p, { s with allocator := a })

/-- The assignments to the fields of a new thread and the links. -/
def linkThread (s : PNSched) (t newThread : Nat) : PNSched :=
  let s := s.update newThread fun th => { th with id := s.nextThreadId, state := .running, futexState := .none }
  let s := s.setNext newThread (s.threads t).next
  let s := s.setPrev newThread t
  let s := s.setPrev (s.threads t).next newThread
  let s := s.setNext t newThread
  { s with nextThreadId := (s.nextThreadId + 1) % 2 ^ 32, created := newThread :: s.created }

/-- The function that a new thread starts with is pushed onto its stack of frames. -/
def startThread (o : PNOracle) (s : PNSched) (newThread startFuncP : Nat) : Except Stop PNSched := do
  let newFunctionId := startFuncP >>> 2
  pnCheck (newFunctionId ≥ PN_MAX_BUILTINS) "new_function_id >= PN_MAX_BUILTINS"
  let newFunctionId := newFunctionId - PN_MAX_BUILTINS
  pnCheck (newFunctionId < env.ex.numFunctions) "function_id < module->num_functions"
  let inst := (env.ex.functions newFunctionId).instructions
  if inst = 0 then pnFatal "Unimplemented intrinsic: %s\n" []
  else .ok (s.update newThread fun th => { th with inst := inst, values := o.startValues })

/-- `pn_builtin_NACL_IRT_THREAD_CREATE`. -/
def pnBuiltinNaclIrtThreadCreate (o : PNOracle) (s : PNSched) (t : Nat) (args : List PNRuntimeValue) :
    Except Stop (Nat × PNEvent × PNSched) := do
  pnCheck (args.length = 3) "num_args == 3"
  let (newThread, s) ← takeThread o.malloc s
  let s ← startThread env o (linkThread s t newThread) newThread (pnArg args 0 4)
  .ok (0, .quiet, s)

/-- `thread->state = PN_THREAD_DEAD`. -/
def PNSched.kill (s : PNSched) (t : Nat) : PNSched := s.update t fun th => { th with state := .dead }

/-- `pn_builtin_NACL_IRT_THREAD_EXIT`. -/
def pnBuiltinNaclIrtThreadExit (s : PNSched) (t : Nat) (args : List PNRuntimeValue) :
    Except Stop (Nat × PNEvent × PNSched) := do
  pnCheck (args.length = 1) "num_args == 1"
  let stackFlagP := pnArg args 0 4
  pnCheck (t ≠ env.startThread) "thread != executor->main_thread"
  let s := s.kill t
  if stackFlagP ≠ 0 then do
    let memory ← pnMemoryWrite s.memory 4 stackFlagP 0
    .ok (0, .quiet, { s with memory := memory })
  else .ok (0, .quiet, s)

/-- `pn_builtin_NACL_IRT_BASIC_EXIT`. -/
def pnBuiltinNaclIrtBasicExit (s : PNSched) (t : Nat) (args : List PNRuntimeValue) :
    Except Stop (Nat × PNEvent × PNSched) := do
  pnCheck (args.length = 1) "num_args == 1"
  .ok (0, .quiet, { s.kill t with exiting := true })

/-- The switch over the builtins. -/
def callBuiltin (o : PNOracle) (s : PNSched) (t functionId : Nat) (args : List PNRuntimeValue) :
    Except Stop (Nat × PNEvent × PNSched) :=
  if functionId = PN_BUILTIN_NULL then pnFatal "Unknown builtin: %d\n" [0]
  else if functionId = PN_BUILTIN_NACL_IRT_BASIC_EXIT then pnBuiltinNaclIrtBasicExit s t args
  else if functionId = PN_BUILTIN_NACL_IRT_THREAD_CREATE then pnBuiltinNaclIrtThreadCreate env o s t args
  else if functionId = PN_BUILTIN_NACL_IRT_THREAD_EXIT then pnBuiltinNaclIrtThreadExit env s t args
  else if functionId = PN_BUILTIN_NACL_IRT_FUTEX_WAIT_ABS then pnBuiltinNaclIrtFutexWaitAbs s t args
  else if functionId = PN_BUILTIN_NACL_IRT_FUTEX_WAKE then pnBuiltinNaclIrtFutexWake s t args
  else .ok (o.result, .quiet, { s with memory := o.memory })

/-- The result of a builtin is stored if the call has one. -/
def setResult (s : PNSched) (t resultValueId result : Nat) : Except Stop PNSched :=
  if resultValueId ≠ PN_INVALID_VALUE_ID then do
    cAssert (resultValueId ≥ env.ex.numValues) "value_id >= thread->executor->module->num_values"
    .ok (s.update t fun th => { th with values := Function.update th.values resultValueId (.ofNat result) })
  else .ok s

/-- The instruction counter moves behind the call unless the thread was blocked or died. -/
def PNSched.advance (s : PNSched) (t : Nat) : PNSched :=
  if (s.threads t).state = .running then
    s.update t fun th => { th with inst := th.inst + (env.ex.callAt th.inst).size }
  else s

/-- `PN_OPCODE_CALL` of a builtin. -/
def opcodeCallBuiltin (o : PNOracle) (s : PNSched) (t functionId : Nat) : Except Stop (PNEvent × PNSched) := do
  let i := env.ex.callAt (s.threads t).inst
  let (result, e, s) ← callBuiltin env o s t functionId (i.argIds.map (s.threads t).values)
  let s ← setResult env s t i.resultValueId result
  .ok (e, s.advance env t)

/-- Instructions that are no calls of builtins. -/
def otherInst (o : PNOracle) (s : PNSched) (t : Nat) : PNSched :=
  match o.inst with
  | .other inst values memory =>
    { s.update t fun th => { th with inst := inst, values := values } with memory := memory }
  | .retTop => { s.kill t with exiting := s.exiting || t == env.startThread }
  | .trap => { s.kill t with exiting := true }

/-- The builtin that an indirect call calls, if it is one: `pn_function_pointer_to_index` of the callee. -/
def calleeBuiltin (th : PNSchedThread) : Option Nat :=
  match env.calleeAt th.inst with
  | some calleeId =>
    let functionId := (th.values calleeId).member 4 >>> 2
    if functionId < PN_MAX_BUILTINS then some functionId else none
  | none => none

/-- `pn_thread_execute_instruction`. -/
def pnThreadExecuteInstruction (o : PNOracle) (s : PNSched) (t : Nat) : Except Stop (PNEvent × PNSched) :=
  match calleeBuiltin env (s.threads t) with
  | some functionId => opcodeCallBuiltin env o s t functionId
  | none => .ok (.quiet, otherInst env o s t)

end Builtins

/-! ## `pn_executor_run_step` -/

/-- `struct timeval`. -/
structure PNTimeval where
  sec : Nat
  usec : Nat
deriving Repr, DecidableEq

/-- The deadline of the thread passed. -/
def PNSchedThread.deadlinePassed (th : PNSchedThread) (tv : PNTimeval) : Bool :=
  th.hasTimeout && (tv.sec > th.timeoutSec || (tv.sec == th.timeoutSec && tv.usec > th.timeoutUsec))

/-- The scheduler lets a thread run again because its deadline passed. -/
def PNSched.timeOut (s : PNSched) (t : Nat) : PNSched :=
  s.update t fun th => { th with state := .running, futexState := .timedout }

/-- Unlink a dead thread from the ring and link it into the list of dead threads. -/
def PNSched.unlink (s : PNSched) (t : Nat) : PNSched :=
  let s := s.setNext (s.threads t).prev (s.threads t).next
  let s := s.setPrev (s.threads t).next (s.threads t).prev
  let s := s.setNext t s.deadThreads
  let s := s.setPrev t 0
  { s with deadThreads := t }

/-- Where the loop of `pn_executor_run` is. -/
inductive PNPhase where
  /-- In the quantum of the thread, before its `i`th instruction. -/
  | quantum (i : Nat)
  /-- In the schedule loop. -/
  | schedule
  /-- `pn_executor_run_step` returned NULL. -/
  | exited
deriving Repr, DecidableEq

/-- The state of `pn_executor_run`. -/
structure PNRunState where
  sched : PNSched
  thread : Nat
  phase : PNPhase

/-- The end of a quantum: a dead thread is unlinked, and the schedule loop starts at the next one. -/
def endQuantum (env : PNSchedEnv) (s : PNSched) (t : Nat) : Except Stop PNRunState :=
  if s.exiting then .ok ⟨s, t, .exited⟩
  else if (s.threads t).state = .dead then do
    cAssert (t ≠ env.startThread) "thread != &executor->start_thread"
    .ok ⟨s.unlink t, (s.threads t).next, .schedule⟩
  else .ok ⟨s, (s.threads t).next, .schedule⟩

/-- The schedule loop looks at a thread. -/
def scheduleTurn (tv : PNTimeval) (s : PNSched) (t : Nat) : Except Stop (PNEvent × PNRunState) := do
  cAssert ((s.threads t).state ≠ .dead) "thread->state != PN_THREAD_DEAD"
  if (s.threads t).state = .running then .ok (.quiet, ⟨s, t, .quantum 0⟩)
  else if (s.threads t).deadlinePassed tv then .ok (.timeout t, ⟨s.timeOut t, t, .quantum 0⟩)
  else .ok (.quiet, ⟨s, (s.threads t).next, .schedule⟩)

/-- One turn of the loops of `pn_executor_run_step`. -/
def PNRunState.step (env : PNSchedEnv) (o : PNOracle) (tv : PNTimeval) (c : PNRunState) :
    Except Stop (PNEvent × PNRunState) :=
  match c.phase with
  | .quantum i =>
    if i < PN_INSTRUCTIONS_QUANTUM ∧ (c.sched.threads c.thread).state = .running then do
      let (e, s) ← pnThreadExecuteInstruction env o c.sched c.thread
      .ok (e, ⟨s, c.thread, .quantum (i + 1)⟩)
    else do
      let c ← endQuantum env c.sched c.thread
      .ok (.quiet, c)
  | .schedule => scheduleTurn tv c.sched c.thread
  | .exited => .ok (.quiet, c)

/-- `pn_executor_init`, as far as it concerns the threads: the allocator holds the bits of the page map and the module's
values, and the start thread is alone on the ring. -/
def pnExecutorInitSched (env : PNSchedEnv) (malloc : Malloc) (memory : PNMemory) (threads : Nat → PNSchedThread)
    (numWords : Nat) (values : Nat → PNRuntimeValue) : Except Stop PNRunState := do
  let a ← pnAllocatorInit (64 * 1024)
  let (_, a) ← pnAllocatorAlloc (malloc a.chunks) a (4 * numWords) 4
  let (_, a) ← pnAllocatorAlloc (malloc a.chunks) a (PNRuntimeValue.sizeof * env.ex.numValues) PNRuntimeValue.sizeof
  let start : PNSchedThread := {
    next := env.startThread, prev := env.startThread, state := .running, futexState := .none, id := 0, waitAddr := 0,
    hasTimeout := false, timeoutSec := 0, timeoutUsec := 0,
    inst := (env.ex.functions env.ex.startFunctionId).instructions, values := values }
  .ok ⟨⟨Function.update threads env.startThread start, 0, memory, a, 1, false, [env.startThread]⟩, env.startThread, .quantum 0⟩

end Pnacl
