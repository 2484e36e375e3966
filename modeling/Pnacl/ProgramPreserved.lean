import Pnacl.ProgramSteps

/-!
# The executor runs a program as it means

`pn_executor_init` pushes the frame of the start function with its argument and its constants, so the executor starts where the
program does, and then it follows the program step by step (`ProgramAt.run`).
-/

namespace Pnacl

open Lib

/-! ## Whole runs -/

/-- The executor is where the run of the program is, with some frames. -/
def ProgramAt (host : PNHost) (module : PNModule) (ex : PNExecutor) (s : ProgramState) (th : PNThread) : Prop :=
  ∃ e es, AtProgram host module ex s th e es

section

variable {host : PNHost} {fuel n : Nat} {module : PNModule} {ex : PNExecutor} {s s' : ProgramState} {th th' : PNThread}
  {other : PNRuntimeInstruction → PNThread → Except Stop PNThread} {sh : StepHost} {f : PNFunction} {malloc : Malloc}

/-- One step of the program is one instruction of the executor. -/
theorem ProgramAt.step (h : ProgramAt host module ex s th) (hr : ReadFor host fuel module ex)
    (hcode : ∀ {functionId : Nat} {f : PNFunction}, module.functions[functionId]? = some f → f.bbs ≠ [] →
      ∃ base stream, CodeOf host module ex f base stream)
    (hm : MallocFresh ex sh.malloc) (hs : ProgramStep host module s s') :
    Avoids (· ≠ outOfMemory) (executeProgramInstruction ex module other sh th) (ProgramAt host module ex s') := by
  obtain ⟨e, es, h⟩ := h
  cases hs with
  | body hf hs => exact (h.body hr.executor hf hm hs).mono fun th' h' => ⟨e, es, h'⟩
  | call hat hres hcallee hg hnull hbody hargs hnum hentry =>
    refine (h.call hr hcode hm hat hres hcallee hg hnull hbody hargs hnum hentry).mono fun th' h' => ?_
    obtain ⟨e', h'⟩ := h'
    exact ⟨e', e :: es, h'⟩
  | ret hat hcaller =>
    obtain ⟨th', e', es', hexec, h'⟩ := AtProgram.ret other sh h hr.executor hat hcaller
    rw [hexec]
    exact .ok ⟨e', es', h'⟩
  | retValue hid hat hv hcaller hres hty =>
    obtain ⟨th', e', es', hexec, h'⟩ := AtProgram.retValue other sh h hr.executor hid hat hv hcaller hres hty
    rw [hexec]
    exact .ok ⟨e', es', h'⟩

/-- The executor follows a run of the program, whatever `malloc`, floating point and the unset bytes are in each step. -/
theorem ProgramAt.run (hr : ReadFor host fuel module ex)
    (hcode : ∀ {functionId : Nat} {f : PNFunction}, module.functions[functionId]? = some f → f.bbs ≠ [] →
      ∃ base stream, CodeOf host module ex f base stream)
    (hrun : ProgramRun host module n s s') : ∀ {steps : List StepHost} {th : PNThread}, ProgramAt host module ex s th →
    steps.length = n → (∀ step ∈ steps, MallocFresh ex step.malloc) →
    Avoids (· ≠ outOfMemory) (executeProgram ex module other steps th) (ProgramAt host module ex s') := by
  induction hrun with
  | refl s =>
    intro steps th h hlen _
    rw [List.eq_nil_of_length_eq_zero hlen]
    exact .ok h
  | skip hat hskip _ ih =>
    intro steps th h hlen hm
    obtain ⟨e, es, h⟩ := h
    exact ih ⟨e, es, h.skip hat hskip⟩ hlen hm
  | step hstep _ ih =>
    intro steps th h hlen hm
    cases steps with
    | nil => cases hlen
    | cons step steps =>
      refine Avoids.bind (h.step hr hcode (hm step (List.mem_cons_self ..)) hstep) fun th₁ h₁ => ?_
      exact ih h₁ (Nat.succ.inj hlen) fun step hmem => hm step (List.mem_cons_of_mem _ hmem)

end

def twiceTypes : List PNType := [.void, .integer 32 .int32, .function 0 0 [1], .function 0 1 [1]]

/-- The functions when their bodies are about to be read. -/
def startProto : PNFunction := ⟨some [95, 115, 116, 97, 114, 116], 2, .start, 1, 0, false, 0, [], [], [], 0, none⟩
def twiceProto : PNFunction := ⟨none, 3, .null, 1, 0, false, 0, [], [], [], 0, none⟩

def startFunction : PNFunction :=
  { startProto with
    bbs := [⟨[.call 3 0 1 [2] 1 false false, .ret PN_INVALID_VALUE_ID], [], [], true⟩]
    values := [⟨.functionArg 0, 1⟩, ⟨.localVar, 1⟩]
    numInstructions := 2
    instructions := some (4096, [(4096, .call .call 3 1 1 0 [2]), (4116, .ret),
      (4120, .call (.intrinsic .llvmTrap) PN_INVALID_VALUE_ID PN_INVALID_VALUE_ID 0 5 [])]) }

def twiceFunction : PNFunction :=
  { twiceProto with
    bbs := [⟨[.binop 3 2 2 0 0, .ret 3], [], [], true⟩]
    values := [⟨.functionArg 0, 1⟩, ⟨.localVar, 1⟩]
    numInstructions := 2
    instructions := some (4096, [(4096, .binop (some (.binop .add .int32)) 3 2 2), (4112, .retValue 3),
      (4120, .call (.intrinsic .llvmTrap) PN_INVALID_VALUE_ID PN_INVALID_VALUE_ID 0 5 [])]) }

/-- What the reader has when a body is about to be read. -/
def twiceState (functions : List PNFunction) : PNReadState where
  module := { pnModuleInit ⟨fun _ => 0, 2 ^ 16⟩ with
    types := twiceTypes, values := [⟨.function 0, 2⟩, ⟨.function 1, 3⟩], functions := functions }
  context := {}
  trace := []

/-- What the reader makes of the file. -/
structure TwiceModule (module : PNModule) : Prop where
  types : module.types = twiceTypes
  values : module.values = [⟨.function 0, 2⟩, ⟨.function 1, 3⟩]
  functions : module.functions = [startFunction, twiceFunction]
  start : module.knownFunctions .start = 0

def twiceFunctions (functionId : Nat) : PNRuntimeFunction :=
  if functionId = 0 then startFunction.runtime zeroHost
  else if functionId = 1 then twiceFunction.runtime zeroHost
  else ⟨0, 0, [], 0⟩

theorem twiceFunctions_lt : 2 < 2 ^ 32 := by decide

theorem twiceFunctions_numValues_lt (functionId : Nat) : (twiceFunctions functionId).numValues < 2 ^ 32 := by
  unfold twiceFunctions
  split
  · exact of_decide_eq_true rfl
  · split <;> exact of_decide_eq_true rfl

def twiceExecutor : PNExecutor where
  numValues := 2
  moduleValues := pnFunctionIdToPointer
  numFunctions := 2
  functions := twiceFunctions
  callAt inst := if inst = 4096 then ⟨3, [2]⟩ else ⟨PN_INVALID_VALUE_ID, []⟩
  sentinel := 64
  stackEnd := 65536
  startFunctionId := 0
  startinfoStart := 2048
  numFunctions_lt := twiceFunctions_lt
  numValues_lt := twiceFunctions_numValues_lt

section Twice

variable {module : PNModule}

theorem TwiceModule.get (h : TwiceModule module) {functionId : Nat} {f : PNFunction}
    (hf : module.functions[functionId]? = some f) : functionId = 0 ∧ f = startFunction ∨ functionId = 1 ∧ f = twiceFunction := by
  rw [h.functions] at hf
  have hlt : functionId < 2 := (List.getElem?_eq_some_iff.mp hf).1
  interval_cases functionId
  · cases hf
    exact .inl ⟨rfl, rfl⟩
  · cases hf
    exact .inr ⟨rfl, rfl⟩

theorem TwiceModule.executorOf (h : TwiceModule module) : ExecutorOf zeroHost module twiceExecutor where
  numValues := by rw [h.values]; rfl
  numFunctions := by rw [h.functions]; rfl
  functions hf := by
    rcases h.get hf with ⟨rfl, rfl⟩ | ⟨rfl, rfl⟩ <;> rfl
  others {functionId} hf := by
    rw [h.functions] at hf
    have hge : 2 ≤ functionId := List.getElem?_eq_none_iff.mp hf
    simp only [twiceExecutor, twiceFunctions]
    rw [if_neg (by omega), if_neg (by omega)]
  start := h.start.symm
  callAt {f base stream inst res calleeId num flags opcode argIds} hf hs hat := by
    obtain ⟨functionId, hget⟩ := List.getElem?_of_mem hf
    rcases h.get hget with ⟨-, rfl⟩ | ⟨-, rfl⟩
    · cases hs
      simp only [List.mem_cons, Prod.mk.injEq, reduceCtorEq, and_false, false_or, List.not_mem_nil, or_false,
        PNRuntimeInstruction.call.injEq] at hat
      rcases hat with ⟨rfl, -, rfl, -, rfl, -, rfl⟩ | ⟨rfl, -, rfl, -, rfl, -, rfl⟩ <;> rfl
    · cases hs
      simp only [List.mem_cons, Prod.mk.injEq, reduceCtorEq, and_false, false_or, List.not_mem_nil, or_false,
        PNRuntimeInstruction.call.injEq] at hat
      obtain ⟨rfl, -, rfl, -, rfl, -, rfl⟩ := hat
      rfl

theorem TwiceModule.basicTypeOf_eq (h : TwiceModule module) (f : PNFunction) (id : Nat) :
    basicTypeOf zeroHost module f id = basicTypeOf zeroHost (twiceState []).module f id :=
  basicTypeOf_congr h.types h.values rfl id

end Twice

end Pnacl
