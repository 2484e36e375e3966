import Pnacl.BodyMeaning
import Pnacl.TruthValues

/-!
# What a program means

The meaning of a module: the calls that have not returned, each with its place in the body of its function and its own values. A
CALL starts the function that it names or points to with the values of the arguments, and a return goes on behind the CALL of the
one below. Nothing of it mentions frames, the allocator or the stream. Intrinsics and the builtins of the host have no meaning here.
-/

namespace Pnacl

open Lib

/-- A call that has not returned: its function, where it is in the body, and its values. -/
structure Activation where
  functionId : Nat
  block : Nat
  index : Nat
  values : LlvmValues

/-- The state of the body. -/
def Activation.body (a : Activation) (memory : PNMemory) : BodyState := ⟨a.block, a.index, a.values, memory⟩

/-- The function goes on with this state of its body. -/
def Activation.withBody (a : Activation) (s : BodyState) : Activation := ⟨a.functionId, s.block, s.index, s.values⟩

/-- Behind the instruction. -/
def Activation.next (a : Activation) : Activation := { a with index := a.index + 1 }

/-- Behind the instruction, with a result. -/
def Activation.returned (a : Activation) (id : Nat) (v : LlvmValue) : Activation :=
  { a with index := a.index + 1, values := Function.update a.values id (some v) }

/-- The call that is running, those that wait for it, and memory. -/
structure ProgramState where
  running : Activation
  waiting : List Activation
  memory : PNMemory

/-- What `pn_executor_init_module_values` gives a value of the module: the pointer of a function, the address of a variable. -/
def PNModule.globalValue (module : PNModule) (id : Nat) : Option Nat :=
  match (module.values[id]?).map PNValue.code with
  | some (.function index) => some (pnFunctionIdToPointer index)
  | some (.globalVar index) => (module.globalVars[index]?).join.map PNGlobalVar.offset
  | _ => none

section

variable (host : PNHost) (module : PNModule)

/-- The instruction of a call. -/
def Activation.At (a : Activation) (f : PNFunction) (inst : PNInstruction) : Prop :=
  module.functions[a.functionId]? = some f ∧ ∃ bb, f.bbs[a.block]? = some bb ∧ bb.instructions[a.index]? = some inst

/-- What a function finds in a value when it starts: a pointer of the module, an argument or a constant. -/
inductive EntryValue (f : PNFunction) (args : List LlvmValue) : Nat → LlvmValue → Prop where
  | global {id p : Nat} (h : module.globalValue id = some p) : EntryValue f args id ⟨.int32, BitVec.ofNat 32 p⟩
  | argument {n : Nat} {v : LlvmValue} (h : args[n]? = some v) : EntryValue f args (module.values.length + n) v
  | constant {n w : Nat} {c : PNConstant} {t : PNBasicType} {x : BitVec t.width} (h : f.constants[n]? = some c)
      (hw : c.value = some w) (hx : Holds t w x) : EntryValue f args (module.values.length + f.numArgs + n) ⟨t, x⟩

/-- The values of a function when it starts; what is not defined may be anything. -/
def EntryValues (f : PNFunction) (args : List LlvmValue) (values : LlvmValues) : Prop :=
  ∀ id v, values id = some v → EntryValue module f args id v ∧ basicTypeOf host module f id = .ok v.type

/-- The function that a CALL names, or points to. -/
inductive Callee (values : LlvmValues) (calleeId : Nat) : Bool → Nat → Prop where
  | direct {functionId typeId : Nat} (h : module.values[calleeId]? = some ⟨.function functionId, typeId⟩) :
      Callee values calleeId false functionId
  | indirect {functionId : Nat} {p : BitVec 32} (h : values calleeId = some ⟨.int32, p⟩)
      (hp : pnFunctionPointerToIndex p.toNat = functionId + PN_MAX_BUILTINS) : Callee values calleeId true functionId

/-- One instruction that the executor executes. A call passes as many arguments as there are to a function that is no intrinsic and
has a body; a returned value has the type of the result of the call. -/
inductive ProgramStep : ProgramState → ProgramState → Prop where
  | body {a : Activation} {waiting : List Activation} {memory : PNMemory} {f : PNFunction} {s : BodyState}
      (hf : module.functions[a.functionId]? = some f) (h : BodyStep host module f (a.body memory) s) :
      ProgramStep ⟨a, waiting, memory⟩ ⟨a.withBody s, waiting, s.memory⟩
  | call {a : Activation} {waiting : List Activation} {memory : PNMemory} {f g : PNFunction}
      {res convention calleeId returnTypeId functionId : Nat} {argIds : List Nat} {isIndirect isTailCall : Bool}
      {args : List LlvmValue} {values : LlvmValues}
      (hat : a.At module f (.call res convention calleeId argIds returnTypeId isIndirect isTailCall))
      (hres : res = PN_INVALID_VALUE_ID ∨ module.values.length ≤ res ∧ ∃ t, basicTypeOf host module f res = .ok t)
      (hcallee : Callee module a.values calleeId isIndirect functionId) (hg : module.functions[functionId]? = some g)
      (hnull : g.intrinsicId = .null) (hbody : g.bbs ≠ []) (hargs : argIds.map a.values = args.map some)
      (hnum : args.length = g.numArgs) (hentry : EntryValues host module g args values) :
      ProgramStep ⟨a, waiting, memory⟩ ⟨⟨functionId, 0, 0, values⟩, a :: waiting, memory⟩
  | ret {a b : Activation} {waiting : List Activation} {memory : PNMemory} {f g : PNFunction}
      {convention calleeId returnTypeId : Nat} {argIds : List Nat} {isIndirect isTailCall : Bool}
      (hat : a.At module f (.ret PN_INVALID_VALUE_ID))
      (hcaller : b.At module g (.call PN_INVALID_VALUE_ID convention calleeId argIds returnTypeId isIndirect isTailCall)) :
      ProgramStep ⟨a, b :: waiting, memory⟩ ⟨b.next, waiting, memory⟩
  | retValue {a b : Activation} {waiting : List Activation} {memory : PNMemory} {f g : PNFunction}
      {id res convention calleeId returnTypeId : Nat} {argIds : List Nat} {isIndirect isTailCall : Bool} {v : LlvmValue}
      (hid : id ≠ PN_INVALID_VALUE_ID) (hat : a.At module f (.ret id)) (hv : a.values id = some v)
      (hcaller : b.At module g (.call res convention calleeId argIds returnTypeId isIndirect isTailCall))
      (hres : res ≠ PN_INVALID_VALUE_ID) (hty : basicTypeOf host module g res = .ok v.type) :
      ProgramStep ⟨a, b :: waiting, memory⟩ ⟨b.returned res v, waiting, memory⟩

/-- A run of `n` instructions. Phis and forward type references are passed by. -/
inductive ProgramRun : Nat → ProgramState → ProgramState → Prop where
  | refl (s : ProgramState) : ProgramRun 0 s s
  | skip {n : Nat} {s s' : ProgramState} {f : PNFunction} {inst : PNInstruction} (hat : s.running.At module f inst)
      (hskip : inst.isStored = false) (h : ProgramRun n { s with running := s.running.next } s') : ProgramRun n s s'
  | step {n : Nat} {s s₁ s' : ProgramState} (h : ProgramStep host module s s₁) (hrest : ProgramRun n s₁ s') :
      ProgramRun (n + 1) s s'

end

end Pnacl
