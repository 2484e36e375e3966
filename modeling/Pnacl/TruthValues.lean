import Pnacl.FloatCompare
import Pnacl.FrameValues
import Pnacl.StreamTypes

/-!
# Truth values

The `u8` of an `i1` is 0 or 1: every instruction that makes an `i1` makes one of these, and those that copy an `i1` copy it
from an `i1`. The exception is PHI. Nothing compares the type of a phi with the types of its incoming values, so a phi of type
`i1` can get any value (`truth_values_phi`). In runs in which no such phi is executed the invariant holds (`truth_values`).
-/

namespace Pnacl

open Lib

/-! ## One instruction -/

/-- `value.u8` is 0 or 1. -/
def TruthValue (w : Nat) : Prop := PNMember.u8.read w = 0 ∨ PNMember.u8.read w = 1

/-- The values that an instruction reads. -/
def PNRuntimeInstruction.operands : PNRuntimeInstruction → List Nat
  | .alloca _ _ sizeId _ => [sizeId]
  | .binop _ _ value0Id value1Id | .cmp2 _ _ value0Id value1Id => [value0Id, value1Id]
  | .brInt1 valueId _ _ | .cast _ _ valueId | .retValue valueId | .switch _ valueId _ _ _ => [valueId]
  | .call _ _ calleeId num _ argIds => calleeId :: argIds.take num
  | .load _ _ srcId _ => [srcId]
  | .store _ destId valueId _ => [destId, valueId]
  | .vselect _ condId trueValueId falseValueId => [condId, trueValueId, falseValueId]
  | .br _ | .ret | .unreachable | .phiTable _ _ _ => []

section Instruction

variable {host : PNHost} {module : PNModule} {f : PNFunction} {ret : Nat} {other : PNOpcode → List Nat → Nat} {value : Nat → Nat}
  {r : PNRuntimeInstruction} {v w : Nat}

theorem read_u8 (w : Nat) : PNMember.u8.read w = ((w % 2 ^ 8 : Nat) : Int) := by
  simp [PNMember.read, PNMember.bits, CType.value, PNMember.type]

theorem truthValue_iff : TruthValue w ↔ w % 2 ^ 8 < 2 := by
  rw [TruthValue, read_u8]
  omega

/-- What is stored through `u8` is a truth value if the stored number is 0 or 1. -/
theorem truthValue_executorValue {x : Int} (h : x = 0 ∨ x = 1) : TruthValue (pnExecutorValue ret .u8 x) := by
  rw [truthValue_iff, show pnExecutorValue ret .u8 x % 2 ^ 8 = _ from pnExecutorValue_mod ret .u8 x]
  rcases h with rfl | rfl <;> decide

/-- A truth value holds one bit. -/
theorem TruthValue.holds (h : TruthValue w) : Holds .int1 w (BitVec.ofNat 1 (w % 2 ^ 8)) := by
  have hlt := truthValue_iff.mp h
  have heq : (BitVec.ofNat 1 (w % 2 ^ 8)).toNat = w % 2 ^ 8 := by
    rw [BitVec.toNat_ofNat]
    omega
  exact heq.symm

theorem Holds.truthValue {a : BitVec 1} (h : Holds .int1 w a) : TruthValue w := by
  rw [truthValue_iff, show w % 2 ^ 8 = a.toNat from h]
  exact a.isLt

/-- AND, OR and XOR of truth values. -/
theorem binop_truthValue {op : PNBinOp} (res : Nat) {id₀ id₁ : Nat} (hop : .int1 ∈ op.types) (h₀ : TruthValue (value id₀))
    (h₁ : TruthValue (value id₁))
    (h : instructionResult (floatOps ret other) ret value (.binop (some (.binop op .int1)) res id₀ id₁) = .ok v) : TruthValue v := by
  obtain ⟨c, hc, hmul⟩ : ∃ c, llvmBinop (BitVec.ofNat 1 (value id₀ % 2 ^ 8)) (BitVec.ofNat 1 (value id₁ % 2 ^ 8)) op = some c ∧
      op ≠ .mul := by
    cases op <;> first | exact ⟨_, rfl, by decide⟩ | exact absurd hop (by decide)
  obtain ⟨v', hv', hc'⟩ := (binop_result hop rfl h₀.holds h₁.holds hc).mpr fun hm => hmul hm.1
  cases h.symm.trans hv'
  exact hc'.truthValue

/-- TRUNC to `i1`. -/
theorem cast_truthValue {op : PNCast} {t : PNBasicType} (res : Nat) {id : Nat} (hop : (t, .int1) ∈ op.types)
    (h : instructionResult (floatOps ret other) ret value (.cast (some (.cast op t .int1)) res id) = .ok v) : TruthValue v := by
  obtain ⟨m, rfl, hm⟩ : ∃ m, op = .trunc ∧ castCase op t .int1 = some (.trunc1 m) := by
    cases op <;> cases t <;> first | exact ⟨_, rfl, rfl⟩ | exact absurd hop (by decide)
  simp only [instructionResult, hm] at h
  cases h
  exact truthValue_executorValue (by omega)

/-- The comparisons give 0 or 1. -/
theorem cmp2_truthValue {op : PNCmp2} {t : PNBasicType} (res : Nat) {id₀ id₁ : Nat} (hop : t ∈ op.types)
    (h : instructionResult (floatOps ret other) ret value (.cmp2 (some (.cmp2 op t)) res id₀ id₁) = .ok v) : TruthValue v := by
  simp only [instructionResult] at h
  split at h
  · cases h
    apply truthValue_executorValue
    split
    · exact .inr rfl
    · exact .inl rfl
  · rename_i hnone
    cases h
    obtain ⟨c, fmt, hc, hfmt⟩ : ∃ c fmt, fcmpCase op = some c ∧ t.floatFormat = some fmt := by
      cases op <;> cases t <;> first | exact ⟨_, _, rfl, rfl⟩ | exact absurd hop (by decide) | cases hnone
    simp only [floatOps, hc, hfmt]
    apply truthValue_executorValue
    split
    · exact .inr rfl
    · exact .inl rfl

/-- **An instruction whose result is an `i1` makes a truth value from truth values.** -/
theorem instructionResult_truthValue (hs : StructTyped host module f r) (hres : f.IsInt1 host module r.resultValueId)
    (hop : ∀ id ∈ r.operands, f.IsInt1 host module id → TruthValue (value id))
    (h : instructionResult (floatOps ret other) ret value r = .ok v) : TruthValue v := by
  unfold instructionResult at h
  split at h
  · rename_i res _ _
    obtain ⟨hmem, himp⟩ := hs
    obtain ⟨rfl, h₀, h₁⟩ := himp hres
    exact binop_truthValue res hmem (hop _ (by simp [PNRuntimeInstruction.operands]) h₀)
      (hop _ (by simp [PNRuntimeInstruction.operands]) h₁) h
  · rename_i res _
    obtain ⟨hmem, himp⟩ := hs
    obtain rfl := himp hres
    exact cast_truthValue res hmem h
  · rename_i res _ _
    exact cmp2_truthValue res hs h
  · obtain ⟨h₀, h₁⟩ := hs hres
    cases h
    split
    · exact hop _ (by simp [PNRuntimeInstruction.operands]) h₀
    · exact hop _ (by simp [PNRuntimeInstruction.operands]) h₁
  · cases h

end Instruction

/-! ## The executor of a module -/

/-- What the executor reads of a function; it has no instructions until its body has been read. -/
def PNFunction.runtime (host : PNHost) (f : PNFunction) : PNRuntimeFunction where
  numArgs := f.numArgs
  numValues := f.values.length
  constants := f.constants.zipIdx.map fun (c, n) => c.value.getD (host.constant n)
  instructions := (f.instructions.map Prod.fst).getD 0

/-- The executor runs the module. -/
structure ExecutorOf (host : PNHost) (module : PNModule) (ex : PNExecutor) : Prop where
  numValues : ex.numValues = module.values.length
  numFunctions : ex.numFunctions = module.functions.length
  functions : ∀ {functionId : Nat} {f : PNFunction}, module.functions[functionId]? = some f →
    ex.functions functionId = f.runtime host
  others : ∀ {functionId : Nat}, module.functions[functionId]? = none → (ex.functions functionId).instructions = 0
  start : ex.startFunctionId = module.knownFunctions .start
  callAt : ∀ {f : PNFunction} {base : Nat} {stream : PNIstream} {inst res calleeId num flags : Nat} {opcode : PNOpcode}
    {argIds : List Nat}, f ∈ module.functions → f.instructions = some (base, stream) →
      (inst, .call opcode res calleeId num flags argIds) ∈ stream → ex.callAt inst = ⟨res, argIds.take num⟩

/-- The function that a call names, or that is behind the function pointer. -/
def Resolves (ex : PNExecutor) (module : PNModule) (th : PNThread) (calleeId flags functionId : Nat) : Prop :=
  if flags % 2 = 1 then
    pnFunctionPointerToIndex (pnThreadGetValue ex th calleeId % 2 ^ 32) = functionId + PN_MAX_BUILTINS
  else ∃ typeId, module.values[calleeId]? = some ⟨.function functionId, typeId⟩

/-- The operations that an instruction can be. Intrinsics and builtins may do anything to memory, and their result may be anything. -/
inductive Performs (ex : PNExecutor) (module : PNModule) (stream : PNIstream) (th : PNThread) :
    PNRuntimeInstruction → PNThreadOp → Prop where
  | result {r : PNRuntimeInstruction} {v inst top : Nat} (ret : Nat) (other : PNOpcode → List Nat → Nat)
      (h : instructionResult (floatOps ret other) ret (pnThreadGetValue ex th) r = .ok v) :
      Performs ex module stream th r (.other (th.inst + r.sizeof) inst [(r.resultValueId, v)] top th.memory)
  | alloca {opcode : PNOpcode} {res sizeId alignment inst top : Nat} (v : Nat) :
      Performs ex module stream th (.alloca opcode res sizeId alignment) (.other (th.inst + 16) inst [(res, v)] top th.memory)
  | load {opcode : PNOpcode} {res srcId alignment inst top : Nat} (v : Nat) :
      Performs ex module stream th (.load opcode res srcId alignment) (.other (th.inst + 16) inst [(res, v)] top th.memory)
  | store {opcode : PNOpcode} {destId valueId alignment inst top : Nat} (memory : PNMemory) :
      Performs ex module stream th (.store opcode destId valueId alignment) (.other (th.inst + 16) inst [] top memory)
  | branch {r : PNRuntimeInstruction} {destInst num fast : Nat} {assigns : List PNRuntimePhiAssign} (malloc : Malloc)
      (h : newInst ex th r = some destInst) (ht : (th.inst + r.sizeof, .phiTable num fast assigns) ∈ stream) :
      Performs ex module stream th r (.phiAssigns malloc (fast ≠ 0) (assigns.take num) destInst)
  | call {res calleeId num flags functionId : Nat} {argIds : List Nat} (malloc : Malloc)
      (h : Resolves ex module th calleeId flags functionId) :
      Performs ex module stream th (.call .call res calleeId num flags argIds) (.call malloc functionId)
  | builtin {res calleeId num flags next inst top : Nat} {argIds : List Nat} (v : Nat) (memory : PNMemory) (hf : flags % 2 = 1)
      (h : pnFunctionPointerToIndex (pnThreadGetValue ex th calleeId % 2 ^ 32) < PN_MAX_BUILTINS) :
      Performs ex module stream th (.call .call res calleeId num flags argIds)
        (.other next inst (if res = PN_INVALID_VALUE_ID then [] else [(res, v)]) top memory)
  | intrinsic {opcode : PNOpcode} {res calleeId num flags next inst top : Nat} {argIds : List Nat} (v : Nat) (memory : PNMemory)
      (h : opcode ≠ .call) :
      Performs ex module stream th (.call opcode res calleeId num flags argIds)
        (.other next inst (if res = PN_INVALID_VALUE_ID then [] else [(res, v)]) top memory)
  | setjmp {res calleeId num flags : Nat} {argIds : List Nat} (malloc : Malloc) :
      Performs ex module stream th (.call (.intrinsic .llvmNaclSetjmp) res calleeId num flags argIds) (.setjmp malloc)
  | longjmp {res calleeId num flags : Nat} {argIds : List Nat} (fuel : Nat) :
      Performs ex module stream th (.call (.intrinsic .llvmNaclLongjmp) res calleeId num flags argIds) (.longjmp fuel)
  | ret : Performs ex module stream th .ret .ret
  | retValue (valueId : Nat) : Performs ex module stream th (.retValue valueId) (.retValue valueId)

/-! ## Modules in SSA form -/

/-- A function of this type, with the basic types of its arguments and its result. -/
def PNModule.Signature (host : PNHost) (module : PNModule) (f : PNFunction) (result : PNBasicType) (args : List PNBasicType) : Prop :=
  ∃ isVarargs returnType argTypes, module.type host f.typeId = .function isVarargs returnType argTypes ∧
    (module.type host returnType).basicType = result ∧ argTypes.map (fun t => (module.type host t).basicType) = args

/-- A call passes arguments of the types that the callee declares, and a return passes a value of the declared type to a result of
this type. -/
def PNThreadOp.CallTyped (host : PNHost) (module : PNModule) (ex : PNExecutor) (th : PNThread) (f : PNFunction) : PNThreadOp → Prop
  | .call _ functionId => ∃ callee result args, module.functions[functionId]? = some callee ∧
    module.Signature host callee result args ∧ (ex.callAt th.inst).argIds.map (fun id => basicTypeOf host module f id) = args.map .ok
  | .retValue valueId =>
    let caller := (readFrame th.mem (readFrame th.mem th.currentFrame).parent).location
    ∀ g, module.functions[caller.functionId]? = some g → ∃ result args, module.Signature host f result args ∧
      basicTypeOf host module f valueId = .ok result ∧
      basicTypeOf host module g (ex.callAt caller.inst).resultValueId = .ok result
  | _ => True

/-- The thread executes the instruction `r` of the function `f`: every value of the function that it reads is set, also on the edge
that a branch takes, and calls are typed. No intrinsic or builtin returns an `i1`; LONGJMP sets the result of a SETJMP. -/
structure SsaStep (host : PNHost) (module : PNModule) (ex : PNExecutor) (D : Defined) (th : PNThread) (op : PNThreadOp)
    (f : PNFunction) (r : PNRuntimeInstruction) : Prop where
  running : module.functions[th.functionId]? = some f
  performs : ∃ base stream, f.instructions = some (base, stream) ∧ (th.inst, r) ∈ stream ∧ Performs ex module stream th r op
  operands : ∀ id ∈ r.operands, ex.numValues ≤ id → id ∈ D th.currentFrame
  phis : ∀ {malloc fast assigns destInst}, op = .phiAssigns malloc fast assigns destInst → ∀ a ∈ assigns, a.inst = destInst →
    ex.numValues ≤ a.sourceValueId → a.sourceValueId ∈ D th.currentFrame
  calls : op.CallTyped host module ex th f
  intrinsic : ∀ {opcode res calleeId num flags argIds}, r = .call opcode res calleeId num flags argIds →
    (∀ malloc functionId, op ≠ .call malloc functionId) → ¬f.IsInt1 host module res
  longjmp : ∀ {fuel}, op = .longjmp fuel → ∀ id frame buf, longjmpId ex th = .ok id →
    searchFrames ex th id fuel th.currentFrame = .ok (some (frame, buf)) →
    ∀ g, module.functions[(readFrame th.mem frame).location.functionId]? = some g →
      ¬g.IsInt1 host module (ex.callAt (readJmpBuf th.mem buf).frame.location.inst).resultValueId

/-- Another thread runs, or this one executes an instruction. -/
def StepOf (C : PNFunction → PNRuntimeInstruction → Prop) (op : PNThreadOp) : Prop :=
  (∃ setjmps memory, op = .elsewhere setjmps memory) ∨ ∃ f r, C f r

/-- The runs of a module in SSA form whose calls are typed. -/
abbrev SsaRun (host : PNHost) (module : PNModule) (ex : PNExecutor) : PNThread → Defined → Prop :=
  DefinedRun ex fun D th op => StepOf (SsaStep host module ex D th op) op

/-! ## Modules whose tables come first -/

/-- The body of the function was read when the tables of types and global values were those of the module, and the types of the
functions in the table. -/
def BodyBehind (host : PNHost) (dedupe : Bool) (fuel : Nat) (module : PNModule) (functionId : Nat) (f : PNFunction) : Prop :=
  ∃ rs rs' f₀ f₁ bs bs', rs.module.types = module.types ∧ rs.module.values = module.values ∧
    (∀ g ∈ rs.module.functions, g.typeId < module.types.length) ∧ rs.module.functions[functionId]? = some f₀ ∧
    (f₀.bbs = [] ∧ f₀.values = [] ∧ f₀.constants = []) ∧
    pnFunctionBlockRead host dedupe fuel rs functionId bs = .ok (rs', bs') ∧
    rs'.module.functions[functionId]? = some f₁ ∧ SameBody f₁ f

/-- The assertion of `pn_thread_push_function`: the constants follow the arguments. -/
def ConstantsFollow (f : PNFunction) : Prop :=
  ∀ n < f.constants.length, ∃ v, f.values[f.numArgs + n]? = some v ∧ v.isConstant = true

/-- The tables come first, no global value is an `i1`, constants follow the arguments, and the argument of `_start` is not an `i1`. -/
structure WellDeclared (host : PNHost) (dedupe : Bool) (fuel : Nat) (module : PNModule) : Prop where
  bodies : ∀ {functionId : Nat} {f : PNFunction}, module.functions[functionId]? = some f → f.instructions ≠ none →
    BodyBehind host dedupe fuel module functionId f
  globals : ∀ v ∈ module.values, (module.type host v.typeId).basicType ≠ .int1
  constants : ∀ f ∈ module.functions, f.instructions ≠ none → ConstantsFollow f
  start : ∀ f, module.functions[module.knownFunctions .start]? = some f →
    ∃ v, f.values[0]? = some v ∧ (module.type host v.typeId).basicType ≠ .int1

/-- No undefined constant of a function is an `i1`. -/
def NoUndefInt1 (host : PNHost) (module : PNModule) : Prop :=
  ∀ f ∈ module.functions, ∀ c ∈ f.constants, c.code = .undef → (module.type host c.typeId).basicType ≠ .int1

/-- A value of type `i1` is a truth value. -/
def TruthAt (host : PNHost) (module : PNModule) (functionId valueId w : Nat) : Prop :=
  ∀ f, module.functions[functionId]? = some f → f.IsInt1 host module valueId → TruthValue w

section Constants

variable {host : PNHost} {dedupe : Bool} {fuel : Nat} {module : PNModule} {ex : PNExecutor} {f : PNFunction} {functionId : Nat}

theorem BodyBehind.typed (h : BodyBehind host dedupe fuel module functionId f) (hm : module.TypesRead) :
    StreamTyped host module functionId f := by
  obtain ⟨rs, rs', f₀, f₁, bs, bs', ht, hv, hd, hf₀, ⟨hbbs, hvalues, hconstants⟩, hread, hf₁, hsame⟩ := h
  obtain ⟨module', g₀, g, ht', hv', hok, hp, hsame'⟩ := pnFunctionBlockRead_bodyRead ht hv ⟨ht ▸ hm.table, ht ▸ hd⟩ hf₀ hbbs hvalues
    hconstants hread hf₁
  exact BodyRead.typed ⟨module', g₀, g, ht', hv', hok, hp, hsame'.trans hsame⟩ hm

/-- Slots that satisfy a predicate are all that do if there are as many. -/
theorem filter_eq_of_slots {α : Type} {p : α → Bool} {l : List α} {k m : Nat}
    (h : ∀ n < m, ∃ a, l[k + n]? = some a ∧ p a = true) (hlen : (l.filter p).length = m) : l.filter p = (l.drop k).take m := by
  have hslots : ((l.drop k).take m).filter p = (l.drop k).take m := by
    rw [List.filter_eq_self]
    intro a ha
    obtain ⟨n, hn⟩ := List.getElem?_of_mem ha
    rw [List.getElem?_take, List.getElem?_drop] at hn
    split at hn
    · rename_i hlt
      obtain ⟨b, hb, hp⟩ := h n hlt
      cases hn.symm.trans hb
      exact hp
    · cases hn
  have hm : ((l.drop k).take m).length = m := by
    rw [List.length_take, List.length_drop]
    cases m with
    | zero => exact Nat.zero_min _
    | succ m =>
      obtain ⟨a, ha, -⟩ := h m (Nat.lt_succ_self m)
      have := (List.getElem?_eq_some_iff.mp ha).1
      omega
  have hsub : (((l.drop k).take m).filter p).Sublist (l.filter p) :=
    ((List.take_sublist _ _).trans (List.drop_sublist _ _)).filter p
  rw [hslots] at hsub
  exact (hsub.eq_of_length (hm.trans hlen.symm)).symm

/-- The value in the slot of a constant has its type. -/
theorem ConstantsOk.slot (h : ConstantsOk host module f) (hf : ConstantsFollow f) {n : Nat} {c : PNConstant}
    (hc : f.constants[n]? = some c) : ∃ v, f.values[f.numArgs + n]? = some v ∧ v.typeId = c.typeId := by
  have hn : n < f.constants.length := (List.getElem?_eq_some_iff.mp hc).1
  have hlen : (f.values.filter PNValue.isConstant).length = f.constants.length := by
    have := congrArg List.length h.typeIds
    rwa [List.length_map, List.length_map] at this
  obtain ⟨v, hv, -⟩ := hf n hn
  refine ⟨v, hv, ?_⟩
  have htypes := congrArg (·[n]?) h.typeIds
  simp only [filter_eq_of_slots hf hlen, List.getElem?_map, List.getElem?_take, List.getElem?_drop, if_pos hn, hv, hc,
    Option.map_some, Option.some.injEq] at htypes
  exact htypes

/-- The constants of a function. -/
theorem mem_constantValues {c : Nat × Nat} (hex : ExecutorOf host module ex) (hf : module.functions[functionId]? = some f)
    (hc : c ∈ constantValues ex (ex.functions functionId)) : ∃ n constant, f.constants[n]? = some constant ∧
      c = (module.values.length + (f.numArgs + n), constant.value.getD (host.constant n)) := by
  obtain ⟨⟨w, n⟩, hmem, rfl⟩ := List.mem_map.mp hc
  have hw := List.mem_zipIdx_iff_getElem?.mp hmem
  rw [hex.functions hf] at hw ⊢
  simp only [PNFunction.runtime, List.getElem?_map, List.getElem?_zipIdx, Nat.zero_add] at hw ⊢
  obtain ⟨⟨constant, m⟩, hp, rfl⟩ := Option.map_eq_some_iff.mp hw
  obtain ⟨constant', hconst, heq⟩ := Option.map_eq_some_iff.mp hp
  cases heq
  exact ⟨n, constant, hconst, by rw [hex.numValues, Nat.add_assoc]⟩

theorem isInt1_local {i : Nat} {v : PNValue} (hv : f.values[i]? = some v) :
    f.IsInt1 host module (module.values.length + i) ↔ (module.type host v.typeId).basicType = .int1 := by
  apply isInt1_of_basicTypeOf
  apply basicTypeOf_value
  rw [List.getElem?_append_right (Nat.le_add_right _ _), Nat.add_sub_cancel_left, hv]

/-- A function with instructions is one of the module. -/
theorem ExecutorOf.function (hex : ExecutorOf host module ex) (hi : (ex.functions functionId).instructions ≠ 0) :
    ∃ f, module.functions[functionId]? = some f ∧ f.instructions ≠ none := by
  cases hf : module.functions[functionId]? with
  | none => exact absurd (hex.others hf) hi
  | some f =>
    refine ⟨f, rfl, fun hnone => hi ?_⟩
    rw [hex.functions hf, PNFunction.runtime, hnone]
    rfl

/-- The constants that a call sets are truth values if they are of type `i1`. -/
theorem constantsGood_truthAt (hm : module.TypesRead) (hex : ExecutorOf host module ex) (hd : WellDeclared host dedupe fuel module)
    (hu : NoUndefInt1 host module) : ConstantsGood ex (TruthAt host module) := by
  intro functionId hi c hc
  obtain ⟨f, hf, hstream⟩ := hex.function hi
  obtain ⟨n, constant, hconst, rfl⟩ := mem_constantValues hex hf hc
  have hmem := List.mem_of_getElem? hf
  have htyped := (hd.bodies hf hstream).typed hm
  obtain ⟨v, hv, ht⟩ := htyped.constants.slot (hd.constants f hmem hstream) hconst
  refine ⟨?_, ?_⟩
  · rw [hex.numValues, hex.functions hf]
    exact Nat.add_lt_add_left (List.getElem?_eq_some_iff.mp hv).1 _
  · intro g hg hint
    cases hf.symm.trans hg
    have hint1 := (isInt1_local hv).mp hint
    rw [ht] at hint1
    have hcode : constant.code ≠ .undef := fun heq => hu f hmem constant (List.mem_of_getElem? hconst) heq hint1
    obtain ⟨w, hw, heq⟩ := htyped.constants.ok constant (List.mem_of_getElem? hconst) hcode hint1
    rw [heq, truthValue_iff]
    exact Nat.lt_of_le_of_lt (Nat.mod_le _ _) hw

end Constants

/-! ## Runs -/

/-- No phi of type `i1` gets a value of another type in this step, and a reset of the allocator finds its chunk. -/
structure Guarded (host : PNHost) (module : PNModule) (ex : PNExecutor) (th : PNThread) (op : PNThreadOp) (f : PNFunction) : Prop where
  phi : ∀ {malloc fast assigns destInst}, op = .phiAssigns malloc fast assigns destInst → ∀ a ∈ assigns, a.inst = destInst →
    f.IsInt1 host module a.destValueId → f.IsInt1 host module a.sourceValueId
  safe : op.FrameSafe ex th

/-- The runs in which every step is guarded. -/
abbrev GuardedRun (host : PNHost) (module : PNModule) (ex : PNExecutor) : PNThread → Defined → Prop :=
  DefinedRun ex fun D th op => StepOf (fun f r => SsaStep host module ex D th op f r ∧ Guarded host module ex th op f) op

section Runs

variable {host : PNHost} {dedupe : Bool} {fuel : Nat} {module : PNModule} {ex : PNExecutor} {th : PNThread} {D : Defined}
  {op : PNThreadOp} {f : PNFunction} {r : PNRuntimeInstruction} {e : Entry} {es : List Entry} {functionId : Nat}

/-- An `i1` is not a global value. -/
theorem WellDeclared.local_of_isInt1 (hd : WellDeclared host dedupe fuel module) {id : Nat} (h : f.IsInt1 host module id) :
    module.values.length ≤ id := by
  by_contra hlt
  have hlt : id < module.values.length := Nat.lt_of_not_le hlt
  have hv : (module.values ++ f.values)[id]? = some module.values[id] := by
    rw [List.getElem?_append_left hlt, List.getElem?_eq_getElem hlt]
  exact hd.globals _ (List.getElem_mem hlt) ((isInt1_of_basicTypeOf (basicTypeOf_value hv)).mp h)

/-- A value is copied from one that is an `i1` if the destination is. -/
theorem copies_truthAt {ids : List Nat} {source destFunctionId dest : Nat} (hd : WellDeclared host dedupe fuel module)
    (hn : ex.numValues = module.values.length) (hf : module.functions[functionId]? = some f)
    (hset : ex.numValues ≤ source → source ∈ ids)
    (hcopy : ∀ g, module.functions[destFunctionId]? = some g → g.IsInt1 host module dest → f.IsInt1 host module source) :
    Copies ex (TruthAt host module) functionId ids source destFunctionId dest := by
  refine ⟨?_, fun hlo => ⟨hset hlo, ?_⟩⟩
  · intro hlt g hg hint
    have := hd.local_of_isInt1 (hcopy g hg hint)
    omega
  · intro w hw g hg hint
    exact hw f hf (hcopy g hg hint)

/-- **A guarded step sets truth values.** -/
theorem SsaStep.writes (h : SsaStep host module ex D th op f r) (hm : module.TypesRead) (hex : ExecutorOf host module ex)
    (hd : WellDeclared host dedupe fuel module) (hg : Guarded host module ex th op f)
    (hv : ValuesInv ex (TruthAt host module) th D (e :: es)) : op.Writes ex (TruthAt host module) th D := by
  have hrun := h.running
  obtain ⟨base, stream, hstream, hat, hp⟩ := h.performs
  have hbody := (hd.bodies hrun (by rw [hstream]; exact Option.some_ne_none _)).typed hm
  have htyped : StructTyped host module f r := by
    obtain ⟨stream', hs, hall⟩ := hbody.stream
    cases hs.symm.trans hstream
    exact hall _ hat
  have hself : ∀ {id : Nat}, (∀ g, module.functions[th.functionId]? = some g → ¬g.IsInt1 host module id) →
      ∀ w, TruthAt host module th.functionId id w := fun hno _ g hg hint => absurd hint (hno g hg)
  have hnot : ∀ {id : Nat}, ¬f.IsInt1 host module id → ∀ w, TruthAt host module th.functionId id w := by
    intro id hno w g hg hint
    cases hrun.symm.trans hg
    exact absurd hint hno
  cases hp with
  | @result r v inst top ret other hres =>
    intro p hp g hg hint
    cases List.mem_singleton.mp hp
    cases hrun.symm.trans hg
    refine instructionResult_truthValue htyped hint ?_ hres
    intro id hid hint
    exact hv.read (h.operands id hid (hex.numValues ▸ hd.local_of_isInt1 hint)) f hrun hint
  | alloca v =>
    intro p hp
    cases List.mem_singleton.mp hp
    exact hnot htyped v
  | load v =>
    intro p hp
    cases List.mem_singleton.mp hp
    exact hnot htyped v
  | store memory =>
    intro p hp
    cases hp
  | branch malloc hdest htable =>
    intro a ha hinst
    apply copies_truthAt hd hex.numValues hrun (h.phis rfl a ha hinst)
    intro g hgg hint
    cases hrun.symm.trans hgg
    exact hg.phi rfl a ha hinst hint
  | @call res calleeId num flags functionId argIds malloc hresolve =>
    intro hinst i argId hi
    obtain ⟨callee, result, args, hcallee, ⟨isVarargs, returnType, argTypes, htype, -, rfl⟩, hargs⟩ := h.calls
    have hcall := hex.callAt (List.mem_of_getElem? hrun) hstream hat
    have harg := congrArg (·[i]?) hargs
    simp only [List.getElem?_map, hi, Option.map_some] at harg
    cases ht : argTypes[i]? with
    | none =>
      rw [ht] at harg
      cases harg
    | some t =>
      rw [ht, Option.map_some, Option.map_some, Option.some.injEq] at harg
      obtain ⟨g, hgf, hne⟩ := hex.function hinst
      cases hcallee.symm.trans hgf
      have hvalue := ((hd.bodies hcallee hne).typed hm).args htype ht
      refine ⟨?_, ?_⟩
      · rw [hex.functions hcallee]
        exact (List.getElem?_eq_some_iff.mp hvalue).1
      · apply copies_truthAt hd hex.numValues hrun
        · rw [hcall] at hi
          exact h.operands argId (List.mem_cons_of_mem _ (List.mem_of_getElem? hi))
        · intro g hg hint
          cases hcallee.symm.trans hg
          rw [hex.numValues, isInt1_local hvalue] at hint
          exact (isInt1_of_basicTypeOf harg).mpr hint
  | builtin v memory hf hb =>
    have hno := h.intrinsic rfl (fun _ _ => by simp)
    intro p hp
    split at hp
    · cases hp
    · cases List.mem_singleton.mp hp
      exact hnot hno v
  | intrinsic v memory hop =>
    have hno := h.intrinsic rfl (fun _ _ => by simp)
    intro p hp
    split at hp
    · cases hp
    · cases List.mem_singleton.mp hp
      exact hnot hno v
  | setjmp malloc => exact fun _ _ _ => truthValue_iff.mpr (by decide)
  | longjmp fuel =>
    intro id frame buf hid hfound g hg' hint
    exact absurd hint (h.longjmp rfl id frame buf hid hfound g hg')
  | ret => trivial
  | retValue valueId =>
    intro _
    apply copies_truthAt hd hex.numValues hrun (h.operands valueId (List.mem_singleton_self _))
    intro g hgg hint
    obtain ⟨result, args, -, hvalue, hres⟩ := h.calls g hgg
    exact (isInt1_of_basicTypeOf hvalue).mpr ((isInt1_of_basicTypeOf hres).mp hint)

theorem GuardedRun.inv (hm : module.TypesRead) (hex : ExecutorOf host module ex) (hd : WellDeclared host dedupe fuel module)
    (hu : NoUndefInt1 host module) (h : GuardedRun host module ex th D) :
    ∃ es, ValuesInv ex (TruthAt host module) th D es ∧ (th.dead = false → es ≠ []) := by
  refine DefinedRun.inv (constantsGood_truthAt hm hex hd hu) ?_ ?_ h
  · intro hi
    obtain ⟨f, hf, -⟩ := hex.function hi
    have hstart := hex.start ▸ hf
    obtain ⟨v, hv, hne⟩ := hd.start f hstart
    refine ⟨?_, ?_⟩
    · rw [hex.functions hf]
      exact (List.getElem?_eq_some_iff.mp hv).1
    · -- the parameter is the address of the start info
      intro g hg hint
      cases hf.symm.trans hg
      rw [hex.numValues] at hint
      exact absurd ((isInt1_local (i := 0) hv).mp hint) hne
  · rintro D th op e es hv (⟨setjmps, memory, rfl⟩ | ⟨f, r, hstep, hguard⟩)
    · exact ⟨trivial, trivial⟩
    · exact ⟨hguard.safe, hstep.writes hm hex hd hguard hv⟩

/-- What the instructions make of the condition `valueId` if its truth is `b`. -/
structure TestsAgree (ex : PNExecutor) (th : PNThread) (valueId : Nat) (b : Bool) : Prop where
  brInt1 : ∀ trueInst falseInst, newInst ex th (.brInt1 valueId trueInst falseInst) = some (if b then trueInst else falseInst)
  vselect : ∀ float ret res trueValueId falseValueId,
    instructionResult float ret (pnThreadGetValue ex th) (.vselect res valueId trueValueId falseValueId) =
      .ok (pnThreadGetValue ex th (if b then trueValueId else falseValueId))
  zext : ∀ ret target, (PNCastCase.zext1 target).exec ret (pnThreadGetValue ex th valueId) =
    pnExecutorValue ret target (if b then 1 else 0)
  sext : ∀ ret target, (PNCastCase.sext1 target).exec ret (pnThreadGetValue ex th valueId) =
    pnExecutorValue ret target (if b then -1 else 0)

/-- The tests of a truth value agree. -/
theorem TruthValue.testsAgree {valueId : Nat} (h : TruthValue (pnThreadGetValue ex th valueId)) :
    TestsAgree ex th valueId (PNMember.u8.read (pnThreadGetValue ex th valueId) = 1) := by
  have hu8 := read_u8 (pnThreadGetValue ex th valueId)
  rcases h with h | h
  · have hz : pnThreadGetValue ex th valueId % 2 ^ 8 = 0 := by omega
    exact ⟨by simp only [newInst, hz, h]; simp, by simp [instructionResult, h], by simp [PNCastCase.exec, h], by simp [PNCastCase.exec, h]⟩
  · have ho : pnThreadGetValue ex th valueId % 2 ^ 8 = 1 := by omega
    exact ⟨by simp only [newInst, ho, h]; simp, by simp [instructionResult, h], by simp [PNCastCase.exec, h], by simp [PNCastCase.exec, h]⟩

/-- **In every state of a guarded run, what is set in a frame and has type `i1` is 0 or 1, and all tests of it agree.** -/
theorem truth_values {memory : PNMemory} {rs : PNReadState} {bs bs' : PNBitStream}
    (h : pnModuleRead host dedupe fuel (pnModuleInit memory) bs = .ok (rs, bs')) (hex : ExecutorOf host rs.module ex)
    (hd : WellDeclared host dedupe fuel rs.module) (hu : NoUndefInt1 host rs.module) (hr : GuardedRun host rs.module ex th D) :
    (∃ fs, FrameChain ex th.mem th.currentFrame fs ∧ ∀ a ∈ fs, ∀ valueId ∈ D a, ∀ f,
      rs.module.functions[(readFrame th.mem a).location.functionId]? = some f → f.IsInt1 host rs.module valueId →
        TruthValue (pnExecutorGetValueFromFrame ex th.mem (readFrame th.mem a) valueId)) ∧
    (th.dead = false → ∀ valueId ∈ D th.currentFrame, ∀ f, rs.module.functions[th.functionId]? = some f →
      f.IsInt1 host rs.module valueId → ∃ b, TestsAgree ex th valueId b) := by
  obtain ⟨es, hv, hne⟩ := GuardedRun.inv (pnModuleRead_types h) hex hd hu hr
  have hchain := hv.frames.links.frameChain
  rw [← hv.frames.current] at hchain
  refine ⟨⟨_, hchain, fun a ha valueId hid f hf hint => hv.frame hchain ha hid f hf hint⟩, ?_⟩
  intro alive valueId hid f hf hint
  cases es with
  | nil => exact absurd rfl (hne alive)
  | cons e es =>
    have htruth : TruthValue (pnThreadGetValue ex th valueId) := hv.read hid f hf hint
    exact ⟨_, htruth.testsAgree⟩

end Runs

/-! ## A phi of another type -/

/-- The bytes of a file with a function that has a phi of type `i1`. The incoming value is 2 of type `i32` or 1 of type `i1`. -/
def phiFile (wide : Bool) : List UInt8 :=
  [80, 69, 88, 69, 0, 0, 0, 0, 33, 8, 0, 0, 0, 0, 0, 0, 69, 8, 0, 0, 0, 0, 0, 0, 7, 1, 177, 0, 124, 4, 193, 71, 0, 6, 87, 3,
    0, 8, 0, 0, 35, 196, 0, 0, 64, 14, 2, 0, 0, 0, 0, 0, 7, 7, 240, 11, 243, 64, 15, 225, 32, 15, 244, 0, 49, 8, 0, 0, 0, 0, 0,
    0, 7, 1, 209, 130, 0, 0, 0, 0, 0, 0, 0, 0, 7, if wide then 129 else 65, 48, 17, if wide then 16 else 8, 0, 0, 0, 47, 65, 48,
    52, 4, 2, 240, 50, 8, 195, 176, 2, 252, 0, 0, 0, 0, 0, 0, 0]

def phiTypes : List PNType := [.void, .integer 1 .int1, .integer 32 .int32, .function 0 0 [2]]

/-- The function when its body is about to be read. -/
def phiProto : PNFunction := ⟨some [95, 115, 116, 97, 114, 116], 3, .start, 1, 0, false, 0, [], [], [], 0, none⟩

def phiState : PNReadState where
  module := { pnModuleInit ⟨fun _ => 0, 2 ^ 16⟩ with types := phiTypes, values := [⟨.function 0, 3⟩], functions := [phiProto] }
  context := {}
  trace := []

/-- The incoming value. -/
def phiConstant (wide : Bool) : PNConstant := if wide then ⟨.integer, 2, .int32, some 2⟩ else ⟨.integer, 1, .int1, some 1⟩

/-- The branch to the block with the phi, a branch on the phi, and what is behind. -/
def phiStream : PNIstream :=
  [(4096, .br 4132), (4112, .phiTable 1 1 [⟨4132, 2, 3⟩]), (4132, .brInt1 3 4160 4164), (4156, .phiTable 0 1 []), (4160, .ret),
    (4164, .unreachable), (4168, .call (.intrinsic .llvmTrap) PN_INVALID_VALUE_ID PN_INVALID_VALUE_ID 0 5 [])]

/-- The function when its body has been read. -/
def phiFunction (wide : Bool) : PNFunction where
  name := some [95, 115, 116, 97, 114, 116]
  typeId := 3
  intrinsicId := .start
  numArgs := 1
  callingConvention := 0
  isProto := false
  linkage := 0
  constants := [phiConstant wide]
  bbs := [⟨[.br 1 none PN_INVALID_VALUE_ID], [], [⟨1, 2, 3⟩], true⟩, ⟨[.phi 3 1 [⟨0, 2⟩], .br 2 (some 3) 3], [⟨3, ⟨0, 2⟩⟩], [], true⟩,
    ⟨[.ret PN_INVALID_VALUE_ID], [], [], true⟩, ⟨[.unreachable], [], [], true⟩]
  values := [⟨.functionArg 0, 2⟩, ⟨.constant 0, (phiConstant wide).typeId⟩, ⟨.localVar, 1⟩]
  numInstructions := 5
  instructions := some (4096, phiStream)

/-- What the reader makes of the file. -/
structure PhiModule (wide : Bool) (module : PNModule) : Prop where
  types : module.types = phiTypes
  values : module.values = [⟨.function 0, 3⟩]
  functions : module.functions = [phiFunction wide]
  start : module.knownFunctions .start = 0

theorem phiFile_read (wide : Bool) : ∃ rs bs', readFile (phiFile wide) = .ok (rs, bs') ∧ PhiModule wide rs.module := by
  have heval : (readFile (phiFile wide)).toOption.map (fun r => (r.1.module.types, r.1.module.values, r.1.module.functions,
      r.1.module.knownFunctions .start)) = some (phiTypes, [⟨.function 0, 3⟩], [phiFunction wide], 0) := by
    cases wide <;> decide +kernel
  obtain ⟨⟨rs, bs'⟩, h, hrs⟩ := eq_ok_of_toOption heval
  simp only [Prod.mk.injEq] at hrs
  obtain ⟨ht, hv, hf, hs⟩ := hrs
  exact ⟨rs, bs', h, ht, hv, hf, hs⟩

/-- The body is at bit 522. -/
theorem phiFile_body (wide : Bool) : ∃ rs' bs bs', rs'.module.functions = [phiFunction wide] ∧
    pnFunctionBlockRead zeroHost true 112 phiState 0 bs = .ok (rs', bs') := by
  have heval : (pnBitstreamSeekBit (pnBitstreamInit (fun i => (phiFile wide).getD i 0) 112) 522 >>=
      pnFunctionBlockRead zeroHost true 112 phiState 0).toOption.map (fun r => r.1.module.functions) = some [phiFunction wide] := by
    cases wide <;> decide +kernel
  obtain ⟨⟨rs', bs'⟩, h, hf⟩ := eq_ok_of_toOption heval
  obtain ⟨bs, -, h⟩ := bind_eq_ok.mp h
  exact ⟨rs', bs, bs', hf, h⟩

def phiExecutor (wide : Bool) : PNExecutor where
  numValues := 1
  moduleValues _ := 0
  numFunctions := 1
  functions functionId := if functionId = 0 then (phiFunction wide).runtime zeroHost else ⟨0, 0, [], 0⟩
  callAt _ := ⟨PN_INVALID_VALUE_ID, []⟩
  sentinel := 64
  stackEnd := 65536
  startFunctionId := 0
  startinfoStart := 2048
  numFunctions_lt := by decide
  numValues_lt functionId := by split <;> exact of_decide_eq_true rfl

section Phi

variable {wide : Bool} {module : PNModule}

theorem PhiModule.executorOf (h : PhiModule wide module) : ExecutorOf zeroHost module (phiExecutor wide) where
  numValues := by rw [h.values]; rfl
  numFunctions := by rw [h.functions]; rfl
  functions {functionId f} hf := by
    rw [h.functions, List.getElem?_singleton] at hf
    split at hf
    · rename_i heq
      cases hf
      exact if_pos heq
    · cases hf
  others {functionId} hf := by
    rw [h.functions, List.getElem?_singleton] at hf
    split at hf
    · cases hf
    · rename_i hne
      exact congrArg PNRuntimeFunction.instructions (if_neg hne)
  start := h.start.symm
  callAt {f base stream inst res calleeId num flags opcode argIds} hf hs hat := by
    rw [h.functions] at hf
    cases List.mem_singleton.mp hf
    cases hs
    simp only [phiStream, List.mem_cons, Prod.mk.injEq, reduceCtorEq, and_false, false_or, List.not_mem_nil, or_false,
      PNRuntimeInstruction.call.injEq] at hat
    obtain ⟨-, -, rfl, -, -, -, rfl⟩ := hat
    simp [phiExecutor]

theorem PhiModule.wellDeclared (h : PhiModule wide module) : WellDeclared zeroHost true 112 module where
  bodies {functionId f} hf _ := by
    rw [h.functions, List.getElem?_singleton] at hf
    split at hf
    · rename_i heq
      subst heq
      cases hf
      obtain ⟨rs', bs, bs', hf, hb⟩ := phiFile_body wide
      refine ⟨phiState, rs', phiProto, phiFunction wide, bs, bs', h.types.symm, h.values.symm, ?_, rfl, ⟨rfl, rfl, rfl⟩, hb, ?_,
        .of_unnamed rfl⟩
      · rw [h.types]
        decide
      · rw [hf]
        rfl
    · cases hf
  globals v hv := by
    rw [h.values] at hv
    cases List.mem_singleton.mp hv
    rw [PNModule.type, h.types]
    decide
  constants f hf _ := by
    rw [h.functions] at hf
    cases List.mem_singleton.mp hf
    intro n hn
    obtain rfl : n = 0 := Nat.lt_one_iff.mp hn
    exact ⟨_, rfl, rfl⟩
  start f hf := by
    rw [h.functions, h.start] at hf
    cases hf
    refine ⟨_, rfl, ?_⟩
    rw [PNModule.type, h.types]
    decide

theorem PhiModule.noUndefInt1 (h : PhiModule wide module) : NoUndefInt1 zeroHost module := by
  intro f hf c hc hcode
  rw [h.functions] at hf
  cases List.mem_singleton.mp hf
  cases List.mem_singleton.mp hc
  cases wide <;> cases hcode

end Phi

section Run

variable {wide : Bool} {module : PNModule} {ex : PNExecutor} {th : PNThread} {D : Defined}

theorem PhiModule.isInt1_phi (h : PhiModule wide module) : (phiFunction wide).IsInt1 zeroHost module 3 := by
  have hv : (phiFunction wide).values[2]? = some ⟨.localVar, 1⟩ := rfl
  have hint : (module.type zeroHost 1).basicType = .int1 := by
    rw [PNModule.type, h.types]
    rfl
  have hlocal : (phiFunction wide).IsInt1 zeroHost module (module.values.length + 2) := (isInt1_local hv).mpr hint
  rwa [h.values] at hlocal

/-- The branch to the phi. -/
theorem PhiModule.ssaStep (h : PhiModule wide module) (hf : th.functionId = 0) (hi : th.inst = 4096)
    (hD : 2 ∈ D th.currentFrame) :
    SsaStep zeroHost module (phiExecutor wide) D th (.phiAssigns demoMalloc true [⟨4132, 2, 3⟩] 4132) (phiFunction wide) (.br 4132) where
  running := by rw [h.functions, hf]; rfl
  performs := by
    have ht : (th.inst + (PNRuntimeInstruction.br 4132).sizeof, PNRuntimeInstruction.phiTable 1 1 [⟨4132, 2, 3⟩]) ∈ phiStream := by
      rw [hi]
      decide
    have hp : Performs (phiExecutor wide) module phiStream th (.br 4132) _ := .branch demoMalloc rfl ht
    exact ⟨4096, phiStream, rfl, by rw [hi]; decide, hp⟩
  operands id hid _ := (List.not_mem_nil hid).elim
  phis heq a ha _ _ := by
    cases heq
    cases List.mem_singleton.mp ha
    exact hD
  calls := trivial
  intrinsic heq := by cases heq
  longjmp heq := by cases heq

/-- The thread before the branch and behind it. -/
theorem phi_run (wide : Bool) : ∃ th th', pnExecutorInit (phiExecutor wide) demoMalloc (fun _ => 0) demoMemory ⟨0, 0, 0, 0⟩ = .ok th ∧
    th.functionId = 0 ∧ th.dead = false ∧ th.inst = 4096 ∧
    (PNThreadOp.phiAssigns demoMalloc true [⟨4132, 2, 3⟩] 4132).exec (phiExecutor wide) th = .ok th' ∧
    th'.functionId = 0 ∧ th'.dead = false ∧ pnThreadGetValue (phiExecutor wide) th' 3 = if wide then 2 else 1 := by
  cases wide
  · exact ⟨_, _, rfl, rfl, rfl, rfl, rfl, rfl, rfl, rfl⟩
  · exact ⟨_, _, rfl, rfl, rfl, rfl, rfl, rfl, rfl, rfl⟩

/-- The run up to the block with the phi, with any property of the step. -/
theorem PhiModule.run (h : PhiModule wide module) {S : Defined → PNThread → PNThreadOp → Prop}
    (hS : ∀ {D th}, SsaStep zeroHost module (phiExecutor wide) D th (.phiAssigns demoMalloc true [⟨4132, 2, 3⟩] 4132)
      (phiFunction wide) (.br 4132) → S D th (.phiAssigns demoMalloc true [⟨4132, 2, 3⟩] 4132)) :
    ∃ th D, DefinedRun (phiExecutor wide) S th D ∧ th.functionId = 0 ∧ th.dead = false ∧ 3 ∈ D th.currentFrame ∧
      pnThreadGetValue (phiExecutor wide) th 3 = if wide then 2 else 1 := by
  obtain ⟨th, th', hinit, hf, halive, hi, hexec, hf', halive', hvalue⟩ := phi_run wide
  have hrun := DefinedRun.start (S := S) demoMalloc (fun _ => 0) demoMemory ⟨0, 0, 0, 0⟩ (demoMalloc_fresh_of rfl) hinit
  have hD : 2 ∈ Function.update (fun _ => []) th.currentFrame
      ((phiExecutor wide).numValues :: (phiExecutor wide).constantIds (phiExecutor wide).startFunctionId) th.currentFrame := by
    rw [Function.update_self]
    cases wide <;> decide
  refine ⟨th', _, .step _ hrun halive ?_ (hS (h.ssaStep hf hi hD)) hexec, hf', halive', ?_, hvalue⟩
  · refine ⟨demoMalloc_fresh_of rfl, by decide, ?_⟩
    rw [hf]
    cases wide <;> decide
  · show 3 ∈ Defined.add _ th'.currentFrame [3] th'.currentFrame
    rw [Defined.add_self]
    exact List.mem_cons_self ..

end Run

/-- **A value of type `i1` that is 2.** BR_INT1 takes it for true, VSELECT for false. -/
theorem truth_values_phi : ∃ rs bs' ex th D f, readFile (phiFile true) = .ok (rs, bs') ∧ ExecutorOf zeroHost rs.module ex ∧
    WellDeclared zeroHost true 112 rs.module ∧ NoUndefInt1 zeroHost rs.module ∧ SsaRun zeroHost rs.module ex th D ∧
    rs.module.functions[th.functionId]? = some f ∧ f.IsInt1 zeroHost rs.module 3 ∧ 3 ∈ D th.currentFrame ∧
    PNMember.u8.read (pnThreadGetValue ex th 3) = 2 ∧ ∀ b, ¬TestsAgree ex th 3 b := by
  obtain ⟨rs, bs', hread, hm⟩ := phiFile_read true
  obtain ⟨th, D, hrun, hf, -, hD, hvalue⟩ := hm.run
    (S := fun D th op => StepOf (SsaStep zeroHost rs.module (phiExecutor true) D th op) op) fun hstep => .inr ⟨_, _, hstep⟩
  rw [if_pos rfl] at hvalue
  have hfun : rs.module.functions[th.functionId]? = some (phiFunction true) := by
    rw [hm.functions, hf]
    rfl
  refine ⟨rs, bs', phiExecutor true, th, D, phiFunction true, hread, hm.executorOf, hm.wellDeclared, hm.noUndefInt1, hrun, hfun,
    hm.isInt1_phi, hD, by rw [hvalue]; rfl, ?_⟩
  intro b h
  have hbr := h.brInt1 1 0
  have hzext := h.zext 0 .u8
  rw [newInst, hvalue] at hbr
  rw [hvalue] at hzext
  cases b
  · exact absurd hbr (by decide)
  · exact absurd hzext (by decide)

/-- The same phi of a value of type `i1`. -/
theorem truth_values_narrow : ∃ rs bs' ex th D f, readFile (phiFile false) = .ok (rs, bs') ∧ GuardedRun zeroHost rs.module ex th D ∧
    rs.module.functions[th.functionId]? = some f ∧ f.IsInt1 zeroHost rs.module 3 ∧ 3 ∈ D th.currentFrame ∧
    ∃ b, TestsAgree ex th 3 b := by
  obtain ⟨rs, bs', hread, hm⟩ := phiFile_read false
  have hv : (phiFunction false).values[1]? = some ⟨.constant 0, 1⟩ := rfl
  have hint : (rs.module.type zeroHost 1).basicType = .int1 := by
    rw [PNModule.type, hm.types]
    rfl
  have hsource : (phiFunction false).IsInt1 zeroHost rs.module (rs.module.values.length + 1) := (isInt1_local hv).mpr hint
  rw [hm.values] at hsource
  obtain ⟨th, D, hrun, hf, halive, hD, -⟩ := hm.run
    (S := fun D th op => StepOf (fun f r => SsaStep zeroHost rs.module (phiExecutor false) D th op f r ∧
      Guarded zeroHost rs.module (phiExecutor false) th op f) op) fun hstep => by
    refine .inr ⟨_, _, hstep, ?_, ?_⟩
    · intro malloc fast assigns destInst heq a ha _ _
      cases heq
      cases List.mem_singleton.mp ha
      exact hsource
    · intro hfast
      cases hfast
  have hfun : rs.module.functions[th.functionId]? = some (phiFunction false) := by
    rw [hm.functions, hf]
    rfl
  exact ⟨rs, bs', _, th, D, _, hread, hrun, hfun, hm.isInt1_phi, hD,
    (truth_values hread hm.executorOf hm.wellDeclared hm.noUndefInt1 hrun).2 halive 3 hD _ hfun hm.isInt1_phi⟩

end Pnacl
