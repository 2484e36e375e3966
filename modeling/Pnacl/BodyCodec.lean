import Pnacl.InstructionCodec
import Pnacl.IntegerSemantics
import Pnacl.BlockFrames

/-!
# Reading a function body undoes writing it

A body is written as the number of its blocks, a constants block, and its instructions in order, each with the id of the next value
as the base of its ids. The reader gets back the constants, the blocks and the values, and runs the passes on exactly these
(`functionBody_decodes`).
-/

namespace Pnacl

open Lib PNBitStream

/-! ## Constants -/

/-- The constants that have a record. -/
inductive ConstantWritable (host : PNHost) (module : PNModule) : PNConstant → Prop where
  | undef {typeId : Nat} (ht : module.HasTypeId typeId) :
    ConstantWritable host module ⟨.undef, typeId, (module.type host typeId).basicType, none⟩
  | integer {typeId v : Nat} (ht : module.HasTypeId typeId) (hb : (module.type host typeId).basicType.isInteger = true)
    (hv : v < 2 ^ (module.type host typeId).basicType.width) :
    ConstantWritable host module ⟨.integer, typeId, (module.type host typeId).basicType, some v⟩
  | float {typeId v : Nat} (ht : module.HasTypeId typeId) (hb : (module.type host typeId).basicType.isInteger = false)
    (hvoid : (module.type host typeId).basicType ≠ .void) (hv : v < 2 ^ (module.type host typeId).basicType.width) :
    ConstantWritable host module ⟨.float, typeId, (module.type host typeId).basicType, some v⟩

/-- The code of an integer constant: it is sign-extended from 64 bits or from 32. -/
def encInteger (basicType : PNBasicType) (v : Nat) : Nat :=
  encSignRotated 64 (Int.bmod v (if basicType = .int64 then 2 ^ 64 else 2 ^ 32))

/-- The record of a constant, behind the one that sets its type. -/
def encConstant (c : PNConstant) : CodedRecord :=
  match c.code with
  | .undef => (3, [])
  | .integer => (4, [encInteger c.basicType (c.value.getD 0)])
  | .float => (6, [c.value.getD 0])

def encConstants (constants : List PNConstant) : List CodedRecord :=
  constants.flatMap fun c => [(1, [c.typeId]), encConstant c]

/-- The values that constants define, when `n` constants are there already. -/
def constantDefs (n : Nat) : List PNConstant → List PNValue
  | [] => []
  | c :: constants => ⟨.constant (n % 2 ^ 16), c.typeId⟩ :: constantDefs (n + 1) constants

def constantEvents (functionId : Nat) (constants : List PNConstant) : List PNReadEvent :=
  constants.flatMap fun c => [.constantsSettype functionId c.typeId, .constantsValue functionId c]

/-- The function with more constants. -/
def PNFunction.withConstants (f : PNFunction) (constants : List PNConstant) : PNFunction :=
  { f with
    constants := f.constants ++ constants
    values := f.values ++ constantDefs f.constants.length constants }

/-- More events. -/
def PNReadState.traced (rs : PNReadState) (events : List PNReadEvent) : PNReadState := { rs with trace := rs.trace ++ events }

section Constants

variable {host : PNHost} {module : PNModule} {fuel stop : Nat} {rest : List Bool} {reader : PNRecordReader} {vs : List Nat}
  {s : PNConstantsState} {c : PNConstant}

theorem readIntegerConstant_enc {basicType : PNBasicType} {v : Nat} (hb : basicType.isInteger = true) (hv : v < 2 ^ basicType.width)
    (h : reader.Before (encInteger basicType v :: vs) stop rest) :
    ∃ r', readIntegerConstant basicType reader = .ok (v, r') ∧ r'.Before vs stop rest := by
  have hmod := Int.bmod_def v (2 ^ 32)
  have hmod64 := Int.bmod_def v (2 ^ 64)
  cases basicType with
  | void | float | double => cases hb
  | int1 | int8 | int16 | int32 =>
    simp only [PNBasicType.width] at hv
    obtain ⟨r', hr, hbefore⟩ := PNRecordReader.Before.readDecodedInt32 h (Int.le_bmod (by decide)) (Int.bmod_lt (by decide))
      "integer value"
    refine ⟨r', ?_, hbefore⟩
    rw [readIntegerConstant, hr, ok_bind]
    refine congrArg (fun n => Except.ok (n, r')) ?_
    simp only [reduceCtorEq, if_false]
    omega
  | int64 =>
    simp only [PNBasicType.width] at hv
    obtain ⟨r', hr, hbefore⟩ := PNRecordReader.Before.readDecodedInt64 h (Int.le_bmod (by decide)) (Int.bmod_lt (by decide))
      "integer64 value"
    refine ⟨r', ?_, hbefore⟩
    rw [readIntegerConstant, hr, ok_bind]
    refine congrArg (fun n => Except.ok (n, r')) ?_
    simp only [if_true]
    omega

/-- The state behind a constant. -/
def PNConstantsState.settype (s : PNConstantsState) (c : PNConstant) : PNConstantsState :=
  { s with
    curTypeId := c.typeId
    curBasicType := c.basicType
    rs := s.rs.traced [.constantsSettype s.functionId c.typeId] }

def PNConstantsState.withConstant (s : PNConstantsState) (c : PNConstant) : PNConstantsState :=
  (s.settype c).append c.code c.value

theorem constantsBlock_takes_settype (hfuel : 0 < fuel) (hc : ConstantWritable host s.rs.module c) :
    (pnConstantsBlock host fuel).TakesRecord s (1, [c.typeId]) (s.settype c) := by
  have ht : s.rs.module.HasTypeId c.typeId := by cases hc <;> assumption
  have hb : c.basicType = (s.rs.module.type host c.typeId).basicType := by cases hc <;> rfl
  intro reader stop rest h
  obtain ⟨r₁, h₁, b₁⟩ := h.readUint32 ht.lt "current type"
  obtain ⟨bs, hf, hg⟩ := b₁.finish hfuel (s.settype c)
  refine ⟨bs, ?_, hg⟩
  simp only [pnConstantsBlock, h₁, ok_bind, ht.check, ht.toTypeId_eq, ← hb]
  exact hf

theorem constantsBlock_takes_value (hfuel : 0 < fuel) (hc : ConstantWritable host s.rs.module c) :
    (pnConstantsBlock host fuel).TakesRecord (s.settype c) (encConstant c) (s.withConstant c) := by
  intro reader stop rest h
  cases hc with
  | undef ht => exact PNRecordReader.Before.finish h hfuel _
  | integer ht hb hv =>
    obtain ⟨r₁, h₁, b₁⟩ := readIntegerConstant_enc hb hv h
    obtain ⟨bs, hf, hg⟩ := b₁.finish hfuel (s.withConstant ⟨.integer, _, _, some _⟩)
    refine ⟨bs, ?_, hg⟩
    simp only [pnConstantsBlock, encConstant, PNConstantsState.settype, h₁, ok_bind]
    exact hf
  | @float typeId v ht hb hvoid hv =>
    obtain ⟨r₁, h₁, b₁⟩ : ∃ r', readFloatConstant (s.rs.module.type host typeId).basicType reader = .ok (v, r') ∧
        r'.Before [] stop rest := by
      generalize (s.rs.module.type host typeId).basicType = basicType at hb hvoid hv h ⊢
      cases basicType with
      | void => exact absurd rfl hvoid
      | int1 | int8 | int16 | int32 | int64 => cases hb
      | float => exact PNRecordReader.Before.readUint32 h hv "float value"
      | double => exact PNRecordReader.Before.readUint64 h hv "double value"
    obtain ⟨bs, hf, hg⟩ := b₁.finish hfuel (s.withConstant ⟨.float, _, _, some _⟩)
    refine ⟨bs, ?_, hg⟩
    simp only [pnConstantsBlock, encConstant, PNConstantsState.settype, h₁, ok_bind]
    exact hf

theorem encConstant_code_lt (c : PNConstant) : (encConstant c).1 < 2 ^ 32 := by
  unfold encConstant
  split <;> exact of_decide_eq_true rfl

theorem constantsBlock_takes (hfuel : 0 < fuel) : ∀ (constants : List PNConstant) {s : PNConstantsState},
    (∀ c ∈ constants, ConstantWritable host s.rs.module c) →
    (pnConstantsBlock host fuel).Takes s (encConstants constants) (constants.foldl PNConstantsState.withConstant s)
  | [], s, _ => .nil s
  | c :: constants, s, hc =>
    have hhead := hc c (List.mem_cons_self ..)
    .cons (show 1 < 2 ^ 32 by decide) (constantsBlock_takes_settype hfuel hhead)
      (.cons (encConstant_code_lt c) (constantsBlock_takes_value hfuel hhead)
        (constantsBlock_takes hfuel constants fun d hd => hc d (List.mem_cons_of_mem _ hd)))

theorem withConstant_function (h : ConstantWritable host module c) :
    (s.withConstant c).function = s.function.withConstants [c] := by
  cases h <;> rfl

theorem constantDefs_append (ds : List PNConstant) : ∀ {cs : List PNConstant} {n : Nat},
    constantDefs n (cs ++ ds) = constantDefs n cs ++ constantDefs (n + cs.length) ds
  | [], _ => rfl
  | c :: cs, n => by
    rw [List.cons_append, constantDefs, constantDefs, constantDefs_append ds, List.length_cons, List.cons_append, Nat.add_assoc,
      Nat.add_comm 1]

theorem PNFunction.withConstants_append (f : PNFunction) (cs ds : List PNConstant) :
    (f.withConstants cs).withConstants ds = f.withConstants (cs ++ ds) := by
  simp only [PNFunction.withConstants, constantDefs_append, List.append_assoc, List.length_append]

/-- What the constants leave. -/
theorem constants_foldl : ∀ (constants : List PNConstant) {s : PNConstantsState},
    (∀ c ∈ constants, ConstantWritable host module c) →
    (constants.foldl PNConstantsState.withConstant s).function = s.function.withConstants constants ∧
      (constants.foldl PNConstantsState.withConstant s).rs = s.rs.traced (constantEvents s.functionId constants)
  | [], s, _ => by
    simp [PNFunction.withConstants, constantDefs, PNReadState.traced, constantEvents]
  | c :: constants, s, hc => by
    have hhead := hc c (List.mem_cons_self ..)
    obtain ⟨hf, hrs⟩ := constants_foldl constants (s := s.withConstant c) fun d hd => hc d (List.mem_cons_of_mem _ hd)
    rw [List.foldl_cons]
    refine ⟨?_, ?_⟩
    · rw [hf, withConstant_function hhead, PNFunction.withConstants_append]
      rfl
    · rw [hrs]
      cases hhead <;>
        simp [PNReadState.traced, constantEvents, PNConstantsState.withConstant, PNConstantsState.settype, PNConstantsState.append]

/-- A constants block behind its id. -/
def encConstantsBlock (offset width words : Nat) (constants : List PNConstant) : List Bool :=
  encBlock offset width words ((encConstants constants).flatMap (encRecord width))

theorem length_encConstants (constants : List PNConstant) : (encConstants constants).length = 2 * constants.length := by
  simp [encConstants, List.length_flatMap, List.map_const', List.sum_replicate_nat, Nat.mul_comm]

/-- **Reading a constants block undoes writing it.** -/
theorem constantsBlock_decodes {rs : PNReadState} {functionId width words : Nat} {function : PNFunction}
    {constants : List PNConstant} {bs : PNBitStream}
    (hc : ∀ c ∈ constants, ConstantWritable host rs.module c) (hwidth : 2 ≤ width) (hle : width ≤ 32)
    (hwords : words < 2 ^ 32) (hfuel : 2 * constants.length < fuel)
    (h : bs.GoesOn stop (encConstantsBlock stop width words constants ++ rest)) :
    ∃ bs', pnConstantsBlockRead host fuel rs functionId function bs =
        .ok (rs.traced (constantEvents functionId constants), function.withConstants constants, bs') ∧
      bs'.GoesOn (stop + (encConstantsBlock stop width words constants).length) rest := by
  have htakes := constantsBlock_takes (Nat.lt_of_le_of_lt (Nat.zero_le _) hfuel) constants
    (s := ⟨rs, functionId, function, PN_INVALID_TYPE_ID, .void⟩) hc
  obtain ⟨hf, hrs⟩ := constants_foldl constants (s := ⟨rs, functionId, function, PN_INVALID_TYPE_ID, .void⟩) hc
  obtain ⟨bs', hr, hg⟩ := readBlock_aligned (b := pnConstantsBlock host fuel) hwidth hle hwords (htakes.reads hwidth hle)
    (by rwa [length_encConstants]) (fun _ => rfl) h
  refine ⟨bs', ?_, hg⟩
  rw [pnConstantsBlockRead, hr, ok_bind]
  dsimp only
  rw [hf, hrs]

end Constants

/-! ## Instructions -/

/-- An instruction, with the value that it defines. -/
abbrev DefInstruction := PNInstruction × Option PNValue

/-- The values that instructions define. -/
def definedValues (is : List DefInstruction) : List PNValue := is.flatMap fun i => i.2.toList

/-- The records of instructions, the first of which stands behind `relId` values. -/
def encInstructions (relative : Bool) (relId : Nat) : List DefInstruction → List CodedRecord
  | [] => []
  | i :: is => encInstruction relative relId i.1 :: encInstructions relative (relId + i.2.toList.length) is

/-- All of them can be written. -/
def AllWritable (host : PNHost) (dedupe : Bool) (module : PNModule) (relId : Nat) : List DefInstruction → Prop
  | [] => True
  | i :: is => Writable host dedupe module relId i.1 i.2 ∧ AllWritable host dedupe module (relId + i.2.toList.length) is

/-- A block of a function that is written: a terminator ends it, and there is no other. -/
structure WrittenBlock where
  body : List DefInstruction
  terminator : PNInstruction
  body_continues : ∀ i ∈ body, i.1.isTerminator = false
  terminator_ends : terminator.isTerminator = true

def WrittenBlock.instructions (b : WrittenBlock) : List DefInstruction := b.body ++ [(b.terminator, none)]

/-- The block, as the reader leaves it. -/
def WrittenBlock.toBb (b : WrittenBlock) : PNBasicBlock := { instructions := b.instructions.map Prod.fst }

/-- The state with more instructions in block `k`. -/
def PNFunctionState.added (s : PNFunctionState) (k : Nat) (is : List DefInstruction) : PNFunctionState :=
  { s with
    function := { s.function with
      bbs := s.function.bbs.modify k fun bb => { bb with instructions := bb.instructions ++ is.map Prod.fst }
      values := s.function.values ++ definedValues is
      numInstructions := s.function.numInstructions + is.length }
    rs := s.rs.traced (is.map fun i => .functionInstruction s.functionId s.function.bbs.length s.rs.module.types.length
      i.1.forCallback) }

/-- The state in which a block has begun. -/
def PNFunctionState.begun (s : PNFunctionState) : PNFunctionState :=
  { s with prevBbId := s.curBbId, curBb := some s.curBbId, numBbs := s.numBbs + 1 }

section Instructions

variable {host : PNHost} {dedupe relative : Bool} {module : PNModule} {relId k fuel stop : Nat} {is js : List DefInstruction}
  {s s' : PNFunctionState} {r : CodedRecord} {rs : List CodedRecord} {inst : PNInstruction} {value : Option PNValue}

theorem encInstructions_append : ∀ {is : List DefInstruction} {relId : Nat}, encInstructions relative relId (is ++ js) =
    encInstructions relative relId is ++ encInstructions relative (relId + (definedValues is).length) js
  | [], _ => rfl
  | i :: is, relId => by
    rw [List.cons_append, encInstructions, encInstructions, encInstructions_append]
    simp only [definedValues, List.flatMap_cons, List.length_append, Nat.add_assoc, List.cons_append]

theorem allWritable_append : ∀ {is : List DefInstruction} {relId : Nat}, AllWritable host dedupe module relId (is ++ js) ↔
    AllWritable host dedupe module relId is ∧ AllWritable host dedupe module (relId + (definedValues is).length) js
  | [], relId => by simp [AllWritable, definedValues]
  | i :: is, relId => by
    rw [List.cons_append, AllWritable, AllWritable, allWritable_append]
    simp only [definedValues, List.flatMap_cons, List.length_append, Nat.add_assoc, and_assoc]

theorem length_encInstructions : ∀ {is : List DefInstruction} {relId : Nat}, (encInstructions relative relId is).length = is.length
  | [], _ => rfl
  | _ :: _, _ => by rw [encInstructions, List.length_cons, length_encInstructions, List.length_cons]

theorem PNFunctionState.added_nil : s.added k [] = s := by
  have hmodify : s.function.bbs.modify k (fun bb => { bb with
      instructions := bb.instructions ++ ([] : List DefInstruction).map Prod.fst }) = s.function.bbs := by
    simp only [List.map_nil, List.append_nil]
    exact List.modify_id ..
  rw [PNFunctionState.added, hmodify]
  simp [definedValues, PNReadState.traced]

theorem PNFunctionState.added_added : (s.added k is).added k js = s.added k (is ++ js) := by
  simp [PNFunctionState.added, definedValues, PNReadState.traced, List.modify_modify_eq, Function.comp_def, Nat.add_assoc]

/-- The code of an instruction is not that of DECLAREBLOCKS. -/
theorem encInstruction_code (relative : Bool) (relId : Nat) (inst : PNInstruction) :
    (encInstruction relative relId inst).1 ≠ PN_FUNCTION_CODE_DECLAREBLOCKS ∧ (encInstruction relative relId inst).1 < 2 ^ 32 := by
  cases inst with
  | br _ falseBb _ => cases falseBb <;> exact ⟨of_decide_eq_true rfl, of_decide_eq_true rfl⟩
  | call _ _ _ _ _ isIndirect _ => cases isIndirect <;> exact ⟨of_decide_eq_true rfl, of_decide_eq_true rfl⟩
  | _ => exact ⟨of_decide_eq_true rfl, of_decide_eq_true rfl⟩

/-- A block begins with its first instruction. -/
theorem functionBlock_begins (hne : s.prevBbId ≠ s.curBbId) (hlt : s.curBbId < s.function.bbs.length)
    (hcode : r.1 ≠ PN_FUNCTION_CODE_DECLAREBLOCKS) (h : (pnFunctionBlock host dedupe fuel).TakesRecord s.begun r s') :
    (pnFunctionBlock host dedupe fuel).TakesRecord s r s' := by
  intro reader stop rest hb
  obtain ⟨bs, hr, hg⟩ := h _ _ _ hb
  have hbegin : s.beginBb = .ok s.begun := by
    rw [PNFunctionState.beginBb, if_pos hne, pnCheck_bind hlt]
    rfl
  have hbegun : s.begun.beginBb = .ok s.begun := by
    rw [PNFunctionState.beginBb, if_neg (fun h => h rfl)]
  refine ⟨bs, ?_, hg⟩
  simp only [pnFunctionBlock, if_neg hcode, hbegin, hbegun, ok_bind] at hr ⊢
  exact hr

/-- Inside a block, an instruction is appended to it. -/
theorem functionBlock_takes_instruction (hprev : s.prevBbId = s.curBbId) (hbb : s.curBb = some k)
    (hrel : relId = pnFunctionNumValues s.rs.module s.function)
    (hw : Writable host dedupe s.rs.module relId inst value)
    (hfuel : (encInstruction s.rs.context.useRelativeIds relId inst).2.length < fuel) :
    (pnFunctionBlock host dedupe fuel).TakesRecord s (encInstruction s.rs.context.useRelativeIds relId inst)
      { s.added k [(inst, value)] with curBbId := if inst.isTerminator then toBbId (s.curBbId + 1) else s.curBbId } := by
  intro reader stop rest h
  obtain ⟨r₁, h₁, b₁⟩ := readInstruction_enc hw hfuel h
  obtain ⟨bs, hf, hg⟩ := b₁.finish (Nat.lt_of_le_of_lt (Nat.zero_le _) hfuel) (s.append inst value)
  have hbegin : s.beginBb = .ok s := by rw [PNFunctionState.beginBb, if_neg (fun h => h hprev)]
  have happend : s.append inst value = { s.added k [(inst, value)] with
      curBbId := if inst.isTerminator then toBbId (s.curBbId + 1) else s.curBbId } := by
    simp only [PNFunctionState.append, PNFunction.append, hbb, PNFunctionState.added, definedValues, PNReadState.traced,
      List.flatMap_cons, List.flatMap_nil, List.append_nil, List.map_cons, List.map_nil, List.length_singleton]
    rfl
  refine ⟨bs, ?_, hg⟩
  rw [happend] at hf
  simp only [pnFunctionBlock, if_neg (encInstruction_code _ _ inst).1, hbegin, ok_bind, ← hrel, h₁]
  rw [happend]
  exact hf

/-- The instructions in front of the terminator. -/
theorem functionBlock_takes_body : ∀ {is : List DefInstruction} {s : PNFunctionState} {relId : Nat},
    s.prevBbId = s.curBbId → s.curBb = some k → relId = pnFunctionNumValues s.rs.module s.function →
    AllWritable host dedupe s.rs.module relId is → (∀ i ∈ is, i.1.isTerminator = false) →
    (∀ r ∈ encInstructions s.rs.context.useRelativeIds relId is, r.2.length < fuel) →
    (pnFunctionBlock host dedupe fuel).Takes s (encInstructions s.rs.context.useRelativeIds relId is) (s.added k is)
  | [], s, _, _, _, _, _, _, _ => by
    rw [PNFunctionState.added_nil]
    exact .nil s
  | i :: is, s, relId, hprev, hbb, hrel, hw, hcont, hfuel => by
    have htake := functionBlock_takes_instruction hprev hbb hrel hw.1 (hfuel _ (List.mem_cons_self ..))
    rw [hcont i (List.mem_cons_self ..), if_neg (by decide)] at htake
    have hnext : relId + i.2.toList.length = pnFunctionNumValues (s.added k [i]).rs.module (s.added k [i]).function := by
      rw [hrel, pnFunctionNumValues, pnFunctionNumValues]
      simp [PNFunctionState.added, PNReadState.traced, definedValues, Nat.add_assoc]
    have hrest := functionBlock_takes_body (s := s.added k [i]) hprev hbb hnext hw.2
      (fun j hj => hcont j (List.mem_cons_of_mem _ hj)) fun r hr => hfuel r (List.mem_cons_of_mem _ hr)
    rw [PNFunctionState.added_added, List.singleton_append] at hrest
    exact .cons (encInstruction_code _ _ i.1).2 htake hrest

end Instructions

/-! ## Blocks -/

section Blocks

variable {host : PNHost} {dedupe : Bool} {relId fuel : Nat} {s : PNFunctionState}

/-- The state behind block `k`. -/
def PNFunctionState.ended (s : PNFunctionState) (b : WrittenBlock) : PNFunctionState :=
  { s.begun.added s.curBbId b.instructions with curBbId := toBbId (s.curBbId + 1) }

/-- A whole block. -/
theorem functionBlock_takes_block {b : WrittenBlock} (hne : s.prevBbId ≠ s.curBbId) (hlt : s.curBbId < s.function.bbs.length)
    (hrel : relId = pnFunctionNumValues s.rs.module s.function) (hw : AllWritable host dedupe s.rs.module relId b.instructions)
    (hfuel : ∀ r ∈ encInstructions s.rs.context.useRelativeIds relId b.instructions, r.2.length < fuel) :
    (pnFunctionBlock host dedupe fuel).Takes s (encInstructions s.rs.context.useRelativeIds relId b.instructions) (s.ended b) := by
  obtain ⟨hw₁, hw₂, -⟩ := allWritable_append.mp hw
  rw [WrittenBlock.instructions, encInstructions_append] at hfuel
  have hbody := functionBlock_takes_body (s := s.begun) rfl rfl hrel hw₁ b.body_continues
    fun r hr => hfuel r (List.mem_append_left _ hr)
  have hrel' : relId + (definedValues b.body).length =
      pnFunctionNumValues (s.begun.added s.curBbId b.body).rs.module (s.begun.added s.curBbId b.body).function := by
    rw [hrel, pnFunctionNumValues, pnFunctionNumValues]
    simp [PNFunctionState.added, PNFunctionState.begun, PNReadState.traced, Nat.add_assoc]
  have hlast := functionBlock_takes_instruction (s := s.begun.added s.curBbId b.body) rfl rfl hrel' hw₂
    (hfuel _ (List.mem_append_right _ (List.mem_cons_self ..)))
  rw [b.terminator_ends, if_pos rfl] at hlast
  have hall : (pnFunctionBlock host dedupe fuel).Takes s.begun
      (encInstructions s.rs.context.useRelativeIds relId b.instructions) (s.ended b) := by
    rw [WrittenBlock.instructions, encInstructions_append]
    refine hbody.append (.cons (encInstruction_code _ _ b.terminator).2 hlast ?_)
    rw [PNFunctionState.added_added]
    exact .nil _
  -- the first record of the block is taken from the state in which the block has not begun
  obtain ⟨i, is, hcons⟩ : ∃ i is, b.instructions = i :: is :=
    List.exists_cons_of_ne_nil (List.append_ne_nil_of_right_ne_nil _ (List.cons_ne_nil _ _))
  rw [hcons, encInstructions] at hall ⊢
  cases hall with
  | cons hr h hs => exact .cons hr (functionBlock_begins hne hlt (encInstruction_code _ _ i.1).1 h) hs

theorem modify_middle {α : Type} (f : α → α) (x : α) (rest : List α) : ∀ done : List α,
    (done ++ x :: rest).modify done.length f = done ++ f x :: rest
  | [] => rfl
  | d :: done => by
    rw [List.cons_append, List.length_cons, List.modify_succ_cons, modify_middle f x rest done, List.cons_append]

/-- The function with these blocks. -/
def PNFunction.withBlocks (f : PNFunction) (bbs : List PNBasicBlock) (is : List DefInstruction) : PNFunction :=
  { f with
    bbs := bbs
    values := f.values ++ definedValues is
    numInstructions := f.numInstructions + is.length }

/-- The instructions of blocks. -/
def blockInstructions (blocks : List WrittenBlock) : List DefInstruction := blocks.flatMap WrittenBlock.instructions

def instructionEvents (functionId numBbs numTypes : Nat) (is : List DefInstruction) : List PNReadEvent :=
  is.map fun i => .functionInstruction functionId numBbs numTypes i.1.forCallback

/-- One block after the other. -/
theorem functionBlock_takes_blocks : ∀ (todo : List WrittenBlock) (done : List PNBasicBlock) {s : PNFunctionState} {relId : Nat},
    s.function.bbs = done ++ List.replicate todo.length ({} : PNBasicBlock) → s.curBbId = done.length → s.numBbs = done.length →
    s.prevBbId ≠ s.curBbId → (done ++ todo.map WrittenBlock.toBb).length < 2 ^ 16 →
    relId = pnFunctionNumValues s.rs.module s.function →
    AllWritable host dedupe s.rs.module relId (blockInstructions todo) →
    (∀ r ∈ encInstructions s.rs.context.useRelativeIds relId (blockInstructions todo), r.2.length < fuel) →
    ∃ s', (pnFunctionBlock host dedupe fuel).Takes s
        (encInstructions s.rs.context.useRelativeIds relId (blockInstructions todo)) s' ∧
      s'.function = s.function.withBlocks (done ++ todo.map WrittenBlock.toBb) (blockInstructions todo) ∧
      s'.numBbs = (done ++ todo.map WrittenBlock.toBb).length ∧ s'.functionId = s.functionId ∧
      s'.rs = s.rs.traced (instructionEvents s.functionId (done ++ todo.map WrittenBlock.toBb).length s.rs.module.types.length
        (blockInstructions todo))
  | [], done, s, _, hbbs, _, hnum, _, _, _, _, _ => by
    refine ⟨s, .nil s, ?_, ?_, rfl, ?_⟩
    · rw [PNFunction.withBlocks]
      simp only [List.length_nil, List.replicate_zero] at hbbs
      simp [blockInstructions, definedValues, ← hbbs]
    · simpa using hnum
    · simp [PNReadState.traced, instructionEvents, blockInstructions]
  | b :: todo, done, s, relId, hbbs, hcur, hnum, hne, hsmall, hrel, hw, hfuel => by
    have hlen : s.function.bbs.length = (done ++ (b :: todo).map WrittenBlock.toBb).length := by
      rw [hbbs]
      simp
    have hlt : s.curBbId < s.function.bbs.length := by
      rw [hlen, hcur]
      simp
    rw [blockInstructions, List.flatMap_cons] at hw hfuel
    obtain ⟨hw₁, hw₂⟩ := allWritable_append.mp hw
    rw [encInstructions_append] at hfuel
    have hblock := functionBlock_takes_block hne hlt hrel hw₁ fun r hr => hfuel r (List.mem_append_left _ hr)
    have hcur' : (s.ended b).curBbId = (done ++ [b.toBb]).length := by
      simp only [List.length_append, List.length_map, List.length_cons] at hsmall
      rw [PNFunctionState.ended, toBbId, hcur, List.length_append, List.length_singleton]
      exact Nat.mod_eq_of_lt (by omega)
    have hbbs' : (s.ended b).function.bbs = done ++ [b.toBb] ++ List.replicate todo.length ({} : PNBasicBlock) := by
      simp only [PNFunctionState.ended, PNFunctionState.added, PNFunctionState.begun, hbbs, hcur, List.length_cons,
        List.replicate_succ, modify_middle, List.append_assoc, List.singleton_append]
      rfl
    have hrel' : relId + (definedValues b.instructions).length =
        pnFunctionNumValues (s.ended b).rs.module (s.ended b).function := by
      rw [hrel, pnFunctionNumValues, pnFunctionNumValues]
      simp [PNFunctionState.ended, PNFunctionState.added, PNFunctionState.begun, PNReadState.traced, Nat.add_assoc]
    have heq : done ++ [b.toBb] ++ todo.map WrittenBlock.toBb = done ++ (b :: todo).map WrittenBlock.toBb := by
      rw [List.append_assoc, List.map_cons, List.singleton_append]
    have hprev' : (s.ended b).prevBbId ≠ (s.ended b).curBbId := by
      rw [hcur']
      change s.curBbId ≠ _
      rw [hcur, List.length_append, List.length_singleton]
      omega
    obtain ⟨s', htake, hfun, hnum', hid, hrs⟩ := functionBlock_takes_blocks todo (done ++ [b.toBb]) hbbs' hcur'
      (by rw [List.length_append, ← hnum]; rfl) hprev' (heq ▸ hsmall) hrel' hw₂ fun r hr => hfuel r (List.mem_append_right _ hr)
    rw [heq] at hfun hnum' hrs
    refine ⟨s', ?_, ?_, hnum', hid, ?_⟩
    · rw [blockInstructions, List.flatMap_cons, encInstructions_append]
      exact hblock.append htake
    · rw [hfun]
      simp [PNFunction.withBlocks, PNFunctionState.ended, PNFunctionState.added, PNFunctionState.begun, blockInstructions,
        definedValues, Nat.add_assoc]
    · rw [hrs]
      simp [PNReadState.traced, PNFunctionState.ended, PNFunctionState.added, PNFunctionState.begun, blockInstructions,
        instructionEvents, hlen]

end Blocks

/-! ## Bodies -/

/-- A body that is written. -/
structure WrittenBody where
  constants : List PNConstant
  blocks : List WrittenBlock

def WrittenBody.instructions (w : WrittenBody) : List DefInstruction := blockInstructions w.blocks

/-- The constants and the instructions have records, the first instruction behind `relId` values, and a `PNBasicBlockId` numbers the
blocks. -/
structure WrittenBody.Ok (w : WrittenBody) (host : PNHost) (dedupe : Bool) (module : PNModule) (relId : Nat) : Prop where
  constants : ∀ c ∈ w.constants, ConstantWritable host module c
  instructions : AllWritable host dedupe module relId w.instructions
  blocks : w.blocks.length < 2 ^ 16

/-- The fuel is enough for the entries of the blocks and for the values of each record. -/
structure WrittenBody.FuelFor (w : WrittenBody) (relative : Bool) (relId fuel : Nat) : Prop where
  constants : 2 * w.constants.length < fuel
  instructions : w.instructions.length + 2 < fuel
  values : ∀ r ∈ encInstructions relative relId w.instructions, r.2.length < fuel

/-- What stands in front of the instructions. -/
def encPrologue (start width cwidth cwords numBbs : Nat) (constants : List PNConstant) : List Bool :=
  let declare := encRecord width (PN_FUNCTION_CODE_DECLAREBLOCKS, [numBbs])
  declare ++ encSubblock width 11 (start + declare.length) fun offset => encConstantsBlock offset cwidth cwords constants

/-- The entries of a function block: DECLAREBLOCKS, the constants block, the instructions. -/
def WrittenBody.enc (w : WrittenBody) (relative : Bool) (relId start width cwidth cwords : Nat) : List Bool :=
  encPrologue start width cwidth cwords w.blocks.length w.constants ++
    (encInstructions relative relId w.instructions).flatMap (encRecord width)

/-- The function, as the passes get it. -/
def WrittenBody.function (w : WrittenBody) (f : PNFunction) (argTypes : List Nat) : PNFunction :=
  ((appendArgs f argTypes).withConstants w.constants).withBlocks (w.blocks.map WrittenBlock.toBb) w.instructions

/-- The id of the first instruction's value. -/
def WrittenBody.base (w : WrittenBody) (module : PNModule) (f : PNFunction) (argTypes : List Nat) : Nat :=
  pnFunctionNumValues module ((appendArgs f argTypes).withConstants w.constants)

def WrittenBody.events (w : WrittenBody) (functionId numTypes : Nat) : List PNReadEvent :=
  [.functionNumblocks functionId w.blocks.length] ++ constantEvents functionId w.constants ++
    instructionEvents functionId w.blocks.length numTypes w.instructions

section Bodies

variable {host : PNHost} {dedupe : Bool} {fuel stop width words cwidth cwords functionId : Nat} {w : WrittenBody}
  {s : PNFunctionState} {rs : PNReadState} {f : PNFunction} {argTypes : List Nat} {bs : PNBitStream} {rest : List Bool}

/-- The state behind DECLAREBLOCKS. -/
def PNFunctionState.declared (s : PNFunctionState) (numBbs : Nat) : PNFunctionState :=
  { s with
    function := { s.function with bbs := List.replicate numBbs {} }
    curBb := none
    rs := s.rs.traced [.functionNumblocks s.functionId numBbs] }

theorem functionBlock_takes_declareblocks {n : Nat} (hn : n < 2 ^ 32) :
    (pnFunctionBlock host dedupe fuel).TakesRecord s (PN_FUNCTION_CODE_DECLAREBLOCKS, [n]) (s.declared n) := by
  intro reader stop rest h
  obtain ⟨r₁, h₁, b₁⟩ := h.readUint32 hn "num basic blocks"
  refine ⟨r₁.bs, ?_, b₁.inv, b₁.offset, b₁.bits⟩
  simp only [pnFunctionBlock, if_true, readDeclareblocks, h₁, ok_bind]
  rfl

/-- The state behind a constants block. -/
def PNFunctionState.withConstants (s : PNFunctionState) (constants : List PNConstant) : PNFunctionState :=
  { s with
    rs := s.rs.traced (constantEvents s.functionId constants)
    function := s.function.withConstants constants }

/-- Block 11 of a function is a constants block. -/
theorem functionBlock_constants {bs b₁ : PNBitStream} (h : pnBitstreamReadVbr bs 8 = .ok (11, b₁)) :
    (pnFunctionBlock host dedupe fuel).subblock s bs = (do
      let (rs, function, bs) ← pnConstantsBlockRead host fuel s.rs s.functionId s.function b₁
      .ok ({ s with rs := rs, function := function }, bs)) := by
  simp only [pnFunctionBlock, h, ok_bind]

/-- What is in front of the instructions. -/
theorem functionBlock_prologue {constants : List PNConstant} {n : Nat} (hn : n < 2 ^ 32)
    (hc : ∀ c ∈ constants, ConstantWritable host s.rs.module c) (hwidth : 2 ≤ width) (hle : width ≤ 32) (hcwidth : 2 ≤ cwidth)
    (hcle : cwidth ≤ 32) (hcwords : cwords < 2 ^ 32) (hfuel : 2 * constants.length < fuel) (abbrevs : List PNAbbrev) :
    (pnFunctionBlock host dedupe fuel).Reads host width abbrevs 2 stop (encPrologue stop width cwidth cwords n constants) s
      ((s.declared n).withConstants constants) := by
  have hdeclare : (pnFunctionBlock host dedupe fuel).Reads host width abbrevs 1 stop
      (encRecord width (PN_FUNCTION_CODE_DECLAREBLOCKS, [n])) s (s.declared n) :=
    (functionBlock_takes_declareblocks hn).reads (show 1 < 2 ^ 32 by decide) hwidth hle
  have hconstants : (pnFunctionBlock host dedupe fuel).Reads host width abbrevs 1
      (stop + (encRecord width (PN_FUNCTION_CODE_DECLAREBLOCKS, [n])).length)
      (encSubblock width 11 (stop + (encRecord width (PN_FUNCTION_CODE_DECLAREBLOCKS, [n])).length) fun offset =>
        encConstantsBlock offset cwidth cwords constants) (s.declared n) ((s.declared n).withConstants constants) := by
    refine PNBlockReader.Reads.subblock hwidth hle (show 11 < 2 ^ 32 by decide) functionBlock_constants ?_
    intro b₁ start rest h
    have hc' : ∀ c ∈ constants, ConstantWritable host (s.declared n).rs.module c := hc
    obtain ⟨bs', h₂, hg₂⟩ := constantsBlock_decodes hc' hcwidth hcle hcwords hfuel h
    refine ⟨bs', ?_, hg₂⟩
    rw [h₂]
    rfl
  exact hdeclare.append hconstants

/-- The state in front of a body. -/
def startBody (rs : PNReadState) (functionId : Nat) (f : PNFunction) (argTypes : List Nat) : PNFunctionState :=
  ⟨rs, functionId, appendArgs f argTypes, 0, 2 ^ 16 - 1, 0, none⟩

/-- The entries of a function block. -/
theorem functionBlock_reads (stop functionId : Nat) (hw : w.Ok host dedupe rs.module (w.base rs.module f argTypes))
    (hfuel : w.FuelFor rs.context.useRelativeIds (w.base rs.module f argTypes) fuel) (hwidth : 2 ≤ width) (hle : width ≤ 32)
    (hcwidth : 2 ≤ cwidth) (hcle : cwidth ≤ 32) (hcwords : cwords < 2 ^ 32) (abbrevs : List PNAbbrev) :
    ∃ s', (pnFunctionBlock host dedupe fuel).Reads host width abbrevs (w.instructions.length + 2) stop
        (w.enc rs.context.useRelativeIds (w.base rs.module f argTypes) stop width cwidth cwords)
        (startBody rs functionId f argTypes) s' ∧
      s'.function = w.function f argTypes ∧ s'.numBbs = w.blocks.length ∧ s'.functionId = functionId ∧
      s'.rs = rs.traced (w.events functionId rs.module.types.length) := by
  have hne : 2 ^ 16 - 1 ≠ 0 := by decide
  obtain ⟨s', htake, hfun, hnum, hid, hrs⟩ := functionBlock_takes_blocks w.blocks []
    (s := ((startBody rs functionId f argTypes).declared w.blocks.length).withConstants w.constants)
    rfl rfl rfl hne (by simpa using hw.blocks) rfl hw.instructions hfuel.values
  have hprologue : (pnFunctionBlock host dedupe fuel).Reads host width abbrevs 2 stop
      (encPrologue stop width cwidth cwords w.blocks.length w.constants) (startBody rs functionId f argTypes) _ :=
    functionBlock_prologue (Nat.lt_trans hw.blocks (by decide)) hw.constants hwidth hle hcwidth hcle hcwords hfuel.constants abbrevs
  have hread := hprologue.append (htake.reads hwidth hle)
  rw [length_encInstructions] at hread
  refine ⟨s', hread, ?_, ?_, hid, ?_⟩
  · rw [hfun]
    rfl
  · simpa using hnum
  · rw [hrs]
    simp [PNReadState.traced, WrittenBody.events, WrittenBody.instructions, PNFunctionState.withConstants, PNFunctionState.declared,
      startBody]

/-- A function block behind its id. -/
def encFunctionBlock (w : WrittenBody) (relative : Bool) (relId offset width words cwidth cwords : Nat) : List Bool :=
  encBlock offset width words (w.enc relative relId (offset + (encHeader offset width words).length) width cwidth cwords)

/-- **Reading a function body undoes writing it**: the passes run on the function with exactly the constants, the values and the
blocks that were written, and the stream goes on behind the block. -/
theorem functionBody_decodes {isVarargs returnType : Nat} (hf : rs.module.functions[functionId]? = some f)
    (ht : rs.module.type host f.typeId = .function isVarargs returnType argTypes) (hargs : argTypes.length = f.numArgs)
    (hw : w.Ok host dedupe rs.module (w.base rs.module f argTypes))
    (hfuel : w.FuelFor rs.context.useRelativeIds (w.base rs.module f argTypes) fuel) (hwidth : 2 ≤ width) (hle : width ≤ 32)
    (hwords : words < 2 ^ 32) (hcwidth : 2 ≤ cwidth) (hcle : cwidth ≤ 32) (hcwords : cwords < 2 ^ 32)
    (h : bs.GoesOn stop
      (encFunctionBlock w rs.context.useRelativeIds (w.base rs.module f argTypes) stop width words cwidth cwords ++ rest)) :
    ∃ bs', pnFunctionBlockRead host dedupe fuel rs functionId bs =
        (pnFunctionPasses host rs.module functionId (w.function f argTypes) >>= fun f' =>
          .ok ({ rs with
            module := { rs.module with functions := rs.module.functions.set functionId f' }
            trace := rs.trace ++ w.events functionId rs.module.types.length }, bs')) ∧
      bs'.GoesOn (stop + (encFunctionBlock w rs.context.useRelativeIds (w.base rs.module f argTypes) stop width words cwidth
        cwords).length) rest := by
  obtain ⟨s', hread, hfun, hnum, hid, hrs⟩ := functionBlock_reads (stop + (encHeader stop width words).length) functionId
    hw hfuel hwidth hle hcwidth hcle hcwords (rs.context.blockAbbrevMap 12)
  rw [encFunctionBlock, encBlock, List.append_assoc] at h
  obtain ⟨b₁, h₁, hg₁⟩ := readBlock_reads hwidth hle hwords hread hfuel.instructions h
  obtain ⟨b₂, h₂, hg₂⟩ := hg₁.align
  refine ⟨b₂, ?_, ?_⟩
  · have hbbs : s'.numBbs = s'.function.bbs.length := by
      rw [hnum, hfun]
      exact (List.length_map _).symm
    have hend : (pnFunctionBlock host dedupe fuel).endBlock s' b₁ =
        (pnFunctionPasses host rs.module functionId (w.function f argTypes) >>= fun f' =>
          .ok ({ s' with function := f' }, b₂)) := by
      simp only [pnFunctionBlock, alignEnd, h₂, ok_bind]
      rw [pnCheck_bind hbbs, hfun, hid, hrs]
      rfl
    rw [startBody] at h₁
    simp only [pnFunctionBlockRead, hf, ht]
    rw [cAssert_bind hargs, h₁, hend, bind_assoc]
    refine congrArg (pnFunctionPasses host rs.module functionId (w.function f argTypes) >>= ·) (funext fun f' => ?_)
    simp only [ok_bind, PNFunctionState.store, hid, hrs, PNReadState.traced]
  · rwa [encFunctionBlock, encBlock, List.length_append, ← Nat.add_assoc]

end Bodies

/-! ## A body that is written and read -/

/-- `%3 = add %0, 7`, then a branch to the block that returns `%3`. -/
def writtenBody : WrittenBody where
  constants := [⟨.integer, 0, .int32, some 7⟩]
  blocks := [⟨[(.binop 3 0 2 0 0, some ⟨.localVar, PN_INVALID_TYPE_ID⟩)], .br 1 none PN_INVALID_VALUE_ID, by decide, rfl⟩,
    ⟨[], .ret 3, by decide, rfl⟩]

/-- A function i32(i32, i32) that has no body yet. -/
def bodilessFunction : PNFunction := ⟨none, 1, .null, 2, 0, false, 0, [], [], [], 0, none⟩

def bodilessModule : PNModule :=
  { pnModuleInit ⟨fun _ => 0, 2 ^ 16⟩ with
    types := [.integer 32 .int32, .function 0 0 [0, 0]]
    functions := [bodilessFunction] }

theorem writtenBody_ok : writtenBody.Ok zeroHost true bodilessModule 3 where
  constants c hc := by
    rw [List.mem_singleton.mp hc]
    exact @ConstantWritable.integer zeroHost bodilessModule 0 7 ⟨by decide, by decide⟩ rfl (by decide)
  instructions := ⟨.binop (by decide) (by decide) (by decide) (by decide), .br (by decide), .ret (by decide), trivial⟩
  blocks := by decide

theorem functionBody_decodes_written : ∃ bs', pnFunctionBlockRead zeroHost true 9 ⟨bodilessModule, { useRelativeIds := true }, []⟩ 0
      (fileOf (encFunctionBlock writtenBody true 3 0 4 9 3 4 ++ [])) =
    (pnFunctionPasses zeroHost bodilessModule 0 (writtenBody.function bodilessFunction [0, 0]) >>= fun f' =>
      .ok (⟨{ bodilessModule with functions := [f'] }, { useRelativeIds := true }, [] ++ writtenBody.events 0 2⟩, bs')) ∧
    bs'.GoesOn (0 + (encFunctionBlock writtenBody true 3 0 4 9 3 4).length) [] :=
  functionBody_decodes rfl rfl rfl writtenBody_ok
    ⟨by decide, by decide, by decide⟩ (by decide) (by decide) (by decide) (by decide) (by decide) (by decide)
    (fileOf_goesOn (by decide +kernel))

end Pnacl
