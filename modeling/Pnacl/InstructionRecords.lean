import Pnacl.BlockReader

/-!
# Instruction records

The instruction records of a function block. Each case of the `switch` in `pn_function_block_read` reads the fields of
one record and appends the result value of the instruction, if it has one, to the function.
-/

namespace Pnacl

open Lib

/-- `PNFunctionCode`. -/
def PN_FUNCTION_CODE_DECLAREBLOCKS : Nat := 1

/-! ## Repeated fields -/

/-- The values of one case of a SWITCH: single values and ranges. No chunk has 4 GiB left, so a range that needs more asks
for a new chunk and fails the check on its size. -/
def readCaseValues : Nat → PNRecordReader → List Int → Except Stop (List Int × PNRecordReader)
  | 0, reader, values => .ok (values, reader)
  | numValues + 1, reader, values => do
    let (isSingle, reader) ← pnRecordReadUint32 reader "is_single"
    let (low, reader) ← pnRecordReadDecodedInt64 reader "low"
    let (high, reader) ←
      if isSingle % 2 ^ 8 = 0 then do
        let (high, reader) ← pnRecordReadDecodedInt64 reader "high"
        pnCheck (low ≤ high) "low <= high"
        .ok (high, reader)
      else .ok (low, reader)
    let diff := high - low + 1
    if 2 ^ 60 ≤ diff then .error (.undefined "diff * sizeof(PNSwitchCase) overflows")
    else do
      pnCheck (diff * 16 < 2 ^ 32) "initial_alloc_size < 0x80000000"
      readCaseValues numValues reader (values ++ (List.range diff.toNat).map fun (n : Nat) => low + n)

/-- An `int32_t` as the number of rounds of a loop. -/
def rounds (n : Nat) : Nat := if n < 2 ^ 31 then n else 0

/-- The cases of a SWITCH, with the target of each of them. -/
def readCases : Nat → PNRecordReader → List PNSwitchCase → List Nat →
    Except Stop (List PNSwitchCase × List Nat × PNRecordReader)
  | 0, reader, cases, bbs => .ok (cases, bbs, reader)
  | numCases + 1, reader, cases, bbs => do
    let (numValues, reader) ← pnRecordReadUint32 reader "num values"
    let (values, reader) ← readCaseValues (rounds numValues) reader []
    let (bb, reader) ← pnRecordReadUint32 reader "bb"
    readCases numCases reader (cases ++ values.map fun v => ⟨v, bb⟩) (bbs ++ [bb])

/-- The entries of a PHI. With `dedupe` an entry for a block that has one already must agree with it and is dropped. -/
def readIncoming (dedupe useRelativeIds : Bool) (resultValueId : Nat) :
    Nat → PNRecordReader → List PNPhiIncoming → Except Stop (List PNPhiIncoming × PNRecordReader)
  | 0, _, _ => .error .fuel
  | fuel + 1, reader, incoming => do
    let (value, reader) ← pnRecordTryReadUint32 reader
    match value with
    | none => .ok (incoming, reader)
    | some value => do
      let value := absoluteId useRelativeIds resultValueId
        (if useRelativeIds then pnDecodeSignRotatedValue value else value)
      let (bb, reader) ← pnRecordTryReadUint16 reader
      match bb with
      | none => pnFatal "unable to read phi bb index\n" []
      | some bb =>
        match if dedupe then incoming.find? (fun i => i.bbId = bb) else none with
        | some i =>
          if i.valueId = value then readIncoming dedupe useRelativeIds resultValueId fuel reader incoming
          else pnFatal "phi duplicated with matching bb %d but different values %d != %d\n" [bb, i.valueId, value]
        | none => readIncoming dedupe useRelativeIds resultValueId fuel reader (incoming ++ [⟨bb, value⟩])

/-- The arguments of a call. -/
def readArgs (useRelativeIds : Bool) (valueId : Nat) :
    Nat → PNRecordReader → List Nat → Except Stop (List Nat × PNRecordReader)
  | 0, reader, args => .ok (args, reader)
  | n + 1, reader, args => do
    let (arg, reader) ← pnRecordReadUint32 reader "arg"
    readArgs useRelativeIds valueId n reader (args ++ [absoluteId useRelativeIds valueId arg])

/-! ## The records -/

/-- What a record gives: the instruction, and the value that it defines. -/
structure PNInstructionRecord where
  instruction : PNInstruction
  value : Option PNValue
  reader : PNRecordReader

section Read

variable (host : PNHost) (dedupe : Bool) (fuel : Nat) (module : PNModule) (useRelativeIds : Bool) (relId : Nat)

/-- An instruction that defines a local variable of this type. -/
def defines (instruction : PNInstruction) (typeId : Nat) (reader : PNRecordReader) : Except Stop PNInstructionRecord :=
  .ok ⟨instruction, some ⟨.localVar, typeId⟩, reader⟩

/-- An instruction without result. -/
def noResult (instruction : PNInstruction) (reader : PNRecordReader) : Except Stop PNInstructionRecord :=
  .ok ⟨instruction, none, reader⟩

def readBinop (reader : PNRecordReader) : Except Stop PNInstructionRecord := do
  let (value0, reader) ← pnRecordReadUint32 reader "value 0"
  let (value1, reader) ← pnRecordReadUint32 reader "value 1"
  let (opcode, reader) ← pnRecordReadUint32 reader "opcode"
  let (flags, reader) ← pnRecordTryReadUint32 reader
  -- the type is fixed later, when all values are defined
  defines (.binop relId (absoluteId useRelativeIds relId value0) (absoluteId useRelativeIds relId value1) opcode
    (flags.getD 0)) PN_INVALID_TYPE_ID reader

def readCast (reader : PNRecordReader) : Except Stop PNInstructionRecord := do
  let (value, reader) ← pnRecordReadUint32 reader "value"
  let (typeId, reader) ← pnRecordReadUint32 reader "type_id"
  let (opcode, reader) ← pnRecordReadUint32 reader "opcode"
  pnTypeIdCheck module typeId
  defines (.cast relId (absoluteId useRelativeIds relId value) opcode (toTypeId typeId)) (toTypeId typeId) reader

def readRet (reader : PNRecordReader) : Except Stop PNInstructionRecord := do
  let (value, reader) ← pnRecordTryReadUint32 reader
  noResult (.ret (match value with
    | some value => absoluteId useRelativeIds relId value
    | none => PN_INVALID_VALUE_ID)) reader

def readBr (reader : PNRecordReader) : Except Stop PNInstructionRecord := do
  let (trueBb, reader) ← pnRecordReadUint32 reader "true_bb"
  let (falseBb, reader) ← pnRecordTryReadUint16 reader
  match falseBb with
  | some falseBb => do
    let (value, reader) ← pnRecordReadUint32 reader "value"
    noResult (.br trueBb (some falseBb) (absoluteId useRelativeIds relId value)) reader
  | none => noResult (.br trueBb none PN_INVALID_VALUE_ID) reader

def readSwitch (reader : PNRecordReader) : Except Stop PNInstructionRecord := do
  let (typeId, reader) ← pnRecordReadUint32 reader "type_id"
  let (value, reader) ← pnRecordReadUint32 reader "value"
  let (defaultBb, reader) ← pnRecordReadUint32 reader "default bb"
  pnTypeIdCheck module typeId
  let (numCases, reader) ← pnRecordReadUint32 reader "num cases"
  let (cases, bbs, reader) ← readCases (rounds numCases) reader [] []
  noResult (.switch (toTypeId typeId) (absoluteId useRelativeIds relId value) defaultBb cases bbs) reader

def readPhi (reader : PNRecordReader) : Except Stop PNInstructionRecord := do
  let (typeId, reader) ← pnRecordReadUint32 reader "type_id"
  pnTypeIdCheck module typeId
  let (incoming, reader) ← readIncoming dedupe useRelativeIds relId fuel reader []
  defines (.phi relId (toTypeId typeId) incoming) (toTypeId typeId) reader

/-- The alignment of ALLOCA, LOAD and STORE. -/
def readAlignment (reader : PNRecordReader) : Except Stop (Nat × PNRecordReader) := do
  let (n, reader) ← pnRecordReadUint32 reader "alignment"
  let alignment ← alignmentOf n
  .ok (alignment, reader)

/-- `PN_CHECK` of an alignment. -/
def checkAlignment (alignment : Nat) : Except Stop Unit :=
  pnCheck (pnIsPowerOfTwo alignment) "pn_is_power_of_two(inst->alignment)"

def readAlloca (reader : PNRecordReader) : Except Stop PNInstructionRecord := do
  let typeId ← pnModuleFindPointerType module
  let (size, reader) ← pnRecordReadUint32 reader "size"
  let (alignment, reader) ← readAlignment reader
  checkAlignment alignment
  defines (.alloca relId (absoluteId useRelativeIds relId size) alignment) typeId reader

/-- LOAD: the type id is not checked. -/
def readLoad (reader : PNRecordReader) : Except Stop PNInstructionRecord := do
  let (src, reader) ← pnRecordReadUint32 reader "src"
  let (alignment, reader) ← readAlignment reader
  let (typeId, reader) ← pnRecordReadUint32 reader "type_id"
  checkAlignment alignment
  defines (.load relId (absoluteId useRelativeIds relId src) alignment (toTypeId typeId)) (toTypeId typeId) reader

def readStore (reader : PNRecordReader) : Except Stop PNInstructionRecord := do
  let (dest, reader) ← pnRecordReadUint32 reader "dest"
  let (value, reader) ← pnRecordReadUint32 reader "value"
  let (alignment, reader) ← readAlignment reader
  checkAlignment alignment
  noResult (.store (absoluteId useRelativeIds relId dest) (absoluteId useRelativeIds relId value) alignment) reader

def readCmp2 (reader : PNRecordReader) : Except Stop PNInstructionRecord := do
  let typeId ← pnModuleFindIntegerType module 1
  let (value0, reader) ← pnRecordReadUint32 reader "value 0"
  let (value1, reader) ← pnRecordReadUint32 reader "value 1"
  let (opcode, reader) ← pnRecordReadUint32 reader "opcode"
  defines (.cmp2 relId (absoluteId useRelativeIds relId value0) (absoluteId useRelativeIds relId value1) opcode) typeId
    reader

def readVselect (reader : PNRecordReader) : Except Stop PNInstructionRecord := do
  let (trueValue, reader) ← pnRecordReadUint32 reader "true_value"
  let (falseValue, reader) ← pnRecordReadUint32 reader "false_value"
  let (cond, reader) ← pnRecordReadUint32 reader "cond"
  defines (.vselect relId (absoluteId useRelativeIds relId cond) (absoluteId useRelativeIds relId trueValue)
    (absoluteId useRelativeIds relId falseValue)) PN_INVALID_TYPE_ID reader

/-- FORWARDTYPEREF keeps all 32 bits of the type id, but checks it as a `PNTypeId`. -/
def readForwardtyperef (reader : PNRecordReader) : Except Stop PNInstructionRecord := do
  let (value, reader) ← pnRecordReadUint32 reader "value"
  let (typeId, reader) ← pnRecordReadUint32 reader "type"
  pnTypeIdCheck module typeId
  noResult (.forwardtyperef value typeId) reader

/-- The return type of the function that a direct call names. -/
def directReturnType (calleeId : Nat) : Except Stop Nat := do
  pnModuleValueIdCheck module calleeId
  match (module.values.getD calleeId ⟨.localVar, 0⟩).code with
  | .function index =>
    match module.functions[index]? with
    | none => .error (.undefined "functions out of range")
    | some calledFunction =>
      match module.type host calledFunction.typeId with
      | .function _ returnType _ => .ok returnType
      | _ => .error (.assert "function_type->code == PN_TYPE_CODE_FUNCTION")
  | _ => .error (.assert "function_value->code == PN_VALUE_CODE_FUNCTION")

/-- The return type of a call; the record of an indirect call names it. -/
def readReturnType (calleeId : Nat) (isIndirect : Bool) (reader : PNRecordReader) :
    Except Stop (Nat × PNRecordReader) :=
  if isIndirect then do
    let (typeId, reader) ← pnRecordReadUint32 reader "return_type"
    pnTypeIdCheck module typeId
    .ok (toTypeId typeId, reader)
  else do
    let returnTypeId ← directReturnType host module calleeId
    .ok (returnTypeId, reader)

def readCall (isIndirect : Bool) (reader : PNRecordReader) : Except Stop PNInstructionRecord := do
  let (ccInfo, reader) ← pnRecordReadUint32 reader "cc_info"
  let (callee, reader) ← pnRecordReadUint32 reader "callee"
  let calleeId := absoluteId useRelativeIds relId callee
  let (returnTypeId, reader) ← readReturnType host module calleeId isIndirect reader
  let isVoid := decide (module.type host returnTypeId = .void)
  let (numArgs, reader) ← pnRecordNumValuesLeft fuel reader
  let (argIds, reader) ← readArgs useRelativeIds relId numArgs reader []
  -- `cc_info >> 1` is an arithmetic shift
  let callingConvention := ccInfo / 2 + if ccInfo < 2 ^ 31 then 0 else 2 ^ 31
  if isVoid then
    noResult (.call PN_INVALID_VALUE_ID callingConvention calleeId argIds returnTypeId isIndirect (ccInfo % 2 = 1)) reader
  else
    defines (.call relId callingConvention calleeId argIds returnTypeId isIndirect (ccInfo % 2 = 1)) returnTypeId reader

/-- The `switch` over the code of a record, DECLAREBLOCKS apart. -/
def readInstruction (code : Nat) (reader : PNRecordReader) : Except Stop PNInstructionRecord :=
  match code with
  | 2 => readBinop useRelativeIds relId reader
  | 3 => readCast module useRelativeIds relId reader
  | 10 => readRet useRelativeIds relId reader
  | 11 => readBr useRelativeIds relId reader
  | 12 => readSwitch module useRelativeIds relId reader
  | 15 => noResult .unreachable reader
  | 16 => readPhi dedupe fuel module useRelativeIds relId reader
  | 19 => readAlloca module useRelativeIds relId reader
  | 20 => readLoad useRelativeIds relId reader
  | 24 => readStore useRelativeIds relId reader
  | 28 => readCmp2 module useRelativeIds relId reader
  | 29 => readVselect useRelativeIds relId reader
  | 34 => readCall host fuel module useRelativeIds relId false reader
  | 43 => readForwardtyperef module reader
  | 44 => readCall host fuel module useRelativeIds relId true reader
  | code => pnFatal "bad record code: %d.\n" [code]

/-- The instructions that set `is_terminator`. -/
def PNInstruction.isTerminator : PNInstruction → Bool
  | .ret _ | .br _ _ _ | .switch _ _ _ _ _ | .unreachable => true
  | _ => false

end Read

/-! ## What a record can give -/

/-- The type that a call returns: checked for an indirect call, taken from the function's type for a direct one. -/
def IsReturnType (host : PNHost) (module : PNModule) (typeId : Nat) : Prop :=
  typeId < module.types.length ∨
    ∃ f ∈ module.functions, ∃ isVarargs argTypes, module.type host f.typeId = .function isVarargs typeId argTypes

/-- The instructions that the records of a function block give, with the values that they define. -/
inductive RecordForm (host : PNHost) (dedupe : Bool) (module : PNModule) (relId : Nat) :
    PNInstruction → Option PNValue → Prop
  | binop (value0Id value1Id opcode flags : Nat) :
    RecordForm host dedupe module relId (.binop relId value0Id value1Id opcode flags)
      (some ⟨.localVar, PN_INVALID_TYPE_ID⟩)
  | cast (valueId opcode : Nat) {typeId : Nat} (h : typeId < module.types.length) :
    RecordForm host dedupe module relId (.cast relId valueId opcode typeId) (some ⟨.localVar, typeId⟩)
  | ret (valueId : Nat) : RecordForm host dedupe module relId (.ret valueId) none
  | br (trueBb : Nat) (falseBb : Option Nat) (valueId : Nat) :
    RecordForm host dedupe module relId (.br trueBb falseBb valueId) none
  | switch (valueId defaultBb : Nat) (cases : List PNSwitchCase) (caseBbs : List Nat) {typeId : Nat}
      (h : typeId < module.types.length) :
    RecordForm host dedupe module relId (.switch typeId valueId defaultBb cases caseBbs) none
  | unreachable : RecordForm host dedupe module relId .unreachable none
  | phi {typeId : Nat} {incoming : List PNPhiIncoming} (h : typeId < module.types.length)
      (hd : dedupe = true → (incoming.map PNPhiIncoming.bbId).Nodup) :
    RecordForm host dedupe module relId (.phi relId typeId incoming) (some ⟨.localVar, typeId⟩)
  | alloca (sizeId alignment : Nat) {typeId : Nat} (h : typeId < module.types.length) :
    RecordForm host dedupe module relId (.alloca relId sizeId alignment) (some ⟨.localVar, typeId⟩)
  | load (srcId alignment typeId : Nat) :
    RecordForm host dedupe module relId (.load relId srcId alignment (toTypeId typeId))
      (some ⟨.localVar, toTypeId typeId⟩)
  | store (destId valueId alignment : Nat) : RecordForm host dedupe module relId (.store destId valueId alignment) none
  | cmp2 (value0Id value1Id opcode : Nat) {typeId : Nat} (h : typeId < module.types.length) :
    RecordForm host dedupe module relId (.cmp2 relId value0Id value1Id opcode) (some ⟨.localVar, typeId⟩)
  | vselect (condId trueValueId falseValueId : Nat) :
    RecordForm host dedupe module relId (.vselect relId condId trueValueId falseValueId)
      (some ⟨.localVar, PN_INVALID_TYPE_ID⟩)
  | forwardtyperef (valueId : Nat) {typeId : Nat} (h : toTypeId typeId < module.types.length) :
    RecordForm host dedupe module relId (.forwardtyperef valueId typeId) none
  | callVoid (callingConvention calleeId : Nat) (argIds : List Nat) (isIndirect isTailCall : Bool) {typeId : Nat}
      (h : IsReturnType host module typeId) :
    RecordForm host dedupe module relId
      (.call PN_INVALID_VALUE_ID callingConvention calleeId argIds typeId isIndirect isTailCall) none
  | call (callingConvention calleeId : Nat) (argIds : List Nat) (isIndirect isTailCall : Bool) {typeId : Nat}
      (h : IsReturnType host module typeId) :
    RecordForm host dedupe module relId (.call relId callingConvention calleeId argIds typeId isIndirect isTailCall)
      (some ⟨.localVar, typeId⟩)

section Forms

variable {host : PNHost} {dedupe : Bool} {fuel : Nat} {module : PNModule} {useRelativeIds : Bool} {relId : Nat}
  {reader : PNRecordReader} {r : PNInstructionRecord}

/-- A type id that `pn_module_find_integer_type` returns is in the table. -/
theorem pnModuleFindIntegerType_lt {width typeId : Nat} (h : pnModuleFindIntegerType module width = .ok typeId) :
    typeId < module.types.length := by
  unfold pnModuleFindIntegerType at h
  split at h
  · next n hn =>
    cases h
    obtain ⟨hlt, _⟩ := List.findIdx?_eq_some_iff_getElem.mp hn
    exact Nat.lt_of_le_of_lt (Nat.mod_le n _) hlt
  · cases h

/-- With `dedupe` no block is named twice. -/
theorem readIncoming_nodup {resultValueId : Nat} {incoming' : List PNPhiIncoming} {reader' : PNRecordReader} :
    ∀ {fuel : Nat} {reader : PNRecordReader} {incoming : List PNPhiIncoming},
      (incoming.map PNPhiIncoming.bbId).Nodup →
      readIncoming true useRelativeIds resultValueId fuel reader incoming = .ok (incoming', reader') →
      (incoming'.map PNPhiIncoming.bbId).Nodup
  | 0, _, _, _, h => by cases h
  | fuel + 1, reader, incoming, hn, h => by
    rw [readIncoming] at h
    obtain ⟨⟨value, r₁⟩, _, h⟩ := bind_eq_ok.mp h
    dsimp only at h
    split at h
    · cases h
      exact hn
    · obtain ⟨⟨bb, r₂⟩, _, h⟩ := bind_eq_ok.mp h
      dsimp only at h
      generalize absoluteId _ _ _ = value at h
      split at h
      · cases h
      · next bb =>
        split at h
        · split at h
          · exact readIncoming_nodup hn h
          · cases h
        · next hnone =>
          -- no entry for this block so far
          refine readIncoming_nodup ?_ h
          rw [if_pos rfl, List.find?_eq_none] at hnone
          rw [List.map_append, List.map_singleton, List.nodup_append]
          refine ⟨hn, List.pairwise_singleton _ _, ?_⟩
          intro a ha b hb
          obtain ⟨i, hi, rfl⟩ := List.mem_map.mp ha
          cases List.mem_singleton.mp hb
          simpa using hnone i hi

theorem readPhi_form (h : readPhi dedupe fuel module useRelativeIds relId reader = .ok r) :
    RecordForm host dedupe module relId r.instruction r.value := by
  obtain ⟨⟨typeId, r₁⟩, _, h⟩ := bind_eq_ok.mp h
  obtain ⟨hlt, h⟩ := pnCheck_bind_eq_ok.mp h
  obtain ⟨⟨incoming, r₂⟩, hi, h⟩ := bind_eq_ok.mp h
  cases h
  refine .phi hlt ?_
  rintro rfl
  exact readIncoming_nodup (by simp) hi

theorem directReturnType_isReturnType {calleeId typeId : Nat} (h : directReturnType host module calleeId = .ok typeId) :
    IsReturnType host module typeId := by
  obtain ⟨_, h⟩ := pnCheck_bind_eq_ok.mp h
  split at h
  · split at h
    · cases h
    · next f hf =>
      split at h
      · next isVarargs returnType argTypes ht =>
        cases h
        exact .inr ⟨f, List.mem_of_getElem? hf, isVarargs, argTypes, ht⟩
      · cases h
  · cases h

theorem readCall_form {isIndirect : Bool}
    (h : readCall host fuel module useRelativeIds relId isIndirect reader = .ok r) :
    RecordForm host dedupe module relId r.instruction r.value := by
  obtain ⟨⟨ccInfo, r₁⟩, _, h⟩ := bind_eq_ok.mp h
  obtain ⟨⟨callee, r₂⟩, _, h⟩ := bind_eq_ok.mp h
  obtain ⟨⟨typeId, r₃⟩, ht, h⟩ := bind_eq_ok.mp h
  obtain ⟨⟨numArgs, r₄⟩, _, h⟩ := bind_eq_ok.mp h
  obtain ⟨⟨argIds, r₅⟩, _, h⟩ := bind_eq_ok.mp h
  have hret : IsReturnType host module typeId := by
    unfold readReturnType at ht
    split at ht
    · obtain ⟨⟨t, r₆⟩, _, ht⟩ := bind_eq_ok.mp ht
      obtain ⟨hlt, ht⟩ := pnCheck_bind_eq_ok.mp ht
      cases ht
      exact .inl hlt
    · obtain ⟨t, hd, ht⟩ := bind_eq_ok.mp ht
      cases ht
      exact directReturnType_isReturnType hd
  dsimp only at h
  split at h
  · cases h
    exact .callVoid _ _ _ _ _ hret
  · cases h
    exact .call _ _ _ _ _ hret

theorem readBr_form (h : readBr useRelativeIds relId reader = .ok r) :
    RecordForm host dedupe module relId r.instruction r.value := by
  obtain ⟨⟨trueBb, r₁⟩, _, h⟩ := bind_eq_ok.mp h
  obtain ⟨⟨falseBb, r₂⟩, _, h⟩ := bind_eq_ok.mp h
  dsimp only at h
  split at h
  · obtain ⟨⟨value, r₃⟩, _, h⟩ := bind_eq_ok.mp h
    cases h
    exact .br _ _ _
  · cases h
    exact .br _ _ _

/-- **Every record that is read has one of the forms.** -/
theorem readInstruction_form {code : Nat}
    (h : readInstruction host dedupe fuel module useRelativeIds relId code reader = .ok r) :
    RecordForm host dedupe module relId r.instruction r.value := by
  unfold readInstruction at h
  split at h
  · obtain ⟨⟨v0, r₁⟩, _, h⟩ := bind_eq_ok.mp h
    obtain ⟨⟨v1, r₂⟩, _, h⟩ := bind_eq_ok.mp h
    obtain ⟨⟨opcode, r₃⟩, _, h⟩ := bind_eq_ok.mp h
    obtain ⟨⟨flags, r₄⟩, _, h⟩ := bind_eq_ok.mp h
    cases h
    exact .binop _ _ _ _
  · obtain ⟨⟨value, r₁⟩, _, h⟩ := bind_eq_ok.mp h
    obtain ⟨⟨typeId, r₂⟩, _, h⟩ := bind_eq_ok.mp h
    obtain ⟨⟨opcode, r₃⟩, _, h⟩ := bind_eq_ok.mp h
    obtain ⟨hlt, h⟩ := pnCheck_bind_eq_ok.mp h
    cases h
    exact .cast _ _ hlt
  · obtain ⟨⟨value, r₁⟩, _, h⟩ := bind_eq_ok.mp h
    cases h
    exact .ret _
  · exact readBr_form h
  · obtain ⟨⟨typeId, r₁⟩, _, h⟩ := bind_eq_ok.mp h
    obtain ⟨⟨value, r₂⟩, _, h⟩ := bind_eq_ok.mp h
    obtain ⟨⟨defaultBb, r₃⟩, _, h⟩ := bind_eq_ok.mp h
    obtain ⟨hlt, h⟩ := pnCheck_bind_eq_ok.mp h
    obtain ⟨⟨numCases, r₄⟩, _, h⟩ := bind_eq_ok.mp h
    obtain ⟨⟨cases, bbs, r₅⟩, _, h⟩ := bind_eq_ok.mp h
    cases h
    exact .switch _ _ _ _ hlt
  · cases h
    exact .unreachable
  · exact readPhi_form h
  · obtain ⟨typeId, ht, h⟩ := bind_eq_ok.mp h
    obtain ⟨⟨size, r₁⟩, _, h⟩ := bind_eq_ok.mp h
    obtain ⟨⟨alignment, r₂⟩, _, h⟩ := bind_eq_ok.mp h
    obtain ⟨_, _, h⟩ := bind_eq_ok.mp h
    cases h
    exact .alloca _ _ (pnModuleFindIntegerType_lt ht)
  · obtain ⟨⟨src, r₁⟩, _, h⟩ := bind_eq_ok.mp h
    obtain ⟨⟨alignment, r₂⟩, _, h⟩ := bind_eq_ok.mp h
    obtain ⟨⟨typeId, r₃⟩, _, h⟩ := bind_eq_ok.mp h
    obtain ⟨_, _, h⟩ := bind_eq_ok.mp h
    cases h
    exact .load _ _ _
  · obtain ⟨⟨dest, r₁⟩, _, h⟩ := bind_eq_ok.mp h
    obtain ⟨⟨value, r₂⟩, _, h⟩ := bind_eq_ok.mp h
    obtain ⟨⟨alignment, r₃⟩, _, h⟩ := bind_eq_ok.mp h
    obtain ⟨_, _, h⟩ := bind_eq_ok.mp h
    cases h
    exact .store _ _ _
  · obtain ⟨typeId, ht, h⟩ := bind_eq_ok.mp h
    obtain ⟨⟨v0, r₁⟩, _, h⟩ := bind_eq_ok.mp h
    obtain ⟨⟨v1, r₂⟩, _, h⟩ := bind_eq_ok.mp h
    obtain ⟨⟨opcode, r₃⟩, _, h⟩ := bind_eq_ok.mp h
    cases h
    exact .cmp2 _ _ _ (pnModuleFindIntegerType_lt ht)
  · obtain ⟨⟨trueValue, r₁⟩, _, h⟩ := bind_eq_ok.mp h
    obtain ⟨⟨falseValue, r₂⟩, _, h⟩ := bind_eq_ok.mp h
    obtain ⟨⟨cond, r₃⟩, _, h⟩ := bind_eq_ok.mp h
    cases h
    exact .vselect _ _ _
  · exact readCall_form h
  · obtain ⟨⟨value, r₁⟩, _, h⟩ := bind_eq_ok.mp h
    obtain ⟨⟨typeId, r₂⟩, _, h⟩ := bind_eq_ok.mp h
    obtain ⟨hlt, h⟩ := pnCheck_bind_eq_ok.mp h
    cases h
    exact .forwardtyperef _ hlt
  · exact readCall_form h
  · cases h

end Forms

end Pnacl
