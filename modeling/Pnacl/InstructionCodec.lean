import Pnacl.BlockCodec
import Pnacl.Reader
import Pnacl.SignRotated

/-!
# Instruction records that are written

The record of an instruction, with ids that are relative or not, and what an instruction must be like for it (`Writable`): the
reader gives back the instruction, with the value that it defines (`readInstruction_enc`).
-/

namespace Pnacl

open Lib PNBitStream

/-! ## Fields -/

section Fields

variable {r : PNRecordReader} {id relId v stop : Nat} {vs : List Nat} {rest : List Bool} {relative : Bool}

theorem PNRecordReader.Before.readUint64 (h : r.Before (v :: vs) stop rest) (hv : v < 2 ^ 64) (name : String) :
    ∃ r', pnRecordReadUint64 r name = .ok (v, r') ∧ r'.Before vs stop rest := by
  obtain ⟨bs, hr, hm⟩ := readVbrUint64_enc (by decide) (by decide) hv h.inv h.at
  refine ⟨_, ?_, h.next hm⟩
  rw [pnRecordReadUint64, pnRecordTryReadUint64, if_pos h.entry, if_neg h.more, hr]
  rfl

theorem PNRecordReader.Before.readDecodedInt64 {x : Int} (h : r.Before (encSignRotated 64 x :: vs) stop rest) (hlo : -2 ^ 63 ≤ x)
    (hhi : x < 2 ^ 63) (name : String) : ∃ r', pnRecordReadDecodedInt64 r name = .ok (x, r') ∧ r'.Before vs stop rest := by
  obtain ⟨r', hr, hb⟩ := h.readUint64 (encSignRotated_lt 64 x) name
  have hdec : pnDecodeSignRotatedValueInt64 (encSignRotated 64 x) = x := dec_encSignRotated (by omega) hlo hhi
  refine ⟨r', ?_, hb⟩
  rw [pnRecordReadDecodedInt64, hr, ok_bind]
  dsimp only
  rw [hdec]

theorem PNRecordReader.Before.readDecodedInt32 {x : Int} (h : r.Before (encSignRotated 64 x :: vs) stop rest) (hlo : -2 ^ 31 ≤ x)
    (hhi : x < 2 ^ 31) (name : String) : ∃ r', pnRecordReadDecodedInt32 r name = .ok (x, r') ∧ r'.Before vs stop rest := by
  obtain ⟨r', hr, hb⟩ := h.readDecodedInt64 (by omega) (by omega) name
  refine ⟨r', ?_, hb⟩
  rw [pnRecordReadDecodedInt32, hr, ok_bind]
  dsimp only
  rw [if_neg (by omega)]

theorem PNRecordReader.Before.tryReadUint16 (h : r.Before (v :: vs) stop rest) (hv : v < 2 ^ 16) :
    ∃ r', pnRecordTryReadUint16 r = .ok (some v, r') ∧ r'.Before vs stop rest := by
  obtain ⟨r', hr, hb⟩ := h.tryRead (Nat.lt_trans hv (by decide))
  refine ⟨r', ?_, hb⟩
  rw [pnRecordTryReadUint16, hr, ok_bind]
  dsimp only
  rw [if_neg (by omega)]

/-- A value id, as it is written. -/
def encId (relative : Bool) (relId id : Nat) : Nat := if relative then subU32 relId id else id

theorem encId_lt (h : id < 2 ^ 32) : encId relative relId id < 2 ^ 32 := by
  unfold encId subU32
  split
  · exact Nat.mod_lt _ (by decide)
  · exact h

theorem absoluteId_encId (h : id < 2 ^ 32) : absoluteId relative relId (encId relative relId id) = id := by
  unfold absoluteId encId subU32
  split <;> omega

/-- The id of a value that a phi takes, as it is written. -/
def encPhiId (relative : Bool) (relId id : Nat) : Nat :=
  if relative then encSignRotated 32 (Int.bmod (subU32 relId id) (2 ^ 32)) else id

theorem encPhiId_lt (h : id < 2 ^ 32) : encPhiId relative relId id < 2 ^ 32 := by
  unfold encPhiId
  split
  · exact encSignRotated_lt ..
  · exact h

theorem pnDecodeSignRotatedValue_lt (hv : v < 2 ^ 32) : pnDecodeSignRotatedValue v < 2 ^ 32 := by
  unfold pnDecodeSignRotatedValue
  split_ifs <;> omega

theorem bmod_range (v : Nat) : -2 ^ (32 - 1) ≤ Int.bmod v (2 ^ 32) ∧ Int.bmod v (2 ^ 32) < 2 ^ (32 - 1) := by
  rw [Int.bmod_def]
  split_ifs <;> omega

theorem pnDecodeSignRotatedValue_enc (hv : v < 2 ^ 32) :
    pnDecodeSignRotatedValue (encSignRotated 32 (Int.bmod v (2 ^ 32))) = v := by
  have henc := encSignRotated_lt 32 (Int.bmod v (2 ^ 32))
  have hlt := pnDecodeSignRotatedValue_lt henc
  obtain ⟨hlo, hhi⟩ := bmod_range v
  have hdec := (decodedInt32_eq henc).trans (dec_encSignRotated (by omega) hlo hhi)
  unfold decodedInt32 at hdec
  generalize pnDecodeSignRotatedValue (encSignRotated 32 (Int.bmod v (2 ^ 32))) = d at hlt hdec ⊢
  rw [Int.bmod_def, Int.bmod_def] at hdec
  split_ifs at hdec <;> omega

theorem absoluteId_encPhiId (h : id < 2 ^ 32) :
    absoluteId relative relId
      (if relative then pnDecodeSignRotatedValue (encPhiId relative relId id) else encPhiId relative relId id) = id := by
  cases relative with
  | false => simp only [encPhiId, absoluteId, Bool.false_eq_true, if_false]
  | true =>
    have hsub : subU32 relId id < 2 ^ 32 := by
      unfold subU32
      exact Nat.mod_lt _ (by decide)
    have henc : subU32 relId id = encId true relId id := by rw [encId, if_pos rfl]
    simp only [encPhiId, if_true]
    rw [pnDecodeSignRotatedValue_enc hsub, henc, absoluteId_encId h]

/-- An alignment, as it is written. -/
def encAlignment (alignment : Nat) : Nat := Nat.log2 alignment + 1

/-- What a field for an alignment can give. -/
def AlignmentOk (alignment : Nat) : Prop := pnIsPowerOfTwo alignment ∧ alignment < 2 ^ 16

theorem AlignmentOk.check {alignment : Nat} (h : AlignmentOk alignment) : checkAlignment alignment = .ok () := require_pos h.1 _

theorem PNRecordReader.Before.readAlignment {alignment : Nat} (h : r.Before (encAlignment alignment :: vs) stop rest)
    (ha : AlignmentOk alignment) : ∃ r', Pnacl.readAlignment r = .ok (alignment, r') ∧ r'.Before vs stop rest := by
  obtain ⟨k, rfl⟩ := pnIsPowerOfTwo_iff.mp ha.1
  have hk : k < 16 := (Nat.pow_lt_pow_iff_right (by decide)).mp ha.2
  rw [encAlignment, Nat.log2_two_pow] at h
  obtain ⟨r', hr, hb⟩ := h.readUint32 (by omega) "alignment"
  have halign : alignmentOf (k + 1) = .ok (2 ^ k) := by
    rw [alignmentOf, if_neg (by omega), if_neg (by omega), Nat.pow_succ, Nat.mul_div_cancel _ (by decide), Nat.mod_eq_of_lt ha.2]
  refine ⟨r', ?_, hb⟩
  rw [Pnacl.readAlignment, hr, ok_bind]
  dsimp only
  rw [halign]
  rfl

end Fields

/-! ## Records -/

/-- The fields of a phi. -/
def encIncoming (relative : Bool) (relId : Nat) (incoming : List PNPhiIncoming) : List Nat :=
  incoming.flatMap fun i => [encPhiId relative relId i.valueId, i.bbId]

/-- The fields of the cases, each of a single value. -/
def encCases (cases : List PNSwitchCase) : List Nat := cases.flatMap fun c => [1, 1, encSignRotated 64 c.value, c.bb]

/-- The record of an instruction, when `relId` is the id of the next value. -/
def encInstruction (relative : Bool) (relId : Nat) : PNInstruction → CodedRecord
  | .binop _ value0Id value1Id opcode flags => (2, [encId relative relId value0Id, encId relative relId value1Id, opcode, flags])
  | .cast _ valueId opcode typeId => (3, [encId relative relId valueId, typeId, opcode])
  | .ret valueId => (10, if valueId = PN_INVALID_VALUE_ID then [] else [encId relative relId valueId])
  | .br trueBb (some falseBb) valueId => (11, [trueBb, falseBb, encId relative relId valueId])
  | .br trueBb none _ => (11, [trueBb])
  | .switch typeId valueId defaultBb cases _ =>
    (12, [typeId, encId relative relId valueId, defaultBb, cases.length] ++ encCases cases)
  | .unreachable => (15, [])
  | .phi _ typeId incoming => (16, typeId :: encIncoming relative relId incoming)
  | .alloca _ sizeId alignment => (19, [encId relative relId sizeId, encAlignment alignment])
  | .load _ srcId alignment typeId => (20, [encId relative relId srcId, encAlignment alignment, typeId])
  | .store destId valueId alignment => (24, [encId relative relId destId, encId relative relId valueId, encAlignment alignment])
  | .cmp2 _ value0Id value1Id opcode => (28, [encId relative relId value0Id, encId relative relId value1Id, opcode])
  | .vselect _ condId trueValueId falseValueId =>
    (29, [encId relative relId trueValueId, encId relative relId falseValueId, encId relative relId condId])
  | .forwardtyperef valueId typeId => (43, [valueId, typeId])
  | .call _ callingConvention calleeId argIds returnTypeId isIndirect isTailCall =>
    (if isIndirect then 44 else 34,
      [callingConvention % 2 ^ 31 * 2 + isTailCall.toNat, encId relative relId calleeId] ++
        (if isIndirect then [returnTypeId] else []) ++ argIds.map (encId relative relId))

/-- A type id of the table. -/
def PNModule.HasTypeId (module : PNModule) (typeId : Nat) : Prop := typeId < 2 ^ 16 ∧ typeId < module.types.length

/-- The instructions that have a record, with the values that they define. -/
inductive Writable (host : PNHost) (dedupe : Bool) (module : PNModule) (relId : Nat) : PNInstruction → Option PNValue → Prop where
  | binop {value0Id value1Id opcode flags : Nat} (h0 : value0Id < 2 ^ 32) (h1 : value1Id < 2 ^ 32) (ho : opcode < 2 ^ 32)
    (hf : flags < 2 ^ 32) : Writable host dedupe module relId (.binop relId value0Id value1Id opcode flags)
      (some ⟨.localVar, PN_INVALID_TYPE_ID⟩)
  | cast {valueId opcode typeId : Nat} (h : valueId < 2 ^ 32) (ho : opcode < 2 ^ 32) (ht : module.HasTypeId typeId) :
    Writable host dedupe module relId (.cast relId valueId opcode typeId) (some ⟨.localVar, typeId⟩)
  | ret {valueId : Nat} (h : valueId < 2 ^ 32) : Writable host dedupe module relId (.ret valueId) none
  | brIf {trueBb falseBb valueId : Nat} (ht : trueBb < 2 ^ 32) (hf : falseBb < 2 ^ 16) (h : valueId < 2 ^ 32) :
    Writable host dedupe module relId (.br trueBb (some falseBb) valueId) none
  | br {trueBb : Nat} (ht : trueBb < 2 ^ 32) : Writable host dedupe module relId (.br trueBb none PN_INVALID_VALUE_ID) none
  | switch {typeId valueId defaultBb : Nat} {cases : List PNSwitchCase} (ht : module.HasTypeId typeId) (h : valueId < 2 ^ 32)
    (hd : defaultBb < 2 ^ 32) (hcases : ∀ c ∈ cases, (-2 ^ 63 ≤ c.value ∧ c.value < 2 ^ 63) ∧ c.bb < 2 ^ 32) :
    Writable host dedupe module relId (.switch typeId valueId defaultBb cases (cases.map PNSwitchCase.bb)) none
  | unreachable : Writable host dedupe module relId .unreachable none
  | phi {typeId : Nat} {incoming : List PNPhiIncoming} (ht : module.HasTypeId typeId)
    (hi : ∀ i ∈ incoming, i.valueId < 2 ^ 32 ∧ i.bbId < 2 ^ 16)
    (hd : dedupe = true → (incoming.map PNPhiIncoming.bbId).Nodup) :
    Writable host dedupe module relId (.phi relId typeId incoming) (some ⟨.localVar, typeId⟩)
  | alloca {sizeId alignment typeId : Nat} (ht : pnModuleFindPointerType module = .ok typeId) (h : sizeId < 2 ^ 32)
    (ha : AlignmentOk alignment) : Writable host dedupe module relId (.alloca relId sizeId alignment) (some ⟨.localVar, typeId⟩)
  | load {srcId alignment typeId : Nat} (h : srcId < 2 ^ 32) (ha : AlignmentOk alignment) (ht : typeId < 2 ^ 16) :
    Writable host dedupe module relId (.load relId srcId alignment typeId) (some ⟨.localVar, typeId⟩)
  | store {destId valueId alignment : Nat} (hd : destId < 2 ^ 32) (hv : valueId < 2 ^ 32) (ha : AlignmentOk alignment) :
    Writable host dedupe module relId (.store destId valueId alignment) none
  | cmp2 {value0Id value1Id opcode typeId : Nat} (ht : pnModuleFindIntegerType module 1 = .ok typeId) (h0 : value0Id < 2 ^ 32)
    (h1 : value1Id < 2 ^ 32) (ho : opcode < 2 ^ 32) :
    Writable host dedupe module relId (.cmp2 relId value0Id value1Id opcode) (some ⟨.localVar, typeId⟩)
  | vselect {condId trueValueId falseValueId : Nat} (hc : condId < 2 ^ 32) (ht : trueValueId < 2 ^ 32)
    (hf : falseValueId < 2 ^ 32) : Writable host dedupe module relId (.vselect relId condId trueValueId falseValueId)
      (some ⟨.localVar, PN_INVALID_TYPE_ID⟩)
  | forwardtyperef {valueId typeId : Nat} (h : valueId < 2 ^ 32) (ht : module.HasTypeId typeId) :
    Writable host dedupe module relId (.forwardtyperef valueId typeId) none
  | call {resultValueId callingConvention calleeId returnTypeId : Nat} {argIds : List Nat} {isIndirect isTailCall : Bool}
    {value : Option PNValue} (hcc : callingConvention < 2 ^ 30 ∨ 2 ^ 31 + 2 ^ 30 ≤ callingConvention ∧ callingConvention < 2 ^ 32)
    (hcallee : calleeId < 2 ^ 32) (hargs : ∀ a ∈ argIds, a < 2 ^ 32)
    (hret : if isIndirect then module.HasTypeId returnTypeId else directReturnType host module calleeId = .ok returnTypeId)
    (hvalue : if module.type host returnTypeId = .void then resultValueId = PN_INVALID_VALUE_ID ∧ value = none
      else resultValueId = relId ∧ value = some ⟨.localVar, returnTypeId⟩) :
    Writable host dedupe module relId
      (.call resultValueId callingConvention calleeId argIds returnTypeId isIndirect isTailCall) value

theorem length_le_encCases : ∀ cases : List PNSwitchCase, cases.length ≤ (encCases cases).length
  | [] => Nat.le_refl _
  | c :: cases => by
    have ih := length_le_encCases cases
    rw [encCases] at ih ⊢
    rw [List.flatMap_cons, List.length_append, List.length_cons]
    change cases.length + 1 ≤ 4 + _
    omega

theorem length_le_encIncoming (relative : Bool) (relId : Nat) : ∀ incoming : List PNPhiIncoming,
    incoming.length ≤ (encIncoming relative relId incoming).length
  | [] => Nat.le_refl _
  | i :: incoming => by
    have ih := length_le_encIncoming relative relId incoming
    rw [encIncoming] at ih ⊢
    rw [List.flatMap_cons, List.length_append, List.length_cons]
    change incoming.length + 1 ≤ 2 + _
    omega

section Repeated

variable {stop relId fuel : Nat} {rest : List Bool} {relative dedupe : Bool}

/-- The cases of a switch are read back. -/
theorem readCases_enc : ∀ {cases : List PNSwitchCase} {r : PNRecordReader} (acc : List PNSwitchCase) (bbs : List Nat),
    r.Before (encCases cases) stop rest → (∀ c ∈ cases, (-2 ^ 63 ≤ c.value ∧ c.value < 2 ^ 63) ∧ c.bb < 2 ^ 32) →
    ∃ r', readCases cases.length r acc bbs = .ok (acc ++ cases, bbs ++ cases.map PNSwitchCase.bb, r') ∧ r'.Before [] stop rest
  | [], r, acc, bbs, h, _ => ⟨r, by simp only [List.append_nil, List.map_nil]; rfl, h⟩
  | c :: cases, r, acc, bbs, h, hc => by
    obtain ⟨⟨hlo, hhi⟩, hbb⟩ := hc c (List.mem_cons_self ..)
    obtain ⟨r₁, h₁, b₁⟩ := PNRecordReader.Before.readUint32 h (by decide) "num values"
    obtain ⟨r₂, h₂, b₂⟩ := b₁.readUint32 (by decide) "is_single"
    obtain ⟨r₃, h₃, b₃⟩ := PNRecordReader.Before.readDecodedInt64 b₂ hlo hhi "low"
    obtain ⟨r₄, h₄, b₄⟩ := b₃.readUint32 hbb "bb"
    obtain ⟨r', h', b'⟩ := readCases_enc (acc ++ [c]) (bbs ++ [c.bb]) b₄ fun d hd => hc d (List.mem_cons_of_mem _ hd)
    have hvalues : readCaseValues (rounds 1) r₁ [] = .ok ([c.value], r₃) := by
      change readCaseValues (0 + 1) r₁ [] = _
      rw [readCaseValues, h₂, ok_bind]
      dsimp only
      rw [h₃, ok_bind]
      simp [readCaseValues, pnCheck_bind]
    refine ⟨r', ?_, b'⟩
    rw [List.length_cons, readCases, h₁, ok_bind]
    dsimp only
    rw [hvalues, ok_bind]
    dsimp only
    rw [h₄, ok_bind]
    simp only [List.map_cons, List.map_nil, h', List.append_assoc, List.singleton_append]

/-- The entries of a phi are read back. -/
theorem readIncoming_enc : ∀ {incoming : List PNPhiIncoming} {fuel : Nat} {r : PNRecordReader} (acc : List PNPhiIncoming),
    r.Before (encIncoming relative relId incoming) stop rest → incoming.length < fuel →
    (∀ i ∈ incoming, i.valueId < 2 ^ 32 ∧ i.bbId < 2 ^ 16) → (dedupe = true → ((acc ++ incoming).map PNPhiIncoming.bbId).Nodup) →
    ∃ r', readIncoming dedupe relative relId fuel r acc = .ok (acc ++ incoming, r') ∧ r'.Before [] stop rest
  | _, 0, _, _, _, hf, _, _ => absurd hf (Nat.not_lt_zero _)
  | [], fuel + 1, r, acc, h, _, _, _ => by
    refine ⟨r, ?_, h⟩
    rw [readIncoming, PNRecordReader.Before.tryRead_end h, ok_bind, List.append_nil]
  | i :: incoming, fuel + 1, r, acc, h, hf, hi, hd => by
    obtain ⟨hvalue, hbb⟩ := hi i (List.mem_cons_self ..)
    obtain ⟨r₁, h₁, b₁⟩ := PNRecordReader.Before.tryRead h (encPhiId_lt hvalue)
    obtain ⟨r₂, h₂, b₂⟩ := b₁.tryReadUint16 hbb
    have heq : acc ++ [i] ++ incoming = acc ++ i :: incoming := by rw [List.append_assoc, List.singleton_append]
    obtain ⟨r', h', b'⟩ := readIncoming_enc (acc ++ [i]) b₂ (Nat.lt_of_succ_lt_succ hf)
      (fun j hj => hi j (List.mem_cons_of_mem _ hj)) (heq.symm ▸ hd)
    have hfind : (if dedupe = true then acc.find? (fun j => j.bbId = i.bbId) else none) = none := by
      split
      · next hdedupe =>
        have hn := hd hdedupe
        rw [List.map_append, List.nodup_append] at hn
        rw [List.find?_eq_none]
        intro j hj
        have hne := hn.2.2 j.bbId (List.mem_map_of_mem hj) i.bbId (List.mem_map_of_mem (List.mem_cons_self ..))
        simpa using hne
      · rfl
    refine ⟨r', ?_, b'⟩
    rw [readIncoming, h₁, ok_bind]
    dsimp only
    rw [absoluteId_encPhiId hvalue, h₂, ok_bind]
    dsimp only
    rw [hfind]
    dsimp only
    rw [h', heq]

/-- The arguments of a call are read back. -/
theorem readArgs_enc : ∀ {args : List Nat} {r : PNRecordReader} (acc : List Nat),
    r.Before (args.map (encId relative relId)) stop rest → (∀ a ∈ args, a < 2 ^ 32) →
    ∃ r', readArgs relative relId args.length r acc = .ok (acc ++ args, r') ∧ r'.Before [] stop rest
  | [], r, acc, h, _ => ⟨r, by rw [List.append_nil]; rfl, h⟩
  | a :: args, r, acc, h, ha => by
    have hlt := ha a (List.mem_cons_self ..)
    obtain ⟨r₁, h₁, b₁⟩ := PNRecordReader.Before.readUint32 h (encId_lt hlt) "arg"
    obtain ⟨r', h', b'⟩ := readArgs_enc (acc ++ [a]) b₁ fun b hb => ha b (List.mem_cons_of_mem _ hb)
    refine ⟨r', ?_, b'⟩
    rw [List.length_cons, readArgs, h₁, ok_bind]
    dsimp only
    rw [absoluteId_encId hlt, h', List.append_assoc, List.singleton_append]

end Repeated

/-! ## Instructions -/

section Instruction

variable {host : PNHost} {module : PNModule} {relative dedupe isIndirect : Bool} {typeId calleeId relId fuel stop : Nat}
  {vs : List Nat} {rest : List Bool} {r : PNRecordReader} {inst : PNInstruction} {value : Option PNValue}

theorem PNModule.HasTypeId.check (h : module.HasTypeId typeId) : pnTypeIdCheck module typeId = .ok () := by
  rw [pnTypeIdCheck, toTypeId, Nat.mod_eq_of_lt h.1]
  exact require_pos h.2 _

theorem PNModule.HasTypeId.toTypeId_eq (h : module.HasTypeId typeId) : toTypeId typeId = typeId := Nat.mod_eq_of_lt h.1

theorem PNModule.HasTypeId.lt (h : module.HasTypeId typeId) : typeId < 2 ^ 32 := Nat.lt_trans h.1 (by decide)

/-- The return type of a call stands in the record of an indirect one only. -/
theorem readReturnType_enc (h : r.Before ((if isIndirect then [typeId] else []) ++ vs) stop rest)
    (hret : if isIndirect then module.HasTypeId typeId else directReturnType host module calleeId = .ok typeId) :
    ∃ r', readReturnType host module calleeId isIndirect r = .ok (typeId, r') ∧ r'.Before vs stop rest := by
  cases isIndirect with
  | false =>
    refine ⟨r, ?_, h⟩
    rw [if_neg (by decide)] at hret
    rw [readReturnType, if_neg (by decide), hret]
    rfl
  | true =>
    rw [if_pos rfl] at hret
    obtain ⟨r₁, e₁, b₁⟩ := PNRecordReader.Before.readUint32 h hret.lt "return_type"
    refine ⟨r₁, ?_, b₁⟩
    rw [readReturnType, if_pos rfl, e₁, ok_bind]
    dsimp only
    rw [hret.check, hret.toTypeId_eq]
    rfl

theorem readCall_enc {resultValueId callingConvention returnTypeId : Nat} {argIds : List Nat} {isTailCall : Bool}
    (hw : Writable host dedupe module relId
      (.call resultValueId callingConvention calleeId argIds returnTypeId isIndirect isTailCall) value)
    (hfuel : argIds.length < fuel)
    (h : r.Before ([callingConvention % 2 ^ 31 * 2 + isTailCall.toNat, encId relative relId calleeId] ++
      (if isIndirect then [returnTypeId] else []) ++ argIds.map (encId relative relId)) stop rest) :
    ∃ r', readCall host fuel module relative relId isIndirect r =
        .ok ⟨.call resultValueId callingConvention calleeId argIds returnTypeId isIndirect isTailCall, value, r'⟩ ∧
      r'.Before [] stop rest := by
  cases hw with
  | call hcc hcallee hargs hret hvalue =>
    have htail := isTailCall.toNat_lt
    obtain ⟨r₁, e₁, b₁⟩ := PNRecordReader.Before.readUint32 h (by omega) "cc_info"
    obtain ⟨r₂, e₂, b₂⟩ := PNRecordReader.Before.readUint32 b₁ (encId_lt hcallee) "callee"
    obtain ⟨r₃, e₃, b₃⟩ := readReturnType_enc b₂ hret
    have hlt : ∀ v ∈ argIds.map (encId relative relId), v < 2 ^ 32 := by
      intro v hv
      obtain ⟨a, ha, rfl⟩ := List.mem_map.mp hv
      exact encId_lt (hargs a ha)
    obtain ⟨r₄, e₄, b₄⟩ := b₃.numValuesLeft hlt (show (argIds.map (encId relative relId)).length < fuel by rwa [List.length_map])
    rw [List.length_map] at e₄
    obtain ⟨r₅, e₅, b₅⟩ := readArgs_enc [] b₄ hargs
    have htailBit : decide ((callingConvention % 2 ^ 31 * 2 + isTailCall.toNat) % 2 = 1) = isTailCall := by
      rw [show (callingConvention % 2 ^ 31 * 2 + isTailCall.toNat) % 2 = isTailCall.toNat by omega]
      cases isTailCall <;> rfl
    have hconvention : (callingConvention % 2 ^ 31 * 2 + isTailCall.toNat) / 2 +
        (if callingConvention % 2 ^ 31 * 2 + isTailCall.toNat < 2 ^ 31 then 0 else 2 ^ 31) = callingConvention := by
      split <;> omega
    refine ⟨r₅, ?_, b₅⟩
    rw [readCall, e₁, ok_bind]
    dsimp only
    rw [e₂, ok_bind]
    dsimp only
    rw [absoluteId_encId hcallee, e₃, ok_bind]
    dsimp only
    rw [e₄, ok_bind]
    dsimp only
    rw [e₅, ok_bind]
    dsimp only
    rw [htailBit, hconvention, List.nil_append]
    split at hvalue
    · next hvoid =>
      obtain ⟨rfl, rfl⟩ := hvalue
      rw [decide_eq_true hvoid, if_pos rfl]
      rfl
    · next hvoid =>
      obtain ⟨rfl, rfl⟩ := hvalue
      rw [decide_eq_false hvoid, if_neg (by decide)]
      rfl

/-- **An instruction is read back from its record.** -/
theorem readInstruction_enc (hw : Writable host dedupe module relId inst value)
    (hfuel : (encInstruction relative relId inst).2.length < fuel) (h : r.Before (encInstruction relative relId inst).2 stop rest) :
    ∃ r', readInstruction host dedupe fuel module relative relId (encInstruction relative relId inst).1 r = .ok ⟨inst, value, r'⟩ ∧
      r'.Before [] stop rest := by
  cases hw with
  | binop h0 h1 ho hf =>
    obtain ⟨r₁, e₁, b₁⟩ := PNRecordReader.Before.readUint32 h (encId_lt h0) "value 0"
    obtain ⟨r₂, e₂, b₂⟩ := b₁.readUint32 (encId_lt h1) "value 1"
    obtain ⟨r₃, e₃, b₃⟩ := b₂.readUint32 ho "opcode"
    obtain ⟨r₄, e₄, b₄⟩ := b₃.tryRead hf
    refine ⟨r₄, ?_, b₄⟩
    simp only [encInstruction, readInstruction, readBinop, e₁, e₂, e₃, e₄, ok_bind, absoluteId_encId h0, absoluteId_encId h1,
      Option.getD_some, defines]
  | cast hv ho ht =>
    obtain ⟨r₁, e₁, b₁⟩ := PNRecordReader.Before.readUint32 h (encId_lt hv) "value"
    obtain ⟨r₂, e₂, b₂⟩ := b₁.readUint32 ht.lt "type_id"
    obtain ⟨r₃, e₃, b₃⟩ := b₂.readUint32 ho "opcode"
    refine ⟨r₃, ?_, b₃⟩
    simp only [encInstruction, readInstruction, readCast, e₁, e₂, e₃, ok_bind, ht.check, ht.toTypeId_eq, absoluteId_encId hv,
      defines]
  | @ret valueId hv =>
    by_cases hinvalid : valueId = PN_INVALID_VALUE_ID
    · rw [encInstruction, if_pos hinvalid] at h
      refine ⟨r, ?_, h⟩
      simp only [encInstruction, readInstruction, readRet, PNRecordReader.Before.tryRead_end h, ok_bind, noResult, hinvalid]
    · rw [encInstruction, if_neg hinvalid] at h
      obtain ⟨r₁, e₁, b₁⟩ := PNRecordReader.Before.tryRead h (encId_lt hv)
      refine ⟨r₁, ?_, b₁⟩
      simp only [encInstruction, readInstruction, readRet, e₁, ok_bind, noResult, absoluteId_encId hv]
  | brIf ht hf hv =>
    obtain ⟨r₁, e₁, b₁⟩ := PNRecordReader.Before.readUint32 h ht "true_bb"
    obtain ⟨r₂, e₂, b₂⟩ := b₁.tryReadUint16 hf
    obtain ⟨r₃, e₃, b₃⟩ := b₂.readUint32 (encId_lt hv) "value"
    refine ⟨r₃, ?_, b₃⟩
    simp only [encInstruction, readInstruction, readBr, e₁, e₂, e₃, ok_bind, absoluteId_encId hv, noResult]
  | br ht =>
    obtain ⟨r₁, e₁, b₁⟩ := PNRecordReader.Before.readUint32 h ht "true_bb"
    refine ⟨r₁, ?_, b₁⟩
    simp only [encInstruction, readInstruction, readBr, e₁, ok_bind, pnRecordTryReadUint16, b₁.tryRead_end, noResult]
  | @switch typeId valueId defaultBb cases ht hv hd hcases =>
    obtain ⟨r₁, e₁, b₁⟩ := PNRecordReader.Before.readUint32 h ht.lt "type_id"
    obtain ⟨r₂, e₂, b₂⟩ := PNRecordReader.Before.readUint32 b₁ (encId_lt hv) "value"
    obtain ⟨r₃, e₃, b₃⟩ := PNRecordReader.Before.readUint32 b₂ hd "default bb"
    have hlen : cases.length < 2 ^ 31 := by
      have hvalues : (cases.length :: encCases cases).length < 2 ^ 31 := PNRecordReader.Before.length_lt b₃
      have hmin := length_le_encCases cases
      rw [List.length_cons] at hvalues
      omega
    obtain ⟨r₄, e₄, b₄⟩ := PNRecordReader.Before.readUint32 b₃ (by omega) "num cases"
    obtain ⟨r₅, e₅, b₅⟩ := readCases_enc [] [] b₄ hcases
    refine ⟨r₅, ?_, b₅⟩
    simp only [encInstruction, readInstruction, readSwitch, e₁, e₂, e₃, e₄, ok_bind, ht.check, ht.toTypeId_eq, rounds, if_pos hlen,
      e₅, List.nil_append, absoluteId_encId hv, noResult]
  | unreachable => exact ⟨r, rfl, h⟩
  | @phi typeId incoming ht hi hd =>
    obtain ⟨r₁, e₁, b₁⟩ := PNRecordReader.Before.readUint32 h ht.lt "type_id"
    have hlen : incoming.length < fuel := by
      have hmin := length_le_encIncoming relative relId incoming
      simp only [encInstruction, List.length_cons] at hfuel
      omega
    obtain ⟨r₂, e₂, b₂⟩ := readIncoming_enc [] b₁ hlen hi hd
    refine ⟨r₂, ?_, b₂⟩
    simp only [encInstruction, readInstruction, readPhi, e₁, ok_bind, ht.check, ht.toTypeId_eq, e₂, List.nil_append, defines]
  | alloca ht hs ha =>
    obtain ⟨r₁, e₁, b₁⟩ := PNRecordReader.Before.readUint32 h (encId_lt hs) "size"
    obtain ⟨r₂, e₂, b₂⟩ := PNRecordReader.Before.readAlignment b₁ ha
    refine ⟨r₂, ?_, b₂⟩
    simp only [encInstruction, readInstruction, readAlloca, ht, e₁, e₂, ok_bind, ha.check, absoluteId_encId hs, defines]
  | load hs ha ht =>
    obtain ⟨r₁, e₁, b₁⟩ := PNRecordReader.Before.readUint32 h (encId_lt hs) "src"
    obtain ⟨r₂, e₂, b₂⟩ := PNRecordReader.Before.readAlignment b₁ ha
    obtain ⟨r₃, e₃, b₃⟩ := b₂.readUint32 (Nat.lt_trans ht (by decide)) "type_id"
    refine ⟨r₃, ?_, b₃⟩
    simp only [encInstruction, readInstruction, readLoad, e₁, e₂, e₃, ok_bind, ha.check, absoluteId_encId hs, defines, toTypeId,
      Nat.mod_eq_of_lt ht]
  | store hd hv ha =>
    obtain ⟨r₁, e₁, b₁⟩ := PNRecordReader.Before.readUint32 h (encId_lt hd) "dest"
    obtain ⟨r₂, e₂, b₂⟩ := PNRecordReader.Before.readUint32 b₁ (encId_lt hv) "value"
    obtain ⟨r₃, e₃, b₃⟩ := PNRecordReader.Before.readAlignment b₂ ha
    refine ⟨r₃, ?_, b₃⟩
    simp only [encInstruction, readInstruction, readStore, e₁, e₂, e₃, ok_bind, ha.check, absoluteId_encId hd, absoluteId_encId hv,
      noResult]
  | cmp2 ht h0 h1 ho =>
    obtain ⟨r₁, e₁, b₁⟩ := PNRecordReader.Before.readUint32 h (encId_lt h0) "value 0"
    obtain ⟨r₂, e₂, b₂⟩ := b₁.readUint32 (encId_lt h1) "value 1"
    obtain ⟨r₃, e₃, b₃⟩ := b₂.readUint32 ho "opcode"
    refine ⟨r₃, ?_, b₃⟩
    simp only [encInstruction, readInstruction, readCmp2, ht, e₁, e₂, e₃, ok_bind, absoluteId_encId h0, absoluteId_encId h1,
      defines]
  | vselect hc ht hf =>
    obtain ⟨r₁, e₁, b₁⟩ := PNRecordReader.Before.readUint32 h (encId_lt ht) "true_value"
    obtain ⟨r₂, e₂, b₂⟩ := b₁.readUint32 (encId_lt hf) "false_value"
    obtain ⟨r₃, e₃, b₃⟩ := b₂.readUint32 (encId_lt hc) "cond"
    refine ⟨r₃, ?_, b₃⟩
    simp only [encInstruction, readInstruction, readVselect, e₁, e₂, e₃, ok_bind, absoluteId_encId hc, absoluteId_encId ht,
      absoluteId_encId hf, defines]
  | forwardtyperef hv ht =>
    obtain ⟨r₁, e₁, b₁⟩ := PNRecordReader.Before.readUint32 h hv "value"
    obtain ⟨r₂, e₂, b₂⟩ := b₁.readUint32 ht.lt "type"
    refine ⟨r₂, ?_, b₂⟩
    simp only [encInstruction, readInstruction, readForwardtyperef, e₁, e₂, ok_bind, ht.check, noResult]
  | @call _ _ _ _ argIds isIndirect isTailCall _ hcc hcallee hargs hret hvalue =>
    have hlen : argIds.length < fuel := by
      simp only [encInstruction, List.length_append, List.length_map] at hfuel
      omega
    have hw : Writable host dedupe module relId (.call _ _ _ argIds _ isIndirect isTailCall) value :=
      .call hcc hcallee hargs hret hvalue
    obtain ⟨r₁, e₁, b₁⟩ := readCall_enc hw hlen h
    refine ⟨r₁, ?_, b₁⟩
    cases isIndirect <;> exact e₁

end Instruction

end Pnacl
