import Pnacl.LivenessCovers
import Pnacl.PageMap

/-!
# The uses of a block, word by word

`pn_basic_block_calculate_uses` of the `PN_CALCULATE_LIVENESS` build as it runs: the operands are marked in a bit set, its
marked bits are counted for the allocation, and each word that is not zero is walked from its lowest to its highest bit. The
walk may go one bit too far, but not behind bit 31, so it finds every bit once (`extractUses_eq`) and the list is that of
`calculateUses` (`blockUses_exact`).
-/

namespace Pnacl

open Lib

/-! ## Bits -/

/-- `pn_ctz`, which is `__builtin_ctz`. -/
def pnCtz (x : BitVec 32) : Nat := x.ctz.toNat

/-- `pn_clz`, which is `__builtin_clz`. -/
def pnClz (x : BitVec 32) : Nat := x.clz.toNat

/-- `pn_popcount`, which is `__builtin_popcount`. -/
def pnPopcount (x : BitVec 32) : Nat := x.cpop.toNat

/-- `pn_bitset_num_bits_set`. -/
def pnBitsetNumBitsSet (b : PNBitSet) : Nat :=
  (List.range b.numWords).foldl (fun result i => (result + pnPopcount (b.words i)) % 2 ^ 32) 0

/-! ## The pass -/

section Pass

variable (f : PNLivenessFunction)

/-- `PN_SET_VALUE_USE`. -/
def setValueUse (uses : PNBitSet) (valueId : Nat) : Except Stop PNBitSet :=
  if f.firstLocalId ≤ valueId then pnBitsetSet uses (valueId - f.numModuleValues) true else .ok uses

/-- The loop over the instructions: `phi_uses`, and the bit set. -/
def markUses : List PNInstruction → List PNPhiUse → PNBitSet → Except Stop (List PNPhiUse × PNBitSet)
  | [], phiUses, uses => .ok (phiUses, uses)
  | inst :: rest, phiUses, uses => do
    let uses ← inst.usedIds.foldlM (setValueUse f) uses
    markUses rest (phiUses ++ inst.phiUses) uses

/-- One bit of a word, into the array of `count` elements. -/
def writeUse (count base : Nat) (word : BitVec 32) (uses : List Nat) (b : Nat) : Except Stop (List Nat) :=
  if word &&& bitMask b != 0 then
    if uses.length < count then .ok (uses ++ [(base + b) % 2 ^ 32]) else .error (.undefined "write behind uses")
  else .ok uses

/-- The bits of word `w`. -/
def extractWord (bits : PNBitSet) (count : Nat) (uses : List Nat) (w : Nat) : Except Stop (List Nat) :=
  let word := bits.words w
  if word = 0 then .ok uses
  else
    let firstBit := pnCtz word
    let lastBit := 32 - pnClz word
    let lastBit := if lastBit = 32 then 31 else lastBit
    (List.range' firstBit (lastBit + 1 - firstBit)).foldlM (writeUse count (f.numModuleValues + w <<< 5) word) uses

/-- The loop over the words. -/
def extractUses (bits : PNBitSet) (count : Nat) (uses : List Nat) : Except Stop (List Nat) :=
  (List.range bits.numWords).foldlM (extractWord f bits count) uses

/-- `pn_basic_block_calculate_uses`. -/
def PNLivenessFunction.calculateUsesByWords (bb : PNLivenessBlock) : Except Stop PNLivenessBlock := do
  let (phiUses, bits) ← markUses f bb.instructions bb.phiUses (pnBitsetInit f.numValues)
  let uses ← extractUses f bits (pnBitsetNumBitsSet bits) bb.uses
  .ok { bb with phiUses := phiUses, uses := uses }

end Pass

/-! ## One word -/

/-- The set bits of a word. -/
def wordBits (word : BitVec 32) : List Nat := (List.range 32).filter fun b => word.getLsbD b

theorem cpopNatRec_eq_filter (x : BitVec 32) (n acc : Nat) :
    x.cpopNatRec n acc = acc + ((List.range n).filter fun b => x.getLsbD b).length := by
  induction n generalizing acc with
  | zero => rfl
  | succ n ih =>
    rw [BitVec.cpopNatRec, ih, List.range_succ, List.filter_append, List.length_append]
    cases h : x.getLsbD n <;> simp [h, Nat.add_assoc, Nat.add_comm]

theorem pnPopcount_eq (word : BitVec 32) : pnPopcount word = (wordBits word).length := by
  rw [pnPopcount, BitVec.toNat_cpop, cpopNatRec_eq_filter, Nat.zero_add]
  rfl

/-- No bit is set from the one on that the source takes for the last. -/
theorem getLsbD_of_clz_le {word : BitVec 32} {b : Nat} (h : 32 - pnClz word ≤ b) : word.getLsbD b = false := by
  have hlt : word.toNat < 2 ^ (32 - pnClz word) := BitVec.toNat_lt_two_pow_sub_clz
  apply Nat.testBit_lt_two_pow
  exact hlt.trans_le (Nat.pow_le_pow_right (by omega) h)

/-- A walk from below the first bit to behind the last one meets all set bits. -/
theorem filter_range'_eq {word : BitVec 32} {first last : Nat} (hfirst : ∀ b < first, word.getLsbD b = false)
    (hlast : ∀ b, last < b → word.getLsbD b = false) (hle : first ≤ last + 1) (h32 : last < 32) :
    (List.range' first (last + 1 - first)).filter (fun b => word.getLsbD b) = wordBits word := by
  have hsplit : List.range 32 = List.range first ++ (List.range' first (last + 1 - first) ++ List.range' (last + 1) (31 - last)) := by
    have hmid : first + (last + 1 - first) = last + 1 := by omega
    have hall : first + (31 + 1 - first) = 32 := by omega
    have hrest : last + 1 - first + (31 - last) = 31 + 1 - first := by omega
    have h₁ := @List.range'_append_1 first (last + 1 - first) (31 - last)
    have h₂ := @List.range'_append_1 0 first (31 + 1 - first)
    rw [hmid, hrest] at h₁
    rw [Nat.zero_add, hall] at h₂
    rw [h₁, List.range_eq_range', List.range_eq_range', h₂]
  have hlow : (List.range first).filter (fun b => word.getLsbD b) = [] :=
    List.filter_eq_nil_iff.mpr fun b hb => by simp [hfirst b (List.mem_range.mp hb)]
  have hhigh : (List.range' (last + 1) (31 - last)).filter (fun b => word.getLsbD b) = [] :=
    List.filter_eq_nil_iff.mpr fun b hb => by simp [hlast b (List.mem_range'_1.mp hb).1]
  rw [wordBits, hsplit, List.filter_append, List.filter_append, hlow, hhigh, List.nil_append, List.append_nil]

theorem writeUse_eq {count base : Nat} {word : BitVec 32} {uses : List Nat} {b : Nat} (hb : b < 32) :
    writeUse count base word uses b = if word.getLsbD b then
      (if uses.length < count then .ok (uses ++ [(base + b) % 2 ^ 32]) else .error (.undefined "write behind uses"))
      else .ok uses := by
  rw [writeUse, and_bitMask_ne_zero, Nat.mod_eq_of_lt hb]

/-- The bits of the walk are appended, if there is room for them. -/
theorem writeUses_eq {count base : Nat} {word : BitVec 32} {l uses : List Nat} (h32 : ∀ b ∈ l, b < 32)
    (hid : ∀ b, word.getLsbD b = true → base + b < 2 ^ 32)
    (hroom : uses.length + (l.filter fun b => word.getLsbD b).length ≤ count) :
    l.foldlM (writeUse count base word) uses = .ok (uses ++ (l.filter fun b => word.getLsbD b).map (base + ·)) := by
  induction l generalizing uses with
  | nil => simp
  | cons b l ih =>
    obtain ⟨hb, hl⟩ := List.forall_mem_cons.mp h32
    rw [List.foldlM_cons, writeUse_eq hb]
    cases hbit : word.getLsbD b with
    | false =>
      rw [List.filter_cons_of_neg (by simp [hbit])] at hroom ⊢
      exact ih hl hroom
    | true =>
      have hcons := List.filter_cons_of_pos (p := fun b => word.getLsbD b) (l := l) hbit
      rw [hcons, List.length_cons] at hroom
      rw [hcons, List.map_cons, if_pos rfl, if_pos (by omega), ok_bind, Nat.mod_eq_of_lt (hid b hbit)]
      rw [ih hl (by rw [List.length_append, List.length_singleton]; omega), List.append_assoc]
      rfl

/-- **The walk over a word finds each of its bits once**, up to bit 31. -/
theorem extractWord_eq {f : PNLivenessFunction} {bits : PNBitSet} {count w : Nat} {uses : List Nat}
    (hid : ∀ b, (bits.words w).getLsbD b = true → f.numModuleValues + 32 * w + b < 2 ^ 32)
    (hroom : uses.length + pnPopcount (bits.words w) ≤ count) :
    extractWord f bits count uses w = .ok (uses ++ (wordBits (bits.words w)).map (f.numModuleValues + 32 * w + ·)) := by
  have hbase : f.numModuleValues + w <<< 5 = f.numModuleValues + 32 * w := by rw [Nat.shiftLeft_eq, Nat.mul_comm]
  rw [pnPopcount_eq] at hroom
  unfold extractWord
  generalize bits.words w = word at hid hroom ⊢
  by_cases hzero : word = 0
  · subst hzero
    have hnone : wordBits 0 = [] := List.filter_eq_nil_iff.mpr fun b _ => by simp
    rw [if_pos rfl, hnone]
    simp
  · have hctz : word.getLsbD (pnCtz word) = true := BitVec.getLsbD_true_ctz_of_ne_zero hzero
    have hlow : ∀ b < pnCtz word, word.getLsbD b = false := fun b hb => BitVec.getLsbD_false_of_lt_ctz hb
    have hle : pnCtz word < 32 - pnClz word := by
      by_contra hge
      rw [getLsbD_of_clz_le (Nat.le_of_not_lt hge)] at hctz
      cases hctz
    -- the last bit is one too far, unless it has been moved back
    generalize hlast : (if 32 - pnClz word = 32 then 31 else 32 - pnClz word) = last
    have h32 : last < 32 ∧ pnCtz word ≤ last ∧ 32 - pnClz word ≤ last + 1 := by
      split at hlast <;> omega
    have hhigh : ∀ b, last < b → word.getLsbD b = false := fun b hb => getLsbD_of_clz_le (by omega)
    have hwalk := filter_range'_eq hlow hhigh (by omega) h32.1
    rw [if_neg hzero]
    dsimp only
    rw [hlast, hbase, writeUses_eq _ hid (by rw [hwalk]; exact hroom), hwalk]
    intro b hb
    have := (List.mem_range'_1.mp hb).2
    omega

/-! ## All words -/

/-- The set bits. -/
def PNBitSet.positions (bits : PNBitSet) : List Nat := (List.range (32 * bits.numWords)).filter fun p => bits.bit p

section Words

variable {f : PNLivenessFunction} {bits : PNBitSet} {count : Nat}

theorem wordBits_flatMap (bits : PNBitSet) (base n : Nat) :
    ((List.range n).flatMap fun w => (wordBits (bits.words w)).map (base + 32 * w + ·)) =
      ((List.range (32 * n)).filter fun p => bits.bit p).map (base + ·) := by
  induction n with
  | zero => rfl
  | succ n ih =>
    have hword : (List.range 32).filter ((fun p => bits.bit p) ∘ (32 * n + ·)) = wordBits (bits.words n) := by
      refine List.filter_congr fun b hb => ?_
      have hb := List.mem_range.mp hb
      rw [Function.comp_apply, PNBitSet.bit, show (32 * n + b) / 32 = n by omega, show (32 * n + b) % 32 = b by omega]
    rw [List.range_succ, List.flatMap_append, ih, List.flatMap_singleton, show 32 * (n + 1) = 32 * n + 32 by ring, List.range_add,
      List.filter_append, List.map_append, List.filter_map, hword, List.map_map]
    refine congrArg _ (List.map_congr_left fun b _ => ?_)
    rw [Function.comp_apply, Nat.add_assoc]

theorem sum_popcounts (bits : PNBitSet) : ((List.range bits.numWords).map fun w => pnPopcount (bits.words w)).sum = bits.positions.length := by
  have hlen := congrArg List.length (wordBits_flatMap bits 0 bits.numWords)
  rw [List.length_flatMap, List.length_map] at hlen
  rw [PNBitSet.positions, ← hlen]
  refine congrArg List.sum (List.map_congr_left fun w _ => ?_)
  rw [List.length_map, pnPopcount_eq]

theorem foldl_add_mod (g : Nat → Nat) (l : List Nat) {r : Nat} (hr : r < 2 ^ 32) :
    l.foldl (fun result i => (result + g i) % 2 ^ 32) r = (r + (l.map g).sum) % 2 ^ 32 := by
  induction l generalizing r with
  | nil => exact (Nat.mod_eq_of_lt hr).symm
  | cons i l ih =>
    rw [List.foldl_cons, ih (Nat.mod_lt _ (by omega)), List.map_cons, List.sum_cons, Nat.mod_add_mod, Nat.add_assoc]

/-- `pn_bitset_num_bits_set` counts the bits. -/
theorem pnBitsetNumBitsSet_eq (h : bits.positions.length < 2 ^ 32) : pnBitsetNumBitsSet bits = bits.positions.length := by
  rw [pnBitsetNumBitsSet, foldl_add_mod _ _ (by omega), Nat.zero_add, sum_popcounts, Nat.mod_eq_of_lt h]

theorem extractWords_eq {l uses : List Nat}
    (hid : ∀ w ∈ l, ∀ b, (bits.words w).getLsbD b = true → f.numModuleValues + 32 * w + b < 2 ^ 32)
    (hroom : uses.length + (l.map fun w => pnPopcount (bits.words w)).sum ≤ count) :
    l.foldlM (extractWord f bits count) uses =
      .ok (uses ++ l.flatMap fun w => (wordBits (bits.words w)).map (f.numModuleValues + 32 * w + ·)) := by
  induction l generalizing uses with
  | nil => simp
  | cons w l ih =>
    obtain ⟨hw, hl⟩ := List.forall_mem_cons.mp hid
    rw [List.map_cons, List.sum_cons] at hroom
    rw [List.foldlM_cons, extractWord_eq hw (by omega), ok_bind, List.flatMap_cons, ← List.append_assoc]
    apply ih hl
    rw [List.length_append, List.length_map, ← pnPopcount_eq]
    omega

/-- **The extraction writes the ids of the set bits in ascending order**, as many as have been counted. -/
theorem extractUses_eq (hlt : ∀ p ∈ bits.positions, f.numModuleValues + p < 2 ^ 32) (hcount : bits.positions.length < 2 ^ 32) :
    extractUses f bits (pnBitsetNumBitsSet bits) [] = .ok (bits.positions.map (f.numModuleValues + ·)) := by
  rw [extractUses, extractWords_eq, wordBits_flatMap, List.nil_append]
  · rfl
  · intro w hw b hb
    have hb32 : b < 32 := BitVec.lt_of_getLsbD hb
    have hw := List.mem_range.mp hw
    rw [Nat.add_assoc]
    apply hlt
    refine List.mem_filter.mpr ⟨List.mem_range.mpr (by omega), ?_⟩
    rw [PNBitSet.bit, show (32 * w + b) / 32 = w by omega, show (32 * w + b) % 32 = b by omega]
    exact hb
  · rw [pnBitsetNumBitsSet_eq hcount, sum_popcounts, List.length_nil, Nat.zero_add]

end Words

/-! ## Marking -/

section Mark

variable {f : PNLivenessFunction}

/-- The words of a bit set have room for its bits. -/
theorem bitsetNumWords_le (n : Nat) : n ≤ 32 * bitsetNumWords n := by
  unfold bitsetNumWords
  omega

theorem pnBitsetSet_total {b : PNBitSet} {p : Nat} (hp : p < 32 * b.numWords) (set : Bool) : ∃ b', pnBitsetSet b p set = .ok b' := by
  have hword : p >>> 5 < b.numWords := by
    rw [Nat.shiftRight_eq_div_pow]
    omega
  exact ⟨_, by rw [pnBitsetSet, cAssert_bind hword]⟩

/-- The operands of one instruction are marked. -/
theorem setValueUses_spec {ids : List Nat} {b : PNBitSet}
    (h : ∀ id ∈ ids, f.firstLocalId ≤ id → id - f.numModuleValues < 32 * b.numWords) :
    ∃ b', ids.foldlM (setValueUse f) b = .ok b' ∧ b'.numWords = b.numWords ∧
      ∀ p, b'.bit p = true ↔ b.bit p = true ∨ ∃ id ∈ ids, f.firstLocalId ≤ id ∧ id - f.numModuleValues = p := by
  induction ids generalizing b with
  | nil => exact ⟨b, rfl, rfl, fun p => by simp⟩
  | cons id ids ih =>
    obtain ⟨hid, hids⟩ := List.forall_mem_cons.mp h
    by_cases hlocal : f.firstLocalId ≤ id
    · obtain ⟨b₁, h₁⟩ := pnBitsetSet_total (hid hlocal) true
      obtain ⟨-, hwords, hbit⟩ := pnBitsetSet_bit h₁
      obtain ⟨b', hrun, hwords', hbit'⟩ := ih (b := b₁) (by rwa [hwords])
      refine ⟨b', ?_, hwords'.trans hwords, fun p => ?_⟩
      · rw [List.foldlM_cons, setValueUse, if_pos hlocal, h₁]
        exact hrun
      · rw [hbit', hbit]
        by_cases hp : p = id - f.numModuleValues
        · subst hp
          simp [hlocal]
        · rw [if_neg hp]
          simp [Ne.symm hp]
    · obtain ⟨b', hrun, hwords', hbit'⟩ := ih hids
      refine ⟨b', ?_, hwords', fun p => ?_⟩
      · rw [List.foldlM_cons, setValueUse, if_neg hlocal]
        exact hrun
      · rw [hbit']
        simp [hlocal]

/-- The operands of all instructions are marked. -/
theorem markUses_spec {insts : List PNInstruction} {phiUses : List PNPhiUse} {b : PNBitSet}
    (h : ∀ id ∈ insts.flatMap PNInstruction.usedIds, f.firstLocalId ≤ id → id - f.numModuleValues < 32 * b.numWords) :
    ∃ b', markUses f insts phiUses b = .ok (phiUses ++ insts.flatMap PNInstruction.phiUses, b') ∧ b'.numWords = b.numWords ∧
      ∀ p, b'.bit p = true ↔
        b.bit p = true ∨ ∃ id ∈ insts.flatMap PNInstruction.usedIds, f.firstLocalId ≤ id ∧ id - f.numModuleValues = p := by
  induction insts generalizing phiUses b with
  | nil => exact ⟨b, by simp [markUses], rfl, fun p => by simp⟩
  | cons inst insts ih =>
    rw [List.flatMap_cons] at h
    obtain ⟨b₁, h₁, hwords, hbit⟩ := setValueUses_spec fun id hid => h id (List.mem_append_left _ hid)
    obtain ⟨b', hrun, hwords', hbit'⟩ := @ih (phiUses ++ inst.phiUses) b₁ fun id hid => by
      rw [hwords]
      exact h id (List.mem_append_right _ hid)
    refine ⟨b', ?_, hwords'.trans hwords, fun p => ?_⟩
    · rw [markUses, h₁, ok_bind, hrun, List.flatMap_cons, List.append_assoc]
    · rw [hbit', hbit, List.flatMap_cons]
      simp only [List.mem_append, or_and_right, exists_or, or_assoc]

end Mark

/-! ## What the uses are -/

/-- A value that may be left out. -/
def optionalOperand (valueId : Nat) : List Nat := if valueId = PN_INVALID_VALUE_ID then [] else [valueId]

/-- The values that an instruction works on; those of a phi belong to its incoming blocks. -/
def PNInstruction.operands : PNInstruction → List Nat
  | .binop _ value0Id value1Id _ _ => [value0Id, value1Id]
  | .cast _ valueId _ _ => [valueId]
  | .ret valueId => optionalOperand valueId
  | .br _ _ valueId => optionalOperand valueId
  | .switch _ valueId _ _ _ => [valueId]
  | .unreachable => []
  | .phi _ _ incoming => incoming.map PNPhiIncoming.valueId
  | .alloca _ sizeId _ => [sizeId]
  | .load _ srcId _ _ => [srcId]
  | .store destId valueId _ => [destId, valueId]
  | .cmp2 _ value0Id value1Id _ => [value0Id, value1Id]
  | .vselect _ condId trueValueId falseValueId => [condId, trueValueId, falseValueId]
  | .forwardtyperef _ _ => []
  | .call _ _ calleeId argIds _ _ _ => calleeId :: argIds

def PNInstruction.isPhi : PNInstruction → Bool
  | .phi _ _ _ => true
  | _ => false

/-- The operands are values of the module or of the function; the callee of a direct call is a function of the module. -/
structure OperandsInRange (f : PNLivenessFunction) (bb : PNLivenessBlock) : Prop where
  ids_le : f.numModuleValues + f.numValues ≤ PN_INVALID_VALUE_ID
  operand_lt : ∀ inst ∈ bb.instructions, inst.isPhi = false → ∀ id ∈ inst.operands, id < f.numModuleValues + f.numValues
  callee_lt : ∀ {resultValueId callingConvention calleeId argIds returnTypeId isTailCall},
    PNInstruction.call resultValueId callingConvention calleeId argIds returnTypeId false isTailCall ∈ bb.instructions →
      calleeId < f.numModuleValues

section Exact

variable {f : PNLivenessFunction} {bb : PNLivenessBlock} {id : Nat}

/-- The ids of an instruction that are marked are its operands that are local values. -/
theorem OperandsInRange.mem_usedIds (h : OperandsInRange f bb) {inst : PNInstruction} (hinst : inst ∈ bb.instructions)
    (hid : f.firstLocalId ≤ id) : id ∈ inst.usedIds ↔ inst.isPhi = false ∧ id ∈ inst.operands := by
  cases inst with
  | call resultValueId callingConvention calleeId argIds returnTypeId isIndirect isTailCall =>
    cases isIndirect with
    | true => simp [PNInstruction.usedIds, PNInstruction.operands, PNInstruction.isPhi]
    | false =>
      have hne : id ≠ calleeId := by
        have := h.callee_lt hinst
        unfold PNLivenessFunction.firstLocalId at hid
        omega
      simp [PNInstruction.usedIds, PNInstruction.operands, PNInstruction.isPhi, hne]
  | _ => simp [PNInstruction.usedIds, PNInstruction.operands, PNInstruction.isPhi, optionalOperand]

theorem OperandsInRange.mem_flatMap (h : OperandsInRange f bb) (hid : f.firstLocalId ≤ id) :
    id ∈ bb.instructions.flatMap PNInstruction.usedIds ↔ ∃ inst ∈ bb.instructions, inst.isPhi = false ∧ id ∈ inst.operands := by
  rw [List.mem_flatMap]
  exact exists_congr fun inst => and_congr_right fun hinst => h.mem_usedIds hinst hid

theorem OperandsInRange.lt (h : OperandsInRange f bb) (hmem : id ∈ bb.instructions.flatMap PNInstruction.usedIds)
    (hid : f.firstLocalId ≤ id) : id < f.numModuleValues + f.numValues := by
  obtain ⟨inst, hinst, hphi, hop⟩ := (h.mem_flatMap hid).mp hmem
  exact h.operand_lt inst hinst hphi id hop

/-- The local values that are used. -/
def PNLivenessFunction.localUses (f : PNLivenessFunction) (bb : PNLivenessBlock) : List Nat :=
  (bb.instructions.flatMap PNInstruction.usedIds).filter (f.firstLocalId ≤ ·)

theorem OperandsInRange.mem_localUses (h : OperandsInRange f bb) : id ∈ f.localUses bb ↔
    f.firstLocalId ≤ id ∧ ∃ inst ∈ bb.instructions, inst.isPhi = false ∧ id ∈ inst.operands := by
  rw [PNLivenessFunction.localUses, List.mem_filter, decide_eq_true_iff, and_comm]
  exact and_congr_right fun hid => h.mem_flatMap hid

theorem OperandsInRange.localUses_bounds (h : OperandsInRange f bb) (hmem : id ∈ f.localUses bb) :
    f.numModuleValues ≤ id ∧ id < f.numModuleValues + f.numValues := by
  rw [PNLivenessFunction.localUses, List.mem_filter, decide_eq_true_iff] at hmem
  have hlt := h.lt hmem.1 hmem.2
  unfold PNLivenessFunction.firstLocalId at hmem
  omega

/-- A bit is set for each local value that is used. -/
theorem OperandsInRange.markUses (h : OperandsInRange f bb) :
    ∃ bits, markUses f bb.instructions bb.phiUses (pnBitsetInit f.numValues) =
        .ok (bb.phiUses ++ bb.instructions.flatMap PNInstruction.phiUses, bits) ∧
      bits.numWords = bitsetNumWords f.numValues ∧ ∀ p, bits.bit p = true ↔ f.numModuleValues + p ∈ f.localUses bb := by
  have hinit : (pnBitsetInit f.numValues).numWords = bitsetNumWords f.numValues := by
    rw [pnBitsetInit, bitsetNumWords, Nat.shiftRight_eq_div_pow]
  have hempty : ∀ p, (pnBitsetInit f.numValues).bit p = false := fun p => by simp [pnBitsetInit, PNBitSet.bit]
  have hsize := bitsetNumWords_le f.numValues
  obtain ⟨bits, hmark, hwords, hbit⟩ := @markUses_spec f bb.instructions bb.phiUses (pnBitsetInit f.numValues)
    fun id hmem hid => by
      have := h.lt hmem hid
      unfold PNLivenessFunction.firstLocalId at hid
      rw [hinit]
      omega
  refine ⟨bits, hmark, hwords.trans hinit, fun p => ?_⟩
  rw [hbit, hempty, PNLivenessFunction.localUses, List.mem_filter, decide_eq_true_iff]
  constructor
  · rintro (hp | ⟨id, hmem, hid, rfl⟩)
    · cases hp
    · have hge : f.numModuleValues + (id - f.numModuleValues) = id := by
        unfold PNLivenessFunction.firstLocalId at hid
        omega
      rw [hge]
      exact ⟨hmem, hid⟩
  · rintro ⟨hmem, hid⟩
    exact .inr ⟨_, hmem, hid, Nat.add_sub_cancel_left ..⟩

/-- The pass on sets returns the same block. -/
theorem OperandsInRange.calculateUses (h : OperandsInRange f bb) {bits : PNBitSet}
    (hwords : bits.numWords = bitsetNumWords f.numValues) (hbit : ∀ p, bits.bit p = true ↔ f.numModuleValues + p ∈ f.localUses bb) :
    f.calculateUses bb = .ok { bb with
      phiUses := bb.phiUses ++ bb.instructions.flatMap PNInstruction.phiUses
      uses := bits.positions.map (f.numModuleValues + ·) } := by
  have hsize := bitsetNumWords_le f.numValues
  have hassert : ∀ id ∈ f.localUses bb, (id - f.numModuleValues) / 32 < bitsetNumWords f.numValues := fun id hmem => by
    have := h.localUses_bounds hmem
    omega
  have huses : ((List.range (32 * bitsetNumWords f.numValues)).map (f.numModuleValues + ·)).filter (· ∈ f.localUses bb) =
      bits.positions.map (f.numModuleValues + ·) := by
    rw [List.filter_map, PNBitSet.positions, hwords]
    refine congrArg _ (List.filter_congr fun p _ => ?_)
    rw [Bool.eq_iff_iff, hbit]
    simp
  rw [← huses]
  exact cAssert_bind hassert

/-- **The uses of a block are exact**: the local values among the operands of its instructions, in ascending order, as many as
have been counted for the array; the list is that of the pass that works on sets. -/
theorem blockUses_exact (f : PNLivenessFunction) (bb : PNLivenessBlock) (h : OperandsInRange f bb) (hfresh : bb.uses = []) :
    ∃ bits bb', markUses f bb.instructions bb.phiUses (pnBitsetInit f.numValues) = .ok (bb'.phiUses, bits) ∧
      f.calculateUsesByWords bb = .ok bb' ∧ f.calculateUses bb = .ok bb' ∧
      bb'.uses.Pairwise (· < ·) ∧ bb'.uses.length = pnBitsetNumBitsSet bits ∧
      ∀ id, id ∈ bb'.uses ↔ (f.firstLocalId ≤ id ∧ id < f.numModuleValues + f.numValues) ∧
        ∃ inst ∈ bb.instructions, inst.isPhi = false ∧ id ∈ inst.operands := by
  have hids := h.ids_le
  have hinvalid : PN_INVALID_VALUE_ID < 2 ^ 32 := by decide
  obtain ⟨bits, hmark, hwords, hbit⟩ := h.markUses
  have hlt : ∀ p ∈ bits.positions, p < f.numValues := fun p hp => by
    have := h.localUses_bounds ((hbit p).mp (List.mem_filter.mp hp).2)
    omega
  have hnodup : bits.positions.Nodup := List.nodup_range.filter _
  have hcount : bits.positions.length < 2 ^ 32 := by
    have := length_le_of_nodup hnodup hlt
    omega
  have hextract := extractUses_eq (f := f) (fun p hp => by
    have := hlt p hp
    omega) hcount
  refine ⟨bits, _, hmark, ?_, h.calculateUses hwords hbit, ?_, ?_, fun id => ?_⟩
  · refine bind_eq_ok.mpr ⟨_, hmark, bind_eq_ok.mpr ⟨_, ?_, rfl⟩⟩
    rw [hfresh]
    exact hextract
  · refine (List.pairwise_lt_range.filter _).map _ fun a b hab => ?_
    exact Nat.add_lt_add_left hab _
  · rw [List.length_map, pnBitsetNumBitsSet_eq hcount]
  · have hsize := bitsetNumWords_le f.numValues
    constructor
    · intro hmem
      obtain ⟨p, hp, rfl⟩ := List.mem_map.mp hmem
      have hmem := (hbit p).mp (List.mem_filter.mp hp).2
      obtain ⟨hlocal, hop⟩ := h.mem_localUses.mp hmem
      exact ⟨⟨hlocal, (h.localUses_bounds hmem).2⟩, hop⟩
    · rintro ⟨⟨hlocal, hidlt⟩, hop⟩
      have hmem := h.mem_localUses.mpr ⟨hlocal, hop⟩
      have hge : f.numModuleValues + (id - f.numModuleValues) = id := by
        have := (h.localUses_bounds hmem).1
        omega
      refine List.mem_map.mpr ⟨id - f.numModuleValues, List.mem_filter.mpr ⟨List.mem_range.mpr (by omega), ?_⟩, hge⟩
      rw [hbit, hge]
      exact hmem

/-- Two additions, of an argument and of values on both sides of a word. -/
theorem blockUses_exact_words :
    ∃ bb', PNLivenessFunction.calculateUsesByWords ⟨0, 1, 0, 40, []⟩ ⟨[.binop 39 0 31 0 0, .binop 38 32 31 0 0], [], 38, 39, [], []⟩ =
      .ok bb' ∧ ∀ id, id ∈ bb'.uses ↔ (1 ≤ id ∧ id < 40) ∧ ∃ inst ∈ [PNInstruction.binop 39 0 31 0 0, .binop 38 32 31 0 0],
        inst.isPhi = false ∧ id ∈ inst.operands := by
  obtain ⟨_, bb', -, hrun, -, -, -, hmem⟩ := blockUses_exact ⟨0, 1, 0, 40, []⟩
    ⟨[.binop 39 0 31 0 0, .binop 38 32 31 0 0], [], 38, 39, [], []⟩
    { ids_le := by decide
      operand_lt := by decide
      callee_lt := fun h => by simp at h } rfl
  exact ⟨bb', hrun, hmem⟩

end Exact

end Pnacl
