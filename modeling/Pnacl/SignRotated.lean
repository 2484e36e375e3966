import Mathlib.Data.Int.ConditionallyCompleteOrder
import Mathlib.Data.Set.Function
import Pnacl.RecordValues

/-!
# Sign-rotated integers

LLVM writes a signed number with its sign in the lowest bit. At width `w` the numbers and the codes are in bijection
(`signRotated_bijOn`), and the smallest number, whose magnitude does not fit, has the code `1`. The 32-bit fields of a record
hold the codes of width 64: `pn_record_read_decoded_int32` decodes one of those and checks the range of the result.
-/

namespace Pnacl

open Lib PNBitStream

/-! ## Codes -/

/-- LLVM's code of a number, modulo `2 ^ w`. -/
def encSignRotated (w : Nat) (v : Int) : Nat := ((if 0 ≤ v then 2 * v else 2 * -v + 1) % 2 ^ w).toNat

/-- The number with a code. -/
def decSignRotated (w u : Nat) : Int :=
  if u % 2 = 0 then (u / 2 : Nat) else if u ≠ 1 then -((u / 2 : Nat) : Int) else -2 ^ (w - 1)

/-- The body of both decoders in the arithmetic of the source, where the negation is that of an unsigned integer. -/
def signRotatedBits {w : Nat} (value : BitVec w) : BitVec w :=
  if value &&& 1 = 0 then value >>> 1 else if value ≠ 1 then -(value >>> 1) else BitVec.intMin w

/-- `pn_decode_sign_rotated_value` as an `int32_t`. -/
def decodedInt32 (value : Nat) : Int := Int.bmod (pnDecodeSignRotatedValue value) (2 ^ 32)

section Codes

variable {w u : Nat} {v : Int}

theorem two_pow_pred (hw : 0 < w) : (2 : Int) ^ w = 2 * 2 ^ (w - 1) := by
  obtain ⟨k, rfl⟩ : ∃ k, w = k + 1 := ⟨w - 1, by omega⟩
  rw [Nat.add_sub_cancel, pow_succ]
  ring

theorem encSignRotated_lt (w : Nat) (v : Int) : encSignRotated w v < 2 ^ w := by
  have hpos : (0 : Int) < 2 ^ w := by positivity
  have hlt := Int.emod_lt_of_pos (if 0 ≤ v then 2 * v else 2 * -v + 1) hpos
  have hge := Int.emod_nonneg (if 0 ≤ v then 2 * v else 2 * -v + 1) (ne_of_gt hpos)
  have hcast : ((2 ^ w : Nat) : Int) = 2 ^ w := by push_cast; rfl
  unfold encSignRotated
  omega

/-- The three kinds of codes. -/
theorem encSignRotated_cases (hw : 0 < w) (hlo : -2 ^ (w - 1) ≤ v) (hhi : v < 2 ^ (w - 1)) :
    (0 ≤ v ∧ (encSignRotated w v : Int) = 2 * v) ∨
    (v < 0 ∧ v ≠ -2 ^ (w - 1) ∧ (encSignRotated w v : Int) = 2 * -v + 1) ∨
    (v = -2 ^ (w - 1) ∧ encSignRotated w v = 1 % 2 ^ w) := by
  have hpow := two_pow_pred hw
  unfold encSignRotated
  by_cases hnonneg : 0 ≤ v
  · left
    rw [if_pos hnonneg, Int.emod_eq_of_lt (by omega) (by omega)]
    exact ⟨hnonneg, by omega⟩
  · right
    rw [if_neg hnonneg]
    by_cases hmin : v = -2 ^ (w - 1)
    · right
      refine ⟨hmin, ?_⟩
      have hmod : (2 * -v + 1) % 2 ^ w = 1 % 2 ^ w := by
        rw [hmin, show 2 * -(-2 ^ (w - 1)) + 1 = 1 + (2 : Int) ^ w by omega, Int.add_emod_right]
      rw [hmod]
      norm_cast
    · left
      rw [Int.emod_eq_of_lt (by omega) (by omega)]
      exact ⟨by omega, hmin, by omega⟩

/-- Decoding undoes the encoding. -/
theorem dec_encSignRotated (hw : 2 ≤ w) (hlo : -2 ^ (w - 1) ≤ v) (hhi : v < 2 ^ (w - 1)) :
    decSignRotated w (encSignRotated w v) = v := by
  have hone : 1 % 2 ^ w = 1 := Nat.mod_eq_of_lt (Nat.one_lt_two_pow (by omega))
  unfold decSignRotated
  rcases encSignRotated_cases (show 0 < w by omega) hlo hhi with ⟨hv, henc⟩ | ⟨hv, -, henc⟩ | ⟨hv, henc⟩
  · rw [if_pos (by omega)]
    omega
  · rw [if_neg (by omega), if_pos (by omega)]
    omega
  · rw [henc, hone, hv]
    rfl

theorem decSignRotated_range (hw : 0 < w) (hu : u < 2 ^ w) : -2 ^ (w - 1) ≤ decSignRotated w u ∧ decSignRotated w u < 2 ^ (w - 1) := by
  have hpow := two_pow_pred hw
  have hpos : (0 : Int) < 2 ^ (w - 1) := by positivity
  have hu' : (u : Int) < 2 ^ w := by exact_mod_cast hu
  unfold decSignRotated
  split_ifs <;> omega

/-- Encoding undoes the decoding. -/
theorem enc_decSignRotated (hw : 2 ≤ w) (hu : u < 2 ^ w) : encSignRotated w (decSignRotated w u) = u := by
  have hone : 1 % 2 ^ w = 1 := Nat.mod_eq_of_lt (Nat.one_lt_two_pow (by omega))
  obtain ⟨hlo, hhi⟩ := decSignRotated_range (show 0 < w by omega) hu
  have hpow := two_pow_pred (show 0 < w by omega)
  have hpos : (0 : Int) < 2 ^ (w - 1) := by positivity
  have hu' : (u : Int) < 2 ^ w := by exact_mod_cast hu
  have hcases := encSignRotated_cases (show 0 < w by omega) hlo hhi
  generalize encSignRotated w (decSignRotated w u) = e at hcases ⊢
  unfold decSignRotated at hcases
  split_ifs at hcases <;> omega

/-- **The codes of width `w` are in bijection with the numbers of that width.** -/
theorem signRotated_bijOn (hw : 2 ≤ w) : Set.BijOn (decSignRotated w) (Set.Iio (2 ^ w)) (Set.Ico (-2 ^ (w - 1)) (2 ^ (w - 1))) := by
  refine ⟨fun u hu => decSignRotated_range (by omega) hu, fun u hu u' hu' heq => ?_, fun v hv => ?_⟩
  · rw [← enc_decSignRotated hw hu, heq, enc_decSignRotated hw hu']
  · exact ⟨encSignRotated w v, encSignRotated_lt w v, dec_encSignRotated hw hv.1 hv.2⟩

end Codes

/-! ## The decoders -/

theorem pnDecodeSignRotatedValueInt64_eq (u : Nat) : pnDecodeSignRotatedValueInt64 u = decSignRotated 64 u := rfl

theorem decodedInt32_eq {u : Nat} (hu : u < 2 ^ 32) : decodedInt32 u = decSignRotated 32 u := by
  unfold decodedInt32 pnDecodeSignRotatedValue decSignRotated
  rw [Int.bmod_def]
  split_ifs <;> omega

theorem signRotatedBits_toNat {w : Nat} (hw : 2 ≤ w) (value : BitVec w) : (signRotatedBits value).toNat =
    if value.toNat % 2 = 0 then value.toNat / 2
    else if value.toNat ≠ 1 then (2 ^ w - value.toNat / 2) % 2 ^ w else 2 ^ (w - 1) := by
  have hone : 1 % 2 ^ w = 1 := Nat.mod_eq_of_lt (Nat.one_lt_two_pow (by omega))
  have hlow : value &&& 1 = 0 ↔ value.toNat % 2 = 0 := by
    simp [← BitVec.toNat_inj, hone, Nat.and_one_is_mod]
  have heq : value = 1 ↔ value.toNat = 1 := by
    simp [← BitVec.toNat_inj, hone]
  have hmin : (BitVec.intMin w).toNat = 2 ^ (w - 1) := by
    rw [BitVec.toNat_intMin, Nat.mod_eq_of_lt (Nat.pow_lt_pow_right (by omega) (by omega))]
  unfold signRotatedBits
  simp only [hlow, heq, ne_eq]
  split_ifs
  · simp [Nat.shiftRight_eq_div_pow]
  · exact hmin
  · simp [Nat.shiftRight_eq_div_pow]

/-- `pn_decode_sign_rotated_value` bit by bit. -/
theorem pnDecodeSignRotatedValue_bits (value : BitVec 32) :
    pnDecodeSignRotatedValue value.toNat = (signRotatedBits value).toNat := by
  rw [signRotatedBits_toNat (by omega)]
  rfl

/-- `pn_decode_sign_rotated_value_int64` bit by bit. -/
theorem pnDecodeSignRotatedValueInt64_bits (value : BitVec 64) :
    pnDecodeSignRotatedValueInt64 value.toNat = (signRotatedBits value).toInt := by
  have hlt := value.isLt
  rw [BitVec.toInt_eq_toNat_bmod, signRotatedBits_toNat (by omega), Int.bmod_def]
  unfold pnDecodeSignRotatedValueInt64
  split_ifs <;> omega

/-! ## The field of a record -/

/-- The next field of the record is a VBR encoding of `u`, the end of which is `len` bits further: a value of an unabbreviated
record, a scalar of an abbreviation, or an element of an array, in front of which the first time stands their number. -/
inductive VbrField (r : PNRecordReader) (u len : Nat) : Prop where
  | unabbreviated (hentry : r.entry = pnEntryUnabbrevRecord) (hleft : r.valueIndex < r.numValues)
      (hat : r.bs.At (encVbr 6 u)) (hlen : len = (encVbr 6 u).length)
  | scalar {ab : PNAbbrev} {n : Nat} (hentry : r.entry ≠ pnEntryUnabbrevRecord)
      (hab : r.abbrevs[(r.entry + 2 ^ 32 - 4) % 2 ^ 32]? = some ab) (hop : ab.ops[r.opIndex]? = some (.vbr n))
      (hn2 : 2 ≤ n) (hn : n ≤ 32) (hat : r.bs.At (encVbr n u)) (hlen : len = (encVbr n u).length)
  | element {ab : PNAbbrev} {n : Nat} (hentry : r.entry ≠ pnEntryUnabbrevRecord)
      (hab : r.abbrevs[(r.entry + 2 ^ 32 - 4) % 2 ^ 32]? = some ab) (hop : ab.ops[r.opIndex]? = some .array)
      (helt : ab.ops[r.opIndex + 1]? = some (.vbr n)) (hn2 : 2 ≤ n) (hn : n ≤ 32) (hindex : 0 < r.valueIndex)
      (hat : r.bs.At (encVbr n u)) (hlen : len = (encVbr n u).length)
  | first {ab : PNAbbrev} {n k : Nat} (hentry : r.entry ≠ pnEntryUnabbrevRecord)
      (hab : r.abbrevs[(r.entry + 2 ^ 32 - 4) % 2 ^ 32]? = some ab) (hop : ab.ops[r.opIndex]? = some .array)
      (helt : ab.ops[r.opIndex + 1]? = some (.vbr n)) (hn2 : 2 ≤ n) (hn : n ≤ 32) (hindex : r.valueIndex = 0)
      (hk : k < 2 ^ 32) (hat : r.bs.At (encVbr 6 k ++ encVbr n u)) (hlen : len = (encVbr 6 k ++ encVbr n u).length)

section Field

variable {r : PNRecordReader} {u len : Nat}

theorem readVbrUint64Field_enc {n : Nat} {bs : PNBitStream} (hn2 : 2 ≤ n) (hn : n ≤ 32) (hu : u < 2 ^ 64) (hi : Inv bs)
    (hat : bs.At (encVbr n u)) :
    ∃ bs', readVbrUint64Field bs n = .ok (u, bs') ∧ Moved bs (encVbr n u).length bs' := by
  rw [readVbrUint64Field, if_neg (by omega), Int.toNat_natCast]
  exact readVbrUint64_enc hn2 hn hu hi hat

/-- The 64-bit reader reads the field. -/
theorem VbrField.tryRead (h : VbrField r u len) (hu : u < 2 ^ 64) (hi : Inv r.bs) :
    ∃ r', pnRecordTryReadUint64 r = .ok (some u, r') ∧ Moved r.bs len r'.bs := by
  unfold pnRecordTryReadUint64
  cases h with
  | unabbreviated hentry hleft hat hlen =>
    obtain ⟨bs', hread, hm⟩ := readVbrUint64_enc (by omega) (by omega) hu hi hat
    rw [if_pos hentry, if_neg (by omega), hread, hlen]
    exact ⟨_, rfl, hm⟩
  | scalar hentry hab hop hn2 hn hat hlen =>
    obtain ⟨bs', hread, hm⟩ := readVbrUint64Field_enc hn2 hn hu hi hat
    rw [if_neg hentry, pnRecordReadAbbrevUint64, hlen]
    simp only [hab, hop, hread]
    exact ⟨_, rfl, hm⟩
  | element hentry hab hop helt hn2 hn hindex hat hlen =>
    obtain ⟨bs', hread, hm⟩ := readVbrUint64Field_enc hn2 hn hu hi hat
    rw [if_neg hentry, pnRecordReadAbbrevUint64, hlen]
    simp only [hab, hop, helt, if_neg (show r.valueIndex ≠ 0 by omega), ok_bind, readArrayElementUint64, hread]
    exact ⟨_, rfl, hm⟩
  | first hentry hab hop helt hn2 hn hindex hk hat hlen =>
    obtain ⟨bs₁, hcount, hm₁⟩ := (readVbr_enc (by omega) (by omega) (by omega) hi hat.first).1 (.inl hk)
    obtain ⟨bs', hread, hm⟩ := readVbrUint64Field_enc hn2 hn hu hm₁.inv (hat.rest hm₁)
    rw [if_neg hentry, pnRecordReadAbbrevUint64, hlen, List.length_append]
    simp only [hab, hop, helt, if_pos hindex, hcount, ok_bind, readArrayElementUint64, hread]
    exact ⟨_, rfl, hm₁.trans hm⟩

/-- The field is decoded and its range is checked. -/
theorem VbrField.readDecodedInt32 {v : Int} (h : VbrField r (encSignRotated 64 v) len) (hi : Inv r.bs) (hlo : -2 ^ 63 ≤ v)
    (hhi : v < 2 ^ 63) (name : String) :
    ∃ r', Moved r.bs len r'.bs ∧ pnRecordReadDecodedInt32 r name =
      if v < -2 ^ 31 ∨ 2 ^ 31 - 1 < v then pnFatal "value %ld out of int32 range.\n" [v] else .ok (v, r') := by
  obtain ⟨r', hread, hm⟩ := h.tryRead (encSignRotated_lt 64 v) hi
  have hdec : pnDecodeSignRotatedValueInt64 (encSignRotated 64 v) = v := dec_encSignRotated (by omega) hlo hhi
  refine ⟨r', hm, ?_⟩
  rw [pnRecordReadDecodedInt32, pnRecordReadDecodedInt64, pnRecordReadUint64, hread]
  simp only [required, ok_bind, hdec]

end Field

/-- **Sign-rotated decoding undoes the encoding.** The 64-bit decoder is a bijection, and the inverse of the encoding; so is
the 32-bit decoder. A field of a record with the 64-bit code of a number is read as that number if it fits in 32 bits, and
exits if it does not. -/
theorem signRotated_decodes :
    Set.BijOn pnDecodeSignRotatedValueInt64 (Set.Iio (2 ^ 64)) (Set.Ico (-2 ^ 63) (2 ^ 63)) ∧
    (∀ v : Int, -2 ^ 63 ≤ v → v < 2 ^ 63 → pnDecodeSignRotatedValueInt64 (encSignRotated 64 v) = v) ∧
    Set.BijOn decodedInt32 (Set.Iio (2 ^ 32)) (Set.Ico (-2 ^ 31) (2 ^ 31)) ∧
    (∀ v : Int, -2 ^ 31 ≤ v → v < 2 ^ 31 → decodedInt32 (encSignRotated 32 v) = v) ∧
    (∀ u < 2 ^ 32, encSignRotated 32 (decodedInt32 u) = u) ∧
    ∀ (v : Int) (r : PNRecordReader) (len : Nat) (name : String), -2 ^ 63 ≤ v → v < 2 ^ 63 → r.bs.Reachable →
      VbrField r (encSignRotated 64 v) len →
      (-2 ^ 31 ≤ v ∧ v < 2 ^ 31 →
        ∃ r', pnRecordReadDecodedInt32 r name = .ok (v, r') ∧ r'.bs.bitOffset = r.bs.bitOffset + len) ∧
      (¬(-2 ^ 31 ≤ v ∧ v < 2 ^ 31) → ∃ e, pnRecordReadDecodedInt32 r name = .error e ∧ e.IsExit) := by
  have heq : Set.EqOn (decSignRotated 32) decodedInt32 (Set.Iio (2 ^ 32)) := fun u hu => (decodedInt32_eq hu).symm
  refine ⟨signRotated_bijOn (by omega), fun v hlo hhi => dec_encSignRotated (by omega) hlo hhi,
    (signRotated_bijOn (by omega)).congr heq, fun v hlo hhi => ?_, fun u hu => ?_, fun v r len name hlo hhi hr h => ?_⟩
  · rw [decodedInt32_eq (encSignRotated_lt 32 v)]
    exact dec_encSignRotated (by omega) hlo hhi
  · rw [decodedInt32_eq hu]
    exact enc_decSignRotated (by omega) hu
  · obtain ⟨r', hm, hread⟩ := h.readDecodedInt32 hr.inv hlo hhi name
    rw [hread]
    refine ⟨fun hv => ⟨r', if_neg (by omega), hm.offset⟩, fun hv => ?_⟩
    rw [if_pos (by omega)]
    exact ⟨_, rfl, trivial⟩

/-- The smallest 32-bit number in an unabbreviated record: the code is `0x100000001`, in seven chunks. -/
theorem signRotated_decodes_min :
    ∃ r', pnRecordReadDecodedInt32 ⟨pnBitstreamInit (fun i => [0x21, 0x08, 0x82, 0x20, 0x48, 0x00].getD i 0) 6, [], 3, 0, 1, 0⟩
      "value" = .ok (-2 ^ 31, r') ∧ r'.bs.bitOffset = 42 := by
  have hcode : encSignRotated 64 (-2 ^ 31) = 2 ^ 32 + 1 := by decide
  have henc : encVbr 6 (encSignRotated 64 (-2 ^ 31)) = [true, false, false, false, false, true] ++
      (List.replicate 5 [false, false, false, false, false, true]).flatten ++ [false, false, true, false, false, false] := by
    rw [hcode]
    simp [encVbr, vbrChunks, bitList, List.range, List.range.loop, Nat.testBit, List.replicate]
  have hat : (pnBitstreamInit (fun i => [0x21, 0x08, 0x82, 0x20, 0x48, 0x00].getD i 0) 6).At
      (encVbr 6 (encSignRotated 64 (-2 ^ 31))) := by
    rw [henc]
    exact ⟨by decide, by decide⟩
  have hfield := VbrField.unabbreviated
    (r := ⟨pnBitstreamInit (fun i => [0x21, 0x08, 0x82, 0x20, 0x48, 0x00].getD i 0) 6, [], 3, 0, 1, 0⟩) rfl (by decide) hat rfl
  obtain ⟨r', hread, hoff⟩ := ((signRotated_decodes.2.2.2.2.2 (-2 ^ 31) _ _ "value" (by decide) (by decide)
    ⟨_, 6, [], by decide, by simp, rfl⟩ hfield).1 ⟨by decide, by decide⟩)
  refine ⟨r', hread, hoff.trans ?_⟩
  rw [henc]
  decide

end Pnacl
