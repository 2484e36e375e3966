import Pnacl.BitStream
import Mathlib.Tactic.IntervalCases
import Mathlib.Tactic.NormNum

/-!
# Variable bit rate integers

A VBR-`n` integer is a list of `n`-bit chunks, low chunk first: the low `n - 1` bits of a chunk are payload, its high
bit says that another chunk follows. `pn_bitstream.h` decodes it in three loops: `pn_bitstream_read_vbr_uint64` for
64-bit results, `pn_bitstream_read_vbr` for 32-bit results, which may also be sign extended to 64 bits, and a copy of
the latter for the common width 6.

The 32-bit loop is the 64-bit loop followed by a range check (`readVbrGeneric_eq`), and the copy for width 6 is the
32-bit loop at that width (`pnBitstreamReadVbr6_eq`). So one induction over the chunks of the canonical encoding
(`readVbrUint64Loop_chunks`) covers all three (`vbr_decodes`).
-/

namespace Pnacl

open Lib PNBitStream

/-- `PN_CHECK` at the end of the 32-bit loops: the value is below `2 ^ 32`, or is sign extended so that the top 32 bits
are all 1. -/
def vbrRangeCheck (result : Nat) : Except Stop Unit :=
  pnCheck (result ≤ 2 ^ 32 - 1 ∨ (result &&& 0x80000000 ≠ 0 ∧ result >>> 32 = 2 ^ 32 - 1))
    "result <= UINT32_MAX || ((result & 0x80000000) && ((result >> 32) == UINT32_MAX))"

/-- The `while (shift < 64)` loop of `pn_bitstream_read_vbr6`. -/
def readVbr6Loop : Nat → PNBitStream → Nat → Nat → Except Stop (Nat × PNBitStream)
  | 0, _, _, _ => .error .fuel
  | fuel + 1, bs, result, shift =>
    if shift < 64 then do
      let (piece, bs) ← pnBitstreamRead bs 6
      let result := result ||| ((piece &&& 31) <<< shift) % 2 ^ 64
      if piece &&& 32 = 0 then do
        vbrRangeCheck result
        .ok (result % 2 ^ 32, bs)
      else readVbr6Loop fuel bs result (shift + 5)
    else .error .unreachable

/-- `pn_bitstream_read_vbr6`. Every iteration reads at least one bit, so `8 * dataLen + 1` of them are enough. -/
def pnBitstreamReadVbr6 (bs : PNBitStream) : Except Stop (Nat × PNBitStream) := do
  let fuel := 8 * bs.dataLen + 1
  let (piece, bs) ← pnBitstreamRead bs 6
  if piece &&& 32 = 0 then .ok (piece % 2 ^ 32, bs)
  else readVbr6Loop fuel bs (piece &&& 31) 5

/-- The loop of `pn_bitstream_read_vbr`. -/
def readVbrLoop (numBits hiMask loMask : Nat) : Nat → PNBitStream → Nat → Nat → Except Stop (Nat × PNBitStream)
  | 0, _, _, _ => .error .fuel
  | fuel + 1, bs, result, shift =>
    if shift < 64 then do
      let (piece, bs) ← pnBitstreamRead bs numBits
      let result := result ||| ((piece &&& loMask) <<< shift) % 2 ^ 64
      if piece &&& hiMask = 0 then do
        vbrRangeCheck result
        .ok (result % 2 ^ 32, bs)
      else readVbrLoop numBits hiMask loMask fuel bs result (shift + (numBits - 1))
    else .error .unreachable

/-- `(uint64_t)(1 << k)`: the shift is one of `int`, so `1 << 31` is negative and is sign extended. -/
def oneShlU64 (k : Nat) : Nat := (Int.bmod (2 ^ k) (2 ^ 32) % 2 ^ 64).toNat

/-- `pn_bitstream_read_vbr` behind its test for width 6. -/
def readVbrGeneric (bs : PNBitStream) (numBits : Nat) : Except Stop (Nat × PNBitStream) := do
  let fuel := 8 * bs.dataLen + 1
  let (piece, bs) ← pnBitstreamRead bs numBits
  if numBits = 0 then .error (.undefined "1 << -1") else
  let hiMask := oneShlU64 (numBits - 1)
  if piece &&& hiMask = 0 then .ok (piece % 2 ^ 32, bs)
  else
    let loMask := hiMask - 1
    readVbrLoop numBits hiMask loMask fuel bs (piece &&& loMask) (numBits - 1)

/-- `pn_bitstream_read_vbr`. -/
def pnBitstreamReadVbr (bs : PNBitStream) (numBits : Nat) : Except Stop (Nat × PNBitStream) :=
  -- 6 bits is very common, so special case it
  if numBits = 6 then pnBitstreamReadVbr6 bs else readVbrGeneric bs numBits

/-- The loop of `pn_bitstream_read_vbr_uint64`. -/
def readVbrUint64Loop (numBits hiMask loMask : Nat) : Nat → PNBitStream → Nat → Nat → Except Stop (Nat × PNBitStream)
  | 0, _, _, _ => .error .fuel
  | fuel + 1, bs, result, shift =>
    if shift < 64 then do
      let (piece, bs) ← pnBitstreamRead bs numBits
      let result := result ||| ((piece &&& loMask) <<< shift) % 2 ^ 64
      if piece &&& hiMask = 0 then .ok (result, bs)
      else readVbrUint64Loop numBits hiMask loMask fuel bs result (shift + (numBits - 1))
    else .error .unreachable

/-- `pn_bitstream_read_vbr_uint64`. Its masks are 32 bits wide. -/
def pnBitstreamReadVbrUint64 (bs : PNBitStream) (numBits : Nat) : Except Stop (Nat × PNBitStream) := do
  let fuel := 8 * bs.dataLen + 1
  let (piece, bs) ← pnBitstreamRead bs numBits
  if numBits = 0 then .error (.undefined "1 << -1") else
  let hiMask := 2 ^ (numBits - 1)
  if piece &&& hiMask = 0 then .ok (piece, bs)
  else
    let loMask := hiMask - 1
    readVbrUint64Loop numBits hiMask loMask fuel bs (piece &&& loMask) (numBits - 1)

/-! ## The copy for width 6 -/

theorem readVbr6Loop_eq : ∀ (fuel : Nat) (bs : PNBitStream) (result shift : Nat),
    readVbr6Loop fuel bs result shift = readVbrLoop 6 32 31 fuel bs result shift
  | 0, _, _, _ => rfl
  | fuel + 1, bs, result, shift => by
    simp only [readVbr6Loop, readVbrLoop]
    split_ifs with h
    · congr 1
      funext p
      split_ifs
      · rfl
      · exact readVbr6Loop_eq fuel p.2 _ _
    · rfl

/-- The special case agrees with the generic code at its width, on every stream. -/
theorem pnBitstreamReadVbr6_eq (bs : PNBitStream) : pnBitstreamReadVbr6 bs = readVbrGeneric bs 6 := by
  have hm : oneShlU64 (6 - 1) = 32 := by decide
  simp only [pnBitstreamReadVbr6, readVbrGeneric, hm, readVbr6Loop_eq]
  rfl

theorem pnBitstreamReadVbr_eq (bs : PNBitStream) (n : Nat) : pnBitstreamReadVbr bs n = readVbrGeneric bs n := by
  unfold pnBitstreamReadVbr
  split
  · next h => rw [h]; exact pnBitstreamReadVbr6_eq bs
  · rfl

/-! ## Masks -/

theorem oneShlU64_of_lt {k : Nat} (h : k < 31) : oneShlU64 k = 2 ^ k := by
  interval_cases k <;> rfl

theorem oneShlU64_31 : oneShlU64 31 = 2 ^ 64 - 2 ^ 31 := by decide

/-- The continuation bit of a chunk. -/
theorem and_hi_eq_zero {c k : Nat} (h : c < 2 ^ (k + 1)) : c &&& 2 ^ k = 0 ↔ c < 2 ^ k := by
  rw [Nat.and_two_pow]
  constructor
  · intro h0
    refine Nat.lt_pow_two_of_testBit _ fun i hi => ?_
    rcases Nat.lt_or_ge k i with hlt | hge
    · exact Nat.testBit_lt_two_pow (Nat.lt_of_lt_of_le h (Nat.pow_le_pow_right (by omega) hlt))
    · have : i = k := by omega
      subst this
      have := Nat.two_pow_pos i
      cases hb : c.testBit i
      · rfl
      · simp [hb] at h0
  · intro hc
    simp [Nat.testBit_lt_two_pow hc]

/-- On 32-bit chunks the sign-extended masks of `pn_bitstream_read_vbr` are the masks of the 64-bit loop. -/
theorem and_oneShlU64 {c k : Nat} (hk : k ≤ 31) (h : c < 2 ^ 32) : c &&& oneShlU64 k = c &&& 2 ^ k := by
  rcases Nat.lt_or_eq_of_le hk with hlt | rfl
  · rw [oneShlU64_of_lt hlt]
  · rw [oneShlU64_31]
    refine Nat.eq_of_testBit_eq fun i => ?_
    rw [Nat.testBit_and, Nat.testBit_and, show (2 : Nat) ^ 64 - 2 ^ 31 = (2 ^ 33 - 1) * 2 ^ 31 by norm_num,
      Nat.testBit_mul_two_pow, Nat.testBit_two_pow_sub_one, Nat.testBit_two_pow]
    by_cases hi : i < 32
    · by_cases h31 : i = 31
      · subst h31; simp
      · simp [show ¬31 ≤ i by omega, show ¬31 = i by omega]
    · simp [Nat.testBit_lt_two_pow (Nat.lt_of_lt_of_le h (Nat.pow_le_pow_right (by omega) (show 32 ≤ i by omega)))]

theorem and_oneShlU64_pred {c k : Nat} (hk : k ≤ 31) (h : c < 2 ^ 32) : c &&& (oneShlU64 k - 1) = c &&& (2 ^ k - 1) := by
  rcases Nat.lt_or_eq_of_le hk with hlt | rfl
  · rw [oneShlU64_of_lt hlt]
  · rw [oneShlU64_31]
    refine Nat.eq_of_testBit_eq fun i => ?_
    rw [Nat.testBit_and, Nat.testBit_and,
      show (2 : Nat) ^ 64 - 2 ^ 31 - 1 = 2 ^ 32 * (2 ^ 32 - 1) + (2 ^ 31 - 1) by norm_num,
      Nat.testBit_two_pow_mul_add _ (by norm_num)]
    by_cases hi : i < 32
    · simp [hi]
    · simp [Nat.testBit_lt_two_pow (Nat.lt_of_lt_of_le h (Nat.pow_le_pow_right (by omega) (show 32 ≤ i by omega)))]

/-! ## The 32-bit loop is the 64-bit loop and a range check -/

theorem readVbrLoop_eq {n : Nat} (hn0 : 0 < n) (hn : n ≤ 32) : ∀ (fuel : Nat) {bs : PNBitStream}, Inv bs →
    ∀ (result shift : Nat), readVbrLoop n (oneShlU64 (n - 1)) (oneShlU64 (n - 1) - 1) fuel bs result shift =
      (do
        let (r, bs') ← readVbrUint64Loop n (2 ^ (n - 1)) (2 ^ (n - 1) - 1) fuel bs result shift
        vbrRangeCheck r
        .ok (r % 2 ^ 32, bs'))
  | 0, _, _, _, _ => rfl
  | fuel + 1, bs, h, result, shift => by
    simp only [readVbrLoop, readVbrUint64Loop]
    split_ifs with hs
    · rcases pnBitstreamRead_cases h hn with ⟨c, bs', hr, hc, hi, -⟩ | ⟨e, hr, -⟩
      · have h32 : c < 2 ^ 32 := Nat.lt_of_lt_of_le hc (Nat.pow_le_pow_right (by omega) hn)
        rw [hr, ok_bind, ok_bind]
        simp only [and_oneShlU64 (show n - 1 ≤ 31 by omega) h32, and_oneShlU64_pred (show n - 1 ≤ 31 by omega) h32]
        split_ifs with h0
        · rfl
        · exact readVbrLoop_eq hn0 hn fuel hi _ _
      · rw [hr]; rfl
    · rfl

theorem readVbrGeneric_eq {n : Nat} (hn0 : 0 < n) (hn : n ≤ 32) {bs : PNBitStream} (h : Inv bs) :
    readVbrGeneric bs n = (do
      let (r, bs') ← pnBitstreamReadVbrUint64 bs n
      vbrRangeCheck r
      .ok (r % 2 ^ 32, bs')) := by
  simp only [readVbrGeneric, pnBitstreamReadVbrUint64, if_neg (show n ≠ 0 by omega)]
  rcases pnBitstreamRead_cases h hn with ⟨c, bs', hr, hc, hi, -⟩ | ⟨e, hr, -⟩
  · have h32 : c < 2 ^ 32 := Nat.lt_of_lt_of_le hc (Nat.pow_le_pow_right (by omega) hn)
    rw [hr, ok_bind, ok_bind]
    simp only [and_oneShlU64 (show n - 1 ≤ 31 by omega) h32, and_oneShlU64_pred (show n - 1 ≤ 31 by omega) h32]
    split_ifs with h0
    · rw [ok_bind]
      simp only [vbrRangeCheck]
      rw [pnCheck_bind (Or.inl (by omega))]
    · exact readVbrLoop_eq hn0 hn _ hi _ _
  · rw [hr]; rfl

/-- The values that pass the range check of the 32-bit loops. -/
theorem vbrRange_iff {v : Nat} (hv : v < 2 ^ 64) :
    (v ≤ 2 ^ 32 - 1 ∨ (v &&& 0x80000000 ≠ 0 ∧ v >>> 32 = 2 ^ 32 - 1)) ↔ (v < 2 ^ 32 ∨ 2 ^ 64 - 2 ^ 31 ≤ v) := by
  have hand : v &&& 0x80000000 = if v.testBit 31 then 2 ^ 31 else 0 := by
    rw [show (0x80000000 : Nat) = 2 ^ 31 by norm_num, Nat.and_two_pow]
    cases v.testBit 31 <;> simp
  have hbit : v.testBit 31 = decide (v / 2 ^ 31 % 2 = 1) := Nat.testBit_eq_decide_div_mod_eq
  rw [hand, hbit, Nat.shiftRight_eq_div_pow]
  by_cases hb : v / 2 ^ 31 % 2 = 1
  · simp; omega
  · simp; omega

/-! ## The canonical encoding -/

/-- The chunks that LLVM's writer emits for `v` at width `n`. -/
def vbrChunks (n v : Nat) : List Nat :=
  if h : 2 ≤ n ∧ 2 ^ (n - 1) ≤ v then (v % 2 ^ (n - 1) + 2 ^ (n - 1)) :: vbrChunks n (v / 2 ^ (n - 1)) else [v]
termination_by v
decreasing_by
  refine Nat.div_lt_self (Nat.lt_of_lt_of_le (Nat.two_pow_pos _) h.2) ?_
  exact Nat.one_lt_two_pow (by omega)

/-- The canonical VBR-`n` encoding of `v` as a bit string. -/
def encVbr (n v : Nat) : List Bool := (vbrChunks n v).flatMap (bitList n)

theorem vbrChunks_last {n v : Nat} (h : v < 2 ^ (n - 1)) : vbrChunks n v = [v] := by
  rw [vbrChunks, dif_neg (by omega)]

theorem vbrChunks_more {n v : Nat} (hn : 2 ≤ n) (h : 2 ^ (n - 1) ≤ v) :
    vbrChunks n v = (v % 2 ^ (n - 1) + 2 ^ (n - 1)) :: vbrChunks n (v / 2 ^ (n - 1)) := by
  rw [vbrChunks, dif_pos ⟨hn, h⟩]

theorem length_encVbr (n v : Nat) : (encVbr n v).length = n * (vbrChunks n v).length := by
  simp only [encVbr, List.length_flatMap, length_bitList, List.map_const', List.sum_replicate_nat]
  exact Nat.mul_comm _ _

/-! ## Decoding -/

/-- The stream holds the bit string `l` at its position, inside the data. -/
def PNBitStream.At (bs : PNBitStream) (l : List Bool) : Prop :=
  HasBits bs.bit bs.bitOffset l ∧ bs.bitOffset + l.length ≤ 8 * bs.dataLen

/-- The stream `bs'` is `bs` moved on by `k` bits. -/
structure PNBitStream.Moved (bs : PNBitStream) (k : Nat) (bs' : PNBitStream) : Prop where
  inv : Inv bs'
  same : SameFile bs bs'
  offset : bs'.bitOffset = bs.bitOffset + k

theorem PNBitStream.Moved.trans {a b c : PNBitStream} {j k : Nat} (h : Moved a j b) (h' : Moved b k c) :
    Moved a (j + k) c :=
  ⟨h'.inv, h.same.trans h'.same, by rw [h'.offset, h.offset, Nat.add_assoc]⟩

/-- Behind the first part of a bit string stands the rest. -/
theorem PNBitStream.At.rest {bs bs' : PNBitStream} {l m : List Bool} (h : bs.At (l ++ m))
    (hm : Moved bs l.length bs') : bs'.At m := by
  obtain ⟨hb, hl⟩ := h
  rw [List.length_append] at hl
  refine ⟨?_, ?_⟩
  · rw [hm.same.bit_eq, hm.offset]; exact (hasBits_append.mp hb).2
  · rw [hm.offset, hm.same.2]; omega

theorem PNBitStream.At.first {bs : PNBitStream} {l m : List Bool} (h : bs.At (l ++ m)) : bs.At l := by
  obtain ⟨hb, hl⟩ := h
  rw [List.length_append] at hl
  exact ⟨(hasBits_append.mp hb).1, by omega⟩

/-- A fixed-width field is read back. -/
theorem read_fixed {bs : PNBitStream} (h : Inv bs) {n v : Nat} (hn : n ≤ 32) (hv : v < 2 ^ n)
    (hat : bs.At (bitList n v)) : ∃ bs', pnBitstreamRead bs n = .ok (v, bs') ∧ Moved bs n bs' := by
  obtain ⟨hb, hl⟩ := hat
  rw [length_bitList] at hl
  obtain ⟨bs', hr, hi, hs, ho⟩ := pnBitstreamRead_spec h hn hl
  rw [hb.bitsAt_eq hv] at hr
  exact ⟨bs', hr, hi, hs, ho⟩

theorem and_lo_more {n p : Nat} (hp : p < 2 ^ (n - 1)) : (p + 2 ^ (n - 1)) &&& (2 ^ (n - 1) - 1) = p := by
  rw [Nat.and_two_pow_sub_one_eq_mod, Nat.add_mod_right, Nat.mod_eq_of_lt hp]

theorem and_lo_last {n p : Nat} (hp : p < 2 ^ (n - 1)) : p &&& (2 ^ (n - 1) - 1) = p := by
  rw [Nat.and_two_pow_sub_one_eq_mod, Nat.mod_eq_of_lt hp]

theorem and_hi_more {n p : Nat} (hp : p < 2 ^ (n - 1)) : (p + 2 ^ (n - 1)) &&& 2 ^ (n - 1) ≠ 0 := by
  intro h0
  have := (and_hi_eq_zero (by rw [Nat.pow_succ]; omega)).mp h0
  omega

theorem and_hi_last {n p : Nat} (hp : p < 2 ^ (n - 1)) : p &&& 2 ^ (n - 1) = 0 :=
  (and_hi_eq_zero (by rw [Nat.pow_succ]; omega)).mpr hp

/-- One more chunk at `shift` adds its payload there. -/
theorem or_payload {result shift p : Nat} (hr : result < 2 ^ shift) (hp : result + p * 2 ^ shift < 2 ^ 64) :
    result ||| (p <<< shift) % 2 ^ 64 = result + p * 2 ^ shift := by
  rw [Nat.shiftLeft_eq, Nat.mod_eq_of_lt (by omega), Nat.or_comm, Nat.mul_comm, ← Nat.two_pow_add_eq_or_of_lt hr]
  omega

/-- **The 64-bit loop decodes the rest of a canonical encoding.** -/
theorem readVbrUint64Loop_chunks {n : Nat} (hn2 : 2 ≤ n) (hn : n ≤ 32) : ∀ (fuel : Nat) {bs : PNBitStream}, Inv bs →
    ∀ (v result shift : Nat), (vbrChunks n v).length ≤ fuel → bs.At (encVbr n v) → shift < 64 → result < 2 ^ shift →
      result + v * 2 ^ shift < 2 ^ 64 →
      ∃ bs', readVbrUint64Loop n (2 ^ (n - 1)) (2 ^ (n - 1) - 1) fuel bs result shift =
        .ok (result + v * 2 ^ shift, bs') ∧ Moved bs (encVbr n v).length bs'
  | 0, _, _, v, _, _, hf, _, _, _, _ => by
    rw [vbrChunks] at hf
    split at hf <;> simp at hf
  | fuel + 1, bs, h, v, result, shift, hf, hat, hs, hr, hlt => by
    have hpow : 2 ^ (n - 1) * 2 = 2 ^ n := by rw [← Nat.pow_succ]; congr 1; omega
    simp only [readVbrUint64Loop, if_pos hs]
    by_cases hv : v < 2 ^ (n - 1)
    · -- the last chunk
      have hch : encVbr n v = bitList n v := by simp [encVbr, vbrChunks_last hv]
      rw [hch] at hat ⊢
      obtain ⟨bs', hrd, hm⟩ := read_fixed h hn (by omega) hat
      refine ⟨bs', ?_, by simpa using hm⟩
      rw [hrd, ok_bind]
      simp only [and_lo_last hv, and_hi_last hv, if_pos, or_payload hr hlt]
    · -- a chunk with its continuation bit
      have hge : 2 ^ (n - 1) ≤ v := by omega
      have hmod := Nat.mod_lt v (Nat.two_pow_pos (n - 1))
      have hdiv := Nat.div_add_mod v (2 ^ (n - 1))
      generalize hc : v % 2 ^ (n - 1) = c at hmod hdiv
      generalize hw : v / 2 ^ (n - 1) = w at hdiv
      have hch : encVbr n v = bitList n (c + 2 ^ (n - 1)) ++ encVbr n w := by
        simp [encVbr, vbrChunks_more hn2 hge, hc, hw]
      have hlen : (vbrChunks n w).length ≤ fuel := by
        rw [vbrChunks_more hn2 hge, hw] at hf
        simpa using hf
      rw [hch] at hat ⊢
      obtain ⟨b₁, hrd, hm₁⟩ := read_fixed h hn (v := c + 2 ^ (n - 1)) (by omega) hat.first
      have hpow2 : 2 ^ (shift + (n - 1)) = 2 ^ (n - 1) * 2 ^ shift := by rw [Nat.pow_add, Nat.mul_comm]
      have hsplit : v * 2 ^ shift = c * 2 ^ shift + w * 2 ^ (shift + (n - 1)) := by
        rw [hpow2, ← hdiv]; ring
      have hw1 : 1 ≤ w := by
        rw [← hw]; exact (Nat.one_le_div_iff (Nat.two_pow_pos _)).mpr hge
      have hs' : shift + (n - 1) < 64 := by
        have h1 : 2 ^ (shift + (n - 1)) ≤ w * 2 ^ (shift + (n - 1)) := Nat.le_mul_of_pos_left _ hw1
        exact (Nat.pow_lt_pow_iff_right (by omega : 1 < 2)).mp (by omega : 2 ^ (shift + (n - 1)) < 2 ^ 64)
      have hr' : result + c * 2 ^ shift < 2 ^ (shift + (n - 1)) := by
        rw [hpow2]
        have : c * 2 ^ shift + 2 ^ shift ≤ 2 ^ (n - 1) * 2 ^ shift := by
          rw [← Nat.succ_mul]; exact Nat.mul_le_mul_right _ hmod
        omega
      obtain ⟨b₂, hl, hm₂⟩ := readVbrUint64Loop_chunks hn2 hn fuel hm₁.inv w _ _ hlen
        (hat.rest (by simpa using hm₁)) hs' hr' (by omega)
      refine ⟨b₂, ?_, by simpa using hm₁.trans hm₂⟩
      rw [hrd, ok_bind]
      simp only [and_lo_more hmod, if_neg (and_hi_more hmod), or_payload hr (show result + c * 2 ^ shift < 2 ^ 64 by omega)]
      rw [hl, hsplit, Nat.add_assoc]

/-- The first chunk is read as the loop reads it, into an empty result. -/
theorem readVbrUint64_eq_loop {n : Nat} (hn0 : 0 < n) (hn : n ≤ 32) {bs : PNBitStream} (h : Inv bs) :
    pnBitstreamReadVbrUint64 bs n =
      readVbrUint64Loop n (2 ^ (n - 1)) (2 ^ (n - 1) - 1) (8 * bs.dataLen + 1 + 1) bs 0 0 := by
  rw [readVbrUint64Loop, if_pos (by omega)]
  simp only [Nat.zero_or, Nat.shiftLeft_zero, Nat.zero_add, pnBitstreamReadVbrUint64, if_neg (show n ≠ 0 by omega)]
  rcases pnBitstreamRead_cases h hn with ⟨c, b₁, hr, hc, -⟩ | ⟨e, hr, -⟩
  · rw [hr, ok_bind, ok_bind]
    have h64 : c < 2 ^ 64 := hc.trans_le (Nat.pow_le_pow_right (by omega) (by omega))
    have hand : (c &&& (2 ^ (n - 1) - 1)) % 2 ^ 64 = c &&& (2 ^ (n - 1) - 1) :=
      Nat.mod_eq_of_lt (Nat.lt_of_le_of_lt Nat.and_le_left h64)
    simp only [hand]
    split
    · rename_i h0
      have hpow : 2 ^ (n - 1 + 1) = 2 ^ n := by congr 1; omega
      rw [Nat.and_two_pow_sub_one_eq_mod, Nat.mod_eq_of_lt ((and_hi_eq_zero (by omega)).mp h0)]
    · rfl
  · rw [hr]
    rfl

/-- **`pn_bitstream_read_vbr_uint64` undoes the encoding.** -/
theorem readVbrUint64_enc {n v : Nat} (hn2 : 2 ≤ n) (hn : n ≤ 32) (hv : v < 2 ^ 64) {bs : PNBitStream} (h : Inv bs)
    (hat : bs.At (encVbr n v)) :
    ∃ bs', pnBitstreamReadVbrUint64 bs n = .ok (v, bs') ∧ Moved bs (encVbr n v).length bs' := by
  have hlen : (vbrChunks n v).length ≤ 8 * bs.dataLen + 1 := by
    have h1 := hat.2
    rw [length_encVbr] at h1
    have : (vbrChunks n v).length ≤ n * (vbrChunks n v).length := Nat.le_mul_of_pos_left _ (by omega)
    omega
  obtain ⟨bs', hl, hm⟩ := readVbrUint64Loop_chunks hn2 hn (8 * bs.dataLen + 1 + 1) h v 0 0
    (by omega) hat (by omega) (by simp) (by simpa using hv)
  rw [readVbrUint64_eq_loop (by omega) hn h]
  exact ⟨bs', by simpa using hl, hm⟩

/-- **`pn_bitstream_read_vbr` undoes the encoding** of 32-bit and of sign-extended values and exits on the others. -/
theorem readVbr_enc {n v : Nat} (hn2 : 2 ≤ n) (hn : n ≤ 32) (hv : v < 2 ^ 64) {bs : PNBitStream} (h : Inv bs)
    (hat : bs.At (encVbr n v)) :
    ((v < 2 ^ 32 ∨ 2 ^ 64 - 2 ^ 31 ≤ v) →
      ∃ bs', pnBitstreamReadVbr bs n = .ok (v % 2 ^ 32, bs') ∧ Moved bs (encVbr n v).length bs') ∧
    (¬(v < 2 ^ 32 ∨ 2 ^ 64 - 2 ^ 31 ≤ v) → ∃ e, pnBitstreamReadVbr bs n = .error e ∧ e.IsExit) := by
  obtain ⟨bs', hr, hm⟩ := readVbrUint64_enc hn2 hn hv h hat
  rw [pnBitstreamReadVbr_eq, readVbrGeneric_eq (by omega) hn h, hr, ok_bind]
  simp only [vbrRangeCheck]
  refine ⟨fun hc => ⟨bs', by rw [pnCheck_bind ((vbrRange_iff hv).mpr hc)], hm⟩, fun hc => ?_⟩
  rw [pnCheck_bind_neg (fun hp => hc ((vbrRange_iff hv).mp hp))]
  exact ⟨_, rfl, trivial⟩

/-- **VBR decoding undoes VBR encoding**, at every width, in every reachable state of the stream, on the fast and on the
slow path. -/
theorem vbr_decodes (n : Nat) (hn2 : 2 ≤ n) (hn : n ≤ 32) (v : Nat) (hv : v < 2 ^ 64) (bs : PNBitStream)
    (hbs : bs.Reachable) (hat : bs.At (encVbr n v)) :
    (∃ bs', pnBitstreamReadVbrUint64 bs n = .ok (v, bs') ∧ bs'.bitOffset = bs.bitOffset + (encVbr n v).length) ∧
    ((v < 2 ^ 32 ∨ 2 ^ 64 - 2 ^ 31 ≤ v) →
      ∃ bs', pnBitstreamReadVbr bs n = .ok (v % 2 ^ 32, bs') ∧ bs'.bitOffset = bs.bitOffset + (encVbr n v).length) ∧
    (¬(v < 2 ^ 32 ∨ 2 ^ 64 - 2 ^ 31 ≤ v) → ∃ e, pnBitstreamReadVbr bs n = .error e ∧ e.IsExit) ∧
    (∀ s : PNBitStream, pnBitstreamReadVbr6 s = readVbrGeneric s 6) := by
  obtain ⟨b₁, h₁, hm₁⟩ := readVbrUint64_enc hn2 hn hv hbs.inv hat
  obtain ⟨hok, hexit⟩ := readVbr_enc hn2 hn hv hbs.inv hat
  refine ⟨⟨b₁, h₁, hm₁.offset⟩, fun hc => ?_, hexit, pnBitstreamReadVbr6_eq⟩
  obtain ⟨b₂, h₂, hm₂⟩ := hok hc
  exact ⟨b₂, h₂, hm₂.offset⟩

/-- The value 100 at width 4 takes the chunks 12, 12, 1. -/
theorem vbr_decodes_hundred :
    ∃ bs', pnBitstreamReadVbr (pnBitstreamInit (fun i => [0xCC, 0x01].getD i 0) 2) 4 = .ok (100, bs') ∧
      bs'.bitOffset = 12 := by
  have henc : encVbr 4 100 = [false, false, true, true, false, false, true, true, true, false, false, false] := by
    simp [encVbr, vbrChunks, bitList, List.range, List.range.loop, Nat.testBit]
  have hat : (pnBitstreamInit (fun i => [0xCC, 0x01].getD i 0) 2).At (encVbr 4 100) := by
    rw [henc]
    exact ⟨by decide, by decide⟩
  have h := (vbr_decodes 4 (by decide) (by decide) 100 (by decide) _
    ⟨_, 2, [], by decide, by simp, rfl⟩ hat).2.1 (Or.inl (by decide))
  rw [henc] at h
  exact h

end Pnacl
