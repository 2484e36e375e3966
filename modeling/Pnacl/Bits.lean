import Pnacl.Basic
import Mathlib.Data.Nat.Bitwise
import Mathlib.Tactic.Ring

/-!
# Powers of two and alignment

The helpers of `pn_bits.h` and `pn_malloc.h`. `pn_align_down` and `pn_align_up` work on `size_t`, but their mask
`~(align - 1)` is a `uint32_t`, so the result loses every bit above the low 32. Pointers have 64 bits.
-/

namespace Pnacl

/-- `pn_is_power_of_two`. -/
def pnIsPowerOfTwo (value : Nat) : Bool := 0 < value && value &&& (value - 1) == 0

/-- The loop of `pn_next_power_of_two`; above `2 ^ 63` it never ends, since `ret` becomes `0`. -/
def nextPowerOfTwoLoop (value : Nat) : Nat → Nat → Except Stop Nat
  | 0, _ => .error .fuel
  | fuel + 1, ret => if ret < value then nextPowerOfTwoLoop value fuel ((ret <<< 1) % 2 ^ 64) else .ok ret

/-- `pn_next_power_of_two`. -/
def pnNextPowerOfTwo (value : Nat) : Except Stop Nat := nextPowerOfTwoLoop value 65 1

/-- `pn_align_down`. -/
def pnAlignDown (size align : Nat) : Nat := size &&& (2 ^ 32 - align)

/-- `pn_align_up`. -/
def pnAlignUp (size align : Nat) : Nat := (size + align - 1) &&& (2 ^ 32 - align)

/-- `pn_align_up_pointer`. -/
def pnAlignUpPointer (p align : Nat) : Except Stop Nat := do
  cAssert (pnIsPowerOfTwo align) "pn_is_power_of_two(align)"
  .ok (((p + align - 1) % 2 ^ 64) &&& (2 ^ 64 - align))

/-- `pn_is_aligned_pointer`. -/
def pnIsAlignedPointer (p align : Nat) : Except Stop Bool := do
  cAssert (pnIsPowerOfTwo align) "pn_is_power_of_two(align)"
  .ok (p &&& (align - 1) == 0)

/-! ## 32-bit alignment -/

/-- Masking with the complement of `2 ^ k - 1` in `w` bits. -/
theorem and_mask (x : Nat) {w k : Nat} (hk : k ≤ w) : x &&& (2 ^ w - 2 ^ k) = x % 2 ^ w / 2 ^ k * 2 ^ k := by
  refine Nat.eq_of_testBit_eq fun i => ?_
  have e : 2 ^ w - 2 ^ k = (2 ^ (w - k) - 1) * 2 ^ k := by
    rw [Nat.sub_mul, ← Nat.pow_add, Nat.one_mul, Nat.sub_add_cancel hk]
  rw [e, Nat.testBit_and, Nat.testBit_mul_two_pow, Nat.testBit_mul_two_pow, Nat.testBit_two_pow_sub_one,
    Nat.testBit_div_two_pow, Nat.testBit_mod_two_pow]
  by_cases h : k ≤ i
  · rw [show i - k + k = i by omega]
    have : decide (i - k < w - k) = decide (i < w) := decide_eq_decide.mpr (by omega)
    simp [h, this, Bool.and_comm]
  · simp [h]

theorem pnAlignDown_32 {x : Nat} (h : x < 2 ^ 32) : pnAlignDown x 32 = x / 32 * 32 := by
  have := and_mask x (show 5 ≤ 32 by omega)
  rw [Nat.mod_eq_of_lt h] at this
  exact this

theorem pnAlignUp_32 (x : Nat) : pnAlignUp x 32 = (x + 31) % 2 ^ 32 / 32 * 32 := and_mask (x + 31) (show 5 ≤ 32 by omega)

theorem pnAlignUp_32_lt (x : Nat) : pnAlignUp x 32 < 2 ^ 32 := by
  rw [pnAlignUp_32]
  have := Nat.mod_lt (x + 31) (show 2 ^ 32 > 0 by omega)
  omega

/-! ## Powers of two and pointers -/

theorem pnIsPowerOfTwo_iff {n : Nat} : pnIsPowerOfTwo n = true ↔ n.isPowerOfTwo := by
  rw [← Nat.ne_zero_and_sub_one_eq_zero_iff_isPowerOfTwo]
  simp [pnIsPowerOfTwo, Nat.pos_iff_ne_zero]

/-- From `2 ^ j` on the loop stops at the first power of two that is not below `value`. -/
theorem nextPowerOfTwoLoop_spec {value : Nat} (hv : value ≤ 2 ^ 63) :
    ∀ fuel j : Nat, 63 < fuel + j → j ≤ 63 → ∃ r, nextPowerOfTwoLoop value fuel (2 ^ j) = .ok r ∧ value ≤ r
  | 0, j, hf, hj => by omega
  | fuel + 1, j, hf, hj => by
    unfold nextPowerOfTwoLoop
    split
    next hlt =>
      have hj' : j < 63 := by
        rcases Nat.lt_or_ge j 63 with h | h
        · exact h
        · have := Nat.pow_le_pow_right (show 0 < 2 by omega) h
          omega
      have h64 : 2 ^ (j + 1) < 2 ^ 64 := Nat.pow_lt_pow_right (by omega) (by omega)
      have hs : (2 ^ j <<< 1) % 2 ^ 64 = 2 ^ (j + 1) := by
        rw [Nat.shiftLeft_eq, ← Nat.pow_add, Nat.mod_eq_of_lt h64]
      rw [hs]
      exact nextPowerOfTwoLoop_spec hv fuel (j + 1) (by omega) (by omega)
    next hge => exact ⟨2 ^ j, rfl, by omega⟩

theorem pnNextPowerOfTwo_spec {value : Nat} (hv : value ≤ 2 ^ 63) : ∃ r, pnNextPowerOfTwo value = .ok r ∧ value ≤ r :=
  nextPowerOfTwoLoop_spec hv 65 0 (by omega) (by omega)

/-- Aligning a pointer moves it up by less than the alignment. -/
theorem pnAlignUpPointer_spec {p align : Nat} (ha : align.isPowerOfTwo) (hp : p + align ≤ 2 ^ 64) :
    ∃ r, pnAlignUpPointer p align = .ok r ∧ p ≤ r ∧ r < p + align ∧ align ∣ r := by
  have h2 : pnIsPowerOfTwo align = true := pnIsPowerOfTwo_iff.mpr ha
  obtain ⟨k, rfl⟩ := ha
  have hpos : 0 < 2 ^ k := Nat.two_pow_pos k
  have hk : k ≤ 64 := (Nat.pow_le_pow_iff_right (a := 2) (by omega)).mp (by omega)
  refine ⟨(p + 2 ^ k - 1) / 2 ^ k * 2 ^ k, ?_, ?_, ?_, Nat.dvd_mul_left _ _⟩
  · unfold pnAlignUpPointer
    rw [cAssert_bind h2, and_mask _ hk, Nat.mod_mod, Nat.mod_eq_of_lt (by omega)]
  · have hd := Nat.div_add_mod (p + 2 ^ k - 1) (2 ^ k)
    have hm := Nat.mod_lt (p + 2 ^ k - 1) hpos
    rw [Nat.mul_comm] at hd
    omega
  · have := Nat.div_mul_le_self (p + 2 ^ k - 1) (2 ^ k)
    omega

/-- Aligning an aligned pointer changes nothing. -/
theorem pnAlignUpPointer_self {p align : Nat} (ha : align.isPowerOfTwo) (hp : p + align ≤ 2 ^ 64) (hd : align ∣ p) :
    pnAlignUpPointer p align = .ok p := by
  obtain ⟨r, hr, hle, hlt, hdr⟩ := pnAlignUpPointer_spec ha hp
  obtain ⟨i, rfl⟩ := hd
  obtain ⟨j, rfl⟩ := hdr
  have hpos : 0 < align := by omega
  have hij : j < i + 1 := by
    rw [← Nat.mul_succ] at hlt
    exact Nat.lt_of_mul_lt_mul_left hlt
  have hji : i ≤ j := Nat.le_of_mul_le_mul_left hle hpos
  rw [hr, show j = i by omega]

theorem pnIsAlignedPointer_eight {p : Nat} (h : p % 8 = 0) : pnIsAlignedPointer p 8 = .ok true := by
  have : p &&& (8 - 1) = 0 := (Nat.and_two_pow_sub_one_eq_mod p 3).trans h
  unfold pnIsAlignedPointer
  rw [cAssert_bind (by decide), this]
  rfl

end Pnacl
