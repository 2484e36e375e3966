import Mathlib.Data.Nat.Bitwise
import Mathlib.Data.Nat.Size

/-!
# Bit strings, low bit first

A bit string is a function `f : Nat → Bool`. `bitsAt f p n` is the number whose `n` bits, low bit first, stand at
positions `p, …, p + n - 1`; `bitList n v` is the list of the low `n` bits of `v`; `HasBits f p l` says that the list
`l` stands at position `p`. A number that was laid out with `bitList` is read back with `bitsAt` (`HasBits.bitsAt_eq`).
-/

namespace Pnacl.Lib

/-- The number whose `n` bits stand at `p`, low bit first. -/
def bitsAt (f : Nat → Bool) (p n : Nat) : Nat := Nat.ofBits fun i : Fin n => f (p + i)

theorem bitsAt_lt (f : Nat → Bool) (p n : Nat) : bitsAt f p n < 2 ^ n := Nat.ofBits_lt_two_pow _

theorem testBit_bitsAt (f : Nat → Bool) (p n i : Nat) : (bitsAt f p n).testBit i = (decide (i < n) && f (p + i)) := by
  by_cases h : i < n
  · simp [bitsAt, Nat.testBit_ofBits_lt _ _ h, h]
  · simp [bitsAt, Nat.testBit_ofBits_ge _ _ (Nat.le_of_not_lt h), h]

/-- A number is the one at `p` if its bits are the ones at `p` and it has no others. -/
theorem eq_bitsAt {f : Nat → Bool} {p n x : Nat} (h : ∀ i, x.testBit i = (decide (i < n) && f (p + i))) :
    x = bitsAt f p n :=
  Nat.eq_of_testBit_eq fun i => by rw [h, testBit_bitsAt]

@[simp] theorem bitsAt_zero (f : Nat → Bool) (p : Nat) : bitsAt f p 0 = 0 := rfl

theorem bitsAt_congr {f g : Nat → Bool} {p n : Nat} (h : ∀ i, p ≤ i → i < p + n → f i = g i) :
    bitsAt f p n = bitsAt g p n := by
  refine eq_bitsAt fun i => ?_
  rw [testBit_bitsAt]
  by_cases hi : i < n
  · rw [h (p + i) (by omega) (by omega)]
  · simp [hi]

/-- The low `k` bits of a field are the field's first `k` bits. -/
theorem bitsAt_mod (f : Nat → Bool) (p : Nat) {k n : Nat} (h : k ≤ n) : bitsAt f p n % 2 ^ k = bitsAt f p k := by
  refine eq_bitsAt fun i => ?_
  rw [Nat.testBit_mod_two_pow, testBit_bitsAt]
  by_cases hi : i < k
  · simp [hi, show i < n by omega]
  · simp [hi]

/-- Dropping the low `k` bits of a field leaves the field that starts `k` bits later. -/
theorem bitsAt_shiftRight (f : Nat → Bool) (p : Nat) {k n : Nat} (h : k ≤ n) :
    bitsAt f p n >>> k = bitsAt f (p + k) (n - k) := by
  refine eq_bitsAt fun i => ?_
  rw [Nat.testBit_shiftRight, testBit_bitsAt, Nat.add_assoc]
  congr 1
  exact decide_eq_decide.mpr (by omega)

/-- Two adjacent fields, spliced. -/
theorem bitsAt_or_shiftLeft (f : Nat → Bool) (p m n : Nat) :
    bitsAt f p m ||| bitsAt f (p + m) n <<< m = bitsAt f p (m + n) := by
  refine eq_bitsAt fun i => ?_
  rw [Nat.testBit_or, Nat.testBit_shiftLeft, testBit_bitsAt, testBit_bitsAt]
  by_cases h : i < m
  · simp [h, show i < m + n by omega, show ¬m ≤ i by omega]
  · have e : p + m + (i - m) = p + i := by omega
    have e' : decide (i - m < n) = decide (i < m + n) := decide_eq_decide.mpr (by omega)
    simp [h, show m ≤ i by omega, e, e']

/-! ## Lists of bits -/

/-- The low `n` bits of `v`, low bit first. -/
def bitList (n v : Nat) : List Bool := (List.range n).map v.testBit

@[simp] theorem length_bitList (n v : Nat) : (bitList n v).length = n := by simp [bitList]

/-- The list `l` stands at position `p`. -/
def HasBits (f : Nat → Bool) (p : Nat) (l : List Bool) : Prop := ∀ i, ∀ h : i < l.length, f (p + i) = l[i]

instance (f : Nat → Bool) (p : Nat) (l : List Bool) : Decidable (HasBits f p l) :=
  inferInstanceAs (Decidable (∀ i, ∀ h : i < l.length, f (p + i) = l[i]))

theorem HasBits.nil (f : Nat → Bool) (p : Nat) : HasBits f p [] := fun _ h => absurd h (by simp)

theorem hasBits_append {f : Nat → Bool} {p : Nat} {l m : List Bool} :
    HasBits f p (l ++ m) ↔ HasBits f p l ∧ HasBits f (p + l.length) m := by
  constructor
  · intro h
    refine ⟨fun i hi => ?_, fun i hi => ?_⟩
    · rw [h i (by simp; omega), List.getElem_append_left hi]
    · have := h (l.length + i) (by simp; omega)
      rw [List.getElem_append_right (by omega)] at this
      simpa [Nat.add_assoc] using this
  · rintro ⟨hl, hm⟩ i hi
    by_cases h : i < l.length
    · rw [hl i h, List.getElem_append_left h]
    · rw [List.getElem_append_right (by omega)]
      have := hm (i - l.length) (by simp at hi; omega)
      rwa [show p + l.length + (i - l.length) = p + i by omega] at this

/-- A number laid out with `bitList` is the number found there. -/
theorem HasBits.bitsAt_eq {f : Nat → Bool} {p n v : Nat} (h : HasBits f p (bitList n v)) (hv : v < 2 ^ n) :
    bitsAt f p n = v := by
  symm
  refine eq_bitsAt fun i => ?_
  by_cases hi : i < n
  · have := h i (by simpa using hi)
    simp [bitList] at this
    simp [hi, this]
  · have : v < 2 ^ i := Nat.lt_of_lt_of_le hv (Nat.pow_le_pow_right (by omega) (by omega))
    simp [hi, Nat.testBit_lt_two_pow this]

end Pnacl.Lib
