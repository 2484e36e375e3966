import Mathlib.Tactic.Ring

/-!
# Byte memory

A memory maps every address to a byte. The operations are those of C on byte ranges: a little-endian load and store of
`n` bytes, a copy and a fill. For each one a lemma says what a reader of its range sees and one that the rest of the
memory is unchanged (`store_outside`, `copy_inside`, ...).
-/

namespace Pnacl.Lib

/-- The memories hold the same bytes from `a` up to `b`. -/
def SameBytes (m m' : Nat → UInt8) (a b : Nat) : Prop := ∀ i, a ≤ i → i < b → m' i = m i

/-- The little-endian value of `n` bytes. -/
def loadBytes (m : Nat → UInt8) (a : Nat) : Nat → Nat
  | 0 => 0
  | n + 1 => (m a).toNat + 2 ^ 8 * loadBytes m (a + 1) n

/-- Replace the `n` bytes from `a` on by the little-endian bytes of `v`. -/
def storeBytes (m : Nat → UInt8) (a n v : Nat) : Nat → UInt8 :=
  fun i => if a ≤ i ∧ i < a + n then UInt8.ofNat (v >>> (8 * (i - a))) else m i

/-- Copy `n` bytes as if through a buffer (`memmove`). -/
def copyBytes (m : Nat → UInt8) (dst src n : Nat) : Nat → UInt8 :=
  fun i => if dst ≤ i ∧ i < dst + n then m (src + (i - dst)) else m i

/-- Fill `n` bytes (`memset`). -/
def fillBytes (m : Nat → UInt8) (dst : Nat) (b : UInt8) (n : Nat) : Nat → UInt8 :=
  fun i => if dst ≤ i ∧ i < dst + n then b else m i

variable {m m' : Nat → UInt8}

theorem SameBytes.mono {a b c d : Nat} (h : SameBytes m m' a b) (ha : a ≤ c) (hb : d ≤ b) : SameBytes m m' c d :=
  fun i hc hd => h i (Nat.le_trans ha hc) (Nat.lt_of_lt_of_le hd hb)

/-- A load depends on its own bytes only. -/
theorem loadBytes_congr {a n : Nat} (h : SameBytes m m' a (a + n)) : loadBytes m' a n = loadBytes m a n := by
  induction n generalizing a with
  | zero => rfl
  | succ n ih =>
    have hd : m' a = m a := h a (Nat.le_refl a) (by omega)
    have tl : loadBytes m' (a + 1) n = loadBytes m (a + 1) n := ih (h.mono (by omega) (by omega))
    rw [loadBytes, loadBytes, hd, tl]

theorem loadBytes_lt (m : Nat → UInt8) (a n : Nat) : loadBytes m a n < 2 ^ (8 * n) := by
  induction n generalizing a with
  | zero => simp [loadBytes]
  | succ n ih =>
    have hd : (m a).toNat < 2 ^ 8 := (m a).toNat_lt
    have tl : loadBytes m (a + 1) n < 2 ^ (8 * n) := ih (a + 1)
    rw [loadBytes, show 8 * (n + 1) = 8 + 8 * n by omega, Nat.pow_add]
    omega

/-- A load in two parts. -/
theorem loadBytes_add (m : Nat → UInt8) (a k n : Nat) :
    loadBytes m a (k + n) = loadBytes m a k + 2 ^ (8 * k) * loadBytes m (a + k) n := by
  induction k generalizing a with
  | zero => simp [loadBytes]
  | succ k ih =>
    rw [show k + 1 + n = (k + n) + 1 by omega, loadBytes, loadBytes, ih, show a + 1 + k = a + (k + 1) by omega,
      show 8 * (k + 1) = 8 + 8 * k by omega, Nat.pow_add, Nat.mul_add, Nat.mul_assoc, Nat.add_assoc]

theorem storeBytes_outside {a n v i : Nat} (h : i < a ∨ a + n ≤ i) : storeBytes m a n v i = m i :=
  if_neg (by omega)

/-- A load of what was just stored. -/
theorem loadBytes_storeBytes (m : Nat → UInt8) (a n v : Nat) : loadBytes (storeBytes m a n v) a n = v % 2 ^ (8 * n) := by
  induction n generalizing m a v with
  | zero => simp [loadBytes, Nat.mod_one]
  | succ n ih =>
    have hd : (storeBytes m a (n + 1) v a).toNat = v % 2 ^ 8 := by
      rw [storeBytes, if_pos (by omega), Nat.sub_self]
      simp
    have tl : loadBytes (storeBytes m a (n + 1) v) (a + 1) n = loadBytes (storeBytes m (a + 1) n (v >>> 8)) (a + 1) n := by
      refine loadBytes_congr fun i h₁ h₂ => ?_
      rw [storeBytes, if_pos (by omega), storeBytes, if_pos (by omega), ← Nat.shiftRight_add]
      congr 2
      omega
    rw [loadBytes, hd, tl, ih, Nat.shiftRight_eq_div_pow, show 8 * (n + 1) = 8 + 8 * n by omega, Nat.pow_add,
      Nat.mod_mul]

theorem copyBytes_outside {dst src n i : Nat} (h : i < dst ∨ dst + n ≤ i) : copyBytes m dst src n i = m i :=
  if_neg (by omega)

theorem copyBytes_inside {dst src n i : Nat} (h : i < n) : copyBytes m dst src n (dst + i) = m (src + i) := by
  rw [copyBytes, if_pos (by omega), Nat.add_sub_cancel_left]

theorem fillBytes_outside {dst n i : Nat} {b : UInt8} (h : i < dst ∨ dst + n ≤ i) : fillBytes m dst b n i = m i :=
  if_neg (by omega)

/-- Stores and fills are the same on memories that agree; the copied bytes must agree for a copy. -/
theorem storeBytes_congr {a b off n v : Nat} (h : SameBytes m m' a b) :
    SameBytes (storeBytes m off n v) (storeBytes m' off n v) a b := by
  intro i ha hb
  unfold storeBytes
  split
  · rfl
  · exact h i ha hb

theorem fillBytes_congr {a b dst n : Nat} {c : UInt8} (h : SameBytes m m' a b) :
    SameBytes (fillBytes m dst c n) (fillBytes m' dst c n) a b := by
  intro i ha hb
  unfold fillBytes
  split
  · rfl
  · exact h i ha hb

theorem copyBytes_congr {a b dst src n : Nat} (h : SameBytes m m' a b) (ha : a ≤ src) (hb : src + n ≤ b) :
    SameBytes (copyBytes m dst src n) (copyBytes m' dst src n) a b := by
  intro i hi hi'
  unfold copyBytes
  split
  · exact h _ (by omega) (by omega)
  · exact h i hi hi'

end Pnacl.Lib
