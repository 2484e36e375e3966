import Pnacl.BlockUses

/-!
# Bits without builtins

`pn_ctz`, `pn_clz` and `pn_popcount` for a compiler that is neither clang nor GCC. The first two halve the range in which the
first set bit can be, counted from the lowest or from the highest bit (`BitOrder.skip_first`); the third adds up fields that
get wider, byte by byte. They return what the builtins do, and 32 for 0, where the builtins promise nothing
(`portable_bits`).
-/

namespace Pnacl

/-! ## The source -/

/-- `if ((x & mask) == 0) { n += k; x >>= k; }`. -/
def ctzStep (k : Nat) (mask : BitVec 32) (s : Nat × BitVec 32) : Nat × BitVec 32 :=
  if s.2 &&& mask = 0 then (s.1 + k, s.2 >>> k) else s

/-- `pn_ctz`. -/
def pnCtzPortable (x : BitVec 32) : Nat :=
  if x = 0 then 32
  else
    let (n, x) := ctzStep 2 0x0003 (ctzStep 4 0x000f (ctzStep 8 0x00ff (ctzStep 16 0xffff (0, x))))
    if x &&& 0x0001 = 0 then n + 1 else n

/-- `if ((x & mask) == 0) { n += k; x <<= k; }`. -/
def clzStep (k : Nat) (mask : BitVec 32) (s : Nat × BitVec 32) : Nat × BitVec 32 :=
  if s.2 &&& mask = 0 then (s.1 + k, s.2 <<< k) else s

/-- `pn_clz`. -/
def pnClzPortable (x : BitVec 32) : Nat :=
  if x = 0 then 32
  else
    let (n, x) := clzStep 2 0xc0000000 (clzStep 4 0xf0000000 (clzStep 8 0xff000000 (clzStep 16 0xffff0000 (0, x))))
    if x &&& 0x80000000 = 0 then n + 1 else n

/-- `pn_popcount`. -/
def pnPopcountPortable (x : BitVec 32) : Nat :=
  let x := x - ((x >>> 1) &&& 0x55555555)
  let x := (x &&& 0x33333333) + ((x >>> 2) &&& 0x33333333)
  ((((x + (x >>> 4)) &&& 0x0F0F0F0F) * 0x01010101) >>> 24).toNat

/-! ## The first set bit -/

/-- The first position at which `f` holds. -/
structure FirstAt (f : Nat → Bool) (m : Nat) : Prop where
  set : f m = true
  before : ∀ i < m, f i = false

theorem FirstAt.unique {f : Nat → Bool} {m n : Nat} (hm : FirstAt f m) (hn : FirstAt f n) : m = n := by
  rcases Nat.lt_trichotomy m n with h | h | h
  · exact absurd hm.set (by simp [hn.before m h])
  · exact h
  · exact absurd hn.set (by simp [hm.before n h])

/-- The bits of a word, counted from one of its ends, and the shift towards that end. -/
structure BitOrder where
  bit : BitVec 32 → Nat → Bool
  shift : BitVec 32 → Nat → BitVec 32
  bit_and : ∀ x y i, bit (x &&& y) i = (bit x i && bit y i)
  bit_shift : ∀ x k i, bit (shift x k) i = bit x (i + k)
  eq_zero : ∀ x, x = 0 ↔ ∀ i, bit x i = false

def fromLow : BitOrder where
  bit x i := x.getLsbD i
  shift x k := x >>> k
  bit_and _ _ _ := BitVec.getLsbD_and
  bit_shift x k i := by rw [BitVec.getLsbD_ushiftRight, Nat.add_comm]
  eq_zero x := by
    constructor
    · rintro rfl i
      exact BitVec.getLsbD_zero
    · exact fun h => BitVec.eq_of_getLsbD_eq fun i _ => (h i).trans BitVec.getLsbD_zero.symm

def fromHigh : BitOrder where
  bit x i := x.getMsbD i
  shift x k := x <<< k
  bit_and _ _ _ := BitVec.getMsbD_and
  bit_shift x k i := BitVec.getMsbD_shiftLeft x k
  eq_zero x := by
    constructor
    · rintro rfl i
      exact BitVec.getMsbD_zero
    · exact fun h => BitVec.eq_of_getMsbD_eq fun i _ => (h i).trans BitVec.getMsbD_zero.symm

namespace BitOrder

variable (o : BitOrder) {k m n : Nat} {mask x : BitVec 32} {s : Nat × BitVec 32}

/-- The mask of the first `k` bits. -/
def IsMask (k : Nat) (mask : BitVec 32) : Prop := ∀ i, o.bit mask i = decide (i < k)

theorem and_mask_eq_zero (hmask : o.IsMask k mask) : x &&& mask = 0 ↔ ∀ i < k, o.bit x i = false := by
  rw [o.eq_zero]
  constructor
  · intro h i hi
    have hbit := h i
    rwa [o.bit_and, hmask, decide_eq_true hi, Bool.and_true] at hbit
  · intro h i
    rw [o.bit_and, hmask]
    by_cases hi : i < k
    · rw [h i hi, Bool.false_and]
    · rw [decide_eq_false hi, Bool.and_false]

/-- A step of `pn_ctz` or `pn_clz`. -/
def skip (k : Nat) (mask : BitVec 32) (s : Nat × BitVec 32) : Nat × BitVec 32 :=
  if s.2 &&& mask = 0 then (s.1 + k, o.shift s.2 k) else s

/-- **A step halves the range of the first set bit**, and the sum of the count and its position stays. -/
theorem skip_first (hmask : o.IsMask k mask) (h : ∃ m, FirstAt (o.bit s.2) m ∧ m < 2 * k ∧ s.1 + m = n) :
    ∃ m, FirstAt (o.bit (o.skip k mask s).2) m ∧ m < k ∧ (o.skip k mask s).1 + m = n := by
  obtain ⟨m, hfirst, hm, hn⟩ := h
  unfold skip
  by_cases hzero : s.2 &&& mask = 0
  · rw [if_pos hzero]
    have hclear := (o.and_mask_eq_zero hmask).mp hzero
    have hk : k ≤ m := by
      by_contra hlt
      exact absurd hfirst.set (by simp [hclear m (by omega)])
    refine ⟨m - k, ⟨?_, fun i hi => ?_⟩, by omega, by dsimp only; omega⟩
    · rw [o.bit_shift, Nat.sub_add_cancel hk]
      exact hfirst.set
    · rw [o.bit_shift]
      exact hfirst.before _ (by omega)
  · rw [if_neg hzero]
    refine ⟨m, hfirst, ?_, hn⟩
    by_contra hle
    exact hzero ((o.and_mask_eq_zero hmask).mpr fun i hi => hfirst.before i (by omega))

theorem skip_fst (k : Nat) (mask : BitVec 32) (s : Nat × BitVec 32) :
    (o.skip k mask s).1 = if s.2 &&& mask = 0 then s.1 + k else s.1 := by
  unfold skip
  split <;> rfl

/-- The five steps find it. -/
theorem skip_five {m₁₆ m₈ m₄ m₂ m₁ : BitVec 32} (h₁₆ : o.IsMask 16 m₁₆) (h₈ : o.IsMask 8 m₈) (h₄ : o.IsMask 4 m₄)
    (h₂ : o.IsMask 2 m₂) (h₁ : o.IsMask 1 m₁) (hm : FirstAt (o.bit x) m) (h32 : m < 32) :
    (o.skip 1 m₁ (o.skip 2 m₂ (o.skip 4 m₄ (o.skip 8 m₈ (o.skip 16 m₁₆ (0, x)))))).1 = m := by
  have hs₁₆ := o.skip_first h₁₆ (s := (0, x)) ⟨m, hm, h32, Nat.zero_add m⟩
  have hs₈ := o.skip_first h₈ hs₁₆
  have hs₄ := o.skip_first h₄ hs₈
  have hs₂ := o.skip_first h₂ hs₄
  obtain ⟨p, -, hp, heq⟩ := o.skip_first h₁ hs₂
  omega

end BitOrder

theorem fromLow_isMask {k : Nat} {mask : BitVec 32} (h : ∀ i : Fin 32, mask.getLsbD i = decide (i.val < k)) (hk : k ≤ 32) :
    fromLow.IsMask k mask := fun i => by
  by_cases hi : i < 32
  · exact h ⟨i, hi⟩
  · have hout : mask.getLsbD i = false := BitVec.getLsbD_of_ge mask i (by omega)
    have hik : ¬i < k := by omega
    exact hout.trans (decide_eq_false hik).symm

theorem fromHigh_isMask {k : Nat} {mask : BitVec 32} (h : ∀ i : Fin 32, mask.getMsbD i = decide (i.val < k)) (hk : k ≤ 32) :
    fromHigh.IsMask k mask := fun i => by
  by_cases hi : i < 32
  · exact h ⟨i, hi⟩
  · have hout : mask.getMsbD i = false := BitVec.getMsbD_of_ge mask i (by omega)
    have hik : ¬i < k := by omega
    exact hout.trans (decide_eq_false hik).symm

theorem pnCtz_firstAt {x : BitVec 32} (hx : x ≠ 0) : FirstAt (fromLow.bit x) (pnCtz x) where
  set := BitVec.getLsbD_true_ctz_of_ne_zero hx
  before _ hi := BitVec.getLsbD_false_of_lt_ctz hi

theorem pnCtz_lt {x : BitVec 32} (hx : x ≠ 0) : pnCtz x < 32 := by
  by_contra hge
  have hout := BitVec.getLsbD_of_ge x (pnCtz x) (by omega)
  rw [show x.getLsbD (pnCtz x) = true from (pnCtz_firstAt hx).set] at hout
  cases hout

theorem pnClz_lt {x : BitVec 32} (hx : x ≠ 0) : pnClz x < 32 := by
  have h := BitVec.clz_lt_iff_ne_zero.mpr hx
  exact BitVec.lt_def.mp h

theorem pnClz_firstAt {x : BitVec 32} (hx : x ≠ 0) : FirstAt (fromHigh.bit x) (pnClz x) where
  set := by
    show x.getMsbD (pnClz x) = true
    rw [BitVec.getMsbD_eq_getLsbD, decide_eq_true (pnClz_lt hx), Bool.true_and]
    exact BitVec.getLsbD_true_clz_of_ne_zero (by decide) hx
  before i hi := by
    show x.getMsbD i = false
    have hlt := pnClz_lt hx
    rw [BitVec.getMsbD_eq_getLsbD, getLsbD_of_clz_le (by omega), Bool.and_false]

theorem pnCtzPortable_eq (x : BitVec 32) : pnCtzPortable x = pnCtz x := by
  by_cases hx : x = 0
  · subst hx
    decide +kernel
  · have h₁₆ : fromLow.IsMask 16 0xffff := fromLow_isMask (by decide) (by decide)
    have h₈ : fromLow.IsMask 8 0x00ff := fromLow_isMask (by decide) (by decide)
    have h₄ : fromLow.IsMask 4 0x000f := fromLow_isMask (by decide) (by decide)
    have h₂ : fromLow.IsMask 2 0x0003 := fromLow_isMask (by decide) (by decide)
    have h₁ : fromLow.IsMask 1 0x0001 := fromLow_isMask (by decide) (by decide)
    have h := fromLow.skip_five h₁₆ h₈ h₄ h₂ h₁ (pnCtz_firstAt hx) (pnCtz_lt hx)
    rw [BitOrder.skip_fst] at h
    rw [pnCtzPortable, if_neg hx]
    exact h

theorem pnClzPortable_eq (x : BitVec 32) : pnClzPortable x = pnClz x := by
  by_cases hx : x = 0
  · subst hx
    decide +kernel
  · have h₁₆ : fromHigh.IsMask 16 0xffff0000 := fromHigh_isMask (by decide) (by decide)
    have h₈ : fromHigh.IsMask 8 0xff000000 := fromHigh_isMask (by decide) (by decide)
    have h₄ : fromHigh.IsMask 4 0xf0000000 := fromHigh_isMask (by decide) (by decide)
    have h₂ : fromHigh.IsMask 2 0xc0000000 := fromHigh_isMask (by decide) (by decide)
    have h₁ : fromHigh.IsMask 1 0x80000000 := fromHigh_isMask (by decide) (by decide)
    have h := fromHigh.skip_five h₁₆ h₈ h₄ h₂ h₁ (pnClz_firstAt hx) (pnClz_lt hx)
    rw [BitOrder.skip_fst] at h
    rw [pnClzPortable, if_neg hx]
    exact h

/-! ## Bytes -/

/-- The set bits below `n`. -/
def bitCount (n x : Nat) : Nat := ((List.range n).filter fun b => x.testBit b).length

/-- The first step of `pn_popcount`, in pairs of bits. -/
def pairCounts (mask x : Nat) : Nat := x - ((x >>> 1) &&& mask)

/-- The second one, in groups of four. -/
def nibbleCounts (mask x : Nat) : Nat := (x &&& mask) + ((x >>> 2) &&& mask)

/-- The third one, in bytes. -/
def byteCounts (mask x : Nat) : Nat := (x + (x >>> 4)) &&& mask

section Bytes

variable {a c m M s : Nat}

theorem bitCount_byte (ha : a < 2 ^ 8) (n : Nat) : bitCount (8 + n) (2 ^ 8 * c + a) = bitCount 8 a + bitCount n c := by
  have hlow : (List.range 8).filter (fun b => (2 ^ 8 * c + a).testBit b) = (List.range 8).filter fun b => a.testBit b := by
    refine List.filter_congr fun b hb => ?_
    rw [Nat.testBit_two_pow_mul_add c ha, if_pos (List.mem_range.mp hb)]
  have hhigh : (List.range n).filter ((fun b => (2 ^ 8 * c + a).testBit b) ∘ (8 + ·)) =
      (List.range n).filter fun b => c.testBit b := by
    refine List.filter_congr fun b _ => ?_
    rw [Function.comp_apply, Nat.testBit_two_pow_mul_add c ha, if_neg (by omega), Nat.add_sub_cancel_left]
  rw [bitCount, List.range_add, List.filter_append, List.length_append, List.filter_map, List.length_map, hlow, hhigh]
  rfl

theorem and_byte (ha : a < 2 ^ 8) (hm : m < 2 ^ 8) : (2 ^ 8 * c + a) &&& (2 ^ 8 * M + m) = 2 ^ 8 * (c &&& M) + (a &&& m) := by
  apply Nat.eq_of_testBit_eq
  intro i
  rw [Nat.testBit_and, Nat.testBit_two_pow_mul_add c ha, Nat.testBit_two_pow_mul_add M hm,
    Nat.testBit_two_pow_mul_add _ (Nat.and_lt_two_pow a hm)]
  split
  · rw [Nat.testBit_and]
  · rw [Nat.testBit_and]

/-- A mask with room at its top keeps the bits of a shift in their byte. -/
theorem shift_and_byte (ha : a < 2 ^ 8) (hs : s ≤ 8) (hm : m < 2 ^ (8 - s)) :
    ((2 ^ 8 * c + a) >>> s) &&& (2 ^ 8 * M + m) = 2 ^ 8 * ((c >>> s) &&& M) + ((a >>> s) &&& m) := by
  have hm8 : m < 2 ^ 8 := hm.trans_le (Nat.pow_le_pow_right (by decide) (by omega))
  apply Nat.eq_of_testBit_eq
  intro i
  rw [Nat.testBit_and, Nat.testBit_shiftRight, Nat.testBit_two_pow_mul_add c ha, Nat.testBit_two_pow_mul_add M hm8,
    Nat.testBit_two_pow_mul_add _ (Nat.and_lt_two_pow _ hm8)]
  by_cases hi : i < 8
  · rw [if_pos hi, if_pos hi, Nat.testBit_and, Nat.testBit_shiftRight]
    by_cases hsi : s + i < 8
    · rw [if_pos hsi]
    · have hclear : m.testBit i = false := Nat.testBit_lt_two_pow (hm.trans_le (Nat.pow_le_pow_right (by decide) (by omega)))
      rw [hclear, Bool.and_false, Bool.and_false]
  · rw [if_neg hi, if_neg hi, if_neg (by omega), Nat.testBit_and, Nat.testBit_shiftRight]
    congr 2
    omega

theorem shift_and_le (x s m : Nat) : (x >>> s) &&& m ≤ x := Nat.and_le_left.trans (Nat.shiftRight_le x s)

theorem pairCounts_byte (ha : a < 2 ^ 8) :
    pairCounts (2 ^ 8 * M + 0x55) (2 ^ 8 * c + a) = 2 ^ 8 * pairCounts M c + pairCounts 0x55 a := by
  have hc := shift_and_le c 1 M
  have ha' := shift_and_le a 1 0x55
  rw [pairCounts, pairCounts, pairCounts, shift_and_byte ha (by decide) (by decide)]
  omega

theorem nibbleCounts_byte (ha : a < 2 ^ 8) :
    nibbleCounts (2 ^ 8 * M + 0x33) (2 ^ 8 * c + a) = 2 ^ 8 * nibbleCounts M c + nibbleCounts 0x33 a := by
  rw [nibbleCounts, nibbleCounts, nibbleCounts, shift_and_byte ha (by decide) (by decide), and_byte ha (by decide)]
  omega

/-- What a shift brings in from the next byte is above the mask. -/
theorem byteCounts_byte (ha : a ≤ 0x44) (hc : c % 16 ≤ 4) :
    byteCounts (2 ^ 8 * M + 0x0F) (2 ^ 8 * c + a) = 2 ^ 8 * byteCounts M c + byteCounts 0x0F a := by
  have hlow : ∀ n, n &&& 0x0F = n % 16 := fun n => Nat.and_two_pow_sub_one_eq_mod n 4
  have hsum : 2 ^ 8 * c + a + (2 ^ 8 * c + a) >>> 4 = 2 ^ 8 * (c + c >>> 4) + (a + a >>> 4 + 16 * (c % 16)) := by
    simp only [Nat.shiftRight_eq_div_pow]
    omega
  have hbyte : a + a >>> 4 + 16 * (c % 16) < 2 ^ 8 := by
    rw [Nat.shiftRight_eq_div_pow]
    omega
  rw [byteCounts, byteCounts, byteCounts, hsum, and_byte hbyte (by decide), hlow, hlow, Nat.add_mul_mod_self_left]

/-- The steps on one byte. -/
theorem byte_spec : ∀ a < 2 ^ 8, pairCounts 0x55 a < 2 ^ 8 ∧ nibbleCounts 0x33 (pairCounts 0x55 a) ≤ 0x44 ∧
    nibbleCounts 0x33 (pairCounts 0x55 a) % 16 ≤ 4 ∧ byteCounts 0x0F (nibbleCounts 0x33 (pairCounts 0x55 a)) = bitCount 8 a ∧
    bitCount 8 a ≤ 8 := by
  decide +kernel

end Bytes

/-- The number of four bytes, the lowest first. -/
def fourBytes (a b c d : Nat) : Nat := 2 ^ 8 * (2 ^ 8 * (2 ^ 8 * d + c) + b) + a

section Word

variable {a b c d : Nat}

theorem exists_fourBytes {x : Nat} (hx : x < 2 ^ 32) :
    ∃ a < 2 ^ 8, ∃ b < 2 ^ 8, ∃ c < 2 ^ 8, ∃ d < 2 ^ 8, x = fourBytes a b c d := by
  refine ⟨x % 2 ^ 8, ?_, x / 2 ^ 8 % 2 ^ 8, ?_, x / 2 ^ 16 % 2 ^ 8, ?_, x / 2 ^ 24, ?_, ?_⟩
  · omega
  · omega
  · omega
  · omega
  · unfold fourBytes
    omega

theorem bitCount_fourBytes (ha : a < 2 ^ 8) (hb : b < 2 ^ 8) (hc : c < 2 ^ 8) :
    bitCount 32 (fourBytes a b c d) = bitCount 8 a + bitCount 8 b + bitCount 8 c + bitCount 8 d := by
  rw [fourBytes, show 32 = 8 + (8 + (8 + 8)) from rfl, bitCount_byte ha, bitCount_byte hb, bitCount_byte hc]
  omega

theorem pairCounts_fourBytes (ha : a < 2 ^ 8) (hb : b < 2 ^ 8) (hc : c < 2 ^ 8) : pairCounts 0x55555555 (fourBytes a b c d) =
    fourBytes (pairCounts 0x55 a) (pairCounts 0x55 b) (pairCounts 0x55 c) (pairCounts 0x55 d) := by
  rw [show 0x55555555 = fourBytes 0x55 0x55 0x55 0x55 from rfl, fourBytes, fourBytes, pairCounts_byte ha, pairCounts_byte hb,
    pairCounts_byte hc]
  rfl

theorem nibbleCounts_fourBytes (ha : a < 2 ^ 8) (hb : b < 2 ^ 8) (hc : c < 2 ^ 8) :
    nibbleCounts 0x33333333 (fourBytes a b c d) =
      fourBytes (nibbleCounts 0x33 a) (nibbleCounts 0x33 b) (nibbleCounts 0x33 c) (nibbleCounts 0x33 d) := by
  rw [show 0x33333333 = fourBytes 0x33 0x33 0x33 0x33 from rfl, fourBytes, fourBytes, nibbleCounts_byte ha, nibbleCounts_byte hb,
    nibbleCounts_byte hc]
  rfl

theorem byteCounts_fourBytes (ha : a ≤ 0x44) (hb : b ≤ 0x44) (hc : c ≤ 0x44) (hb4 : b % 16 ≤ 4) (hc4 : c % 16 ≤ 4)
    (hd4 : d % 16 ≤ 4) : byteCounts 0x0F0F0F0F (fourBytes a b c d) =
      fourBytes (byteCounts 0x0F a) (byteCounts 0x0F b) (byteCounts 0x0F c) (byteCounts 0x0F d) := by
  rw [show 0x0F0F0F0F = fourBytes 0x0F 0x0F 0x0F 0x0F from rfl, fourBytes, fourBytes, byteCounts_byte ha (by omega),
    byteCounts_byte hb (by omega), byteCounts_byte hc hd4]
  rfl

/-- The product adds the bytes up in the highest one. -/
theorem mul_fourBytes (ha : a ≤ 8) (hb : b ≤ 8) (hc : c ≤ 8) (hd : d ≤ 8) :
    fourBytes a b c d * 0x01010101 % 2 ^ 32 / 2 ^ 24 = a + b + c + d := by
  have hprod : fourBytes a b c d * 0x01010101 = 2 ^ 32 * (2 ^ 16 * d + 2 ^ 8 * (c + d) + (b + c + d)) +
      (2 ^ 24 * (a + b + c + d) + (2 ^ 16 * (a + b + c) + 2 ^ 8 * (a + b) + a)) := by
    unfold fourBytes
    omega
  have hlow : 2 ^ 16 * (a + b + c) + 2 ^ 8 * (a + b) + a < 2 ^ 24 := by omega
  rw [hprod, Nat.mul_add_mod, Nat.mod_eq_of_lt (by omega), Nat.mul_add_div (by decide), Nat.div_eq_of_lt hlow, Nat.add_zero]

/-- Without an overflow the steps are those of the numbers. -/
theorem pnPopcountPortable_toNat (x : BitVec 32) (h : nibbleCounts 0x33333333 (pairCounts 0x55555555 x.toNat) < 2 ^ 31) :
    pnPopcountPortable x = byteCounts 0x0F0F0F0F (nibbleCounts 0x33333333 (pairCounts 0x55555555 x.toNat)) * 0x01010101 %
      2 ^ 32 / 2 ^ 24 := by
  have h₁ : (x - ((x >>> 1) &&& 0x55555555)).toNat = pairCounts 0x55555555 x.toNat := by
    have hle : (x >>> 1) &&& 0x55555555 ≤ x := BitVec.le_def.mpr (shift_and_le x.toNat 1 0x55555555)
    rw [BitVec.toNat_sub_of_le hle]
    rfl
  unfold pnPopcountPortable
  dsimp only
  generalize x - ((x >>> 1) &&& 0x55555555) = y at h₁ ⊢
  rw [← h₁] at h ⊢
  have h₂ : ((y &&& 0x33333333) + ((y >>> 2) &&& 0x33333333)).toNat = nibbleCounts 0x33333333 y.toNat := by
    rw [BitVec.toNat_add]
    exact Nat.mod_eq_of_lt (show nibbleCounts 0x33333333 y.toNat < 2 ^ 32 by omega)
  generalize (y &&& 0x33333333) + ((y >>> 2) &&& 0x33333333) = z at h₂ ⊢
  rw [← h₂] at h ⊢
  have h₃ : ((z + (z >>> 4)) &&& 0x0F0F0F0F).toNat = byteCounts 0x0F0F0F0F z.toNat := by
    have hlt : z.toNat + z.toNat >>> 4 < 2 ^ 32 := by
      have := Nat.shiftRight_le z.toNat 4
      omega
    rw [BitVec.toNat_and, BitVec.toNat_add, BitVec.toNat_ushiftRight, Nat.mod_eq_of_lt hlt]
    rfl
  rw [BitVec.toNat_ushiftRight, BitVec.toNat_mul, h₃, Nat.shiftRight_eq_div_pow]
  rfl

theorem pnPopcountPortable_eq (x : BitVec 32) : pnPopcountPortable x = pnPopcount x := by
  obtain ⟨a, ha, b, hb, c, hc, d, hd, hx⟩ := exists_fourBytes x.isLt
  obtain ⟨ha₁, ha₂, ha₄, ha₈, hal⟩ := byte_spec a ha
  obtain ⟨hb₁, hb₂, hb₄, hb₈, hbl⟩ := byte_spec b hb
  obtain ⟨hc₁, hc₂, hc₄, hc₈, hcl⟩ := byte_spec c hc
  obtain ⟨hd₁, hd₂, hd₄, hd₈, hdl⟩ := byte_spec d hd
  have hnibbles := nibbleCounts_fourBytes (d := pairCounts 0x55 d) ha₁ hb₁ hc₁
  rw [← pairCounts_fourBytes ha hb hc, ← hx] at hnibbles
  rw [pnPopcountPortable_toNat, hnibbles, byteCounts_fourBytes ha₂ hb₂ hc₂ hb₄ hc₄ hd₄, ha₈, hb₈, hc₈, hd₈,
    mul_fourBytes hal hbl hcl hdl, pnPopcount_eq, ← bitCount_fourBytes ha hb hc, ← hx]
  · rfl
  · rw [hnibbles]
    unfold fourBytes
    omega

end Word

/-- **The functions without builtins return what the builtins do.** -/
theorem portable_bits (x : BitVec 32) :
    pnCtzPortable x = pnCtz x ∧ pnClzPortable x = pnClz x ∧ pnPopcountPortable x = pnPopcount x :=
  ⟨pnCtzPortable_eq x, pnClzPortable_eq x, pnPopcountPortable_eq x⟩

end Pnacl
