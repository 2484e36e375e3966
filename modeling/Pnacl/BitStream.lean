import Pnacl.Bits
import Pnacl.Lib.BitString

/-!
# The bit stream

The reader of `pn_bitstream.h`: a cached word `curword` of which the low `curwordBits` bits are still unread, refilled
by a 32-bit load. The load near the end of the data may touch bytes behind the buffer, so `data` maps every offset
from the data pointer to a byte, and only the first `dataLen` of them are the file.

`Inv` is the cache invariant; it holds initially and is kept by every read, seek and alignment (`Reachable.inv`). Under
it a read returns the next bits of the file or exits (`pnBitstreamRead_spec`).
-/

namespace Pnacl

open Lib

/-- `PNBitStream`. -/
structure PNBitStream where
  /-- The bytes from the data pointer on; those at `dataLen` and after it are not part of the file. -/
  data : Nat → UInt8
  dataLen : Nat
  curword : Nat
  curwordBits : Nat
  bitOffset : Nat

/-- `pn_bitstream_init`. -/
def pnBitstreamInit (data : Nat → UInt8) (dataLen : Nat) : PNBitStream where
  data := data
  dataLen := dataLen
  curword := 0
  curwordBits := 0
  bitOffset := 0

/-- `*(uint32_t*)(data + off)` on a little-endian host. -/
def loadU32 (data : Nat → UInt8) (off : Nat) : Nat :=
  (data off).toNat + (data (off + 1)).toNat * 2 ^ 8 + (data (off + 2)).toNat * 2 ^ 16 + (data (off + 3)).toNat * 2 ^ 24

/-- `pn_bitstream_read_frac_bits`. -/
def pnBitstreamReadFracBits (bs : PNBitStream) (numBits : Nat) : Except Stop (Nat × PNBitStream) := do
  cAssert (numBits ≤ 32) "num_bits <= 32"
  cAssert (numBits ≤ bs.curwordBits) "num_bits <= bs->curword_bits"
  let result := if numBits = 32 then bs.curword else bs.curword &&& ((1 <<< numBits) - 1)
  let curword := if numBits = 32 then 0 else bs.curword >>> numBits
  .ok (result, { bs with
    curword := curword
    curwordBits := bs.curwordBits - numBits
    bitOffset := (bs.bitOffset + numBits) % 2 ^ 32 })

/-- `pn_bitstream_fill_curword`. -/
def pnBitstreamFillCurword (bs : PNBitStream) : Except Stop PNBitStream :=
  let byteOffset := bs.bitOffset >>> 3
  if byteOffset + 4 < bs.dataLen then
    .ok { bs with curwordBits := 32, curword := loadU32 bs.data byteOffset }
  else do
    -- near the end of the stream
    pnCheck (byteOffset ≤ bs.dataLen) "byte_offset <= bs->data_len"
    let curwordBits := (bs.dataLen - byteOffset) * 8
    let curword := if curwordBits = 0 then bs.curword else loadU32 bs.data byteOffset
    cAssert (curwordBits ≤ 32) "bs->curword_bits <= 32"
    .ok { bs with curwordBits := curwordBits, curword := curword }

/-- `pn_bitstream_read`. -/
def pnBitstreamRead (bs : PNBitStream) (numBits : Nat) : Except Stop (Nat × PNBitStream) := do
  cAssert (numBits ≤ 32) "num_bits <= 32"
  if numBits ≤ bs.curwordBits then
    pnBitstreamReadFracBits bs numBits
  else
    let result := bs.curword
    let bitsRead := bs.curwordBits
    let bitsLeft := numBits - bs.curwordBits
    let bs ← pnBitstreamFillCurword { bs with bitOffset := (bs.bitOffset + bitsRead) % 2 ^ 32 }
    pnCheck (bitsLeft ≤ bs.curwordBits) "bits_left <= bs->curword_bits"
    let (rest, bs) ← pnBitstreamReadFracBits bs bitsLeft
    .ok (result ||| (rest <<< bitsRead) % 2 ^ 32, bs)

/-- `pn_bitstream_seek_bit`. -/
def pnBitstreamSeekBit (bs : PNBitStream) (bitOffset : Nat) : Except Stop PNBitStream := do
  let bs ← pnBitstreamFillCurword { bs with bitOffset := pnAlignDown bitOffset 32 }
  let bitOffset := bitOffset &&& 31
  if bitOffset = 0 then .ok bs
  else
    -- the offset is not aligned: read the bits before it
    let (_, bs) ← pnBitstreamReadFracBits bs bitOffset
    .ok bs

/-- `pn_bitstream_skip_bytes`. -/
def pnBitstreamSkipBytes (bs : PNBitStream) (numBytes : Nat) : Except Stop PNBitStream :=
  pnBitstreamSeekBit bs ((bs.bitOffset + numBytes * 8) % 2 ^ 32)

/-- `pn_bitstream_align_32`. -/
def pnBitstreamAlign32 (bs : PNBitStream) : Except Stop PNBitStream :=
  pnBitstreamSeekBit bs (pnAlignUp bs.bitOffset 32)

/-- `pn_bitstream_at_end`. -/
def pnBitstreamAtEnd (bs : PNBitStream) : Bool := bs.bitOffset >>> 3 == bs.dataLen

namespace PNBitStream

/-- Stream bit `8 * j + i` is bit `i` of byte `j`. -/
def bit (bs : PNBitStream) (i : Nat) : Bool := (bs.data (i / 8)).toNat.testBit (i % 8)

/-- The two streams read the same file. -/
def SameFile (bs bs' : PNBitStream) : Prop := bs'.data = bs.data ∧ bs'.dataLen = bs.dataLen

/-- The cache invariant: the word's low `curwordBits` bits are the next bits of the file, and it has no other bits
unless it is the last word of the file. -/
structure Inv (bs : PNBitStream) : Prop where
  dataLen_lt : bs.dataLen < 2 ^ 29
  bits_le : bs.curwordBits ≤ 32
  offset_le : bs.bitOffset + bs.curwordBits ≤ 8 * bs.dataLen
  aligned : (bs.bitOffset + bs.curwordBits) % 8 = 0
  word_lt : bs.curword < 2 ^ 32
  word : bs.curword % 2 ^ bs.curwordBits = bitsAt bs.bit bs.bitOffset bs.curwordBits
  clean : bs.curword < 2 ^ bs.curwordBits ∨ bs.bitOffset + bs.curwordBits = 8 * bs.dataLen

theorem SameFile.refl (bs : PNBitStream) : SameFile bs bs := ⟨rfl, rfl⟩

theorem SameFile.trans {a b c : PNBitStream} (h : SameFile a b) (h' : SameFile b c) : SameFile a c :=
  ⟨h'.1.trans h.1, h'.2.trans h.2⟩

theorem SameFile.bit_eq {a b : PNBitStream} (h : SameFile a b) : b.bit = a.bit := by
  funext i; simp [bit, h.1]

end PNBitStream

open PNBitStream

/-! ## The word load -/

theorem loadU32_lt (data : Nat → UInt8) (off : Nat) : loadU32 data off < 2 ^ 32 := by
  have h0 := (data off).toNat_lt
  have h1 := (data (off + 1)).toNat_lt
  have h2 := (data (off + 2)).toNat_lt
  have h3 := (data (off + 3)).toNat_lt
  unfold loadU32
  omega

/-- A loaded word is the 32 stream bits from its byte on. -/
theorem loadU32_eq (bs : PNBitStream) (off : Nat) : loadU32 bs.data off = bitsAt bs.bit (8 * off) 32 := by
  refine eq_bitsAt fun i => ?_
  have h0 := (bs.data off).toNat_lt
  have h1 := (bs.data (off + 1)).toNat_lt
  have h2 := (bs.data (off + 2)).toNat_lt
  have e : loadU32 bs.data off = 2 ^ 8 * (2 ^ 8 * (2 ^ 8 * (bs.data (off + 3)).toNat + (bs.data (off + 2)).toNat) +
      (bs.data (off + 1)).toNat) + (bs.data off).toNat := by unfold loadU32; omega
  rw [e, Nat.testBit_two_pow_mul_add _ (by omega), Nat.testBit_two_pow_mul_add _ (by omega),
    Nat.testBit_two_pow_mul_add _ (by omega)]
  simp only [bit]
  -- byte `i / 8` of the word, bit `i % 8` of it
  by_cases hi : i < 32
  · simp only [hi, decide_true, Bool.true_and]
    split_ifs with a b c
    · rw [show (8 * off + i) / 8 = off by omega, show (8 * off + i) % 8 = i by omega]
    · rw [show (8 * off + i) / 8 = off + 1 by omega, show (8 * off + i) % 8 = i - 8 by omega]
    · rw [show (8 * off + i) / 8 = off + 2 by omega, show (8 * off + i) % 8 = i - 8 - 8 by omega]
    · rw [show (8 * off + i) / 8 = off + 3 by omega, show (8 * off + i) % 8 = i - 8 - 8 - 8 by omega]
  · have h3 : (bs.data (off + 3)).toNat < 2 ^ (i - 8 - 8 - 8) :=
      Nat.lt_of_lt_of_le (bs.data (off + 3)).toNat_lt (Nat.pow_le_pow_right (by omega) (by omega))
    simp [hi, show ¬i < 8 by omega, show ¬i - 8 < 8 by omega, show ¬i - 8 - 8 < 8 by omega,
      Nat.testBit_lt_two_pow h3]

/-! ## Reading inside the cached word -/

/-- A read that the cached word can serve returns the next bits. -/
theorem readFracBits_spec {bs : PNBitStream} (h : Inv bs) {n : Nat} (hn : n ≤ bs.curwordBits) :
    ∃ bs', pnBitstreamReadFracBits bs n = .ok (bitsAt bs.bit bs.bitOffset n, bs') ∧ Inv bs' ∧ SameFile bs bs' ∧
      bs'.bitOffset = bs.bitOffset + n ∧ bs'.curwordBits = bs.curwordBits - n := by
  have hb := h.bits_le
  have ho := h.offset_le
  have hl := h.dataLen_lt
  have hoff : (bs.bitOffset + n) % 2 ^ 32 = bs.bitOffset + n := Nat.mod_eq_of_lt (by omega)
  -- the value: the low `n` bits of the word
  have hval : (if n = 32 then bs.curword else bs.curword &&& ((1 <<< n) - 1)) = bitsAt bs.bit bs.bitOffset n := by
    have hw := bitsAt_mod bs.bit bs.bitOffset hn
    rw [← h.word, Nat.mod_mod_of_dvd _ (Nat.pow_dvd_pow 2 hn)] at hw
    split
    · next e => rw [← hw, e, Nat.mod_eq_of_lt h.word_lt]
    · rw [Nat.one_shiftLeft, Nat.and_two_pow_sub_one_eq_mod, hw]
  have hcur : (if n = 32 then 0 else bs.curword >>> n) = bs.curword >>> n := by
    split
    · next e => rw [e, Nat.shiftRight_eq_div_pow, Nat.div_eq_of_lt h.word_lt]
    · rfl
  refine ⟨{ bs with
    curword := bs.curword >>> n, curwordBits := bs.curwordBits - n, bitOffset := bs.bitOffset + n }, ?_, ?_,
    ⟨rfl, rfl⟩, rfl, rfl⟩
  · simp only [pnBitstreamReadFracBits]
    rw [cAssert_bind (by omega), cAssert_bind hn, hval, hcur, hoff]
  · refine ⟨hl, by simp only; omega, by simp only; omega, ?_, ?_, ?_, ?_⟩
    · have := h.aligned
      simp only
      rwa [show bs.bitOffset + n + (bs.curwordBits - n) = bs.bitOffset + bs.curwordBits by omega]
    · exact Nat.lt_of_le_of_lt (Nat.shiftRight_le _ _) h.word_lt
    · -- dropping `n` bits of the word is dropping `n` bits of the field
      have hs := bitsAt_shiftRight bs.bit bs.bitOffset hn
      rw [← h.word] at hs
      have e : bs.curword >>> n % 2 ^ (bs.curwordBits - n) = (bs.curword % 2 ^ bs.curwordBits) >>> n := by
        refine Nat.eq_of_testBit_eq fun i => ?_
        simp only [Nat.testBit_mod_two_pow, Nat.testBit_shiftRight]
        congr 1
        exact decide_eq_decide.mpr (by omega)
      exact e.trans hs
    · rcases h.clean with hc | hc
      · left
        simp only
        rw [Nat.shiftRight_eq_div_pow, Nat.div_lt_iff_lt_mul (Nat.two_pow_pos n), ← Nat.pow_add,
          Nat.sub_add_cancel hn]
        exact hc
      · right; simp only; omega

/-! ## Refilling -/

/-- Refilling at a byte boundary inside the data caches the next bits, as many as there are. -/
theorem fillCurword_spec (bs : PNBitStream) (hl : bs.dataLen < 2 ^ 29) (ha : bs.bitOffset % 8 = 0)
    (ho : bs.bitOffset ≤ 8 * bs.dataLen) (hw : bs.curword < 2 ^ 32) :
    ∃ bs', pnBitstreamFillCurword bs = .ok bs' ∧ Inv bs' ∧ SameFile bs bs' ∧ bs'.bitOffset = bs.bitOffset ∧
      bs'.curwordBits = min 32 (8 * bs.dataLen - bs.bitOffset) := by
  have hbyte : bs.bitOffset >>> 3 = bs.bitOffset / 8 := Nat.shiftRight_eq_div_pow _ _
  have hmul : 8 * (bs.bitOffset / 8) = bs.bitOffset := by omega
  have hload := loadU32_eq bs (bs.bitOffset / 8)
  rw [hmul] at hload
  have hlt := loadU32_lt bs.data (bs.bitOffset / 8)
  by_cases hfull : bs.bitOffset / 8 + 4 < bs.dataLen
  · refine ⟨{ bs with curwordBits := 32, curword := loadU32 bs.data (bs.bitOffset / 8) }, ?_, ?_, ⟨rfl, rfl⟩, rfl, ?_⟩
    · simp only [pnBitstreamFillCurword, hbyte, if_pos hfull]
    · refine ⟨hl, by simp, by simp only; omega, by simp only; omega, hlt, ?_, Or.inl hlt⟩
      simp only [hload]
      exact Nat.mod_eq_of_lt (bitsAt_lt _ _ _)
    · simp only; omega
  · -- the last word: fewer than 32 bits may be left
    have hbits : (bs.dataLen - bs.bitOffset / 8) * 8 = 8 * bs.dataLen - bs.bitOffset := by omega
    refine ⟨{ bs with
      curwordBits := 8 * bs.dataLen - bs.bitOffset
      curword := if 8 * bs.dataLen - bs.bitOffset = 0 then bs.curword else loadU32 bs.data (bs.bitOffset / 8) },
      ?_, ?_, ⟨rfl, rfl⟩, rfl, ?_⟩
    · simp only [pnBitstreamFillCurword, hbyte, if_neg hfull]
      rw [pnCheck_bind (by omega), hbits, cAssert_bind (by omega)]
    · refine ⟨hl, by simp only; omega, by simp only; omega, by simp only; omega, ?_, ?_, Or.inr (by simp only; omega)⟩
      · simp only; split
        · exact hw
        · exact hlt
      · simp only; split
        · next e => rw [e]; simp [Nat.mod_one]
        · rw [hload]; exact bitsAt_mod _ _ (by omega)
    · simp only; omega

/-- Refilling behind the data exits. -/
theorem fillCurword_past {bs : PNBitStream} (h : 8 * bs.dataLen + 7 < bs.bitOffset) :
    pnBitstreamFillCurword bs = .error (.check "byte_offset <= bs->data_len") := by
  have hbyte : bs.bitOffset >>> 3 = bs.bitOffset / 8 := Nat.shiftRight_eq_div_pow _ _
  simp only [pnBitstreamFillCurword, hbyte]
  rw [if_neg (by omega), pnCheck_bind_neg (by omega)]

/-! ## Reads and seeks -/

/-- **A read returns the next `n` bits of the file.** -/
theorem pnBitstreamRead_spec {bs : PNBitStream} (h : Inv bs) {n : Nat} (hn : n ≤ 32)
    (hle : bs.bitOffset + n ≤ 8 * bs.dataLen) :
    ∃ bs', pnBitstreamRead bs n = .ok (bitsAt bs.bit bs.bitOffset n, bs') ∧ Inv bs' ∧ SameFile bs bs' ∧
      bs'.bitOffset = bs.bitOffset + n := by
  have hl := h.dataLen_lt
  by_cases hc : n ≤ bs.curwordBits
  · obtain ⟨bs', hr, hi, hs, ho, -⟩ := readFracBits_spec h hc
    refine ⟨bs', ?_, hi, hs, ho⟩
    rw [pnBitstreamRead, cAssert_bind hn, if_pos hc, hr]
  · -- the rest of the word, then the start of the next one
    have ho := h.offset_le
    have hmod : (bs.bitOffset + bs.curwordBits) % 2 ^ 32 = bs.bitOffset + bs.curwordBits := Nat.mod_eq_of_lt (by omega)
    have hword : bs.curword = bitsAt bs.bit bs.bitOffset bs.curwordBits := by
      rcases h.clean with hlt | he
      · rw [← h.word, Nat.mod_eq_of_lt hlt]
      · omega
    obtain ⟨b₁, hf, hi₁, hs₁, ho₁, hb₁⟩ := fillCurword_spec
      { bs with bitOffset := bs.bitOffset + bs.curwordBits } hl h.aligned (by simp only; omega) h.word_lt
    simp only at ho₁ hb₁
    obtain ⟨b₂, hr, hi₂, hs₂, ho₂, -⟩ := readFracBits_spec hi₁ (n := n - bs.curwordBits) (by omega)
    have hbit : b₁.bit = bs.bit := by funext i; simp [bit, hs₁.1]
    rw [ho₁, hbit] at hr
    have hsplice := bitsAt_or_shiftLeft bs.bit bs.bitOffset bs.curwordBits (n - bs.curwordBits)
    rw [← hword, show bs.curwordBits + (n - bs.curwordBits) = n by omega] at hsplice
    have hshift : bitsAt bs.bit (bs.bitOffset + bs.curwordBits) (n - bs.curwordBits) <<< bs.curwordBits % 2 ^ 32 =
        bitsAt bs.bit (bs.bitOffset + bs.curwordBits) (n - bs.curwordBits) <<< bs.curwordBits := by
      refine Nat.mod_eq_of_lt ?_
      rw [Nat.shiftLeft_eq]
      calc _ < 2 ^ (n - bs.curwordBits) * 2 ^ bs.curwordBits :=
            Nat.mul_lt_mul_of_pos_right (bitsAt_lt _ _ _) (Nat.two_pow_pos _)
        _ = 2 ^ n := by rw [← Nat.pow_add]; congr 1; omega
        _ ≤ 2 ^ 32 := Nat.pow_le_pow_right (by omega) hn
    refine ⟨b₂, ?_, hi₂, ⟨hs₂.1.trans hs₁.1, hs₂.2.trans hs₁.2⟩, by omega⟩
    simp only [pnBitstreamRead]
    rw [cAssert_bind hn, if_neg hc, hmod, hf, ok_bind, pnCheck_bind (by omega), hr, ok_bind]
    simp only [hshift, hsplice]

/-- **A read that needs more bits than are left exits.** -/
theorem pnBitstreamRead_past {bs : PNBitStream} (h : Inv bs) {n : Nat} (hn : n ≤ 32)
    (hlt : 8 * bs.dataLen < bs.bitOffset + n) :
    pnBitstreamRead bs n = .error (.check "bits_left <= bs->curword_bits") := by
  have hl := h.dataLen_lt
  have ho := h.offset_le
  have hmod : (bs.bitOffset + bs.curwordBits) % 2 ^ 32 = bs.bitOffset + bs.curwordBits := Nat.mod_eq_of_lt (by omega)
  obtain ⟨b₁, hf, -, -, ho₁, hb₁⟩ := fillCurword_spec
    { bs with bitOffset := bs.bitOffset + bs.curwordBits } hl h.aligned (by simp only; omega) h.word_lt
  simp only at ho₁ hb₁
  simp only [pnBitstreamRead]
  rw [cAssert_bind hn, if_neg (by omega), hmod, hf, ok_bind, pnCheck_bind_neg (by omega)]

/-- What a read can do: return a number of its width, or exit. -/
theorem pnBitstreamRead_cases {bs : PNBitStream} (h : Inv bs) {n : Nat} (hn : n ≤ 32) :
    (∃ v bs', pnBitstreamRead bs n = .ok (v, bs') ∧ v < 2 ^ n ∧ Inv bs' ∧ SameFile bs bs' ∧
      bs'.bitOffset = bs.bitOffset + n) ∨ ∃ e, pnBitstreamRead bs n = .error e ∧ e.IsExit := by
  rcases Nat.lt_or_ge (8 * bs.dataLen) (bs.bitOffset + n) with hlt | hge
  · exact Or.inr ⟨_, pnBitstreamRead_past h hn hlt, trivial⟩
  · obtain ⟨bs', hr, hi, hs, ho⟩ := pnBitstreamRead_spec h hn hge
    exact Or.inl ⟨_, bs', hr, bitsAt_lt _ _ _, hi, hs, ho⟩

/-- **A seek inside the data** stands at the offset. -/
theorem pnBitstreamSeekBit_spec {bs : PNBitStream} (hl : bs.dataLen < 2 ^ 29) (hw : bs.curword < 2 ^ 32) {off : Nat}
    (hle : off ≤ 8 * bs.dataLen) :
    ∃ bs', pnBitstreamSeekBit bs off = .ok bs' ∧ Inv bs' ∧ SameFile bs bs' ∧ bs'.bitOffset = off := by
  have hdown : pnAlignDown off 32 = off / 32 * 32 := pnAlignDown_32 (by omega)
  have hand : off &&& 31 = off % 32 := Nat.and_two_pow_sub_one_eq_mod off 5
  obtain ⟨b₁, hf, hi₁, hs₁, ho₁, hb₁⟩ := fillCurword_spec
    { bs with bitOffset := off / 32 * 32 } hl (by simp only; omega) (by simp only; omega) hw
  simp only at ho₁ hb₁
  simp only [pnBitstreamSeekBit, hdown, hand]
  rw [hf, ok_bind]
  split
  · exact ⟨b₁, rfl, hi₁, hs₁, by omega⟩
  · obtain ⟨b₂, hr, hi₂, hs₂, ho₂, -⟩ := readFracBits_spec hi₁ (n := off % 32) (by omega)
    rw [hr, ok_bind]
    exact ⟨b₂, rfl, hi₂, ⟨hs₂.1.trans hs₁.1, hs₂.2.trans hs₁.2⟩, by omega⟩

/-- **A seek behind the data exits.** -/
theorem pnBitstreamSeekBit_past {bs : PNBitStream} (hl : bs.dataLen < 2 ^ 29) (hw : bs.curword < 2 ^ 32) {off : Nat}
    (h32 : off < 2 ^ 32) (hlt : 8 * bs.dataLen < off) : ∃ e, pnBitstreamSeekBit bs off = .error e ∧ e.IsExit := by
  have hdown : pnAlignDown off 32 = off / 32 * 32 := pnAlignDown_32 h32
  have hand : off &&& 31 = off % 32 := Nat.and_two_pow_sub_one_eq_mod off 5
  simp only [pnBitstreamSeekBit, hdown, hand]
  by_cases hp : off / 32 * 32 ≤ 8 * bs.dataLen
  · -- the word before the offset is inside the data, but too short
    obtain ⟨b₁, hf, hi₁, -, ho₁, hb₁⟩ := fillCurword_spec
      { bs with bitOffset := off / 32 * 32 } hl (by simp only; omega) hp hw
    simp only at ho₁ hb₁
    rw [hf, ok_bind, if_neg (by omega)]
    refine ⟨.assert "num_bits <= bs->curword_bits", ?_, trivial⟩
    rw [pnBitstreamReadFracBits, cAssert_bind (by omega), cAssert_bind_neg (by omega)]
    rfl
  · refine ⟨.check "byte_offset <= bs->data_len", ?_, trivial⟩
    rw [fillCurword_past (by simp only; omega)]
    rfl

theorem pnBitstreamInit_inv (data : Nat → UInt8) {len : Nat} (h : len < 2 ^ 29) : Inv (pnBitstreamInit data len) := by
  refine ⟨h, by simp [pnBitstreamInit], by simp [pnBitstreamInit], by simp [pnBitstreamInit], by simp [pnBitstreamInit],
    by simp [pnBitstreamInit], Or.inl (by simp [pnBitstreamInit])⟩

/-! ## Runs

The abstract stream is an offset into the bit string of the file. Every operation moves the offset as `PNStreamOp.move`
says, and exits where `move` is undefined. -/

/-- A call on the stream. -/
inductive PNStreamOp where
  | read (numBits : Nat)
  | seekBit (bitOffset : Nat)
  | align32
deriving Repr, DecidableEq

namespace PNStreamOp

/-- The calls the stream is meant for: at most 32 bits are read, and a seek goes to an offset inside the data. -/
def Legal (dataLen : Nat) : PNStreamOp → Prop
  | read n => n ≤ 32
  | seekBit off => off ≤ 8 * dataLen
  | align32 => True

/-- The call, with its result dropped. -/
def exec (bs : PNBitStream) : PNStreamOp → Except Stop PNBitStream
  | read n => (pnBitstreamRead bs n).map Prod.snd
  | seekBit off => pnBitstreamSeekBit bs off
  | align32 => pnBitstreamAlign32 bs

/-- A sequence of calls. -/
def run (bs : PNBitStream) : List PNStreamOp → Except Stop PNBitStream
  | [] => .ok bs
  | op :: ops => do
    let bs ← op.exec bs
    run bs ops

/-- Where the call leaves the abstract stream of `dataLen` bytes that stands at `off`. -/
def target (off : Nat) : PNStreamOp → Nat
  | read n => off + n
  | seekBit o => o
  | align32 => pnAlignUp off 32

/-- The offset after a sequence of calls; `none` if one of them leaves the data. -/
def targets (dataLen : Nat) (off : Nat) : List PNStreamOp → Option Nat
  | [] => some off
  | op :: ops => if op.target off ≤ 8 * dataLen then targets dataLen (op.target off) ops else none

/-- One call refines the move of the offset. -/
theorem exec_ok {bs : PNBitStream} (h : Inv bs) {op : PNStreamOp} (hop : op.Legal bs.dataLen)
    (ht : op.target bs.bitOffset ≤ 8 * bs.dataLen) :
    ∃ bs', op.exec bs = .ok bs' ∧ Inv bs' ∧ SameFile bs bs' ∧ bs'.bitOffset = op.target bs.bitOffset := by
  cases op with
  | read n =>
    obtain ⟨bs', hr, hi, hs, ho⟩ := pnBitstreamRead_spec h hop ht
    exact ⟨bs', by simp [exec, hr, Except.map], hi, hs, ho⟩
  | seekBit off => exact pnBitstreamSeekBit_spec h.dataLen_lt h.word_lt hop
  | align32 => exact pnBitstreamSeekBit_spec h.dataLen_lt h.word_lt ht

theorem exec_past {bs : PNBitStream} (h : Inv bs) {op : PNStreamOp} (hop : op.Legal bs.dataLen)
    (ht : 8 * bs.dataLen < op.target bs.bitOffset) : ∃ e, op.exec bs = .error e ∧ e.IsExit := by
  cases op with
  | read n =>
    refine ⟨.check "bits_left <= bs->curword_bits", ?_, trivial⟩
    simp [exec, pnBitstreamRead_past h hop ht, Except.map]
  | seekBit off => exact absurd ht (Nat.not_lt.mpr hop)
  | align32 => exact pnBitstreamSeekBit_past h.dataLen_lt h.word_lt (pnAlignUp_32_lt _) ht

/-- A sequence of calls refines the moves of the offset, and keeps the cache invariant. -/
theorem run_spec : ∀ (ops : List PNStreamOp) {bs : PNBitStream}, Inv bs → (∀ op ∈ ops, op.Legal bs.dataLen) →
    match targets bs.dataLen bs.bitOffset ops with
    | some off => ∃ bs', run bs ops = .ok bs' ∧ Inv bs' ∧ SameFile bs bs' ∧ bs'.bitOffset = off
    | none => ∃ e, run bs ops = .error e ∧ e.IsExit
  | [], bs, h, _ => ⟨bs, rfl, h, .refl bs, rfl⟩
  | op :: ops, bs, h, hops => by
    have hop := hops op List.mem_cons_self
    simp only [targets]
    split_ifs with ht
    · obtain ⟨b₁, he, hi, hs, ho⟩ := exec_ok h hop ht
      have ih := run_spec ops hi (fun o hm => by rw [hs.2]; exact hops o (List.mem_cons_of_mem _ hm))
      rw [hs.2, ho] at ih
      simp only [run, he, ok_bind]
      split at ih
      · next off heq =>
        obtain ⟨b₂, hr, hi₂, hs₂, ho₂⟩ := ih
        exact ⟨b₂, hr, hi₂, hs.trans hs₂, ho₂⟩
      · next heq => exact ih
    · obtain ⟨e, he, hx⟩ := exec_past h hop (by omega)
      exact ⟨e, by simp [run, he], hx⟩

end PNStreamOp

/-- The states a stream over fewer than `2 ^ 29` bytes can be in: those that legal calls reach. -/
def PNBitStream.Reachable (bs : PNBitStream) : Prop :=
  ∃ (data : Nat → UInt8) (len : Nat) (ops : List PNStreamOp), len < 2 ^ 29 ∧ (∀ op ∈ ops, op.Legal len) ∧
    PNStreamOp.run (pnBitstreamInit data len) ops = .ok bs

/-- Every reachable state has the cache invariant. -/
theorem PNBitStream.Reachable.inv {bs : PNBitStream} (h : bs.Reachable) : Inv bs := by
  obtain ⟨data, len, ops, hlen, hops, hrun⟩ := h
  have hspec := PNStreamOp.run_spec ops (pnBitstreamInit_inv data hlen) hops
  split at hspec
  · obtain ⟨b, hb, hi, -⟩ := hspec
    rw [hrun] at hb
    cases hb
    exact hi
  · obtain ⟨e, he, -⟩ := hspec
    rw [hrun] at he
    cases he

/-- **The stream is the little-endian bit string of the file.** After any legal calls that did not exit, a read of
`n` bits returns the `n` bits at `bitOffset` and advances by `n`, and exits if fewer are left; what stands behind the
data (`data'`) has no influence on the value. -/
theorem bitstream_is_bit_string (data : Nat → UInt8) (len : Nat) (hlen : len < 2 ^ 29) (ops : List PNStreamOp)
    (hops : ∀ op ∈ ops, op.Legal len) (bs : PNBitStream)
    (hrun : PNStreamOp.run (pnBitstreamInit data len) ops = .ok bs) (n : Nat) (hn : n ≤ 32) :
    (bs.bitOffset + n ≤ 8 * len →
      ∃ bs', pnBitstreamRead bs n =
          .ok (bitsAt (fun i => (data (i / 8)).toNat.testBit (i % 8)) bs.bitOffset n, bs') ∧
        bs'.bitOffset = bs.bitOffset + n) ∧
    (8 * len < bs.bitOffset + n → ∃ e, pnBitstreamRead bs n = .error e ∧ e.IsExit) ∧
    (∀ data' : Nat → UInt8, (∀ i < len, data' i = data i) →
      ∃ bs', PNStreamOp.run (pnBitstreamInit data' len) ops = .ok bs' ∧ bs'.bitOffset = bs.bitOffset ∧
        (pnBitstreamRead bs' n).map Prod.fst = (pnBitstreamRead bs n).map Prod.fst) := by
  have hspec := PNStreamOp.run_spec ops (pnBitstreamInit_inv data hlen) hops
  have hspec' : ∀ data' : Nat → UInt8, _ := fun data' => PNStreamOp.run_spec ops (pnBitstreamInit_inv data' hlen) hops
  cases ht : PNStreamOp.targets len 0 ops with
  | none =>
    simp only [pnBitstreamInit, ht] at hspec
    obtain ⟨e, he, -⟩ := hspec
    rw [show PNBitStream.mk data len 0 0 0 = pnBitstreamInit data len from rfl, hrun] at he
    cases he
  | some off =>
    simp only [pnBitstreamInit, ht] at hspec hspec'
    obtain ⟨b, hb, hi, hs, ho⟩ := hspec
    rw [show PNBitStream.mk data len 0 0 0 = pnBitstreamInit data len from rfl, hrun] at hb
    cases hb
    have hbits : bs.bit = fun i => (data (i / 8)).toNat.testBit (i % 8) := hs.bit_eq
    have hbl : bs.dataLen = len := hs.2
    refine ⟨fun hle => ?_, fun hlt => ?_, fun data' hd => ?_⟩
    · obtain ⟨b', hr, -, -, ho'⟩ := pnBitstreamRead_spec hi hn (by omega)
      exact ⟨b', by rw [hr, hbits], ho'⟩
    · exact ⟨_, pnBitstreamRead_past hi hn (by omega), trivial⟩
    · obtain ⟨b', hb', hi', hs', ho'⟩ := hspec' data'
      have hbits' : b'.bit = fun i => (data' (i / 8)).toNat.testBit (i % 8) := hs'.bit_eq
      have hbl' : b'.dataLen = len := hs'.2
      refine ⟨b', hb', by omega, ?_⟩
      by_cases hle : bs.bitOffset + n ≤ 8 * len
      · obtain ⟨c, hr, -⟩ := pnBitstreamRead_spec hi hn (by omega)
        obtain ⟨c', hr', -⟩ := pnBitstreamRead_spec hi' hn (by omega)
        have hsame : bitsAt b'.bit b'.bitOffset n = bitsAt bs.bit bs.bitOffset n := by
          rw [ho', ← ho, hbits, hbits']
          refine bitsAt_congr fun i _ hlt => ?_
          simp only [hd (i / 8) (by omega)]
        simp only [hr, hr', hsame, Except.map]
      · rw [pnBitstreamRead_past hi hn (by omega), pnBitstreamRead_past hi' hn (by omega)]

/-- The theorem at a three-byte file: after five bits and a seek, twelve bits are read across the cached word. -/
theorem bitstream_is_bit_string_three_bytes :
    ∃ bs, PNStreamOp.run (pnBitstreamInit (fun i => [0xA5, 0x3C, 0x7F].getD i 0xFF) 3) [.read 5, .seekBit 4] = .ok bs ∧
      ∃ bs', pnBitstreamRead bs 12 = .ok (0x3CA, bs') ∧ bs'.bitOffset = 16 := by
  refine ⟨_, rfl, ?_⟩
  have h := (bitstream_is_bit_string (fun i => [0xA5, 0x3C, 0x7F].getD i 0xFF) 3 (by decide) [.read 5, .seekBit 4]
    (by simp [PNStreamOp.Legal]) _ rfl 12 (by decide)).1 (by decide)
  obtain ⟨bs', hr, ho⟩ := h
  exact ⟨bs', by rw [hr]; rfl, ho⟩

end Pnacl
