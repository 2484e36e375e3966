import Pnacl.Reader
import Pnacl.RecordCodec

/-!
# A file that is read for ever

A file of 2 ^ 29 - 3 bytes or more whose module block never ends. It has a record without an abbreviation that fills nearly
all of it, and behind that, in the last 32 bits that a file can have, a record with a blob. The offset of the blob's
bytes is rounded up to 2 ^ 32, which is 0, so the blob is read from the start of the file and ends just before the long record
(`endless_read`).
-/

namespace Pnacl

open Lib PNBitStream

/-! ## The file -/

/-- The header; the module block, with abbreviation ids of 6 bits; the abbreviation; the long record's code and its number of
values. -/
def endlessHead : List UInt8 :=
  [0x50, 0x45, 0x58, 0x45, 0, 0, 0, 0, 0x21, 0x18, 0, 0, 0, 0, 0, 0, 0x82, 0x18, 0xA0, 0x43, 0x30, 0xD2, 0x6A, 0xAD, 0x56]

/-- The values of the long record are 0. Behind them stands the record with the blob. -/
def endlessFile (i : Nat) : UInt8 :=
  if i = 2 ^ 29 - 5 then 0x10 else if i = 2 ^ 29 - 4 then 0x12 else endlessHead.getD i 0

/-- The abbreviation of the file. -/
def endlessAbbrev : PNAbbrev := ⟨[.literal 1, .blob]⟩

/-- The number of values of the long record. -/
def endlessCount : Nat := 715827843

def endlessBit (i : Nat) : Bool := (endlessFile (i / 8)).toNat.testBit (i % 8)

theorem endlessBit_zero {i : Nat} (hlo : 200 ≤ i) (hhi : i < 2 ^ 32 - 38) : endlessBit i = false := by
  unfold endlessBit endlessFile
  by_cases hlast : i / 8 = 2 ^ 29 - 5
  · have hmod : i % 8 = 0 ∨ i % 8 = 1 := by omega
    rw [if_pos hlast]
    rcases hmod with hmod | hmod <;> rw [hmod] <;> rfl
  · rw [if_neg hlast, if_neg (by omega), List.getD_eq_default]
    · exact Nat.zero_testBit _
    · have hlen : endlessHead.length = 25 := rfl
      omega

/-- A stream over the file, at bit `o`. -/
structure EndlessAt (n o : Nat) (bs : PNBitStream) : Prop where
  inv : Inv bs
  data : bs.data = endlessFile
  dataLen : bs.dataLen = n
  offset : bs.bitOffset = o

section Reads

variable {n o : Nat} {bs : PNBitStream}

theorem EndlessAt.bit (h : EndlessAt n o bs) : bs.bit = endlessBit := by
  funext i
  rw [PNBitStream.bit, h.data, endlessBit]

theorem EndlessAt.moved (h : EndlessAt n o bs) {k : Nat} {bs' : PNBitStream} (hm : Moved bs k bs') : EndlessAt n (o + k) bs' :=
  ⟨hm.inv, hm.same.1.trans h.data, hm.same.2.trans h.dataLen, by rw [hm.offset, h.offset]⟩

theorem EndlessAt.at (h : EndlessAt n o bs) (hn : 2 ^ 29 - 3 ≤ n) {l : List Bool} (hb : HasBits endlessBit o l)
    (hle : o + l.length ≤ 2 ^ 32 - 24) : bs.At l := by
  refine ⟨?_, ?_⟩
  · rw [h.bit, h.offset]
    exact hb
  · rw [h.offset, h.dataLen]
    omega

theorem EndlessAt.read (h : EndlessAt n o bs) (hn : 2 ^ 29 - 3 ≤ n) (w v : Nat) (hv : bitsAt endlessBit o w = v) (hw : w ≤ 32)
    (hle : o + w ≤ 2 ^ 32 - 24) : ∃ bs', pnBitstreamRead bs w = .ok (v, bs') ∧ EndlessAt n (o + w) bs' := by
  obtain ⟨bs', hr, hi, hs, ho⟩ := pnBitstreamRead_spec h.inv hw (by rw [h.offset, h.dataLen]; omega)
  rw [h.bit, h.offset, hv] at hr
  exact ⟨bs', hr, h.moved ⟨hi, hs, ho⟩⟩

/-- A number in one chunk. -/
theorem EndlessAt.readVbr (h : EndlessAt n o bs) (hn : 2 ^ 29 - 3 ≤ n) (w v : Nat) (hv : HasBits endlessBit o (bitList w v))
    (hlt : v < 2 ^ (w - 1)) (hw2 : 2 ≤ w) (hw : w ≤ 32) (hle : o + w ≤ 2 ^ 32 - 24) :
    ∃ bs', pnBitstreamReadVbr bs w = .ok (v, bs') ∧ EndlessAt n (o + w) bs' := by
  have hchunk : encVbr w v = bitList w v := by rw [encVbr, vbrChunks_last hlt, List.flatMap_singleton]
  have h32 : v < 2 ^ 32 := hlt.trans_le (Nat.pow_le_pow_right (by decide) (by omega))
  have hat := h.at hn hv (by rw [length_bitList]; exact hle)
  rw [← hchunk] at hat
  obtain ⟨bs', hr, hm⟩ := (readVbr_enc hw2 hw (by omega) h.inv hat).1 (.inl h32)
  rw [Nat.mod_eq_of_lt h32] at hr
  rw [hchunk, length_bitList] at hm
  exact ⟨bs', hr, h.moved hm⟩

/-- The number of values of the long record takes six chunks. -/
theorem EndlessAt.readCount (h : EndlessAt n 164 bs) (hn : 2 ^ 29 - 3 ≤ n) :
    ∃ bs', pnBitstreamReadVbr bs 6 = .ok (endlessCount, bs') ∧ EndlessAt n 200 bs' := by
  have hchunks : vbrChunks 6 endlessCount = [35, 52, 42, 53, 42, 21] := by
    rw [endlessCount]
    iterate 5 rw [vbrChunks_more (by decide) (by decide)]
    rw [vbrChunks_last (by decide)]
    rfl
  have hlen : (encVbr 6 endlessCount).length = 36 := by rw [length_encVbr, hchunks]; rfl
  have hbits : HasBits endlessBit 164 (encVbr 6 endlessCount) := by
    rw [encVbr, hchunks]
    decide +kernel
  obtain ⟨bs', hr, hm⟩ := readVbr6_enc h.inv (show endlessCount < 2 ^ 32 by decide) (h.at hn hbits (by rw [hlen]; decide))
  rw [hlen] at hm
  exact ⟨bs', hr, h.moved hm⟩

theorem EndlessAt.seek (h : EndlessAt n o bs) (hn : n < 2 ^ 29) {off : Nat} (hoff : off ≤ 8 * n) :
    ∃ bs', pnBitstreamSeekBit bs off = .ok bs' ∧ EndlessAt n off bs' := by
  obtain ⟨bs', hr, hi, hs, ho⟩ := pnBitstreamSeekBit_spec (h.dataLen ▸ hn) h.inv.word_lt (h.dataLen.symm ▸ hoff)
  exact ⟨bs', hr, hi, hs.1.trans h.data, hs.2.trans h.dataLen, ho⟩

/-! ## The start of the file -/

theorem EndlessAt.header (h : EndlessAt n 0 bs) (hn : 2 ^ 29 - 3 ≤ n) : ∃ bs', pnHeaderRead bs = .ok bs' ∧ EndlessAt n 64 bs' := by
  obtain ⟨b₁, h₁, hb₁⟩ := h.read hn 8 0x50 (by decide) (by decide) (by decide)
  obtain ⟨b₂, h₂, hb₂⟩ := hb₁.read hn 8 0x45 (by decide) (by decide) (by decide)
  obtain ⟨b₃, h₃, hb₃⟩ := hb₂.read hn 8 0x58 (by decide) (by decide) (by decide)
  obtain ⟨b₄, h₄, hb₄⟩ := hb₃.read hn 8 0x45 (by decide) (by decide) (by decide)
  obtain ⟨b₅, h₅, hb₅⟩ := hb₄.read hn 16 0 (by decide) (by decide) (by decide)
  obtain ⟨b₆, h₆, hb₆⟩ := hb₅.read hn 16 0 (by decide) (by decide) (by decide)
  refine ⟨b₆, ?_, hb₆⟩
  have hsignature : readSignature ['P', 'E', 'X', 'E'] bs = .ok b₄ := by
    simp only [readSignature, h₁, h₂, h₃, h₄, ok_bind]
    rfl
  simp only [pnHeaderRead, hsignature, h₅, h₆, ok_bind]
  rfl

theorem EndlessAt.abbrev (h : EndlessAt n 134 bs) (hn : 2 ^ 29 - 3 ≤ n) :
    ∃ bs', pnAbbrevRead bs = .ok (endlessAbbrev, bs') ∧ EndlessAt n 152 bs' := by
  obtain ⟨b₁, h₁, hb₁⟩ := h.readVbr hn 5 2 (by decide) (by decide) (by decide) (by decide) (by decide)
  obtain ⟨b₂, h₂, hb₂⟩ := hb₁.read hn 1 1 (by decide) (by decide) (by decide)
  obtain ⟨b₃, h₃, hb₃⟩ := hb₂.readVbr hn 8 1 (by decide) (by decide) (by decide) (by decide) (by decide)
  obtain ⟨b₄, h₄, hb₄⟩ := hb₃.read hn 1 0 (by decide) (by decide) (by decide)
  obtain ⟨b₅, h₅, hb₅⟩ := hb₄.read hn 3 5 (by decide) (by decide) (by decide)
  refine ⟨b₅, ?_, hb₅⟩
  have hliteral : readScalarOp b₁ = .ok (.ok (.literal 1), b₃) := by
    simp only [readScalarOp, h₂, h₃, ok_bind, if_pos Nat.one_ne_zero]
  have hblob : readScalarOp b₃ = .ok (.error 5, b₅) := by
    simp only [readScalarOp, h₄, h₅, ok_bind, if_neg (not_not.mpr (Eq.refl 0))]
  have hops : readAbbrevOps 2 3 b₁ [] = .ok (endlessAbbrev.ops, b₅) := by
    rw [readAbbrevOps, if_pos (by decide), hliteral, ok_bind]
    dsimp only
    rw [readAbbrevOps, if_pos (by decide), hblob]
    rfl
  simp only [pnAbbrevRead, h₁, hops, ok_bind, endlessAbbrev]

end Reads

/-! ## The long record -/

/-- What follows if there is enough fuel. -/
abbrev Leads {α : Type} (m : Except Stop α) (Q : α → Prop) : Prop := Avoids (· ≠ Stop.fuel) m Q

section Records

variable {n : Nat}

/-- One value of the long record. -/
theorem endless_value (hn : 2 ^ 29 - 3 ≤ n) {r : PNRecordReader} (he : r.entry = pnEntryUnabbrevRecord)
    (hcount : r.numValues = endlessCount) (hlt : r.valueIndex < endlessCount) (h : EndlessAt n (200 + 6 * r.valueIndex) r.bs) :
    ∃ bs', pnRecordTryReadUint32 r = .ok (some 0, { r with bs := bs', valueIndex := r.valueIndex + 1 }) ∧
      EndlessAt n (200 + 6 * (r.valueIndex + 1)) bs' := by
  have hcount' : endlessCount = 715827843 := rfl
  have hzero : HasBits endlessBit (200 + 6 * r.valueIndex) (bitList 6 0) := by
    intro i hi
    rw [length_bitList] at hi
    rw [endlessBit_zero (by omega) (by omega)]
    simp [bitList]
  obtain ⟨b, hr, hb⟩ := h.readVbr hn 6 0 hzero (by decide) (by decide) (by decide) (by omega)
  have hnext : (r.valueIndex + 1) % 2 ^ 32 = r.valueIndex + 1 := Nat.mod_eq_of_lt (by omega)
  refine ⟨b, ?_, hb⟩
  rw [pnRecordTryReadUint32, if_pos he, if_neg (by omega), hr, ok_bind, hnext]

theorem endless_values (hn : 2 ^ 29 - 3 ≤ n) : ∀ {fuel : Nat} {r : PNRecordReader}, r.entry = pnEntryUnabbrevRecord →
    r.numValues = endlessCount → r.valueIndex ≤ endlessCount → EndlessAt n (200 + 6 * r.valueIndex) r.bs →
    Leads (readValues fuel r) fun x => EndlessAt n (2 ^ 32 - 38) x.2.bs
  | 0, _, _, _, _, _ => .error (not_not.mpr rfl)
  | fuel + 1, r, he, hcount, hle, h => by
    rw [readValues]
    rcases hle.lt_or_eq with hlt | heq
    · obtain ⟨b, hr, hb⟩ := endless_value hn he hcount hlt h
      rw [hr, ok_bind]
      exact Avoids.bind (endless_values hn he hcount hlt hb) fun _ hx => .ok hx
    · rw [pnRecordTryReadUint32, if_pos he, if_pos (by omega)]
      refine .ok ?_
      rw [heq] at h
      exact h

/-- Behind the last operation there is nothing to read. -/
theorem leads_end {fuel : Nat} {r : PNRecordReader} {ab : PNAbbrev} (hu : r.Uses ab) (h : ab.ops.length ≤ r.opIndex) :
    Leads (readValues fuel r) fun x => x.2 = r := by
  cases fuel with
  | zero => exact .error (not_not.mpr rfl)
  | succ fuel =>
    rw [readValues_end hu h]
    exact .ok rfl

theorem uses_endlessAbbrev {r : PNRecordReader} (he : r.entry = 4) (ha : r.abbrevs = [endlessAbbrev]) : r.Uses endlessAbbrev := by
  rw [PNRecordReader.Uses, he, ha]
  decide

/-- The bytes of the blob. -/
theorem endless_blob (hn : 2 ^ 29 - 3 ≤ n) : ∀ {fuel : Nat} {r : PNRecordReader}, r.Uses endlessAbbrev → r.opIndex = 1 →
    r.numValues = 18 → 0 < r.valueIndex → r.valueIndex ≤ 18 → EndlessAt n (8 * r.valueIndex) r.bs →
    Leads (readValues fuel r) fun x => EndlessAt n 152 x.2.bs
  | 0, _, _, _, _, _, _, _ => .error (not_not.mpr rfl)
  | fuel + 1, r, hu, hop, hcount, hpos, hle, h => by
    have hop' : endlessAbbrev.ops[r.opIndex]? = some .blob := by rw [hop]; rfl
    obtain ⟨b, hr, hb⟩ := h.read hn 8 _ rfl (by decide) (by omega)
    have hnext : (r.valueIndex + 1) % 2 ^ 32 = r.valueIndex + 1 := Nat.mod_eq_of_lt (by omega)
    have h0 : ¬r.valueIndex = 0 := by omega
    rw [readValues, tryRead_abbrev hu]
    simp only [pnRecordReadAbbrev, uses_index hu, hop', if_neg h0, ok_bind, hr, hnext, hcount]
    rcases hle.lt_or_eq with hlt | heq
    · rw [if_neg (by omega)]
      exact Avoids.bind (endless_blob hn hu hop rfl (Nat.succ_pos _) hlt hb) fun _ hx => .ok hx
    · rw [if_pos heq]
      rw [heq] at hb
      refine Avoids.bind (leads_end hu ?_) fun x hx => .ok ?_
      · dsimp only
        rw [hop]
        decide
      · rw [hx]
        exact hb

end Records

/-! ## The entries -/

section Entries

variable {n fuel : Nat} {bs : PNBitStream} {host : PNHost} {dedupe : Bool} {limit : Nat} {s : PNModuleState}
  {Q : PNModuleState × PNBitStream → Prop}

/-- A record whose code is 1. -/
theorem leads_version {o : Nat} {r r' : PNRecordReader} {v : Nat} (hfirst : pnRecordTryReadUint32 r = .ok (some v, r'))
    (hrest : Leads (readValues limit r') fun x => EndlessAt n o x.2.bs) :
    Leads ((pnModuleBlock host dedupe limit).record s 1 r) fun x => EndlessAt n o x.2 := by
  have hread : pnRecordReadUint32 r "module version" = .ok (v, r') := by rw [pnRecordReadUint32, hfirst]; rfl
  have hsecond : Leads (pnRecordReadUint32 r "module version") fun x => x.2 = r' := hread ▸ .ok rfl
  refine Avoids.bind hsecond fun x hx => ?_
  subst hx
  exact Avoids.bind (Avoids.bind hrest fun _ hy => .ok hy) fun _ hb => .ok hb

theorem leads_record {o o' entry : Nat} {b₁ : PNBitStream} {abbrevs : List PNAbbrev} {r : PNRecordReader}
    (h : EndlessAt n o bs) (hend : o >>> 3 ≠ n) (hread : pnBitstreamRead bs 6 = .ok (entry, b₁)) (h3 : 3 ≤ entry)
    (hcode : pnRecordReadCode (pnRecordReaderInit b₁ abbrevs entry) = .ok (some 1, r))
    (hrecord : Leads ((pnModuleBlock host dedupe limit).record s 1 r) fun x => EndlessAt n o' x.2)
    (hrest : ∀ s' bs', EndlessAt n o' bs' →
      Leads (readEntries host (pnModuleBlock host dedupe limit) 6 fuel s' abbrevs bs') Q) :
    Leads (readEntries host (pnModuleBlock host dedupe limit) 6 (fuel + 1) s abbrevs bs) Q := by
  have hatEnd : ¬pnBitstreamAtEnd bs = true := by
    rw [pnBitstreamAtEnd, h.offset, h.dataLen, beq_iff_eq]
    exact hend
  have h0 : entry ≠ pnEntryEndBlock := by rw [pnEntryEndBlock]; omega
  have h1 : entry ≠ pnEntrySubblock := by rw [pnEntrySubblock]; omega
  have h2 : entry ≠ pnEntryDefineAbbrev := by rw [pnEntryDefineAbbrev]; omega
  rw [readEntries, if_neg hatEnd, hread, ok_bind]
  dsimp only
  rw [if_neg h0, if_neg h1, if_neg h2, hcode, ok_bind]
  exact Avoids.bind hrecord fun x hx => hrest x.1 x.2 hx

theorem endless_longRecord (hn : 2 ^ 29 - 3 ≤ n) (h : EndlessAt n 152 bs)
    (hrest : ∀ s' bs', EndlessAt n (2 ^ 32 - 38) bs' →
      Leads (readEntries host (pnModuleBlock host dedupe limit) 6 fuel s' [endlessAbbrev] bs') Q) :
    Leads (readEntries host (pnModuleBlock host dedupe limit) 6 (fuel + 1) s [endlessAbbrev] bs) Q := by
  obtain ⟨b₁, h₁, hb₁⟩ := h.read hn 6 3 (by decide) (by decide) (by decide)
  obtain ⟨b₂, h₂, hb₂⟩ := hb₁.readVbr hn 6 1 (by decide) (by decide) (by decide) (by decide) (by decide)
  obtain ⟨b₃, h₃, hb₃⟩ := hb₂.readCount hn
  have hcode : pnRecordReadCode (pnRecordReaderInit b₁ [endlessAbbrev] 3) =
      .ok (some 1, ⟨b₃, [endlessAbbrev], 3, 0, endlessCount, 0⟩) := by
    simp only [pnRecordReadCode, pnRecordReaderInit, pnEntryUnabbrevRecord, if_true, h₂, h₃, ok_bind]
  have hpos : 0 < endlessCount := by decide
  obtain ⟨b₄, h₄, hb₄⟩ := endless_value hn (r := ⟨b₃, [endlessAbbrev], 3, 0, endlessCount, 0⟩) rfl rfl hpos hb₃
  exact leads_record h (by rw [show 152 >>> 3 = 19 from rfl]; omega) h₁ (by decide) hcode
    (leads_version h₄ (endless_values hn rfl rfl hpos hb₄)) hrest

theorem endless_blobRecord (hn : 2 ^ 29 - 3 ≤ n) (hn' : n < 2 ^ 29) (h : EndlessAt n (2 ^ 32 - 38) bs)
    (hrest : ∀ s' bs', EndlessAt n 152 bs' →
      Leads (readEntries host (pnModuleBlock host dedupe limit) 6 fuel s' [endlessAbbrev] bs') Q) :
    Leads (readEntries host (pnModuleBlock host dedupe limit) 6 (fuel + 1) s [endlessAbbrev] bs) Q := by
  obtain ⟨b₁, h₁, hb₁⟩ := h.read hn 6 4 (by decide) (by decide) (by decide)
  obtain ⟨b₂, h₂, hb₂⟩ := hb₁.read hn 6 18 (by decide) (by decide) (by decide)
  have halign : pnAlignUp b₂.bitOffset 32 = 0 := by
    rw [hb₂.offset, pnAlignUp_32]
    decide
  obtain ⟨b₃, h₃, hb₃⟩ := hb₂.seek hn' (Nat.zero_le _)
  obtain ⟨b₄, h₄, hb₄⟩ := hb₃.read hn 8 _ rfl (by decide) (by decide)
  have hcode : pnRecordReadCode (pnRecordReaderInit b₁ [endlessAbbrev] 4) =
      .ok (some 1, ⟨b₁, [endlessAbbrev], 4, 1, 2 ^ 32 - 1, 0⟩) := by
    have hab : [endlessAbbrev][(4 + 2 ^ 32 - 4) % 2 ^ 32]? = some endlessAbbrev := rfl
    have h4 : ¬(4 : Nat) = pnEntryUnabbrevRecord := by decide
    have hop : endlessAbbrev.ops[0]? = some (.literal 1) := rfl
    simp only [pnRecordReadCode, pnRecordReadAbbrev, pnRecordReaderInit, if_neg h4, hab, hop, PNRecordReader.nextOp]
  have hfirst : pnRecordTryReadUint32 ⟨b₁, [endlessAbbrev], 4, 1, 2 ^ 32 - 1, 0⟩ =
      .ok (some 0x50, ⟨b₄, [endlessAbbrev], 4, 1, 18, 1⟩) := by
    have hab : [endlessAbbrev][(4 + 2 ^ 32 - 4) % 2 ^ 32]? = some endlessAbbrev := rfl
    have hop : endlessAbbrev.ops[1]? = some .blob := rfl
    rw [tryRead_abbrev (uses_endlessAbbrev rfl rfl)]
    simp only [pnRecordReadAbbrev, hab, hop, if_true, h₂, pnBitstreamAlign32, halign, h₃, h₄, ok_bind]
    rfl
  have hu : PNRecordReader.Uses ⟨b₄, [endlessAbbrev], 4, 1, 18, 1⟩ endlessAbbrev := uses_endlessAbbrev rfl rfl
  refine leads_record h ?_ h₁ (by decide) hcode (leads_version hfirst (endless_blob hn hu rfl rfl Nat.one_pos ?_ hb₄)) hrest
  · rw [show (2 ^ 32 - 38) >>> 3 = 2 ^ 29 - 5 from rfl]
    omega
  · exact Nat.le_of_ble_eq_true rfl

/-- **The module block never ends**: the two records follow one another for ever. -/
theorem endless_entries (hn : 2 ^ 29 - 3 ≤ n) (hn' : n < 2 ^ 29) : ∀ (fuel : Nat) (s : PNModuleState) (bs : PNBitStream),
    EndlessAt n 152 bs → Leads (readEntries host (pnModuleBlock host dedupe limit) 6 fuel s [endlessAbbrev] bs) fun _ => False
  | 0, _, _, _ => .error (not_not.mpr rfl)
  | 1, _, _, h => endless_longRecord hn h fun _ _ _ => .error (not_not.mpr rfl)
  | fuel + 2, _, _, h => endless_longRecord hn h fun _ _ h' => endless_blobRecord hn hn' h' (endless_entries hn hn' fuel)

theorem endless_block (hn : 2 ^ 29 - 3 ≤ n) (hn' : n < 2 ^ 29) (h : EndlessAt n 74 bs) :
    Leads (readBlock host (pnModuleBlock host dedupe limit) fuel s [] bs) fun _ => False := by
  obtain ⟨b₁, h₁, hb₁⟩ := h.readVbr hn 4 6 (by decide) (by decide) (by decide) (by decide) (by decide)
  have halign : pnAlignUp b₁.bitOffset 32 = 96 := by rw [hb₁.offset]; decide
  obtain ⟨b₂, h₂, hb₂⟩ := hb₁.seek hn' (show 96 ≤ 8 * n by omega)
  obtain ⟨b₃, h₃, hb₃⟩ := hb₂.read hn 32 0 (by decide) (by decide) (by decide)
  have hentries : readBlock host (pnModuleBlock host dedupe limit) fuel s [] bs =
      readEntries host (pnModuleBlock host dedupe limit) 6 fuel s [] b₃ := by
    rw [readBlock, h₁, ok_bind]
    dsimp only
    rw [pnCheck_bind (by decide), pnBitstreamAlign32, halign, h₂, ok_bind, h₃, ok_bind]
  rw [hentries]
  cases fuel with
  | zero => exact .error (not_not.mpr rfl)
  | succ fuel =>
    obtain ⟨b₄, h₄, hb₄⟩ := hb₃.read hn 6 2 (by decide) (by decide) (by decide)
    obtain ⟨b₅, h₅, hb₅⟩ := EndlessAt.abbrev hb₄ hn
    have hatEnd : ¬pnBitstreamAtEnd b₃ = true := by
      rw [pnBitstreamAtEnd, hb₃.offset, hb₃.dataLen, beq_iff_eq, show (96 + 32) >>> 3 = 16 from rfl]
      omega
    rw [readEntries, if_neg hatEnd, h₄, ok_bind]
    dsimp only
    rw [if_neg (by decide), if_neg (by decide), if_pos (by decide), h₅, ok_bind]
    exact endless_entries hn hn' fuel s b₅ hb₅

/-- **The reader never comes to the end of this file**, whatever the fuel. -/
theorem endless_read (hn : 2 ^ 29 - 3 ≤ n) (hn' : n < 2 ^ 29) (module : PNModule) :
    pnModuleRead host dedupe fuel module (pnBitstreamInit endlessFile n) = .error .fuel := by
  have hinit : EndlessAt n 0 (pnBitstreamInit endlessFile n) := ⟨pnBitstreamInit_inv endlessFile hn', rfl, rfl, rfl⟩
  obtain ⟨b₁, h₁, hb₁⟩ := hinit.header hn
  obtain ⟨b₂, h₂, hb₂⟩ := hb₁.read hn 2 1 (by decide) (by decide) (by decide)
  obtain ⟨b₃, h₃, hb₃⟩ := hb₂.readVbr hn 8 8 (by decide) (by decide) (by decide) (by decide) (by decide)
  have hread : Leads (pnModuleRead host dedupe fuel module (pnBitstreamInit endlessFile n)) fun _ => False := by
    rw [pnModuleRead, h₁, ok_bind, h₂, ok_bind]
    dsimp only
    rw [if_neg (by decide), h₃, ok_bind]
    dsimp only
    rw [pnCheck_bind rfl]
    exact Avoids.bind (endless_block hn hn' hb₃) fun _ hx => hx.elim
  cases hm : pnModuleRead host dedupe fuel module (pnBitstreamInit endlessFile n) with
  | ok x => exact (hread.1 x hm).elim
  | error e => rw [not_not.mp (hread.2 e hm)]

end Entries

end Pnacl
