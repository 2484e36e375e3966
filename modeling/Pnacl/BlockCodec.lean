import Pnacl.BlobFields
import Pnacl.Reader

/-!
# Blocks of unabbreviated records

The encoding of a block whose records are all unabbreviated, and what a block reader makes of it: it takes one entry after the
other (`PNBlockReader.Reads`), a record from the reader that stands before its values (`PNRecordReader.Before`) and a block inside
the block, and then comes to its end (`readBlock_reads`).
-/

namespace Pnacl

open Lib PNBitStream

/-! ## The encoding -/

/-- A record with its code. -/
abbrev CodedRecord := Nat × List Nat

/-- A record with its abbreviation id, which has `width` bits. -/
def encRecord (width : Nat) (r : CodedRecord) : List Bool := bitList width pnEntryUnabbrevRecord ++ encUnabbrev r.1 r.2

/-- The header behind the block id, of a block of `words` words that begins at `offset`. -/
def encHeader (offset width words : Nat) : List Bool :=
  encVbr 4 width ++ padding (offset + (encVbr 4 width).length) ++ bitList 32 words

/-- A block with these entries, behind its id. -/
def encBlock (offset width words : Nat) (entries : List Bool) : List Bool :=
  let bits := encHeader offset width words ++ entries ++ bitList width pnEntryEndBlock
  bits ++ padding (offset + bits.length)

/-- A block in a block, with its id. `block` is the block behind the id, by the place where it begins. -/
def encSubblock (width id offset : Nat) (block : Nat → List Bool) : List Bool :=
  bitList width pnEntrySubblock ++ (encVbr 8 id ++ block (offset + width + (encVbr 8 id).length))

theorem six_mul_length_le_encVbrs : ∀ vs : List Nat, 6 * vs.length ≤ (vs.flatMap (encVbr 6)).length
  | [] => Nat.le_refl _
  | v :: vs => by
    have ih := six_mul_length_le_encVbrs vs
    have hpos : 0 < (vbrChunks 6 v).length := by
      rw [vbrChunks]
      split <;> simp
    rw [List.flatMap_cons, List.length_append, length_encVbr, List.length_cons]
    omega

/-! ## Streams that go on -/

/-- The stream is at `stop`, and `rest` follows. -/
structure PNBitStream.GoesOn (bs : PNBitStream) (stop : Nat) (rest : List Bool) : Prop where
  inv : Inv bs
  offset : bs.bitOffset = stop
  bits : bs.At rest

section Stream

variable {bs bs' : PNBitStream} {l rest : List Bool} {offset stop : Nat}

theorem PNBitStream.GoesOn.first (h : bs.GoesOn stop (l ++ rest)) : bs.At l := h.bits.first

theorem PNBitStream.GoesOn.moved (h : bs.GoesOn stop (l ++ rest)) (hm : Moved bs l.length bs') :
    bs'.GoesOn (stop + l.length) rest :=
  ⟨hm.inv, by rw [hm.offset, h.offset], h.bits.rest hm⟩

/-- A field of `n` bits. -/
theorem PNBitStream.GoesOn.read {n v : Nat} (h : bs.GoesOn stop (bitList n v ++ rest)) (hn : n ≤ 32) (hv : v < 2 ^ n) :
    ∃ bs', pnBitstreamRead bs n = .ok (v, bs') ∧ bs'.GoesOn (stop + n) rest := by
  have hlen : (bitList n v).length = n := length_bitList ..
  obtain ⟨bs', hr, hm⟩ := read_fixed h.inv hn hv h.first
  have hg := h.moved (by rwa [hlen])
  rw [hlen] at hg
  exact ⟨bs', hr, hg⟩

/-- A field of a variable number of bits. -/
theorem PNBitStream.GoesOn.readVbr {n v : Nat} (h : bs.GoesOn stop (encVbr n v ++ rest)) (hn2 : 2 ≤ n) (hn : n ≤ 32)
    (hv : v < 2 ^ 32) : ∃ bs', pnBitstreamReadVbr bs n = .ok (v, bs') ∧ bs'.GoesOn (stop + (encVbr n v).length) rest := by
  obtain ⟨bs', hr, hm⟩ := (readVbr_enc hn2 hn (show v < 2 ^ 64 by omega) h.inv h.first).1 (.inl hv)
  rw [Nat.mod_eq_of_lt hv] at hr
  exact ⟨bs', hr, h.moved hm⟩

/-- The stream goes to the next word. -/
theorem PNBitStream.GoesOn.align (h : bs.GoesOn stop (padding stop ++ rest)) :
    ∃ bs', pnBitstreamAlign32 bs = .ok bs' ∧ bs'.GoesOn (stop + (padding stop).length) rest := by
  have hlen := h.inv.dataLen_lt
  have hword := h.inv.word_lt
  have hend := h.bits.2
  have hoff := h.offset
  have hpad : (padding stop).length = (32 - stop % 32) % 32 := List.length_replicate
  rw [List.length_append, hpad, hoff] at hend
  have hup : pnAlignUp bs.bitOffset 32 = stop + (32 - stop % 32) % 32 := by
    rw [hoff, pnAlignUp_32]
    omega
  obtain ⟨bs', hseek, hi, hs, ho⟩ := pnBitstreamSeekBit_spec hlen hword
    (show stop + (32 - stop % 32) % 32 ≤ 8 * bs.dataLen by omega)
  refine ⟨bs', by rw [pnBitstreamAlign32, hup, hseek], ?_⟩
  rw [hpad]
  exact ⟨hi, ho, h.bits.rest ⟨hi, hs, by rw [ho, hoff, hpad]⟩⟩

end Stream

/-! ## Files -/

/-- The file that holds these bits, from the first byte on. -/
def fileOf (l : List Bool) : PNBitStream :=
  pnBitstreamInit (fun i => UInt8.ofNat (bitsAt (fun j => l.getD j false) (8 * i) 8)) ((l.length + 7) / 8)

theorem fileOf_bit (l : List Bool) (i : Nat) : (fileOf l).bit i = l.getD i false := by
  have hlt : bitsAt (fun j => l.getD j false) (8 * (i / 8)) 8 < 2 ^ 8 := bitsAt_lt ..
  have hmod : i % 8 < 8 := Nat.mod_lt _ (by decide)
  have hpos : 8 * (i / 8) + i % 8 = i := Nat.div_add_mod i 8
  rw [PNBitStream.bit, fileOf, pnBitstreamInit]
  dsimp only
  rw [UInt8.toNat_ofNat', Nat.mod_eq_of_lt hlt, testBit_bitsAt, decide_eq_true hmod, Bool.true_and, hpos]

/-- The stream is in front of the bits of its file. -/
theorem fileOf_goesOn {l : List Bool} (h : l.length < 2 ^ 32 - 8) : (fileOf l).GoesOn 0 l := by
  refine ⟨pnBitstreamInit_inv _ (show (l.length + 7) / 8 < 2 ^ 29 by omega), rfl, fun i hi => ?_, ?_⟩
  · rw [show (fileOf l).bitOffset = 0 from rfl, Nat.zero_add, fileOf_bit, List.getD_eq_getElem _ _ hi]
  · change 0 + l.length ≤ 8 * ((l.length + 7) / 8)
    omega

/-! ## Readers before the values of a record -/

/-- The reader of an unabbreviated record stands before these values, and behind them at `stop` the stream goes on with `rest`. -/
structure PNRecordReader.Before (r : PNRecordReader) (vs : List Nat) (stop : Nat) (rest : List Bool) : Prop where
  entry : r.entry = pnEntryUnabbrevRecord
  inv : Inv r.bs
  count : r.valueIndex + vs.length = r.numValues
  numValues_lt : r.numValues < 2 ^ 32
  offset : r.bs.bitOffset + (vs.flatMap (encVbr 6)).length = stop
  bits : r.bs.At (vs.flatMap (encVbr 6) ++ rest)

section Reader

variable {r : PNRecordReader} {v stop fuel : Nat} {vs : List Nat} {rest : List Bool}

theorem PNRecordReader.Before.more (h : r.Before (v :: vs) stop rest) : ¬r.numValues ≤ r.valueIndex := by
  have hcount := h.count
  rw [List.length_cons] at hcount
  omega

theorem PNRecordReader.Before.at (h : r.Before (v :: vs) stop rest) : r.bs.At (encVbr 6 v) := by
  have hbits := h.bits
  rw [List.flatMap_cons, List.append_assoc] at hbits
  exact hbits.first

/-- The reader behind the next value. -/
theorem PNRecordReader.Before.next (h : r.Before (v :: vs) stop rest) {bs : PNBitStream} (hm : Moved r.bs (encVbr 6 v).length bs) :
    PNRecordReader.Before { r with bs := bs, valueIndex := (r.valueIndex + 1) % 2 ^ 32 } vs stop rest := by
  have hcount := h.count
  have hlt := h.numValues_lt
  have hbits := h.bits
  have hoffset := h.offset
  rw [List.length_cons] at hcount
  rw [List.flatMap_cons, List.append_assoc] at hbits
  rw [List.flatMap_cons, List.length_append] at hoffset
  refine ⟨h.entry, hm.inv, ?_, hlt, ?_, hbits.rest hm⟩
  · simp only
    omega
  · simp only [hm.offset]
    omega

/-- The next value, read with 32 bits. -/
theorem PNRecordReader.Before.tryRead (h : r.Before (v :: vs) stop rest) (hv : v < 2 ^ 32) :
    ∃ r', pnRecordTryReadUint32 r = .ok (some v, r') ∧ r'.Before vs stop rest := by
  obtain ⟨bs, hr, hm⟩ := readVbr6_enc h.inv hv h.at
  refine ⟨_, ?_, h.next hm⟩
  rw [pnRecordTryReadUint32, if_pos h.entry, if_neg h.more, hr]
  rfl

/-- Behind the last value there is none. -/
theorem PNRecordReader.Before.tryRead_end (h : r.Before [] stop rest) : pnRecordTryReadUint32 r = .ok (none, r) := by
  have hcount := h.count
  rw [List.length_nil] at hcount
  rw [pnRecordTryReadUint32, if_pos h.entry, if_pos (by omega)]

theorem PNRecordReader.Before.readUint32 (h : r.Before (v :: vs) stop rest) (hv : v < 2 ^ 32) (name : String) :
    ∃ r', pnRecordReadUint32 r name = .ok (v, r') ∧ r'.Before vs stop rest := by
  obtain ⟨r', hr, h'⟩ := h.tryRead hv
  refine ⟨r', ?_, h'⟩
  rw [pnRecordReadUint32, hr]
  rfl

theorem PNRecordReader.Before.readUint16 (h : r.Before (v :: vs) stop rest) (hv : v < 2 ^ 16) (name : String) :
    ∃ r', pnRecordReadUint16 r name = .ok (v, r') ∧ r'.Before vs stop rest := by
  obtain ⟨r', hr, h'⟩ := h.tryRead (Nat.lt_trans hv (by decide))
  refine ⟨r', ?_, h'⟩
  rw [pnRecordReadUint16, pnRecordTryReadUint16, hr, ok_bind]
  dsimp only
  rw [if_neg (by omega)]
  rfl

/-- All values up to the end. -/
theorem PNRecordReader.Before.readValues (h : r.Before vs stop rest) (hvs : ∀ v ∈ vs, v < 2 ^ 32) (hfuel : vs.length < fuel) :
    ∃ r', Pnacl.readValues fuel r = .ok (vs, r') ∧ Moved r.bs (vs.flatMap (encVbr 6)).length r'.bs :=
  readValues_unabbrev vs r fuel h.entry h.inv hfuel h.count h.numValues_lt hvs h.bits.first

/-- Each value takes six bits at least, and the file has less than 2^32 bits. -/
theorem PNRecordReader.Before.length_lt (h : r.Before vs stop rest) : vs.length < 2 ^ 31 := by
  have hend := h.bits.2
  have hmin := six_mul_length_le_encVbrs vs
  have hdata := h.inv.dataLen_lt
  rw [List.length_append] at hend
  omega

/-- The end of a record whose values have all been read. -/
theorem PNRecordReader.Before.finish {σ : Type} (h : r.Before [] stop rest) (hfuel : 0 < fuel) (s : σ) :
    ∃ bs, Pnacl.finish fuel s r = .ok (s, bs) ∧ bs.GoesOn stop rest := by
  obtain ⟨r', hr, hm⟩ := h.readValues (fun _ hv => (List.not_mem_nil hv).elim) (show ([] : List Nat).length < fuel from hfuel)
  refine ⟨r'.bs, by rw [Pnacl.finish, pnRecordReaderFinish, hr]; rfl, hm.inv, ?_, h.bits.rest hm⟩
  rw [hm.offset]
  exact h.offset

/-- Counting the values that are left goes back to where it began. -/
theorem PNRecordReader.Before.numValuesLeft (h : r.Before vs stop rest) (hvs : ∀ v ∈ vs, v < 2 ^ 32) (hfuel : vs.length < fuel) :
    ∃ r', pnRecordNumValuesLeft fuel r = .ok (vs.length, r') ∧ r'.Before vs stop rest := by
  obtain ⟨r', hr, hm⟩ := h.readValues hvs hfuel
  have hlen := h.length_lt
  have hend := h.bits.2
  rw [List.length_append] at hend
  obtain ⟨bs', hseek, hi, hs, ho⟩ := pnBitstreamSeekBit_spec hm.inv.dataLen_lt hm.inv.word_lt
    (show r.bs.bitOffset ≤ 8 * r'.bs.dataLen by rw [hm.same.2]; omega)
  have hback : Moved r.bs 0 bs' := ⟨hi, hm.same.trans hs, ho⟩
  refine ⟨{ r with bs := bs' }, ?_, h.entry, hi, h.count, h.numValues_lt, ?_, ?_⟩
  · rw [pnRecordNumValuesLeft, hr, ok_bind]
    dsimp only
    rw [if_neg (by omega), hseek]
    rfl
  · simp only [ho]
    exact h.offset
  · exact PNBitStream.At.rest (show r.bs.At ([] ++ _) from h.bits) hback

end Reader

/-! ## Blocks -/

section Block

variable {σ : Type} {host : PNHost} {b : PNBlockReader σ} {s s₁ s' : σ} {rs : List CodedRecord} {bs : PNBitStream}
  {width words stop k j n fuel : Nat} {l m rest : List Bool} {abbrevs : List PNAbbrev}

/-- The reader takes the record from this state to that one. -/
def PNBlockReader.TakesRecord (b : PNBlockReader σ) (s : σ) (r : CodedRecord) (s' : σ) : Prop :=
  ∀ (reader : PNRecordReader) (stop : Nat) (rest : List Bool), reader.Before r.2 stop rest →
    ∃ bs, b.record s r.1 reader = .ok (s', bs) ∧ bs.GoesOn stop rest

/-- One record after the other. -/
inductive PNBlockReader.Takes (b : PNBlockReader σ) : σ → List CodedRecord → σ → Prop where
  | nil (s : σ) : Takes b s [] s
  | cons {s s₁ s' : σ} {r : CodedRecord} {rs : List CodedRecord} (hr : r.1 < 2 ^ 32) (h : b.TakesRecord s r s₁)
      (hs : Takes b s₁ rs s') : Takes b s (r :: rs) s'

theorem PNBlockReader.Takes.append {rs₁ rs₂ : List CodedRecord} (h₁ : b.Takes s rs₁ s₁) (h₂ : b.Takes s₁ rs₂ s') :
    b.Takes s (rs₁ ++ rs₂) s' := by
  induction h₁ with
  | nil => exact h₂
  | cons hr h _ ih => exact .cons hr h (ih h₂)

/-- In `k` rounds the loop reads these bits, which begin at `stop`. -/
def PNBlockReader.Reads (host : PNHost) (b : PNBlockReader σ) (width : Nat) (abbrevs : List PNAbbrev) (k stop : Nat) (l : List Bool)
    (s s' : σ) : Prop :=
  ∀ (rest : List Bool) (bs : PNBitStream) (n : Nat), bs.GoesOn stop (l ++ rest) →
    ∃ bs', readEntries host b width (n + k) s abbrevs bs = readEntries host b width n s' abbrevs bs' ∧
      bs'.GoesOn (stop + l.length) rest

theorem PNBlockReader.Reads.append (h₁ : b.Reads host width abbrevs k stop l s s₁)
    (h₂ : b.Reads host width abbrevs j (stop + l.length) m s₁ s') : b.Reads host width abbrevs (j + k) stop (l ++ m) s s' := by
  intro rest bs n h
  rw [List.append_assoc] at h
  obtain ⟨bs₁, hr₁, hg₁⟩ := h₁ _ _ (n + j) h
  obtain ⟨bs', hr₂, hg₂⟩ := h₂ _ _ n hg₁
  refine ⟨bs', ?_, ?_⟩
  · rw [← Nat.add_assoc, hr₁, hr₂]
  · rwa [List.length_append, ← Nat.add_assoc]

/-- There is still something to read. -/
theorem not_atEnd (hat : bs.At l) (hl : 0 < l.length) : pnBitstreamAtEnd bs = false := by
  have hend := hat.2
  rw [pnBitstreamAtEnd, beq_eq_false_iff_ne, Nat.shiftRight_eq_div_pow]
  omega

/-- The abbreviation id of an entry. -/
theorem PNBitStream.GoesOn.entry {entry : Nat} (h : bs.GoesOn stop (bitList width entry ++ rest)) (hwidth : 2 ≤ width)
    (hle : width ≤ 32) (hentry : entry < 4) :
    pnBitstreamAtEnd bs = false ∧ ∃ bs', pnBitstreamRead bs width = .ok (entry, bs') ∧ bs'.GoesOn (stop + width) rest := by
  have hpow : 2 ^ 2 ≤ 2 ^ width := Nat.pow_le_pow_right (by decide) hwidth
  have hlen : (bitList width entry).length = width := length_bitList ..
  exact ⟨not_atEnd h.first (by omega), h.read hle (by omega)⟩

/-- The reader of an unabbreviated record before its values. -/
theorem readCode_before (abbrevs : List PNAbbrev) {r : CodedRecord} (hr : r.1 < 2 ^ 32)
    (h : bs.GoesOn stop (encUnabbrev r.1 r.2 ++ rest)) :
    ∃ reader, pnRecordReadCode (pnRecordReaderInit bs abbrevs pnEntryUnabbrevRecord) = .ok (some r.1, reader) ∧
      reader.Before r.2 (stop + (encUnabbrev r.1 r.2).length) rest := by
  have hlen : r.2.length < 2 ^ 32 := by
    have h₁ := h.bits.2
    have h₂ := length_le_encVbrs r.2
    have h₃ := h.inv.dataLen_lt
    simp only [encUnabbrev, List.length_append] at h₁
    omega
  have hat := h.bits
  simp only [encUnabbrev, List.append_assoc] at hat
  obtain ⟨b₁, h₁, hm₁⟩ := readVbr6_enc h.inv hr hat.first
  have hat₁ := hat.rest hm₁
  obtain ⟨b₂, h₂, hm₂⟩ := readVbr6_enc hm₁.inv hlen hat₁.first
  refine ⟨{ pnRecordReaderInit bs abbrevs pnEntryUnabbrevRecord with bs := b₂, numValues := r.2.length }, ?_, rfl, hm₂.inv,
    Nat.zero_add _, hlen, ?_, hat₁.rest hm₂⟩
  · simp only [pnRecordReadCode, pnRecordReaderInit, if_true, h₁, h₂, ok_bind]
  · simp only [encUnabbrev, List.length_append, hm₂.offset, hm₁.offset, h.offset]
    omega

/-- A record is one entry. -/
theorem PNBlockReader.TakesRecord.reads {r : CodedRecord} (ht : b.TakesRecord s r s') (hr : r.1 < 2 ^ 32) (hwidth : 2 ≤ width)
    (hle : width ≤ 32) : b.Reads host width abbrevs 1 stop (encRecord width r) s s' := by
  intro rest bs n h
  rw [encRecord, List.append_assoc] at h
  obtain ⟨hend, b₁, hread, hg₁⟩ := h.entry hwidth hle (by decide)
  obtain ⟨reader, hcode, hbefore⟩ := readCode_before abbrevs hr hg₁
  obtain ⟨bs', hrecord, hg₂⟩ := ht _ _ _ hbefore
  refine ⟨bs', ?_, ?_⟩
  · rw [readEntries, hend, if_neg (by decide), hread, ok_bind]
    dsimp only
    rw [if_neg (by decide), if_neg (by decide), if_neg (by decide), hcode, ok_bind]
    dsimp only
    rw [Option.getD_some, hrecord]
    rfl
  · rwa [encRecord, List.length_append, length_bitList, ← Nat.add_assoc]

/-- Records are one entry each. -/
theorem PNBlockReader.Takes.reads (ht : b.Takes s rs s') (hwidth : 2 ≤ width) (hle : width ≤ 32) : ∀ {stop : Nat},
    b.Reads host width abbrevs rs.length stop (rs.flatMap (encRecord width)) s s' := by
  induction ht with
  | nil s =>
    intro stop rest bs n h
    exact ⟨bs, rfl, h⟩
  | cons hr h _ ih => exact PNBlockReader.Reads.append (h.reads hr hwidth hle) ih

/-- A block inside the block is one entry. The reader behind its id goes on as `cont`. -/
theorem PNBlockReader.Reads.subblock {id : Nat} {block : Nat → List Bool} {cont : PNBitStream → Except Stop (σ × PNBitStream)}
    (hwidth : 2 ≤ width) (hle : width ≤ 32) (hid : id < 2 ^ 32)
    (hsub : ∀ {bs b₁ : PNBitStream}, pnBitstreamReadVbr bs 8 = .ok (id, b₁) → b.subblock s bs = cont b₁)
    (hcont : ∀ {b₁ : PNBitStream} {start : Nat} {rest : List Bool}, b₁.GoesOn start (block start ++ rest) →
      ∃ bs', cont b₁ = .ok (s', bs') ∧ bs'.GoesOn (start + (block start).length) rest) :
    b.Reads host width abbrevs 1 stop (encSubblock width id stop block) s s' := by
  intro rest bs n hg
  rw [encSubblock, List.append_assoc, List.append_assoc] at hg
  obtain ⟨hend, b₁, hread, hg₁⟩ := hg.entry hwidth hle (by decide)
  obtain ⟨b₂, hread₂, hg₂⟩ := hg₁.readVbr (by decide) (by decide) hid
  obtain ⟨bs', hblock, hg₃⟩ := hcont hg₂
  refine ⟨bs', ?_, ?_⟩
  · rw [readEntries, hend, if_neg (by decide), hread, ok_bind]
    dsimp only
    rw [if_neg (by decide), if_pos rfl, hsub hread₂, hblock]
    rfl
  · simpa only [encSubblock, List.length_append, length_bitList, Nat.add_assoc] using hg₃

/-- **A block is read**: its header, its entries, and its end. -/
theorem readBlock_reads (hwidth : 2 ≤ width) (hle : width ≤ 32) (hwords : words < 2 ^ 32)
    (hr : b.Reads host width abbrevs k (stop + (encHeader stop width words).length) l s s') (hfuel : k < fuel)
    (h : bs.GoesOn stop (encHeader stop width words ++ l ++ bitList width pnEntryEndBlock ++ rest)) :
    ∃ bs', readBlock host b fuel s abbrevs bs = b.endBlock s' bs' ∧
      bs'.GoesOn (stop + (encHeader stop width words ++ l ++ bitList width pnEntryEndBlock).length) rest := by
  have h' := h
  simp only [encHeader, List.append_assoc] at h'
  obtain ⟨b₁, h₁, hg₁⟩ := h'.readVbr (by decide) (by decide) (show width < 2 ^ 32 by omega)
  obtain ⟨b₂, h₂, hg₂⟩ := hg₁.align
  obtain ⟨b₃, h₃, hg₃⟩ := hg₂.read (le_refl 32) hwords
  have hhead : stop + (encVbr 4 width).length + (padding (stop + (encVbr 4 width).length)).length + 32 =
      stop + (encHeader stop width words).length := by
    simp only [encHeader, List.length_append, length_bitList]
    omega
  rw [hhead] at hg₃
  obtain ⟨n, rfl⟩ : ∃ n, fuel = n + 1 + k := ⟨fuel - 1 - k, by omega⟩
  obtain ⟨b₄, h₄, hg₄⟩ := hr _ _ (n + 1) hg₃
  obtain ⟨hend, bs', h₅, hg₅⟩ := hg₄.entry hwidth hle (by decide)
  refine ⟨bs', ?_, ?_⟩
  · rw [readBlock, h₁, ok_bind]
    dsimp only
    rw [pnCheck_bind hle, h₂, ok_bind, h₃, ok_bind]
    dsimp only
    rw [h₄, readEntries, hend, if_neg (by decide), h₅, ok_bind]
    rfl
  · simpa only [List.length_append, length_bitList, Nat.add_assoc] using hg₅

/-- The same for a reader that aligns the stream at the end of the block. -/
theorem readBlock_aligned (hwidth : 2 ≤ width) (hle : width ≤ 32) (hwords : words < 2 ^ 32)
    (hr : b.Reads host width abbrevs k (stop + (encHeader stop width words).length) l s s') (hfuel : k < fuel) {s'' : σ}
    (hb : ∀ bs, b.endBlock s' bs = alignEnd s'' bs) (h : bs.GoesOn stop (encBlock stop width words l ++ rest)) :
    ∃ bs', readBlock host b fuel s abbrevs bs = .ok (s'', bs') ∧ bs'.GoesOn (stop + (encBlock stop width words l).length) rest := by
  rw [encBlock, List.append_assoc] at h
  obtain ⟨b₁, h₁, hg₁⟩ := readBlock_reads hwidth hle hwords hr hfuel h
  obtain ⟨b₂, h₂, hg₂⟩ := hg₁.align
  refine ⟨b₂, ?_, ?_⟩
  · rw [h₁, hb, alignEnd, h₂]
    rfl
  · rwa [encBlock, List.length_append, ← Nat.add_assoc]

end Block

end Pnacl
