import Pnacl.RecordFields

/-!
# Blobs

A BLOB at the end of an abbreviation, in the LLVM bitstream format: the number of bytes as a VBR-6, up to a word boundary, the
bytes, up to a word boundary. The reader takes the length from one chunk of six bits, which for 32 bytes and more also holds a
continuation bit, and then yields a byte more than the chunk says (`Yields.blob_length`). So it decodes no blob
(`blob_never_decodes`).
-/

namespace Pnacl

open Lib PNBitStream

/-! ## The encoding -/

/-- The zeros up to the next word boundary. -/
def padding (offset : Nat) : List Bool := List.replicate ((32 - offset % 32) % 32) false

/-- The length of a blob that begins at `offset`, up to the first byte. -/
def encBlobLength (offset n : Nat) : List Bool := encVbr 6 n ++ padding (offset + (encVbr 6 n).length)

/-- A blob that begins at `offset`. -/
def encBlob (offset : Nat) (bytes : List UInt8) : List Bool :=
  let data := encBlobLength offset bytes.length ++ bytes.flatMap fun b => bitList 8 b.toNat
  data ++ padding (offset + data.length)

/-- The six bits that the reader takes for the length of a blob of `n` bytes. -/
def blobChunk (n : Nat) : Nat := if n < 32 then n else n % 32 + 32

theorem blobChunk_lt (n : Nat) : blobChunk n < 2 ^ 6 := by
  unfold blobChunk
  split <;> omega

theorem encVbr6_first (n : Nat) : ∃ rest, encVbr 6 n = bitList 6 (blobChunk n) ++ rest := by
  unfold blobChunk
  split
  · rename_i h
    exact ⟨[], by simp [encVbr, vbrChunks_last (show n < 2 ^ (6 - 1) from h)]⟩
  · rename_i h
    refine ⟨encVbr 6 (n / 32), ?_⟩
    rw [encVbr, vbrChunks_more (by omega) (show 2 ^ (6 - 1) ≤ n by omega)]
    rfl

theorem read_blobChunk {bs : PNBitStream} (h : Inv bs) {bytes : List UInt8} (hat : bs.At (encBlob bs.bitOffset bytes)) :
    ∃ bs', pnBitstreamRead bs 6 = .ok (blobChunk bytes.length, bs') := by
  obtain ⟨rest, hrest⟩ := encVbr6_first bytes.length
  rw [encBlob, encBlobLength, hrest] at hat
  simp only [List.append_assoc] at hat
  obtain ⟨bs', hr, -⟩ := read_fixed h (show 6 ≤ 32 by omega) (blobChunk_lt _) hat.first
  exact ⟨bs', hr⟩

/-! ## What the reader yields -/

/-- A field, read with the 32-bit or with the 64-bit reader. -/
def ReadsField (r : PNRecordReader) (o : Option Nat) (r' : PNRecordReader) : Prop :=
  pnRecordTryReadUint32 r = .ok (o, r') ∨ pnRecordTryReadUint64 r = .ok (o, r')

/-- From `r` on the reader yields these values, and then reports the end of the record at `r'`. -/
inductive Yields : PNRecordReader → List Nat → PNRecordReader → Prop
  | stop {r r' : PNRecordReader} (h : ReadsField r none r') : Yields r [] r'
  | field {r r₁ r' : PNRecordReader} {v : Nat} {vs : List Nat} (h : ReadsField r (some v) r₁) (hs : Yields r₁ vs r') :
      Yields r (v :: vs) r'

theorem ReadsField.step {r r' : PNRecordReader} {o : Option Nat} (h : ReadsField r o r') (hi : Inv r.bs) :
    ∃ o', FieldStep r o' r' ∧ o'.isSome = o.isSome := by
  rcases h with h | h
  · exact fieldStep_of_read32 hi h
  · exact ⟨o, fieldStep_of_read h, rfl⟩

section Blob

variable {r q : PNRecordReader} {ab : PNAbbrev} {vs : List Nat}

/-- The reader uses an abbreviation that ends in a BLOB, and has come to it. -/
structure AtBlob (ab : PNAbbrev) (r : PNRecordReader) : Prop where
  entry : r.entry ≠ pnEntryUnabbrevRecord
  uses : r.abbrev = some ab
  op : r.op ab = some .blob
  last : ab.ops.length = r.opIndex + 1

theorem AtBlob.afterByte_end {k : Nat} {bs : PNBitStream} (h : AtBlob ab r) (hk : r.valueIndex = k) :
    (r.afterByte k bs).op ab = none := by
  rw [PNRecordReader.op, PNRecordReader.afterByte, List.getElem?_eq_none]
  simp only [if_pos hk, h.last]
  exact Nat.le_refl _

theorem AtBlob.afterByte_next {k : Nat} {bs : PNBitStream} (h : AtBlob ab r) (hk : r.valueIndex ≠ k) :
    AtBlob ab (r.afterByte k bs) := by
  have hop : (r.afterByte k bs).opIndex = r.opIndex := if_neg hk
  refine ⟨h.entry, h.uses, ?_, hop.symm ▸ h.last⟩
  rw [PNRecordReader.op, hop]
  exact h.op

/-- Behind the last operation nothing is read. -/
theorem Yields.nil_of_end (h : Yields r vs q) (hi : Inv r.bs) (he : r.entry ≠ pnEntryUnabbrevRecord)
    (hab : r.abbrev = some ab) (hop : r.op ab = none) : vs = [] := by
  cases h with
  | stop h => rfl
  | field h hs =>
    obtain ⟨o, hf, ho⟩ := h.step hi
    rw [(hf.unique (.opsEnd he hab hop)).1] at ho
    cases ho

/-- A step at a blob reads a byte. -/
theorem AtBlob.step {o : Option Nat} {r' : PNRecordReader} (h : AtBlob ab r) (hf : FieldStep r o r') :
    ∃ v k bs, o = some v ∧ r' = r.afterByte k bs ∧
      (if r.valueIndex = 0 then ∃ bs', pnBitstreamRead r.bs 6 = .ok (k, bs') else k = r.numValues) := by
  have hsame : ∀ {ab' : PNAbbrev} {o' : Option PNAbbrevOp}, r.abbrev = some ab' → r.op ab' = o' → o' = some .blob := by
    intro ab' o' hab' hop'
    obtain rfl : ab = ab' := Option.some.inj (h.uses.symm.trans hab')
    exact hop'.symm.trans h.op
  cases hf with
  | valuesEnd he hend => exact absurd he h.entry
  | value he hlt hv => exact absurd he h.entry
  | opsEnd he hab hop => cases hsame hab hop
  | scalar he hab hop hs hv =>
    cases hsame hab hop
    exact hs.elim
  | arrayStart he hab hop h0 hk helt hv => cases hsame hab hop
  | arrayNext he hab hop h0 helt hv => cases hsame hab hop
  | @blobStart _ k v _ _ bs he hab hop h0 hk halign hv =>
    refine ⟨v, k, bs, rfl, rfl, ?_⟩
    rw [if_pos h0]
    exact ⟨_, hk⟩
  | @blobNext _ v bs he hab hop h0 hv => exact ⟨v, r.numValues, bs, rfl, rfl, if_neg h0 ▸ rfl⟩

/-- Inside a blob whose length field is `k`, the bytes up to and with number `k` are left. -/
theorem Yields.blob_rest {k : Nat} (h : Yields r vs q) (hi : Inv r.bs) (hb : AtBlob ab r) (h0 : r.valueIndex ≠ 0)
    (hk : r.numValues = k) (hle : r.valueIndex ≤ k) (h32 : k + 1 < 2 ^ 32) : vs.length + r.valueIndex = k + 1 := by
  induction h with
  | stop h =>
    obtain ⟨o, hf, ho⟩ := h.step hi
    obtain ⟨v, k', bs, rfl, -⟩ := hb.step hf
    cases ho
  | @field r r₁ q v vs h hs ih =>
    obtain ⟨o, hf, -⟩ := h.step hi
    obtain ⟨w, k', bs, rfl, rfl, hk'⟩ := hb.step hf
    rw [if_neg h0, hk] at hk'
    subst hk'
    have hi₁ := (hf.effect hi).1
    rcases Nat.eq_or_lt_of_le hle with heq | hlt
    · have hnil := hs.nil_of_end hi₁ hb.entry hb.uses (hb.afterByte_end heq)
      subst hnil
      rw [List.length_singleton]
      omega
    · have hindex : (r.afterByte k' bs).valueIndex = r.valueIndex + 1 := Nat.mod_eq_of_lt (by omega)
      have hrest := ih hi₁ (hb.afterByte_next (Nat.ne_of_lt hlt)) (by omega) rfl (by omega)
      rw [List.length_cons]
      omega

/-- **From the start of a blob the reader yields one byte more than the six bits there say.** -/
theorem Yields.blob_length {k : Nat} {bs : PNBitStream} (h : Yields r vs q) (hi : Inv r.bs) (hb : AtBlob ab r)
    (h0 : r.valueIndex = 0) (hk : pnBitstreamRead r.bs 6 = .ok (k, bs)) : vs.length = k + 1 := by
  have hlt : k < 2 ^ 6 := by
    rcases pnBitstreamRead_cases hi (show 6 ≤ 32 by omega) with ⟨v, b, hr, hlt, -⟩ | ⟨e, hr, -⟩
    · obtain ⟨rfl, -⟩ := Prod.mk.inj (Except.ok.inj (hr.symm.trans hk))
      exact hlt
    · cases hr.symm.trans hk
  cases h with
  | stop h =>
    obtain ⟨o, hf, ho⟩ := h.step hi
    obtain ⟨v, k', bs, rfl, -⟩ := hb.step hf
    cases ho
  | field h hs =>
    obtain ⟨o, hf, -⟩ := h.step hi
    obtain ⟨w, k', bs', rfl, rfl, hk'⟩ := hb.step hf
    rw [if_pos h0] at hk'
    obtain ⟨b, hk'⟩ := hk'
    obtain ⟨rfl, -⟩ := Prod.mk.inj (Except.ok.inj (hk'.symm.trans hk))
    have hi₁ := (hf.effect hi).1
    have hindex : (r.afterByte k' bs').valueIndex = 1 := by
      simp only [PNRecordReader.afterByte, h0]
      rfl
    rcases Nat.eq_zero_or_pos k' with hzero | hpos
    · have hnil := hs.nil_of_end hi₁ hb.entry hb.uses (hb.afterByte_end (h0.trans hzero.symm))
      subst hnil
      rw [hzero]
      rfl
    · have hrest := hs.blob_rest hi₁ (hb.afterByte_next (h0.trans_ne hpos.ne)) (by omega) (show _ = k' from rfl) (by omega)
        (by omega)
      rw [List.length_cons]
      omega

end Blob

/-! ## Records that end in a blob -/

/-- Scalar fields in front are read back. -/
theorem Yields.fields {q : PNRecordReader} {vs : List Nat} {bits : List Bool} {ab : PNAbbrev} :
    ∀ {fs : List (PNAbbrevOp × Nat)} {r : PNRecordReader}, r.Uses ab → Inv r.bs → r.valueIndex = 0 →
    (∀ f ∈ fs, FieldOk f.1 f.2) → (∀ k, ∀ h : k < fs.length, ab.ops[r.opIndex + k]? = some fs[k].1) →
    r.bs.At (fs.flatMap (fun f => encField f.1 f.2) ++ bits) → Yields r (fs.map Prod.snd ++ vs) q →
    ∃ r' : PNRecordReader, r'.Uses ab ∧ r'.opIndex = r.opIndex + fs.length ∧ r'.valueIndex = 0 ∧
      Moved r.bs (fs.flatMap fun f => encField f.1 f.2).length r'.bs ∧ Yields r' vs q
  | [], r, hu, hi, h0, _, _, _, hy => ⟨r, hu, rfl, h0, Moved.zero hi, hy⟩
  | f :: fs, r, hu, hi, h0, hok, hops, hat, hy => by
    simp only [List.flatMap_cons, List.append_assoc] at hat ⊢
    have hop : ab.ops[r.opIndex]? = some f.1 := hops 0 (by simp)
    obtain ⟨bs', hread, hm⟩ := readAbbrev_scalar hu hi hop (hok f (by simp)) hat.first
    obtain ⟨o, hstep, -⟩ := fieldStep_of_read32 hi ((tryRead_abbrev hu).trans hread)
    rw [List.map_cons, List.cons_append] at hy
    cases hy with
    | @field _ r₁ _ _ _ h hs =>
      obtain ⟨o', hstep', -⟩ := h.step hi
      obtain rfl : r.nextOp bs' = r₁ := (hstep.unique hstep').2
      obtain ⟨r', hu', hop', h0', hm', hy'⟩ := Yields.fields (r := r.nextOp bs') hu hm.inv rfl
        (fun g hg => hok g (by simp [hg]))
        (fun k hk => by
          have := hops (k + 1) (by simpa using hk)
          simpa [PNRecordReader.nextOp, Nat.add_assoc, Nat.add_comm 1 k] using this)
        (hat.rest hm) hs
      refine ⟨r', hu', ?_, h0', by simpa using hm.trans hm', hy'⟩
      rw [hop', List.length_cons]
      simp only [PNRecordReader.nextOp]
      omega

/-- **No blob is decoded**: at a record that ends in a blob of any length the reader does not yield the values in front of it and
its bytes and stop at the word boundary behind them. -/
theorem blob_never_decodes (bs : PNBitStream) (hbs : bs.Reachable) (abbrevs : List PNAbbrev) (entry : Nat) (h4 : 4 ≤ entry)
    (h32 : entry < 2 ^ 32) (fields : List (PNAbbrevOp × Nat)) (hok : ∀ f ∈ fields, FieldOk f.1 f.2)
    (hab : abbrevs[entry - 4]? = some ⟨fields.map Prod.fst ++ [.blob]⟩) (bytes : List UInt8)
    (hat : bs.At (fields.flatMap (fun f => encField f.1 f.2) ++
      encBlob (bs.bitOffset + (fields.flatMap fun f => encField f.1 f.2).length) bytes)) :
    ¬∃ q, Yields (pnRecordReaderInit bs abbrevs entry) (fields.map Prod.snd ++ bytes.map UInt8.toNat) q ∧
      q.bs.bitOffset = bs.bitOffset + (fields.flatMap (fun f => encField f.1 f.2) ++
        encBlob (bs.bitOffset + (fields.flatMap fun f => encField f.1 f.2).length) bytes).length := by
  rintro ⟨q, hy, -⟩
  have hu : (pnRecordReaderInit bs abbrevs entry).Uses ⟨fields.map Prod.fst ++ [.blob]⟩ := ⟨h4, h32, hab⟩
  obtain ⟨r, hu', hop, h0, hm, hy⟩ := Yields.fields hu hbs.inv rfl hok (fun k hk => by
    rw [show (pnRecordReaderInit bs abbrevs entry).opIndex + k = k from Nat.zero_add k, List.getElem?_append_left (by simpa)]
    simp [hk]) hat hy
  have hop' : r.opIndex = (fields.map Prod.fst).length := by
    rw [hop, List.length_map]
    exact Nat.zero_add _
  have hb : AtBlob ⟨fields.map Prod.fst ++ [.blob]⟩ r := by
    refine ⟨?_, uses_index hu', ?_, ?_⟩
    · have := hu'.1
      simp only [pnEntryUnabbrevRecord]
      omega
    · rw [PNRecordReader.op, hop', List.getElem?_append_right (Nat.le_refl _), Nat.sub_self]
      rfl
    · rw [List.length_append, hop']
      rfl
  have hblob := hat.rest hm
  rw [show bs.bitOffset + _ = r.bs.bitOffset from hm.offset.symm] at hblob
  obtain ⟨bs', hk⟩ := read_blobChunk hm.inv hblob
  have hlen := hy.blob_length hm.inv hb h0 hk
  rw [List.length_map] at hlen
  -- the chunk is neither the length minus one nor, with its continuation bit, congruent to it
  unfold blobChunk at hlen
  split at hlen <;> omega

/-- The literal 1 and the blob of the byte 7. -/
def blobFile : PNBitStream := pnBitstreamInit (fun i => [0x01, 0, 0, 0, 0x07, 0, 0, 0].getD i 0) 8

theorem encBlob_seven : encBlob 0 [7] = bitList 6 1 ++ List.replicate 26 false ++ bitList 8 7 ++ List.replicate 24 false := by
  have hvbr : encVbr 6 1 = bitList 6 1 := by simp [encVbr, vbrChunks_last (show 1 < 2 ^ (6 - 1) by decide)]
  simp only [encBlob, encBlobLength, padding, List.length_singleton, hvbr]
  rfl

/-- The reader yields a byte too much and stops in front of the word boundary. -/
theorem blob_of_one_byte :
    blobFile.At (encBlob 0 [7]) ∧ (encBlob 0 [7]).length = 64 ∧
      (readRecord 5 blobFile [⟨[.literal 1, .blob]⟩] 4).toOption.map (fun x => (x.1, x.2.1, x.2.2.bs.bitOffset)) =
        some (some 1, [7, 0], 48) ∧
      ¬∃ q, readRecord 5 blobFile [⟨[.literal 1, .blob]⟩] 4 = .ok (some 1, [7], q) ∧ q.bs.bitOffset = 64 := by
  have hread : (readRecord 5 blobFile [⟨[.literal 1, .blob]⟩] 4).toOption.map (fun x => (x.1, x.2.1, x.2.2.bs.bitOffset)) =
      some (some 1, [7, 0], 48) := by decide +kernel
  rw [encBlob_seven]
  refine ⟨⟨by decide +kernel, by decide +kernel⟩, by decide +kernel, hread, ?_⟩
  rintro ⟨q, hq, -⟩
  rw [hq] at hread
  cases hread

theorem blob_never_decodes_one_byte :
    ¬∃ q, Yields (pnRecordReaderInit blobFile [⟨[.literal 1, .blob]⟩] 4) [1, 7] q ∧ q.bs.bitOffset = 64 := by
  have h := blob_never_decodes blobFile ⟨_, 8, [], by decide, by simp, rfl⟩ [⟨[.literal 1, .blob]⟩] 4 (by decide) (by decide)
    [(.literal 1, 1)] (by simp [FieldOk]) rfl [7]
    (show blobFile.At (encBlob 0 [7]) by rw [encBlob_seven]; exact ⟨by decide +kernel, by decide +kernel⟩)
  have hlen : (encBlob 0 [7]).length = 64 := by
    rw [encBlob_seven]
    rfl
  rw [← hlen]
  rintro ⟨q, hy, ho⟩
  exact h ⟨q, hy, ho.trans (Nat.zero_add _).symm⟩

end Pnacl
