import Pnacl.Reader
import Pnacl.RecordCodec

/-!
# The fields of a record

What reading one field can do (`FieldStep`), at either of the two sizes that the reader knows, and where a record ends: where
reading field after field comes to an end (`EndsAt`). Two readers at the same place of one record go on alike, whatever
their streams have cached.
-/

namespace Pnacl

open Lib PNBitStream

/-! ## Two caches for one stream -/

/-- Two states of the stream of one file that stand at the same bit; their cached words may differ. -/
structure PNBitStream.Same (a b : PNBitStream) : Prop where
  inv : Inv a
  inv' : Inv b
  file : SameFile a b
  offset : b.bitOffset = a.bitOffset

theorem PNBitStream.Same.refl {a : PNBitStream} (h : Inv a) : Same a a := ⟨h, h, .refl a, rfl⟩

theorem PNBitStream.Same.symm {a b : PNBitStream} (h : Same a b) : Same b a :=
  ⟨h.inv', h.inv, ⟨h.file.1.symm, h.file.2.symm⟩, h.offset.symm⟩

theorem PNBitStream.Same.trans {a b c : PNBitStream} (h : Same a b) (h' : Same b c) : Same a c :=
  ⟨h.inv, h'.inv', h.file.trans h'.file, h'.offset.trans h.offset⟩

/-- A file so short that no aligned bit offset wraps. -/
def PNBitStream.Short (bs : PNBitStream) : Prop := bs.dataLen + 4 ≤ 2 ^ 29

/-- A stream operation does the same at two such states; in a short file it moves on by `k` bits or more. -/
structure Tracks {α : Type} (k : Nat) (f : PNBitStream → Except Stop (α × PNBitStream)) : Prop where
  follow : ∀ {a b : PNBitStream} {v : α} {a' : PNBitStream}, Same a b → f a = .ok (v, a') →
    ∃ b', f b = .ok (v, b') ∧ Same a' b' ∧ SameFile a a' ∧ (a.Short → a.bitOffset + k ≤ a'.bitOffset)

section Tracks

variable {α β : Type} {k l : Nat}

theorem PNBitStream.Short.sameFile {a b : PNBitStream} (h : a.Short) (hf : SameFile a b) : b.Short := by
  unfold PNBitStream.Short at h ⊢
  rw [hf.2]
  exact h

theorem Tracks.mono {f : PNBitStream → Except Stop (α × PNBitStream)} (hf : Tracks k f) (h : l ≤ k) : Tracks l f where
  follow hs hr := by
    obtain ⟨b', hb, hs', hfile, hle⟩ := hf.follow hs hr
    exact ⟨b', hb, hs', hfile, fun hshort => by have := hle hshort; omega⟩

theorem Tracks.pure (v : α) : Tracks 0 fun bs => .ok (v, bs) where
  follow {a b _ _} hs hr := by
    obtain ⟨rfl, rfl⟩ := Prod.mk.inj (Except.ok.inj hr)
    exact ⟨b, rfl, hs, .refl a, fun _ => le_rfl⟩

theorem Tracks.error (e : Stop) : Tracks k fun _ : PNBitStream => (.error e : Except Stop (α × PNBitStream)) where
  follow _ hr := by cases hr

theorem Tracks.bind {f : PNBitStream → Except Stop (α × PNBitStream)} {g : α → PNBitStream → Except Stop (β × PNBitStream)}
    (hf : Tracks k f) (hg : ∀ v, Tracks 0 (g v)) : Tracks k fun bs => f bs >>= fun r => g r.1 r.2 where
  follow hs hr := by
    obtain ⟨⟨v, a₁⟩, hv, hr⟩ := bind_eq_ok.mp hr
    obtain ⟨b₁, hb, hs₁, hfile₁, hle₁⟩ := hf.follow hs hv
    obtain ⟨b', hb', hs', hfile', hle'⟩ := (hg v).follow hs₁ hr
    refine ⟨b', by simp only [hb, ok_bind, hb'], hs', hfile₁.trans hfile', fun hshort => ?_⟩
    have := hle₁ hshort
    have := hle' (hshort.sameFile hfile₁)
    omega

theorem tracks_read (n : Nat) : Tracks n fun bs => pnBitstreamRead bs n where
  follow {a b v a'} hs hr := by
    have hn : n ≤ 32 := (cAssert_bind_eq_ok.mp hr).1
    rcases Nat.lt_or_ge (8 * a.dataLen) (a.bitOffset + n) with hlt | hge
    · rw [pnBitstreamRead_past hs.inv hn hlt] at hr
      cases hr
    · obtain ⟨a₁, ha, hi, hf, ho⟩ := pnBitstreamRead_spec hs.inv hn hge
      rw [ha] at hr
      obtain ⟨rfl, rfl⟩ := Prod.mk.inj (Except.ok.inj hr)
      obtain ⟨b', hb, hi', hf', ho'⟩ := pnBitstreamRead_spec hs.inv' hn (by rw [hs.offset, hs.file.2]; exact hge)
      rw [hs.file.bit_eq, hs.offset] at hb
      have hfile : SameFile a₁ b' := ⟨by rw [hf'.1, hs.file.1, hf.1], by rw [hf'.2, hs.file.2, hf.2]⟩
      have hoff : b'.bitOffset = a₁.bitOffset := by rw [ho', ho, hs.offset]
      exact ⟨b', hb, ⟨hi, hi', hfile, hoff⟩, hf, fun _ => by omega⟩

/-- A seek to the same bit, whatever is cached. -/
theorem seekBit_same {a b a' : PNBitStream} {off : Nat} (hs : Same a b) (h32 : off < 2 ^ 32)
    (hr : pnBitstreamSeekBit a off = .ok a') :
    ∃ b', pnBitstreamSeekBit b off = .ok b' ∧ Same a' b' ∧ SameFile a a' ∧ a'.bitOffset = off := by
  rcases Nat.lt_or_ge (8 * a.dataLen) off with hlt | hge
  · obtain ⟨e, he, -⟩ := pnBitstreamSeekBit_past hs.inv.dataLen_lt hs.inv.word_lt h32 hlt
    rw [he] at hr
    cases hr
  · obtain ⟨a₁, ha, hi, hf, ho⟩ := pnBitstreamSeekBit_spec hs.inv.dataLen_lt hs.inv.word_lt hge
    obtain rfl : a₁ = a' := Except.ok.inj (ha.symm.trans hr)
    obtain ⟨b', hb, hi', hf', ho'⟩ := pnBitstreamSeekBit_spec hs.inv'.dataLen_lt hs.inv'.word_lt
      (show off ≤ 8 * b.dataLen by rw [hs.file.2]; exact hge)
    have hfile : SameFile a₁ b' := ⟨by rw [hf'.1, hs.file.1, hf.1], by rw [hf'.2, hs.file.2, hf.2]⟩
    exact ⟨b', hb, ⟨hi, hi', hfile, ho'.trans ho.symm⟩, hf, ho⟩

theorem tracks_align : Tracks 0 (alignEnd ()) where
  follow {a b v a'} hs hr := by
    obtain ⟨a₁, ha, hok⟩ := bind_eq_ok.mp hr
    have heq : a₁ = a' := congrArg Prod.snd (Except.ok.inj hok)
    subst heq
    obtain ⟨b', hb, hs', hfile, ho⟩ := seekBit_same hs (pnAlignUp_32_lt _) ha
    refine ⟨b', ?_, hs', hfile, fun hshort => ?_⟩
    · rw [alignEnd, pnBitstreamAlign32, hs.offset, hb]
      rfl
    · have hle := hs.inv.offset_le
      unfold PNBitStream.Short at hshort
      rw [ho, pnAlignUp_32, Nat.mod_eq_of_lt (by omega)]
      omega

/-! ## Fields -/

theorem tracks_readVbrUint64Loop (n hi lo : Nat) : ∀ (fuel result shift : Nat),
    Tracks 0 fun bs => readVbrUint64Loop n hi lo fuel bs result shift
  | 0, _, _ => .error _
  | fuel + 1, result, shift => by
    simp only [readVbrUint64Loop]
    by_cases h : shift < 64
    · simp only [if_pos h]
      refine Tracks.bind (g := fun piece bs =>
        if piece &&& hi = 0 then .ok (result ||| ((piece &&& lo) <<< shift) % 2 ^ 64, bs)
        else readVbrUint64Loop n hi lo fuel bs (result ||| ((piece &&& lo) <<< shift) % 2 ^ 64) (shift + (n - 1)))
        ((tracks_read n).mono (Nat.zero_le n)) fun piece => ?_
      by_cases h0 : piece &&& hi = 0
      · simp only [if_pos h0]
        exact .pure _
      · simp only [if_neg h0]
        exact tracks_readVbrUint64Loop n hi lo fuel _ _
    · simp only [if_neg h]
      exact .error _

/-- A VBR field has at least one chunk. -/
theorem tracks_readVbrUint64 (n : Nat) : Tracks n fun bs => pnBitstreamReadVbrUint64 bs n where
  follow {a b v a'} hs hr := by
    have hfuel : 8 * b.dataLen + 1 = 8 * a.dataLen + 1 := by rw [hs.file.2]
    have htrack := Tracks.bind (g := fun piece bs =>
      if n = 0 then .error (.undefined "1 << -1")
      else if piece &&& 2 ^ (n - 1) = 0 then .ok (piece, bs)
      else readVbrUint64Loop n (2 ^ (n - 1)) (2 ^ (n - 1) - 1) (8 * a.dataLen + 1) bs (piece &&& (2 ^ (n - 1) - 1))
        (n - 1)) (tracks_read n) fun piece => by
      by_cases hn : n = 0
      · simp only [if_pos hn]
        exact .error _
      · by_cases h0 : piece &&& 2 ^ (n - 1) = 0
        · simp only [if_neg hn, if_pos h0]
          exact .pure _
        · simp only [if_neg hn, if_neg h0]
          exact tracks_readVbrUint64Loop n _ _ _ _ _
    obtain ⟨b', hb, hrest⟩ := htrack.follow hs hr
    refine ⟨b', ?_, hrest⟩
    rw [pnBitstreamReadVbrUint64, hfuel]
    exact hb

theorem width_of_readVbr {bs bs' : PNBitStream} {n v : Nat} (hr : pnBitstreamReadVbr bs n = .ok (v, bs')) : 0 < n ∧ n ≤ 32 := by
  rw [pnBitstreamReadVbr_eq] at hr
  obtain ⟨⟨piece, bs₁⟩, hpiece, hrest⟩ := bind_eq_ok.mp hr
  have hn32 : n ≤ 32 := (cAssert_bind_eq_ok.mp hpiece).1
  by_cases hn0 : n = 0
  · simp only [if_pos hn0] at hrest
    cases hrest
  · omega

/-- A 32-bit VBR field is a 64-bit one that passes a range check. -/
theorem pnBitstreamReadVbr_ok {bs bs' : PNBitStream} (h : Inv bs) {n v : Nat} (hr : pnBitstreamReadVbr bs n = .ok (v, bs')) :
    ∃ r, pnBitstreamReadVbrUint64 bs n = .ok (r, bs') ∧ vbrRangeCheck r = .ok () ∧ v = r % 2 ^ 32 := by
  have hn := width_of_readVbr hr
  rw [pnBitstreamReadVbr_eq, readVbrGeneric_eq hn.1 hn.2 h] at hr
  obtain ⟨⟨r, bs₁⟩, hread, hr⟩ := bind_eq_ok.mp hr
  obtain ⟨u, hcheck, hr⟩ := bind_eq_ok.mp hr
  obtain ⟨rfl, rfl⟩ := Prod.mk.inj (Except.ok.inj hr)
  exact ⟨r, hread, hcheck, rfl⟩

theorem pnBitstreamReadVbr_of {bs bs' : PNBitStream} (h : Inv bs) {n r : Nat} (hn : 0 < n ∧ n ≤ 32)
    (hr : pnBitstreamReadVbrUint64 bs n = .ok (r, bs')) (hcheck : vbrRangeCheck r = .ok ()) :
    pnBitstreamReadVbr bs n = .ok (r % 2 ^ 32, bs') := by
  rw [pnBitstreamReadVbr_eq, readVbrGeneric_eq hn.1 hn.2 h, hr, ok_bind]
  simp only [hcheck, ok_bind]

theorem tracks_readVbr (n : Nat) : Tracks n fun bs => pnBitstreamReadVbr bs n where
  follow {a b v a'} hs hr := by
    obtain ⟨r, hread, hcheck, rfl⟩ := pnBitstreamReadVbr_ok hs.inv hr
    obtain ⟨b', hb, hs', hrest⟩ := (tracks_readVbrUint64 n).follow hs hread
    exact ⟨b', pnBitstreamReadVbr_of hs.inv' (width_of_readVbr hr) hb hcheck, hs', hrest⟩

theorem tracks_readVbr6 : Tracks 6 fun bs => pnBitstreamReadVbr bs 6 := tracks_readVbr 6

/-- The bits that a scalar field takes at least. -/
def PNAbbrevOp.bits : PNAbbrevOp → Nat
  | .fixed numBits => numBits.toNat
  | .vbr _ => 1
  | .char6 => 6
  | .literal _ | .array | .blob => 0

/-- A scalar operation and an array element are read alike. -/
theorem tracks_element (op : PNAbbrevOp) : Tracks op.bits fun bs => readArrayElementUint64 bs op := by
  cases op with
  | literal value => exact .pure value
  | fixed numBits =>
    simp only [readArrayElementUint64, readFixedField]
    by_cases h : numBits < 0
    · simp only [if_pos h]
      exact .error _
    · simp only [if_neg h]
      exact tracks_read _
  | vbr numBits =>
    simp only [readArrayElementUint64, readVbrUint64Field]
    by_cases h : numBits < 0
    · simp only [if_pos h]
      exact .error _
    · simp only [if_neg h]
      by_cases h0 : numBits.toNat = 0
      · refine ⟨fun hs hr => ?_⟩
        rw [h0] at hr
        obtain ⟨p, -, hp⟩ := bind_eq_ok.mp hr
        cases hp
      · exact (tracks_readVbrUint64 _).mono (show 1 ≤ numBits.toNat by omega)
  | char6 =>
    refine Tracks.bind (g := fun v bs => pnDecodeChar6 v >>= fun c => .ok (c, bs)) (tracks_read 6) fun v => ?_
    cases h : pnDecodeChar6 v with
    | error e => exact .error e
    | ok c => exact .pure c
  | array => exact .error _
  | blob => exact .error _

end Tracks

/-! ## One field -/

/-- The abbreviation of the record. -/
def PNRecordReader.abbrev (r : PNRecordReader) : Option PNAbbrev := r.abbrevs[(r.entry + 2 ^ 32 - 4) % 2 ^ 32]?

/-- The operation that the reader stands at; `none` behind the last one. -/
def PNRecordReader.op (r : PNRecordReader) (ab : PNAbbrev) : Option PNAbbrevOp := ab.ops[r.opIndex]?

/-- Behind a value of an unabbreviated record. -/
def PNRecordReader.afterValue (r : PNRecordReader) (bs : PNBitStream) : PNRecordReader :=
  { r with bs := bs, valueIndex := (r.valueIndex + 1) % 2 ^ 32 }

/-- Behind an element of an array of `k` elements. -/
def PNRecordReader.afterElement (r : PNRecordReader) (k : Nat) (bs : PNBitStream) : PNRecordReader :=
  { r with
    bs := bs
    numValues := k
    valueIndex := (r.valueIndex + 1) % 2 ^ 32
    opIndex := if (r.valueIndex + 1) % 2 ^ 32 = k then r.opIndex + 2 else r.opIndex }

/-- Behind a byte of a blob whose length field is `k`. -/
def PNRecordReader.afterByte (r : PNRecordReader) (k : Nat) (bs : PNBitStream) : PNRecordReader :=
  { r with
    bs := bs
    numValues := k
    valueIndex := (r.valueIndex + 1) % 2 ^ 32
    opIndex := if r.valueIndex = k then r.opIndex + 1 else r.opIndex }

/-- An operation for one field. -/
def PNAbbrevOp.Scalar : PNAbbrevOp → Prop
  | .array | .blob => False
  | .literal _ | .fixed _ | .vbr _ | .char6 => True

/-- What reading one field can do, in a record of any form. -/
inductive FieldStep (r : PNRecordReader) : Option Nat → PNRecordReader → Prop
  | valuesEnd (h : r.entry = pnEntryUnabbrevRecord) (hend : r.numValues ≤ r.valueIndex) : FieldStep r none r
  | value {v : Nat} {bs : PNBitStream} (h : r.entry = pnEntryUnabbrevRecord) (hlt : r.valueIndex < r.numValues)
      (hv : pnBitstreamReadVbrUint64 r.bs 6 = .ok (v, bs)) : FieldStep r (some v) (r.afterValue bs)
  | opsEnd {ab : PNAbbrev} (h : r.entry ≠ pnEntryUnabbrevRecord) (hab : r.abbrev = some ab) (hop : r.op ab = none) :
      FieldStep r none r
  | scalar {ab : PNAbbrev} {op : PNAbbrevOp} {v : Nat} {bs : PNBitStream} (h : r.entry ≠ pnEntryUnabbrevRecord)
      (hab : r.abbrev = some ab) (hop : r.op ab = some op) (hs : op.Scalar)
      (hv : readArrayElementUint64 r.bs op = .ok (v, bs)) : FieldStep r (some v) (r.nextOp bs)
  | arrayStart {ab : PNAbbrev} {elt : PNAbbrevOp} {k v : Nat} {bs₁ bs : PNBitStream} (h : r.entry ≠ pnEntryUnabbrevRecord)
      (hab : r.abbrev = some ab) (hop : r.op ab = some .array) (h0 : r.valueIndex = 0)
      (hk : pnBitstreamReadVbr r.bs 6 = .ok (k, bs₁)) (helt : ab.ops[r.opIndex + 1]? = some elt)
      (hv : readArrayElementUint64 bs₁ elt = .ok (v, bs)) : FieldStep r (some v) (r.afterElement k bs)
  | arrayNext {ab : PNAbbrev} {elt : PNAbbrevOp} {v : Nat} {bs : PNBitStream} (h : r.entry ≠ pnEntryUnabbrevRecord)
      (hab : r.abbrev = some ab) (hop : r.op ab = some .array) (h0 : r.valueIndex ≠ 0)
      (helt : ab.ops[r.opIndex + 1]? = some elt) (hv : readArrayElementUint64 r.bs elt = .ok (v, bs)) :
      FieldStep r (some v) (r.afterElement r.numValues bs)
  | blobStart {ab : PNAbbrev} {k v : Nat} {bs₁ bs₂ bs : PNBitStream} (h : r.entry ≠ pnEntryUnabbrevRecord)
      (hab : r.abbrev = some ab) (hop : r.op ab = some .blob) (h0 : r.valueIndex = 0)
      (hk : pnBitstreamRead r.bs 6 = .ok (k, bs₁)) (halign : pnBitstreamAlign32 bs₁ = .ok bs₂)
      (hv : pnBitstreamRead bs₂ 8 = .ok (v, bs)) : FieldStep r (some v) (r.afterByte k bs)
  | blobNext {ab : PNAbbrev} {v : Nat} {bs : PNBitStream} (h : r.entry ≠ pnEntryUnabbrevRecord)
      (hab : r.abbrev = some ab) (hop : r.op ab = some .blob) (h0 : r.valueIndex ≠ 0)
      (hv : pnBitstreamRead r.bs 8 = .ok (v, bs)) : FieldStep r (some v) (r.afterByte r.numValues bs)

/-- A field of a required width is the scalar case of `pn_record_read_abbrev_uint64`. -/
theorem FieldStep.of_scalar {r r' : PNRecordReader} {ab : PNAbbrev} {op : PNAbbrevOp} {o : Option Nat}
    (h : r.entry ≠ pnEntryUnabbrevRecord) (hab : r.abbrev = some ab) (hop : r.op ab = some op) (hs : op.Scalar)
    (hr : (readArrayElementUint64 r.bs op >>= fun x => Except.ok (some x.1, r.nextOp x.2)) = .ok (o, r')) :
    FieldStep r o r' := by
  obtain ⟨⟨v, bs⟩, hv, hr⟩ := bind_eq_ok.mp hr
  obtain ⟨rfl, rfl⟩ := Prod.mk.inj (Except.ok.inj hr)
  exact .scalar h hab hop hs hv

theorem fieldStep_of_read {r r' : PNRecordReader} {o : Option Nat} (hr : pnRecordTryReadUint64 r = .ok (o, r')) :
    FieldStep r o r' := by
  rw [pnRecordTryReadUint64] at hr
  split at hr
  · rename_i h
    split at hr
    · rename_i hend
      obtain ⟨rfl, rfl⟩ := Prod.mk.inj (Except.ok.inj hr)
      exact .valuesEnd h hend
    · rename_i hend
      obtain ⟨⟨v, bs⟩, hv, hr⟩ := bind_eq_ok.mp hr
      obtain ⟨rfl, rfl⟩ := Prod.mk.inj (Except.ok.inj hr)
      exact .value h (by omega) hv
  · rename_i h
    rw [pnRecordReadAbbrevUint64] at hr
    simp only at hr
    split at hr
    · cases hr
    · rename_i ab hab
      split at hr
      · rename_i hop
        obtain ⟨rfl, rfl⟩ := Prod.mk.inj (Except.ok.inj hr)
        exact .opsEnd h hab hop
      · rename_i op hop
        cases op with
        | literal value => exact .of_scalar h hab hop trivial hr
        | fixed numBits => exact .of_scalar h hab hop trivial hr
        | vbr numBits => exact .of_scalar h hab hop trivial hr
        | char6 => exact .of_scalar h hab hop trivial hr
        | array =>
          by_cases h0 : r.valueIndex = 0
          · simp only [if_pos h0] at hr
            obtain ⟨⟨k, bs₁⟩, hk, hr⟩ := bind_eq_ok.mp hr
            dsimp only at hr
            split at hr
            · cases hr
            · rename_i elt helt
              obtain ⟨⟨v, bs⟩, hv, hr⟩ := bind_eq_ok.mp hr
              obtain ⟨rfl, rfl⟩ := Prod.mk.inj (Except.ok.inj hr)
              exact .arrayStart h hab hop h0 hk helt hv
          · simp only [if_neg h0, ok_bind] at hr
            split at hr
            · cases hr
            · rename_i elt helt
              obtain ⟨⟨v, bs⟩, hv, hr⟩ := bind_eq_ok.mp hr
              obtain ⟨rfl, rfl⟩ := Prod.mk.inj (Except.ok.inj hr)
              exact .arrayNext h hab hop h0 helt hv
        | blob =>
          by_cases h0 : r.valueIndex = 0
          · simp only [if_pos h0] at hr
            obtain ⟨⟨k, bs₁⟩, hk, hr⟩ := bind_eq_ok.mp hr
            obtain ⟨bs₂, halign, hr⟩ := bind_eq_ok.mp hr
            rw [ok_bind] at hr
            obtain ⟨⟨v, bs⟩, hv, hr⟩ := bind_eq_ok.mp hr
            obtain ⟨rfl, rfl⟩ := Prod.mk.inj (Except.ok.inj hr)
            exact .blobStart h hab hop h0 hk halign hv
          · simp only [if_neg h0, ok_bind] at hr
            obtain ⟨⟨v, bs⟩, hv, hr⟩ := bind_eq_ok.mp hr
            obtain ⟨rfl, rfl⟩ := Prod.mk.inj (Except.ok.inj hr)
            exact .blobNext h hab hop h0 hv

theorem FieldStep.read {r r' : PNRecordReader} {o : Option Nat} (h : FieldStep r o r') :
    pnRecordTryReadUint64 r = .ok (o, r') := by
  cases h with
  | valuesEnd h hend => rw [pnRecordTryReadUint64, if_pos h, if_pos hend]
  | value h hlt hv => rw [pnRecordTryReadUint64, if_pos h, if_neg (by omega), hv]; rfl
  | opsEnd h hab hop =>
    rw [PNRecordReader.abbrev] at hab
    rw [PNRecordReader.op] at hop
    rw [pnRecordTryReadUint64, if_neg h, pnRecordReadAbbrevUint64]
    simp only [hab, hop]
  | @scalar ab op v bs h hab hop hs hv =>
    rw [PNRecordReader.abbrev] at hab
    rw [PNRecordReader.op] at hop
    rw [pnRecordTryReadUint64, if_neg h, pnRecordReadAbbrevUint64]
    simp only [hab, hop]
    cases op with
    | literal value => cases hv; rfl
    | fixed numBits => exact congrArg (· >>= fun x => Except.ok (some x.1, r.nextOp x.2)) hv
    | vbr numBits => exact congrArg (· >>= fun x => Except.ok (some x.1, r.nextOp x.2)) hv
    | char6 => exact congrArg (· >>= fun x => Except.ok (some x.1, r.nextOp x.2)) hv
    | array => exact hs.elim
    | blob => exact hs.elim
  | arrayStart h hab hop h0 hk helt hv =>
    rw [PNRecordReader.abbrev] at hab
    rw [PNRecordReader.op] at hop
    rw [pnRecordTryReadUint64, if_neg h, pnRecordReadAbbrevUint64]
    simp only [hab, hop, if_pos h0, hk, ok_bind, helt, hv]
    rfl
  | arrayNext h hab hop h0 helt hv =>
    rw [PNRecordReader.abbrev] at hab
    rw [PNRecordReader.op] at hop
    rw [pnRecordTryReadUint64, if_neg h, pnRecordReadAbbrevUint64]
    simp only [hab, hop, if_neg h0, ok_bind, helt, hv]
    rfl
  | blobStart h hab hop h0 hk halign hv =>
    rw [PNRecordReader.abbrev] at hab
    rw [PNRecordReader.op] at hop
    rw [pnRecordTryReadUint64, if_neg h, pnRecordReadAbbrevUint64]
    simp only [hab, hop, if_pos h0, hk, ok_bind, halign, hv]
    rfl
  | blobNext h hab hop h0 hv =>
    rw [PNRecordReader.abbrev] at hab
    rw [PNRecordReader.op] at hop
    rw [pnRecordTryReadUint64, if_neg h, pnRecordReadAbbrevUint64]
    simp only [hab, hop, if_neg h0, ok_bind, hv]
    rfl

/-- The reader at another state of its stream. -/
def PNRecordReader.at (r : PNRecordReader) (bs : PNBitStream) : PNRecordReader := { r with bs := bs }

/-- Two readers at the same place of one record. -/
def SameReader (r q : PNRecordReader) : Prop := q = r.at q.bs ∧ Same r.bs q.bs

theorem SameReader.refl {r : PNRecordReader} (h : Inv r.bs) : SameReader r r := ⟨rfl, .refl h⟩

theorem SameReader.symm {r q : PNRecordReader} (h : SameReader r q) : SameReader q r := by
  refine ⟨?_, h.2.symm⟩
  rw [h.1]
  rfl

theorem SameReader.trans {r q p : PNRecordReader} (h : SameReader r q) (h' : SameReader q p) : SameReader r p := by
  refine ⟨?_, h.2.trans h'.2⟩
  rw [h'.1, h.1]
  rfl

/-- A field is read alike at the same place. -/
theorem FieldStep.same {r r' q : PNRecordReader} {o : Option Nat} (h : FieldStep r o r') (hs : SameReader r q) :
    ∃ q', FieldStep q o q' ∧ SameReader r' q' := by
  obtain ⟨hq, hs⟩ := hs
  rw [hq]
  cases h with
  | valuesEnd h hend => exact ⟨_, .valuesEnd (r := r.at q.bs) h hend, rfl, hs⟩
  | value h hlt hv =>
    obtain ⟨b', hb, hs', -⟩ := (tracks_readVbrUint64 6).follow hs hv
    exact ⟨_, .value (r := r.at q.bs) h hlt hb, rfl, hs'⟩
  | opsEnd h hab hop => exact ⟨_, .opsEnd (r := r.at q.bs) h hab hop, rfl, hs⟩
  | scalar h hab hop hsc hv =>
    obtain ⟨b', hb, hs', -⟩ := (tracks_element _).follow hs hv
    exact ⟨_, .scalar (r := r.at q.bs) h hab hop hsc hb, rfl, hs'⟩
  | arrayStart h hab hop h0 hk helt hv =>
    obtain ⟨b₁, hb₁, hs₁, -⟩ := tracks_readVbr6.follow hs hk
    obtain ⟨b', hb, hs', -⟩ := (tracks_element _).follow hs₁ hv
    exact ⟨_, .arrayStart (r := r.at q.bs) h hab hop h0 hb₁ helt hb, rfl, hs'⟩
  | arrayNext h hab hop h0 helt hv =>
    obtain ⟨b', hb, hs', -⟩ := (tracks_element _).follow hs hv
    exact ⟨_, .arrayNext (r := r.at q.bs) h hab hop h0 helt hb, rfl, hs'⟩
  | blobStart h hab hop h0 hk halign hv =>
    obtain ⟨b₁, hb₁, hs₁, -⟩ := (tracks_read 6).follow hs hk
    obtain ⟨b₂, hb₂, hs₂, -⟩ := tracks_align.follow hs₁ (show alignEnd () _ = .ok ((), _) by rw [alignEnd, halign]; rfl)
    obtain ⟨b', hb, hs', -⟩ := (tracks_read 8).follow hs₂ hv
    obtain ⟨b₃, halign', hok⟩ := bind_eq_ok.mp hb₂
    obtain ⟨-, rfl⟩ := Prod.mk.inj (Except.ok.inj hok)
    exact ⟨_, .blobStart (r := r.at q.bs) h hab hop h0 hb₁ halign' hb, rfl, hs'⟩
  | blobNext h hab hop h0 hv =>
    obtain ⟨b', hb, hs', -⟩ := (tracks_read 8).follow hs hv
    exact ⟨_, .blobNext (r := r.at q.bs) h hab hop h0 hb, rfl, hs'⟩

theorem tracks_align_ok {a b : PNBitStream} (h : Inv a) (hr : pnBitstreamAlign32 a = .ok b) :
    Inv b ∧ SameFile a b ∧ (a.Short → a.bitOffset ≤ b.bitOffset) := by
  obtain ⟨b', -, hs, hrest⟩ := tracks_align.follow (.refl h) (show alignEnd () a = .ok ((), b) by rw [alignEnd, hr]; rfl)
  exact ⟨hs.inv, hrest⟩

theorem Tracks.effect {α : Type} {k : Nat} {f : PNBitStream → Except Stop (α × PNBitStream)} (hf : Tracks k f)
    {a a' : PNBitStream} {v : α} (h : Inv a) (hr : f a = .ok (v, a')) :
    Inv a' ∧ SameFile a a' ∧ (a.Short → a.bitOffset + k ≤ a'.bitOffset) := by
  obtain ⟨b', -, hs, hrest⟩ := hf.follow (.refl h) hr
  exact ⟨hs.inv, hrest⟩

/-- What reading a field does to the stream. -/
theorem FieldStep.effect {r r' : PNRecordReader} {o : Option Nat} (h : FieldStep r o r') (hi : Inv r.bs) :
    Inv r'.bs ∧ SameFile r.bs r'.bs ∧ (r.bs.Short → r.bs.bitOffset ≤ r'.bs.bitOffset) := by
  cases h with
  | valuesEnd h hend => exact ⟨hi, .refl _, fun _ => le_rfl⟩
  | opsEnd h hab hop => exact ⟨hi, .refl _, fun _ => le_rfl⟩
  | value h hlt hv => exact ((tracks_readVbrUint64 6).mono (Nat.zero_le 6)).effect hi hv
  | scalar h hab hop hsc hv => exact ((tracks_element _).mono (Nat.zero_le _)).effect hi hv
  | arrayStart h hab hop h0 hk helt hv =>
    obtain ⟨hi₁, hf₁, hle₁⟩ := tracks_readVbr6.effect hi hk
    obtain ⟨hi₂, hf₂, hle₂⟩ := (tracks_element _).effect hi₁ hv
    refine ⟨hi₂, hf₁.trans hf₂, fun hshort => ?_⟩
    have := hle₁ hshort
    have := hle₂ (hshort.sameFile hf₁)
    simp only [PNRecordReader.afterElement]
    omega
  | arrayNext h hab hop h0 helt hv => exact ((tracks_element _).mono (Nat.zero_le _)).effect hi hv
  | blobStart h hab hop h0 hk halign hv =>
    obtain ⟨hi₁, hf₁, hle₁⟩ := (tracks_read 6).effect hi hk
    obtain ⟨hi₂, hf₂, hle₂⟩ := tracks_align_ok hi₁ halign
    obtain ⟨hi₃, hf₃, hle₃⟩ := (tracks_read 8).effect hi₂ hv
    refine ⟨hi₃, (hf₁.trans hf₂).trans hf₃, fun hshort => ?_⟩
    have := hle₁ hshort
    have := hle₂ (hshort.sameFile hf₁)
    have := hle₃ (hshort.sameFile (hf₁.trans hf₂))
    simp only [PNRecordReader.afterByte]
    omega
  | blobNext h hab hop h0 hv => exact ((tracks_read 8).mono (Nat.zero_le 8)).effect hi hv

/-! ## The 32-bit reader -/

theorem readArrayElement_ok {bs bs' : PNBitStream} (h : Inv bs) {op : PNAbbrevOp} {v : Nat}
    (hr : readArrayElement bs op = .ok (v, bs')) : ∃ w, readArrayElementUint64 bs op = .ok (w, bs') := by
  cases op with
  | literal value => exact ⟨v, hr⟩
  | fixed numBits => exact ⟨v, hr⟩
  | char6 => exact ⟨v, hr⟩
  | array => cases hr
  | blob => cases hr
  | vbr numBits =>
    rw [readArrayElement, readVbrField] at hr
    rw [readArrayElementUint64, readVbrUint64Field]
    split at hr
    · cases hr
    · rename_i h0
      obtain ⟨r, hread, -⟩ := pnBitstreamReadVbr_ok h hr
      exact ⟨r, by rw [if_neg h0, hread]⟩

/-- A scalar field of 32 bits. -/
theorem FieldStep.of_scalar32 {r r' : PNRecordReader} (hi : Inv r.bs) {ab : PNAbbrev} {op : PNAbbrevOp} {o : Option Nat}
    (h : r.entry ≠ pnEntryUnabbrevRecord) (hab : r.abbrev = some ab) (hop : r.op ab = some op) (hs : op.Scalar)
    (hr : (readArrayElement r.bs op >>= fun x => Except.ok (some x.1, r.nextOp x.2)) = .ok (o, r')) :
    ∃ o', FieldStep r o' r' ∧ o'.isSome = o.isSome := by
  obtain ⟨⟨v, bs⟩, hv, hr⟩ := bind_eq_ok.mp hr
  obtain ⟨rfl, rfl⟩ := Prod.mk.inj (Except.ok.inj hr)
  obtain ⟨w, hw⟩ := readArrayElement_ok hi hv
  exact ⟨some w, .scalar h hab hop hs hw, rfl⟩

theorem fieldStep_of_abbrev32 {r r' : PNRecordReader} (hi : Inv r.bs) {o : Option Nat}
    (h : r.entry ≠ pnEntryUnabbrevRecord) (hr : pnRecordReadAbbrev r = .ok (o, r')) :
    ∃ o', FieldStep r o' r' ∧ o'.isSome = o.isSome := by
  rw [pnRecordReadAbbrev] at hr
  simp only at hr
  split at hr
  · cases hr
  · rename_i ab hab
    split at hr
    · rename_i hop
      obtain ⟨rfl, rfl⟩ := Prod.mk.inj (Except.ok.inj hr)
      exact ⟨none, .opsEnd h hab hop, rfl⟩
    · rename_i op hop
      cases op with
      | literal value => exact FieldStep.of_scalar32 hi h hab hop trivial hr
      | fixed numBits => exact FieldStep.of_scalar32 hi h hab hop trivial hr
      | vbr numBits => exact FieldStep.of_scalar32 hi h hab hop trivial hr
      | char6 => exact FieldStep.of_scalar32 hi h hab hop trivial hr
      | array =>
        by_cases h0 : r.valueIndex = 0
        · simp only [if_pos h0] at hr
          obtain ⟨⟨k, bs₁⟩, hk, hr⟩ := bind_eq_ok.mp hr
          obtain ⟨-, hr⟩ := pnCheck_bind_eq_ok.mp hr
          rw [ok_bind] at hr
          dsimp only at hr
          split at hr
          · cases hr
          · rename_i elt helt
            obtain ⟨⟨v, bs⟩, hv, hr⟩ := bind_eq_ok.mp hr
            obtain ⟨rfl, rfl⟩ := Prod.mk.inj (Except.ok.inj hr)
            obtain ⟨w, hw⟩ := readArrayElement_ok (tracks_readVbr6.effect hi hk).1 hv
            exact ⟨some w, .arrayStart h hab hop h0 hk helt hw, rfl⟩
        · simp only [if_neg h0, ok_bind] at hr
          split at hr
          · cases hr
          · rename_i elt helt
            obtain ⟨⟨v, bs⟩, hv, hr⟩ := bind_eq_ok.mp hr
            obtain ⟨rfl, rfl⟩ := Prod.mk.inj (Except.ok.inj hr)
            obtain ⟨w, hw⟩ := readArrayElement_ok hi hv
            exact ⟨some w, .arrayNext h hab hop h0 helt hw, rfl⟩
      | blob =>
        by_cases h0 : r.valueIndex = 0
        · simp only [if_pos h0] at hr
          obtain ⟨⟨k, bs₁⟩, hk, hr⟩ := bind_eq_ok.mp hr
          obtain ⟨bs₂, halign, hr⟩ := bind_eq_ok.mp hr
          rw [ok_bind] at hr
          obtain ⟨⟨v, bs⟩, hv, hr⟩ := bind_eq_ok.mp hr
          obtain ⟨rfl, rfl⟩ := Prod.mk.inj (Except.ok.inj hr)
          exact ⟨some v, .blobStart h hab hop h0 hk halign hv, rfl⟩
        · simp only [if_neg h0, ok_bind] at hr
          obtain ⟨⟨v, bs⟩, hv, hr⟩ := bind_eq_ok.mp hr
          obtain ⟨rfl, rfl⟩ := Prod.mk.inj (Except.ok.inj hr)
          exact ⟨some v, .blobNext h hab hop h0 hv, rfl⟩

/-- **The 32-bit reader moves on as the 64-bit reader does.** -/
theorem fieldStep_of_read32 {r r' : PNRecordReader} (hi : Inv r.bs) {o : Option Nat}
    (hr : pnRecordTryReadUint32 r = .ok (o, r')) : ∃ o', FieldStep r o' r' ∧ o'.isSome = o.isSome := by
  rw [pnRecordTryReadUint32] at hr
  split at hr
  · rename_i h
    split at hr
    · rename_i hend
      obtain ⟨rfl, rfl⟩ := Prod.mk.inj (Except.ok.inj hr)
      exact ⟨none, .valuesEnd h hend, rfl⟩
    · rename_i hend
      obtain ⟨⟨v, bs⟩, hv, hr⟩ := bind_eq_ok.mp hr
      obtain ⟨rfl, rfl⟩ := Prod.mk.inj (Except.ok.inj hr)
      obtain ⟨w, hw, -⟩ := pnBitstreamReadVbr_ok hi hv
      exact ⟨some w, .value h (by omega) hw, rfl⟩
  · rename_i h
    exact fieldStep_of_abbrev32 hi h hr

theorem FieldStep.eq_of_none {r r' : PNRecordReader} (h : FieldStep r none r') : r' = r := by
  cases h <;> rfl

/-- The counters are `uint32_t`. -/
structure PNRecordReader.Counts (r : PNRecordReader) : Prop where
  numValues_lt : r.numValues < 2 ^ 32
  valueIndex_lt : r.valueIndex < 2 ^ 32

theorem FieldStep.counts {r r' : PNRecordReader} {o : Option Nat} (h : FieldStep r o r') (hi : Inv r.bs) (hc : r.Counts) :
    r'.Counts := by
  have hlt : (r.valueIndex + 1) % 2 ^ 32 < 2 ^ 32 := Nat.mod_lt _ (by norm_num)
  cases h with
  | valuesEnd h hend => exact hc
  | value h hlt' hv => exact ⟨hc.1, hlt⟩
  | opsEnd h hab hop => exact hc
  | scalar h hab hop hs hv => exact ⟨hc.1, show 0 < 2 ^ 32 by norm_num⟩
  | arrayStart h hab hop h0 hk helt hv =>
    obtain ⟨w, -, -, rfl⟩ := pnBitstreamReadVbr_ok hi hk
    exact ⟨Nat.mod_lt _ (by norm_num), hlt⟩
  | arrayNext h hab hop h0 helt hv => exact ⟨hc.1, hlt⟩
  | @blobStart ab k v bs₁ bs₂ bs h hab hop h0 hk halign hv =>
    refine ⟨?_, hlt⟩
    rcases pnBitstreamRead_cases hi (show 6 ≤ 32 by norm_num) with ⟨v, bs', hr, hlt, -⟩ | ⟨e, hr, -⟩
    · rw [hk] at hr
      obtain ⟨rfl, -⟩ := Prod.mk.inj (Except.ok.inj hr)
      show k < 2 ^ 32
      omega
    · rw [hk] at hr
      cases hr
  | blobNext h hab hop h0 hv => exact ⟨hc.1, hlt⟩

/-- What reading the code does to the stream and to the counters. -/
theorem pnRecordReadCode_effect {r r' : PNRecordReader} {code : Option Nat} (hi : Inv r.bs)
    (h : pnRecordReadCode r = .ok (code, r')) : Inv r'.bs ∧ SameFile r.bs r'.bs ∧ (r.Counts → r'.Counts) := by
  rw [pnRecordReadCode] at h
  split at h
  · obtain ⟨⟨c, bs₁⟩, hc, h⟩ := bind_eq_ok.mp h
    obtain ⟨⟨n, bs₂⟩, hn, h⟩ := bind_eq_ok.mp h
    obtain ⟨-, rfl⟩ := Prod.mk.inj (Except.ok.inj h)
    obtain ⟨hi₁, hfile₁, -⟩ := tracks_readVbr6.effect hi hc
    obtain ⟨hi₂, hfile₂, -⟩ := tracks_readVbr6.effect hi₁ hn
    obtain ⟨w, -, -, rfl⟩ := pnBitstreamReadVbr_ok hi₁ hn
    exact ⟨hi₂, hfile₁.trans hfile₂, fun hcounts => ⟨Nat.mod_lt _ (by norm_num), hcounts.valueIndex_lt⟩⟩
  · rename_i hentry
    obtain ⟨o, hf, -⟩ := fieldStep_of_abbrev32 hi hentry h
    obtain ⟨hi', hfile, -⟩ := hf.effect hi
    exact ⟨hi', hfile, hf.counts hi⟩

theorem pnRecordReaderInit_counts {bs : PNBitStream} {abbrevs : List PNAbbrev} {entry : Nat} :
    (pnRecordReaderInit bs abbrevs entry).Counts :=
  ⟨show 2 ^ 32 - 1 < 2 ^ 32 by norm_num, show 0 < 2 ^ 32 by norm_num⟩

/-! ## The end of a record -/

/-- `q` is reached from `r` by reading fields, or stands at the same place. -/
inductive Reads : PNRecordReader → PNRecordReader → Prop
  | here {r q : PNRecordReader} (h : SameReader r q) : Reads r q
  | field {r r₁ q : PNRecordReader} {v : Nat} (h : FieldStep r (some v) r₁) (hs : Reads r₁ q) : Reads r q

theorem Reads.of_same {r q p : PNRecordReader} (h : SameReader r q) (hs : Reads q p) : Reads r p := by
  induction hs generalizing r with
  | here h' => exact .here (h.trans h')
  | field hf _ ih =>
    obtain ⟨q', hf', h'⟩ := hf.same h.symm
    exact .field hf' (ih h'.symm)

theorem Reads.trans {r q p : PNRecordReader} (h : Reads r q) (h' : Reads q p) : Reads r p := by
  induction h with
  | here hs => exact h'.of_same hs
  | field hf _ ih => exact .field hf (ih h')

theorem FieldStep.unique {r q q' : PNRecordReader} {o o' : Option Nat} (h : FieldStep r o q) (h' : FieldStep r o' q') :
    o = o' ∧ q = q' :=
  Prod.mk.inj (Except.ok.inj (h.read.symm.trans h'.read))

/-- There is no field left. -/
def NoField (r : PNRecordReader) : Prop := FieldStep r none r

theorem NoField.same {r q : PNRecordReader} (h : NoField r) (hs : SameReader r q) : NoField q := by
  obtain ⟨q', hq, -⟩ := FieldStep.same h hs
  have := hq.eq_of_none
  subst this
  exact hq

/-- Reading ends at one place only. -/
theorem Reads.unique {r q q' : PNRecordReader} (h : Reads r q) (hend : NoField q) (h' : Reads r q') (hend' : NoField q') :
    SameReader q q' := by
  induction h with
  | here hs =>
    cases h' with
    | here hs' => exact hs.symm.trans hs'
    | field hf _ => cases (hf.unique (hend.same hs.symm)).1
  | field hf _ ih =>
    cases h' with
    | here hs' => cases (hf.unique (hend'.same hs'.symm)).1
    | field hf' hs' =>
      rw [(hf'.unique hf).2] at hs'
      exact ih hend hs'

/-- The record with the abbreviation id `entry` that begins at `bs` ends at `stop`: its code and all its fields are read, and
then there is none. -/
def EndsAt (bs : PNBitStream) (abbrevs : List PNAbbrev) (entry : Nat) (stop : PNBitStream) : Prop :=
  ∃ code r q, pnRecordReadCode (pnRecordReaderInit bs abbrevs entry) = .ok (code, r) ∧ Reads r q ∧ NoField q ∧ q.bs.Same stop

/-- A record has one end. -/
theorem EndsAt.unique {bs stop stop' : PNBitStream} {abbrevs : List PNAbbrev} {entry : Nat}
    (h : EndsAt bs abbrevs entry stop) (h' : EndsAt bs abbrevs entry stop') : stop.Same stop' := by
  obtain ⟨code, r, q, hcode, hreads, hend, hsame⟩ := h
  obtain ⟨code', r', q', hcode', hreads', hend', hsame'⟩ := h'
  rw [hcode] at hcode'
  obtain ⟨-, rfl⟩ := Prod.mk.inj (Except.ok.inj hcode')
  exact hsame.symm.trans ((hreads.unique hend hreads' hend').2.trans hsame')

theorem reads_try32 {r r' : PNRecordReader} (hi : Inv r.bs) {o : Option Nat} (hr : pnRecordTryReadUint32 r = .ok (o, r')) :
    Reads r r' ∧ Inv r'.bs ∧ (o = none → NoField r') := by
  obtain ⟨o', hf, ho⟩ := fieldStep_of_read32 hi hr
  have hi' := (hf.effect hi).1
  cases o' with
  | none =>
    have heq := hf.eq_of_none
    subst heq
    exact ⟨.here (.refl hi), hi', fun _ => hf⟩
  | some v =>
    refine ⟨.field hf (.here (.refl hi')), hi', fun h => ?_⟩
    rw [h] at ho
    cases ho

/-- The loop over the rest of a record comes to its end. -/
theorem reads_readValues : ∀ {fuel : Nat} {r r' : PNRecordReader} {vs : List Nat}, Inv r.bs →
    readValues fuel r = .ok (vs, r') → Reads r r' ∧ Inv r'.bs ∧ NoField r'
  | 0, _, _, _, _, h => by cases h
  | fuel + 1, r, r', vs, hi, h => by
    obtain ⟨⟨o, r₁⟩, hr, h⟩ := bind_eq_ok.mp h
    obtain ⟨hreads, hi₁, hnone⟩ := reads_try32 hi hr
    cases o with
    | none =>
      obtain ⟨-, rfl⟩ := Prod.mk.inj (Except.ok.inj h)
      exact ⟨hreads, hi₁, hnone rfl⟩
    | some v =>
      obtain ⟨⟨vs', r₂⟩, hrest, h⟩ := bind_eq_ok.mp h
      obtain ⟨-, rfl⟩ := Prod.mk.inj (Except.ok.inj h)
      obtain ⟨hreads', hi', hend⟩ := reads_readValues hi₁ hrest
      exact ⟨hreads.trans hreads', hi', hend⟩

theorem endsAt_of_readRecord {bs : PNBitStream} (hi : Inv bs) {abbrevs : List PNAbbrev} {entry fuel : Nat}
    {code : Option Nat} {vs : List Nat} {q : PNRecordReader} (h : readRecord fuel bs abbrevs entry = .ok (code, vs, q)) :
    EndsAt bs abbrevs entry q.bs := by
  obtain ⟨⟨c, r⟩, hcode, h⟩ := bind_eq_ok.mp h
  obtain ⟨⟨vs', q'⟩, hvs, h⟩ := bind_eq_ok.mp h
  obtain ⟨-, h⟩ := Prod.mk.inj (Except.ok.inj h)
  obtain ⟨-, rfl⟩ := Prod.mk.inj h
  obtain ⟨hreads, hi', hend⟩ := reads_readValues (pnRecordReadCode_effect (r := pnRecordReaderInit bs abbrevs entry) hi hcode).1 hvs
  exact ⟨c, r, q', hcode, hreads, hend, .refl hi'⟩

/-- An unabbreviated record ends behind its encoding. -/
theorem endsAt_unabbrev {bs : PNBitStream} (hi : Inv bs) {code : Nat} {vs : List Nat} (hcode : code < 2 ^ 32)
    (hvs : ∀ v ∈ vs, v < 2 ^ 32) (abbrevs : List PNAbbrev) (hat : bs.At (encUnabbrev code vs)) :
    ∃ stop, EndsAt bs abbrevs pnEntryUnabbrevRecord stop ∧ stop.bitOffset = bs.bitOffset + (encUnabbrev code vs).length := by
  obtain ⟨q, hread, hm⟩ := readRecord_unabbrev hcode hvs hi hat (Nat.lt_succ_self vs.length)
  exact ⟨q.bs, endsAt_of_readRecord hi hread, hm.offset⟩

/-- A record laid out through an abbreviation ends behind its encoding. -/
theorem endsAt_abbrev {bs : PNBitStream} (hi : Inv bs) {r : AbbrevRecord} (hr : r.Ok) {abbrevs : List PNAbbrev} {entry : Nat}
    (h4 : 4 ≤ entry) (h32 : entry < 2 ^ 32) (hab : abbrevs[entry - 4]? = some ⟨r.ops⟩) (hat : bs.At r.enc) :
    ∃ stop, EndsAt bs abbrevs entry stop ∧ stop.bitOffset = bs.bitOffset + r.enc.length := by
  obtain ⟨q, hread, hm⟩ := readRecord_abbrev hr hi h4 h32 hab hat (Nat.lt_succ_self r.values.length)
  exact ⟨q.bs, endsAt_of_readRecord hi hread, hm.offset⟩

/-! ## Fields that take no bits -/

/-- An operation whose field takes no bits. -/
def PNAbbrevOp.NoBits : PNAbbrevOp → Prop
  | .literal _ => True
  | .fixed numBits => numBits = 0
  | .vbr _ | .char6 | .array | .blob => False

instance : DecidablePred PNAbbrevOp.NoBits
  | .literal _ => .isTrue trivial
  | .fixed numBits => inferInstanceAs (Decidable (numBits = 0))
  | .vbr _ | .char6 | .array | .blob => .isFalse id

/-- The operations `ops` that are left, at element `valueIndex` of `numValues` of an array that may stand in front, take no
bits. -/
def OpsNoBits (numValues valueIndex : Nat) : List PNAbbrevOp → Prop
  | .array :: elt :: ops =>
    valueIndex ≠ 0 ∧ (valueIndex < numValues ∨ numValues = 0) ∧ elt.NoBits ∧ ∀ op ∈ ops, op.NoBits
  | ops => ∀ op ∈ ops, op.NoBits

/-- What is left of the record takes no bits: there is no value left, or all operations that are left are literals and
fields of width 0. -/
def PNRecordReader.NoBitsLeft (r : PNRecordReader) : Prop :=
  if r.entry = pnEntryUnabbrevRecord then r.numValues ≤ r.valueIndex
  else ∃ ab ∈ r.abbrev, OpsNoBits r.numValues r.valueIndex (ab.ops.drop r.opIndex)

theorem OpsNoBits.all {numValues valueIndex : Nat} {ops : List PNAbbrevOp} (h : OpsNoBits numValues valueIndex ops)
    (hv : valueIndex = 0 ∨ valueIndex = numValues) : ∀ op ∈ ops, op.NoBits := by
  unfold OpsNoBits at h
  split at h
  · omega
  · exact h

/-- Such a field is read without moving on. -/
theorem PNAbbrevOp.NoBits.read {op : PNAbbrevOp} (h : op.NoBits) {bs : PNBitStream} (hi : Inv bs) :
    ∃ v bs', readArrayElementUint64 bs op = .ok (v, bs') ∧ bs.Same bs' := by
  cases op with
  | literal value => exact ⟨value, bs, rfl, .refl hi⟩
  | fixed numBits =>
    rw [PNAbbrevOp.NoBits] at h
    subst h
    obtain ⟨bs', hr, hi', hf, ho⟩ := pnBitstreamRead_spec hi (show 0 ≤ 32 by omega) (by have := hi.offset_le; omega)
    exact ⟨_, bs', hr, hi, hi', hf, ho⟩
  | vbr numBits => exact h.elim
  | char6 => exact h.elim
  | array => exact h.elim
  | blob => exact h.elim

theorem PNAbbrevOp.NoBits.scalar {op : PNAbbrevOp} (h : op.NoBits) : op.Scalar := by
  cases op <;> trivial

theorem Reads.le {r q : PNRecordReader} (h : Reads r q) (hi : Inv r.bs) (hshort : r.bs.Short) :
    r.bs.bitOffset ≤ q.bs.bitOffset := by
  induction h with
  | here hs => exact hs.2.offset.ge
  | field hf _ ih =>
    obtain ⟨hi₁, hfile, hle⟩ := hf.effect hi
    exact (hle hshort).trans (ih hi₁ (hshort.sameFile hfile))

/-- Operations without bits are read through without moving on. -/
theorem reads_ops {ab : PNAbbrev} : ∀ {ops : List PNAbbrevOp} {r : PNRecordReader}, r.entry ≠ pnEntryUnabbrevRecord →
    r.abbrev = some ab → ab.ops.drop r.opIndex = ops → (∀ op ∈ ops, op.NoBits) → Inv r.bs →
    ∃ q, Reads r q ∧ NoField q ∧ r.bs.Same q.bs
  | [], r, hentry, hab, hdrop, _, hi => by
    have hop : r.op ab = none := List.getElem?_eq_none (List.drop_eq_nil_iff.mp hdrop)
    exact ⟨r, .here (.refl hi), .opsEnd hentry hab hop, .refl hi⟩
  | op :: ops, r, hentry, hab, hdrop, hall, hi => by
    have hop : r.op ab = some op := by
      have := congrArg (·[0]?) hdrop
      rw [PNRecordReader.op]
      simpa using this
    have hrest : ab.ops.drop (r.opIndex + 1) = ops := by
      rw [← List.drop_drop, hdrop]
      rfl
    have hnone := hall op (by simp)
    obtain ⟨v, bs, hv, hs⟩ := hnone.read hi
    obtain ⟨q, hreads, hend, hs'⟩ := reads_ops (r := r.nextOp bs) hentry hab hrest
      (fun op hmem => hall op (by simp [hmem])) hs.inv'
    exact ⟨q, .field (.scalar hentry hab hop hnone.scalar hv) hreads, hend, hs.trans hs'⟩

/-- The same from inside an array: `n + 1` elements are left. -/
theorem reads_elements {ab : PNAbbrev} {elt : PNAbbrevOp} {ops : List PNAbbrevOp} (helt : elt.NoBits)
    (hall : ∀ op ∈ ops, op.NoBits) : ∀ (n : Nat) {r : PNRecordReader}, r.entry ≠ pnEntryUnabbrevRecord →
    r.abbrev = some ab → ab.ops.drop r.opIndex = .array :: elt :: ops → Inv r.bs → r.valueIndex ≠ 0 →
    r.valueIndex + (n + 1) ≤ 2 ^ 32 → (r.valueIndex + (n + 1)) % 2 ^ 32 = r.numValues →
    ∃ q, Reads r q ∧ NoField q ∧ r.bs.Same q.bs := by
  have hnext : ∀ {r : PNRecordReader}, ab.ops.drop r.opIndex = .array :: elt :: ops →
      r.op ab = some .array ∧ ab.ops[r.opIndex + 1]? = some elt ∧ ab.ops.drop (r.opIndex + 2) = ops := by
    intro r hdrop
    refine ⟨?_, ?_, ?_⟩
    · have := congrArg (·[0]?) hdrop
      rw [PNRecordReader.op]
      simpa using this
    · have := congrArg (·[1]?) hdrop
      simpa using this
    · rw [← List.drop_drop, hdrop]
      rfl
  intro n
  induction n with
  | zero =>
    intro r hentry hab hdrop hi h0 hle hlast
    obtain ⟨hop, helt', hrest⟩ := hnext hdrop
    obtain ⟨v, bs, hv, hs⟩ := helt.read hi
    have hstep := FieldStep.arrayNext hentry hab hop h0 helt' hv
    have hdrop' : ab.ops.drop (r.afterElement r.numValues bs).opIndex = ops := by
      rw [PNRecordReader.afterElement]
      simp only [if_pos hlast]
      exact hrest
    obtain ⟨q, hreads, hend, hs'⟩ := reads_ops (r := r.afterElement r.numValues bs) hentry hab hdrop' hall hs.inv'
    exact ⟨q, .field hstep hreads, hend, hs.trans hs'⟩
  | succ n ih =>
    intro r hentry hab hdrop hi h0 hle hlast
    obtain ⟨hop, helt', hrest⟩ := hnext hdrop
    obtain ⟨v, bs, hv, hs⟩ := helt.read hi
    have hstep := FieldStep.arrayNext hentry hab hop h0 helt' hv
    have hindex : (r.valueIndex + 1) % 2 ^ 32 = r.valueIndex + 1 := Nat.mod_eq_of_lt (by omega)
    have hmore : (r.valueIndex + 1) % 2 ^ 32 ≠ r.numValues := by omega
    have hsum : r.valueIndex + 1 + (n + 1) = r.valueIndex + (n + 1 + 1) := by omega
    obtain ⟨q, hreads, hend, hs'⟩ := ih (r := r.afterElement r.numValues bs) hentry hab
      (by rw [PNRecordReader.afterElement]; simp only [if_neg hmore]; exact hdrop) hs.inv'
      (show (r.valueIndex + 1) % 2 ^ 32 ≠ 0 by omega)
      (show (r.valueIndex + 1) % 2 ^ 32 + (n + 1) ≤ 2 ^ 32 by omega)
      (show ((r.valueIndex + 1) % 2 ^ 32 + (n + 1)) % 2 ^ 32 = r.numValues by rw [hindex, hsum, hlast])
    exact ⟨q, .field hstep hreads, hend, hs.trans hs'⟩

/-- A record without bits left ends where it stands. -/
theorem PNRecordReader.NoBitsLeft.reads {r : PNRecordReader} (h : r.NoBitsLeft) (hi : Inv r.bs) (hc : r.Counts) :
    ∃ q, Reads r q ∧ NoField q ∧ r.bs.Same q.bs := by
  unfold PNRecordReader.NoBitsLeft at h
  split at h
  · rename_i hentry
    exact ⟨r, .here (.refl hi), .valuesEnd hentry h, .refl hi⟩
  · rename_i hentry
    obtain ⟨ab, hab, hops⟩ := h
    generalize hdrop : ab.ops.drop r.opIndex = ops at hops
    unfold OpsNoBits at hops
    split at hops
    · rename_i elt ops
      obtain ⟨h0, hcount, helt, hall⟩ := hops
      obtain ⟨hn, hv⟩ := hc
      rcases hcount with hlt | hzero
      · refine reads_elements helt hall (r.numValues - r.valueIndex - 1) hentry hab hdrop hi h0 (by omega) ?_
        rw [show r.valueIndex + (r.numValues - r.valueIndex - 1 + 1) = r.numValues by omega, Nat.mod_eq_of_lt hn]
      · refine reads_elements helt hall (2 ^ 32 - r.valueIndex - 1) hentry hab hdrop hi h0 (by omega) ?_
        rw [show r.valueIndex + (2 ^ 32 - r.valueIndex - 1 + 1) = 2 ^ 32 by omega, Nat.mod_self, hzero]
    · exact reads_ops hentry hab hdrop hops hi

end Pnacl
