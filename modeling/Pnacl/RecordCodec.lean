import Pnacl.Record

/-!
# Record decoding undoes record encoding

The encodings of a record in the LLVM bitstream format, as bit strings, and the proof that the record reader reads them
back: `unabbrev_record_decodes` for the unabbreviated form, `abbrev_record_decodes` for an abbreviation made of scalar
operations that may end in one array. Both are inductions over the fields that are still to be read; what carries them
is that the stream stands at the encoding of exactly these fields (`PNBitStream.At`).
-/

namespace Pnacl

open Lib PNBitStream

/-! ## Fields -/

/-- LLVM's `isChar6`. -/
def IsChar6 (v : Nat) : Prop := (97 ≤ v ∧ v ≤ 122) ∨ (65 ≤ v ∧ v ≤ 90) ∨ (48 ≤ v ∧ v ≤ 57) ∨ v = 46 ∨ v = 95

instance (v : Nat) : Decidable (IsChar6 v) := inferInstanceAs (Decidable (_ ∨ _))

/-- LLVM's `EncodeChar6`. -/
def encodeChar6 (v : Nat) : Nat :=
  if 97 ≤ v ∧ v ≤ 122 then v - 97
  else if 65 ≤ v ∧ v ≤ 90 then v - 65 + 26
  else if 48 ≤ v ∧ v ≤ 57 then v - 48 + 52
  else if v = 46 then 62
  else 63

/-- A scalar operation that an abbreviation may use, with a value it can represent. -/
def FieldOk : PNAbbrevOp → Nat → Prop
  | .literal c, v => v = c
  | .fixed w, v => 0 ≤ w ∧ w ≤ 32 ∧ v < 2 ^ w.toNat
  | .vbr w, v => 2 ≤ w ∧ w ≤ 32 ∧ v < 2 ^ 32
  | .char6, v => IsChar6 v
  | .array, _ | .blob, _ => False

/-- The bits of a scalar field. -/
def encField : PNAbbrevOp → Nat → List Bool
  | .fixed w, v => bitList w.toNat v
  | .vbr w, v => encVbr w.toNat v
  | .char6, v => bitList 6 (encodeChar6 v)
  | .literal _, _ | .array, _ | .blob, _ => []

theorem decode_encodeChar6 {v : Nat} (h : IsChar6 v) : pnDecodeChar6 (encodeChar6 v) = .ok v := by
  have hall : ∀ v < 128, IsChar6 v → pnDecodeChar6 (encodeChar6 v) = .ok v := by decide
  refine hall v ?_ h
  unfold IsChar6 at h
  omega

theorem encodeChar6_lt (v : Nat) : encodeChar6 v < 2 ^ 6 := by
  unfold encodeChar6
  split_ifs <;> omega

section Fields

variable {bs : PNBitStream}

theorem readChar6Field_enc (h : Inv bs) {v : Nat} (hv : IsChar6 v) (hat : bs.At (encField .char6 v)) :
    ∃ bs', readChar6Field bs = .ok (v, bs') ∧ Moved bs (encField .char6 v).length bs' := by
  obtain ⟨bs', hr, hm⟩ := read_fixed h (by omega) (encodeChar6_lt v) hat
  exact ⟨bs', by simp [readChar6Field, hr, decode_encodeChar6 hv], by simpa [encField] using hm⟩

theorem readFixedField_enc (h : Inv bs) {w : Int} {v : Nat} (hf : FieldOk (.fixed w) v)
    (hat : bs.At (encField (.fixed w) v)) :
    ∃ bs', readFixedField bs w = .ok (v, bs') ∧ Moved bs (encField (.fixed w) v).length bs' := by
  obtain ⟨h0, h32, hv⟩ := hf
  obtain ⟨bs', hr, hm⟩ := read_fixed h (by omega) hv hat
  exact ⟨bs', by rw [readFixedField, if_neg (by omega), hr], by simpa [encField] using hm⟩

theorem readVbr6_enc (h : Inv bs) {v : Nat} (hv : v < 2 ^ 32) (hat : bs.At (encVbr 6 v)) :
    ∃ bs', pnBitstreamReadVbr bs 6 = .ok (v, bs') ∧ Moved bs (encVbr 6 v).length bs' := by
  obtain ⟨bs', hr, hm⟩ := (readVbr_enc (by omega) (by omega) (by omega) h hat).1 (Or.inl hv)
  exact ⟨bs', by rw [hr, Nat.mod_eq_of_lt hv], hm⟩

theorem readVbrField_enc (h : Inv bs) {w : Int} {v : Nat} (hf : FieldOk (.vbr w) v)
    (hat : bs.At (encField (.vbr w) v)) :
    ∃ bs', readVbrField bs w = .ok (v, bs') ∧ Moved bs (encField (.vbr w) v).length bs' := by
  obtain ⟨h2, h32, hv⟩ := hf
  obtain ⟨bs', hr, hm⟩ := (readVbr_enc (by omega) (by omega) (by omega) h hat).1 (Or.inl hv)
  exact ⟨bs', by rw [readVbrField, if_neg (by omega), hr, Nat.mod_eq_of_lt hv], hm⟩

theorem Moved.zero (h : Inv bs) : Moved bs 0 bs := ⟨h, .refl bs, rfl⟩

/-- An array element is read back. -/
theorem readArrayElement_enc (h : Inv bs) {op : PNAbbrevOp} {v : Nat} (hf : FieldOk op v) (hat : bs.At (encField op v)) :
    ∃ bs', readArrayElement bs op = .ok (v, bs') ∧ Moved bs (encField op v).length bs' := by
  cases op with
  | literal c => exact ⟨bs, by rw [hf]; rfl, Moved.zero h⟩
  | fixed w => exact readFixedField_enc h hf hat
  | vbr w => exact readVbrField_enc h hf hat
  | char6 => exact readChar6Field_enc h hf hat
  | array => cases hf
  | blob => cases hf

end Fields

/-! ## Abbreviated records -/

/-- A record laid out through an abbreviation: the scalar operations with their values, the first of which is the code,
and the element operation and the elements of an array at the end. -/
structure AbbrevRecord where
  code : PNAbbrevOp × Nat
  scalars : List (PNAbbrevOp × Nat)
  array : Option (PNAbbrevOp × List Nat)

namespace AbbrevRecord

/-- The operations of the abbreviation. -/
def ops (r : AbbrevRecord) : List PNAbbrevOp :=
  r.code.1 :: r.scalars.map Prod.fst ++ match r.array with
    | none => []
    | some (elt, _) => [.array, elt]

/-- The values behind the code. -/
def values (r : AbbrevRecord) : List Nat :=
  r.scalars.map Prod.snd ++ match r.array with
    | none => []
    | some (_, vs) => vs

/-- The bits of the array, if there is one. -/
def encArray (r : AbbrevRecord) : List Bool :=
  match r.array with
  | none => []
  | some (elt, vs) => encVbr 6 vs.length ++ vs.flatMap (encField elt)

/-- The bits of the record behind its abbreviation id. -/
def enc (r : AbbrevRecord) : List Bool :=
  encField r.code.1 r.code.2 ++ (r.scalars.flatMap (fun f => encField f.1 f.2) ++ r.encArray)

/-- Every value is representable by its operation; an array is one of `FIXED`, `VBR` or `CHAR6` elements and is not
empty. -/
structure Ok (r : AbbrevRecord) : Prop where
  code : FieldOk r.code.1 r.code.2
  scalars : ∀ f ∈ r.scalars, FieldOk f.1 f.2
  array : ∀ elt vs, r.array = some (elt, vs) → (∀ c, elt ≠ .literal c) ∧ vs ≠ [] ∧ vs.length < 2 ^ 32 ∧
    ∀ v ∈ vs, FieldOk elt v

end AbbrevRecord

section Abbrev

variable {reader : PNRecordReader} {ab : PNAbbrev}

/-- The abbreviation that the reader's entry names. -/
def PNRecordReader.Uses (reader : PNRecordReader) (ab : PNAbbrev) : Prop :=
  4 ≤ reader.entry ∧ reader.entry < 2 ^ 32 ∧ reader.abbrevs[reader.entry - 4]? = some ab

theorem uses_index (h : reader.Uses ab) : reader.abbrevs[(reader.entry + 2 ^ 32 - 4) % 2 ^ 32]? = some ab := by
  obtain ⟨h4, h32, hab⟩ := h
  rwa [show (reader.entry + 2 ^ 32 - 4) % 2 ^ 32 = reader.entry - 4 by omega]

/-- One scalar field. -/
theorem readAbbrev_scalar (hu : reader.Uses ab) (hi : Inv reader.bs) {op : PNAbbrevOp} {v : Nat}
    (hop : ab.ops[reader.opIndex]? = some op) (hf : FieldOk op v) (hat : reader.bs.At (encField op v)) :
    ∃ bs', pnRecordReadAbbrev reader = .ok (some v, reader.nextOp bs') ∧
      Moved reader.bs (encField op v).length bs' := by
  cases op with
  | literal c =>
    refine ⟨reader.bs, ?_, Moved.zero hi⟩
    simp only [pnRecordReadAbbrev, uses_index hu, hop]
    rw [show v = c from hf]
  | fixed w =>
    obtain ⟨bs', hr, hm⟩ := readFixedField_enc hi hf hat
    exact ⟨bs', by simp only [pnRecordReadAbbrev, uses_index hu, hop, hr, ok_bind], hm⟩
  | vbr w =>
    obtain ⟨bs', hr, hm⟩ := readVbrField_enc hi hf hat
    exact ⟨bs', by simp only [pnRecordReadAbbrev, uses_index hu, hop, hr, ok_bind], hm⟩
  | char6 =>
    obtain ⟨bs', hr, hm⟩ := readChar6Field_enc hi hf hat
    exact ⟨bs', by simp only [pnRecordReadAbbrev, uses_index hu, hop, hr, ok_bind], hm⟩
  | array => cases hf
  | blob => cases hf

/-- Behind the last operation there is nothing to read. -/
theorem readAbbrev_end (hu : reader.Uses ab) (h : ab.ops.length ≤ reader.opIndex) :
    pnRecordReadAbbrev reader = .ok (none, reader) := by
  simp only [pnRecordReadAbbrev, uses_index hu, List.getElem?_eq_none h]

/-- The state after an array element. -/
def PNRecordReader.nextElement (reader : PNRecordReader) (numValues : Nat) (bs : PNBitStream) : PNRecordReader :=
  { reader with
    bs := bs, numValues := numValues, valueIndex := reader.valueIndex + 1
    opIndex := if reader.valueIndex + 1 = numValues then reader.opIndex + 2 else reader.opIndex }

/-- An element behind the first. -/
theorem readAbbrev_element (hu : reader.Uses ab) (hi : Inv reader.bs) {elt : PNAbbrevOp} {v : Nat}
    (hop : ab.ops[reader.opIndex]? = some .array) (helt : ab.ops[reader.opIndex + 1]? = some elt)
    (h0 : 0 < reader.valueIndex) (hlt : reader.valueIndex < reader.numValues) (h32 : reader.numValues < 2 ^ 32)
    (hf : FieldOk elt v) (hat : reader.bs.At (encField elt v)) :
    ∃ bs', pnRecordReadAbbrev reader = .ok (some v, reader.nextElement reader.numValues bs') ∧
      Moved reader.bs (encField elt v).length bs' := by
  obtain ⟨bs', hr, hm⟩ := readArrayElement_enc hi hf hat
  refine ⟨bs', ?_, hm⟩
  have hmod : (reader.valueIndex + 1) % 2 ^ 32 = reader.valueIndex + 1 := Nat.mod_eq_of_lt (by omega)
  simp only [pnRecordReadAbbrev, uses_index hu, hop, helt, if_neg (show reader.valueIndex ≠ 0 by omega), ok_bind, hr,
    hmod, PNRecordReader.nextElement]

/-- The first element, with the length of the array in front of it. -/
theorem readAbbrev_first_element (hu : reader.Uses ab) (hi : Inv reader.bs) {elt : PNAbbrevOp} {v n : Nat}
    (hop : ab.ops[reader.opIndex]? = some .array) (helt : ab.ops[reader.opIndex + 1]? = some elt)
    (h0 : reader.valueIndex = 0) (hn : 0 < n) (h32 : n < 2 ^ 32) (hf : FieldOk elt v)
    (hat : reader.bs.At (encVbr 6 n ++ encField elt v)) :
    ∃ bs', pnRecordReadAbbrev reader = .ok (some v, reader.nextElement n bs') ∧
      Moved reader.bs (encVbr 6 n ++ encField elt v).length bs' := by
  obtain ⟨b₁, hr₁, hm₁⟩ := readVbr6_enc hi h32 hat.first
  obtain ⟨b₂, hr₂, hm₂⟩ := readArrayElement_enc hm₁.inv hf (hat.rest hm₁)
  refine ⟨b₂, ?_, by simpa using hm₁.trans hm₂⟩
  simp only [pnRecordReadAbbrev, uses_index hu, hop, helt, h0, hr₁, ok_bind, pnCheck_bind hn, hr₂,
    PNRecordReader.nextElement]
  simp

theorem tryRead_abbrev (hu : reader.Uses ab) : pnRecordTryReadUint32 reader = pnRecordReadAbbrev reader := by
  have := hu.1
  rw [pnRecordTryReadUint32, if_neg (by simp only [pnEntryUnabbrevRecord]; omega)]

theorem readValues_end (hu : reader.Uses ab) (h : ab.ops.length ≤ reader.opIndex) (fuel : Nat) :
    readValues (fuel + 1) reader = .ok ([], reader) := by
  rw [readValues, tryRead_abbrev hu, readAbbrev_end hu h]
  rfl

/-- The elements behind the first, in order, up to the end of the abbreviation. -/
theorem readValues_elements {elt : PNAbbrevOp} : ∀ (vs : List Nat) (reader : PNRecordReader) (fuel : Nat),
    reader.Uses ab → Inv reader.bs → vs.length < fuel →
    (vs ≠ [] → ab.ops[reader.opIndex]? = some .array ∧ ab.ops[reader.opIndex + 1]? = some elt ∧
      ab.ops.length = reader.opIndex + 2 ∧ 0 < reader.valueIndex ∧ reader.valueIndex + vs.length = reader.numValues ∧
      reader.numValues < 2 ^ 32) →
    (vs = [] → ab.ops.length ≤ reader.opIndex) → (∀ v ∈ vs, FieldOk elt v) → reader.bs.At (vs.flatMap (encField elt)) →
    ∃ reader', readValues fuel reader = .ok (vs, reader') ∧
      Moved reader.bs (vs.flatMap (encField elt)).length reader'.bs
  | _, _, 0, _, _, hf, _, _, _, _ => absurd hf (by omega)
  | [], reader, fuel + 1, hu, hi, _, _, hend, _, _ => ⟨reader, readValues_end hu (hend rfl) fuel, Moved.zero hi⟩
  | v :: vs, reader, fuel + 1, hu, hi, hf, hpos, _, hok, hat => by
    obtain ⟨hop, helt, hlen, h0, hsum, h32⟩ := hpos (by simp)
    simp only [List.length_cons] at hf hsum
    simp only [List.flatMap_cons] at hat ⊢
    obtain ⟨b₁, hr, hm⟩ := readAbbrev_element hu hi hop helt h0 (by omega) h32 (hok v List.mem_cons_self) hat.first
    have ih := readValues_elements vs (reader.nextElement reader.numValues b₁) fuel hu hm.inv (by omega)
      (fun hne => by
        have : 0 < vs.length := List.length_pos_iff.mpr hne
        have hstay : (reader.nextElement reader.numValues b₁).opIndex = reader.opIndex := by
          simp only [PNRecordReader.nextElement]; rw [if_neg (by omega)]
        rw [hstay]
        exact ⟨hop, helt, hlen, Nat.succ_pos _, by simp only [PNRecordReader.nextElement]; omega, h32⟩)
      (fun he => by
        subst he
        simp only [PNRecordReader.nextElement, List.length_nil] at hsum ⊢
        rw [if_pos (by omega)]; omega)
      (fun w hw => hok w (List.mem_cons_of_mem _ hw)) (hat.rest hm)
    obtain ⟨reader', hvs, hm'⟩ := ih
    refine ⟨reader', ?_, by simpa using hm.trans hm'⟩
    rw [readValues, tryRead_abbrev hu, hr, ok_bind]
    simp only [hvs, ok_bind]

/-- A whole array at the end of the abbreviation. -/
theorem readValues_array {elt : PNAbbrevOp} {vs : List Nat} {fuel : Nat} (hu : reader.Uses ab) (hi : Inv reader.bs)
    (hfuel : vs.length < fuel) (hop : ab.ops[reader.opIndex]? = some .array)
    (helt : ab.ops[reader.opIndex + 1]? = some elt) (hlen : ab.ops.length = reader.opIndex + 2)
    (h0 : reader.valueIndex = 0) (hne : vs ≠ []) (h32 : vs.length < 2 ^ 32) (hok : ∀ v ∈ vs, FieldOk elt v)
    (hat : reader.bs.At (encVbr 6 vs.length ++ vs.flatMap (encField elt))) :
    ∃ reader', readValues fuel reader = .ok (vs, reader') ∧
      Moved reader.bs (encVbr 6 vs.length ++ vs.flatMap (encField elt)).length reader'.bs := by
  obtain ⟨v, rest, rfl⟩ := List.exists_cons_of_ne_nil hne
  obtain ⟨fuel, rfl⟩ : ∃ k, fuel = k + 1 := ⟨fuel - 1, by omega⟩
  simp only [List.flatMap_cons, ← List.append_assoc, List.length_cons] at hat hfuel h32 ⊢
  obtain ⟨b₁, hr, hm⟩ := readAbbrev_first_element hu hi hop helt h0 (by simp) h32 (hok v List.mem_cons_self) hat.first
  obtain ⟨reader', hvs, hm'⟩ := readValues_elements rest (reader.nextElement (rest.length + 1) b₁) fuel hu
    hm.inv (by omega)
    (fun hne => by
      have : 0 < rest.length := List.length_pos_iff.mpr hne
      have hstay : (reader.nextElement (rest.length + 1) b₁).opIndex = reader.opIndex := by
        simp only [PNRecordReader.nextElement]; rw [if_neg (by omega)]
      rw [hstay]
      exact ⟨hop, helt, hlen, Nat.succ_pos _, by simp only [PNRecordReader.nextElement]; omega, h32⟩)
    (fun he => by
      subst he
      simp only [PNRecordReader.nextElement, List.length_nil]
      rw [if_pos (by omega)]; omega)
    (fun w hw => hok w (List.mem_cons_of_mem _ hw)) (hat.rest hm)
  refine ⟨reader', ?_, by simpa [Nat.add_assoc] using hm.trans hm'⟩
  rw [readValues, tryRead_abbrev hu, hr, ok_bind]
  simp only [hvs, ok_bind]

/-- Scalar fields in order, then whatever `tail` reads. -/
theorem readValues_scalars {tail : List Nat} {bits : List Bool} : ∀ (fs : List (PNAbbrevOp × Nat))
    (reader : PNRecordReader) (fuel : Nat), reader.Uses ab → Inv reader.bs → reader.valueIndex = 0 →
    (∀ f ∈ fs, FieldOk f.1 f.2) → (∀ k, ∀ h : k < fs.length, ab.ops[reader.opIndex + k]? = some fs[k].1) →
    reader.bs.At (fs.flatMap (fun f => encField f.1 f.2) ++ bits) →
    (∀ r : PNRecordReader, r.Uses ab → Inv r.bs → r.opIndex = reader.opIndex + fs.length → r.valueIndex = 0 →
      r.bs.At bits → ∃ r', readValues fuel r = .ok (tail, r') ∧ Moved r.bs bits.length r'.bs) →
    ∃ reader', readValues (fs.length + fuel) reader = .ok (fs.map Prod.snd ++ tail, reader') ∧
      Moved reader.bs (fs.flatMap (fun f => encField f.1 f.2) ++ bits).length reader'.bs
  | [], reader, fuel, hu, hi, h0, _, _, hat, htail => by
    simpa using htail reader hu hi rfl h0 (by simpa using hat)
  | f :: fs, reader, fuel, hu, hi, h0, hok, hops, hat, htail => by
    simp only [List.flatMap_cons, List.append_assoc] at hat ⊢
    obtain ⟨b₁, hr, hm⟩ := readAbbrev_scalar hu hi (hops 0 (Nat.succ_pos _)) (hok f List.mem_cons_self) hat.first
    obtain ⟨reader', hvs, hm'⟩ := readValues_scalars fs (reader.nextOp b₁) fuel hu hm.inv rfl
      (fun g hg => hok g (List.mem_cons_of_mem _ hg))
      (fun k hk => by
        have := hops (k + 1) (by simpa using hk)
        simpa [PNRecordReader.nextOp, Nat.add_assoc, Nat.add_comm 1 k] using this)
      (hat.rest hm)
      (fun r hru hri hro => htail r hru hri (by
        rw [hro]; simp only [PNRecordReader.nextOp, List.length_cons]; omega))
    refine ⟨reader', ?_, by simpa using hm.trans hm'⟩
    rw [List.length_cons, show fs.length + 1 + fuel = fs.length + fuel + 1 by omega, readValues, tryRead_abbrev hu, hr,
      ok_bind]
    simp only [hvs, ok_bind, List.map_cons, List.cons_append]

/-- **Reading a record through its abbreviation** gives back the code and the values. -/
theorem readRecord_abbrev {r : AbbrevRecord} (hr : r.Ok) {bs : PNBitStream} (hi : Inv bs) {abbrevs : List PNAbbrev}
    {entry : Nat} (h4 : 4 ≤ entry) (h32 : entry < 2 ^ 32) (hab : abbrevs[entry - 4]? = some ⟨r.ops⟩) (hat : bs.At r.enc)
    {fuel : Nat} (hfuel : r.values.length < fuel) :
    ∃ reader', readRecord fuel bs abbrevs entry = .ok (some r.code.2, r.values, reader') ∧
      Moved bs r.enc.length reader'.bs := by
  have hu : (pnRecordReaderInit bs abbrevs entry).Uses ⟨r.ops⟩ := ⟨h4, h32, hab⟩
  obtain ⟨b₁, hc, hm₁⟩ := readAbbrev_scalar hu hi
    (by simp [pnRecordReaderInit, AbbrevRecord.ops]) hr.code hat.first
  have hu₁ : ((pnRecordReaderInit bs abbrevs entry).nextOp b₁).Uses ⟨r.ops⟩ := hu
  have hfl : r.scalars.length ≤ r.values.length := by simp [AbbrevRecord.values]
  -- the scalars behind the code, then the array if there is one
  have hvals : ∃ reader', readValues fuel ((pnRecordReaderInit bs abbrevs entry).nextOp b₁) = .ok (r.values, reader') ∧
      Moved b₁ (r.scalars.flatMap (fun f => encField f.1 f.2) ++ r.encArray).length reader'.bs := by
    rw [show fuel = r.scalars.length + (fuel - r.scalars.length) by omega]
    refine readValues_scalars r.scalars ((pnRecordReaderInit bs abbrevs entry).nextOp b₁)
      (fuel - r.scalars.length) hu₁ hm₁.inv rfl hr.scalars (fun k hk => ?_) (hat.rest hm₁) (fun rd hru hri hro hrv hra => ?_)
    · have hk' : k < (r.scalars.map Prod.fst).length := by simpa using hk
      simp only [AbbrevRecord.ops, PNRecordReader.nextOp, pnRecordReaderInit]
      rw [show 0 + 1 + k = k + 1 by omega, List.cons_append, List.getElem?_cons_succ, List.getElem?_append_left hk']
      simp [hk]
    · have hro' : rd.opIndex = r.scalars.length + 1 := by
        rw [hro]; simp only [PNRecordReader.nextOp, pnRecordReaderInit]; omega
      simp only [AbbrevRecord.encArray] at hra ⊢
      cases harr : r.array with
      | none =>
        refine ⟨rd, ?_, by simpa using Moved.zero hri⟩
        rw [show fuel - r.scalars.length = fuel - r.scalars.length - 1 + 1 by omega]
        exact readValues_end hru (by simp [AbbrevRecord.ops, harr, hro']) _
      | some p =>
        obtain ⟨elt, vs⟩ := p
        obtain ⟨-, hne, hlt, hok⟩ := hr.array elt vs harr
        rw [harr] at hra
        have hvl : r.values.length = r.scalars.length + vs.length := by simp [AbbrevRecord.values, harr]
        show ∃ r', readValues (fuel - r.scalars.length) rd = .ok (vs, r') ∧
          Moved rd.bs (encVbr 6 vs.length ++ vs.flatMap (encField elt)).length r'.bs
        refine readValues_array hru hri (by omega) ?_ ?_ ?_ hrv hne hlt hok hra
        · simp [AbbrevRecord.ops, harr, hro']
        · simp [AbbrevRecord.ops, harr, hro']
        · simp [AbbrevRecord.ops, harr, hro']
  obtain ⟨reader', hv, hm₂⟩ := hvals
  refine ⟨reader', ?_, by simpa [AbbrevRecord.enc, pnRecordReaderInit] using hm₁.trans hm₂⟩
  rw [readRecord, pnRecordReadCode, if_neg (by simp only [pnRecordReaderInit, pnEntryUnabbrevRecord]; omega), hc, ok_bind]
  simp only [hv, ok_bind]

end Abbrev

/-! ## Unabbreviated records -/

/-- The bits of an unabbreviated record behind its abbreviation id. -/
def encUnabbrev (code : Nat) (vs : List Nat) : List Bool :=
  encVbr 6 code ++ (encVbr 6 vs.length ++ vs.flatMap (encVbr 6))

/-- The values of an unabbreviated record, in order. -/
theorem readValues_unabbrev : ∀ (vs : List Nat) (reader : PNRecordReader) (fuel : Nat),
    reader.entry = pnEntryUnabbrevRecord → Inv reader.bs → vs.length < fuel →
    reader.valueIndex + vs.length = reader.numValues → reader.numValues < 2 ^ 32 → (∀ v ∈ vs, v < 2 ^ 32) →
    reader.bs.At (vs.flatMap (encVbr 6)) →
    ∃ reader', readValues fuel reader = .ok (vs, reader') ∧ Moved reader.bs (vs.flatMap (encVbr 6)).length reader'.bs
  | _, _, 0, _, _, hf, _, _, _, _ => absurd hf (by omega)
  | [], reader, fuel + 1, he, hi, _, hsum, _, _, _ => by
    refine ⟨reader, ?_, Moved.zero hi⟩
    rw [readValues, pnRecordTryReadUint32, if_pos he, if_pos (by simp at hsum; omega)]
    rfl
  | v :: vs, reader, fuel + 1, he, hi, hf, hsum, h32, hok, hat => by
    simp only [List.length_cons] at hf hsum
    simp only [List.flatMap_cons] at hat ⊢
    obtain ⟨b₁, hr, hm⟩ := readVbr6_enc hi (hok v List.mem_cons_self) hat.first
    have hmod : (reader.valueIndex + 1) % 2 ^ 32 = reader.valueIndex + 1 := Nat.mod_eq_of_lt (by omega)
    obtain ⟨reader', hvs, hm'⟩ := readValues_unabbrev vs
      { reader with bs := b₁, valueIndex := reader.valueIndex + 1 } fuel he hm.inv (by omega)
      (by simp only; omega) h32 (fun w hw => hok w (List.mem_cons_of_mem _ hw)) (hat.rest hm)
    refine ⟨reader', ?_, by simpa using hm.trans hm'⟩
    rw [readValues, pnRecordTryReadUint32, if_pos he, if_neg (by omega), hr]
    simp only [ok_bind, hmod, hvs]

/-- An unabbreviated record is at least as long as its list of values. -/
theorem length_le_encVbrs : ∀ vs : List Nat, vs.length ≤ (vs.flatMap (encVbr 6)).length
  | [] => Nat.le_refl _
  | v :: vs => by
    have ih := length_le_encVbrs vs
    have : 0 < (vbrChunks 6 v).length := by
      rw [vbrChunks]
      split <;> simp
    simp only [List.flatMap_cons, List.length_append, List.length_cons, length_encVbr 6 v]
    omega

/-- **Reading an unabbreviated record** gives back the code and the values. -/
theorem readRecord_unabbrev {code : Nat} {vs : List Nat} (hcode : code < 2 ^ 32) (hvs : ∀ v ∈ vs, v < 2 ^ 32)
    {bs : PNBitStream} (hi : Inv bs) {abbrevs : List PNAbbrev} (hat : bs.At (encUnabbrev code vs)) {fuel : Nat}
    (hfuel : vs.length < fuel) :
    ∃ reader', readRecord fuel bs abbrevs pnEntryUnabbrevRecord = .ok (some code, vs, reader') ∧
      Moved bs (encUnabbrev code vs).length reader'.bs := by
  have hlen : vs.length < 2 ^ 32 := by
    have h1 := hat.2
    have h2 := length_le_encVbrs vs
    have h3 := hi.dataLen_lt
    simp only [encUnabbrev, List.length_append] at h1
    omega
  obtain ⟨b₁, h₁, hm₁⟩ := readVbr6_enc hi hcode hat.first
  have hat₁ := hat.rest hm₁
  obtain ⟨b₂, h₂, hm₂⟩ := readVbr6_enc hm₁.inv hlen hat₁.first
  obtain ⟨reader', hv, hm₃⟩ := readValues_unabbrev vs
    { pnRecordReaderInit bs abbrevs pnEntryUnabbrevRecord with bs := b₂, numValues := vs.length } fuel rfl
    hm₂.inv hfuel (by simp [pnRecordReaderInit]) hlen hvs (hat₁.rest hm₂)
  refine ⟨reader', ?_, by simpa [encUnabbrev] using hm₁.trans (hm₂.trans hm₃)⟩
  simp only [pnRecordReaderInit] at hv
  simp only [readRecord, pnRecordReadCode, pnRecordReaderInit, if_true, h₁, h₂, ok_bind, hv]

/-- **Record decoding undoes record encoding**: in every reachable state of the stream, the record reader reads back an
unabbreviated record and a record laid out through one of the abbreviations, and leaves the stream at its end. -/
theorem record_decodes (bs : PNBitStream) (hbs : bs.Reachable) (abbrevs : List PNAbbrev) :
    (∀ (code : Nat) (vs : List Nat), code < 2 ^ 32 → (∀ v ∈ vs, v < 2 ^ 32) → bs.At (encUnabbrev code vs) →
      ∀ fuel, vs.length < fuel →
        ∃ reader, readRecord fuel bs abbrevs pnEntryUnabbrevRecord = .ok (some code, vs, reader) ∧
          reader.bs.bitOffset = bs.bitOffset + (encUnabbrev code vs).length) ∧
    (∀ (r : AbbrevRecord) (entry : Nat), r.Ok → 4 ≤ entry → entry < 2 ^ 32 → abbrevs[entry - 4]? = some ⟨r.ops⟩ →
      bs.At r.enc → ∀ fuel, r.values.length < fuel →
        ∃ reader, readRecord fuel bs abbrevs entry = .ok (some r.code.2, r.values, reader) ∧
          reader.bs.bitOffset = bs.bitOffset + r.enc.length) := by
  refine ⟨fun code vs hc hv hat fuel hf => ?_, fun r entry hr h4 h32 hab hat fuel hf => ?_⟩
  · obtain ⟨reader, hread, hm⟩ := readRecord_unabbrev hc hv hbs.inv hat hf
    exact ⟨reader, hread, hm.offset⟩
  · obtain ⟨reader, hread, hm⟩ := readRecord_abbrev hr hbs.inv h4 h32 hab hat hf
    exact ⟨reader, hread, hm.offset⟩

/-- Code 7 as a literal, the value 5 in three bits and the array "ab" of six-bit characters. -/
theorem record_decodes_literal_fixed_array :
    ∃ reader, readRecord 4 (pnBitstreamInit (fun i => [0x15, 0x80, 0x00].getD i 0) 3)
        [⟨[.literal 7, .fixed 3, .array, .char6]⟩] 4 = .ok (some 7, [5, 97, 98], reader) ∧
      reader.bs.bitOffset = 21 := by
  have hvbr : encVbr 6 2 = [false, true, false, false, false, false] := by
    simp [encVbr, vbrChunks, bitList, List.range, List.range.loop, Nat.testBit]
  have henc : (AbbrevRecord.mk (.literal 7, 7) [(.fixed 3, 5)] (some (.char6, [97, 98]))).enc =
      [true, false, true] ++ [false, true, false, false, false, false] ++
        [false, false, false, false, false, false, true, false, false, false, false, false] := by
    simp only [AbbrevRecord.enc, AbbrevRecord.encArray, List.length_cons, List.length_nil, Nat.zero_add, Nat.reduceAdd,
      hvbr]
    decide
  have h := (record_decodes (pnBitstreamInit (fun i => [0x15, 0x80, 0x00].getD i 0) 3)
    ⟨_, 3, [], by decide, by simp, rfl⟩ [⟨[.literal 7, .fixed 3, .array, .char6]⟩]).2
    (AbbrevRecord.mk (.literal 7, 7) [(.fixed 3, 5)] (some (.char6, [97, 98]))) 4
    ⟨rfl, by simp [FieldOk], by
      rintro elt vs h
      simp only [Option.some.injEq, Prod.mk.injEq] at h
      obtain ⟨rfl, rfl⟩ := h
      exact ⟨by simp, by simp, by simp, by simp [FieldOk, IsChar6]⟩⟩
    (by decide) (by decide) rfl (by rw [henc]; exact ⟨by decide, by decide⟩) 4 (by decide)
  rw [henc] at h
  exact h

end Pnacl
