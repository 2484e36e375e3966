import Pnacl.Record

/-!
# Typed record fields

The readers on top of `pn_record_try_read_uint32`: the 64-bit reader, which has its own copy of the abbreviation
decoder, the checked 16-bit and the sign-rotated fields, the count of the fields that are left, and the end of a record.
A required field that is missing is fatal; the message names the field.
-/

namespace Pnacl

open Lib

/-- `pn_decode_sign_rotated_value`, as the 32 bits of its `int32_t`. -/
def pnDecodeSignRotatedValue (value : Nat) : Nat :=
  if value % 2 = 0 then value / 2 else if value ≠ 1 then (2 ^ 32 - value / 2) % 2 ^ 32 else 2 ^ 31

/-- `pn_decode_sign_rotated_value_int64`. -/
def pnDecodeSignRotatedValueInt64 (value : Nat) : Int :=
  if value % 2 = 0 then (value / 2 : Nat) else if value ≠ 1 then -((value / 2 : Nat) : Int) else -2 ^ 63

/-- `pn_bitstream_read_vbr_uint64` at a width that is an `int`. -/
def readVbrUint64Field (bs : PNBitStream) (numBits : Int) : Except Stop (Nat × PNBitStream) :=
  if numBits < 0 then .error (.undefined "shift by a negative width") else pnBitstreamReadVbrUint64 bs numBits.toNat

/-- One element of an array in `pn_record_read_abbrev_uint64`. -/
def readArrayElementUint64 (bs : PNBitStream) : PNAbbrevOp → Except Stop (Nat × PNBitStream)
  | .literal value => .ok (value, bs)
  | .fixed numBits => readFixedField bs numBits
  | .vbr numBits => readVbrUint64Field bs numBits
  | .char6 => readChar6Field bs
  | .array => pnFatal "bad encoding for array element: %d\n" [3]
  | .blob => pnFatal "bad encoding for array element: %d\n" [5]

/-- `pn_record_read_abbrev_uint64`. Unlike `pn_record_read_abbrev` it accepts an empty array. -/
def pnRecordReadAbbrevUint64 (reader : PNRecordReader) : Except Stop (Option Nat × PNRecordReader) := do
  let index := (reader.entry + 2 ^ 32 - 4) % 2 ^ 32
  match reader.abbrevs[index]? with
  | none => .error (.assert "reader->entry - 4 < reader->abbrevs->num_abbrevs")
  | some ab =>
  match ab.ops[reader.opIndex]? with
  | none => .ok (none, reader)
  | some op =>
  match op with
  | .literal value => .ok (some value, reader.nextOp reader.bs)
  | .fixed numBits => do
    let (v, bs) ← readFixedField reader.bs numBits
    .ok (some v, reader.nextOp bs)
  | .vbr numBits => do
    let (v, bs) ← readVbrUint64Field reader.bs numBits
    .ok (some v, reader.nextOp bs)
  | .array => do
    let (numValues, bs) ←
      if reader.valueIndex = 0 then pnBitstreamReadVbr reader.bs 6 else .ok (reader.numValues, reader.bs)
    match ab.ops[reader.opIndex + 1]? with
    | none => .error (.undefined "element operation behind the end of the abbreviation")
    | some eltOp =>
      let (v, bs) ← readArrayElementUint64 bs eltOp
      let valueIndex := (reader.valueIndex + 1) % 2 ^ 32
      let opIndex := if valueIndex = numValues then reader.opIndex + 2 else reader.opIndex
      .ok (some v, { reader with bs := bs, numValues := numValues, valueIndex := valueIndex, opIndex := opIndex })
  | .char6 => do
    let (v, bs) ← readChar6Field reader.bs
    .ok (some v, reader.nextOp bs)
  | .blob => do
    let (numValues, bs) ←
      if reader.valueIndex = 0 then do
        let (k, bs) ← pnBitstreamRead reader.bs 6
        let bs ← pnBitstreamAlign32 bs
        .ok (k, bs)
      else .ok (reader.numValues, reader.bs)
    let (v, bs) ← pnBitstreamRead bs 8
    let opIndex := if reader.valueIndex = numValues then reader.opIndex + 1 else reader.opIndex
    .ok (some v, { reader with
      bs := bs, numValues := numValues, valueIndex := (reader.valueIndex + 1) % 2 ^ 32, opIndex := opIndex })

/-- `pn_record_try_read_uint64`. -/
def pnRecordTryReadUint64 (reader : PNRecordReader) : Except Stop (Option Nat × PNRecordReader) :=
  if reader.entry = pnEntryUnabbrevRecord then
    if reader.numValues ≤ reader.valueIndex then .ok (none, reader)
    else do
      let (v, bs) ← pnBitstreamReadVbrUint64 reader.bs 6
      .ok (some v, { reader with bs := bs, valueIndex := (reader.valueIndex + 1) % 2 ^ 32 })
  else pnRecordReadAbbrevUint64 reader

/-- `pn_record_try_read_uint16`. -/
def pnRecordTryReadUint16 (reader : PNRecordReader) : Except Stop (Option Nat × PNRecordReader) := do
  let (v, reader) ← pnRecordTryReadUint32 reader
  match v with
  | none => .ok (none, reader)
  | some v => if v > 2 ^ 16 - 1 then pnFatal "value too large for u16; (%u)\n" [v] else .ok (some v, reader)

/-- A field that must be there. -/
def required (name : String) (r : Option Nat × PNRecordReader) : Except Stop (Nat × PNRecordReader) :=
  match r with
  | (some v, reader) => .ok (v, reader)
  | (none, _) => pnFatal s!"unable to read {name}.\n" []

/-- `pn_record_read_uint32`, and `pn_record_read_int32` as the 32 bits of its `int32_t`. -/
def pnRecordReadUint32 (reader : PNRecordReader) (name : String) : Except Stop (Nat × PNRecordReader) := do
  let r ← pnRecordTryReadUint32 reader
  required name r

/-- `pn_record_read_uint16`. -/
def pnRecordReadUint16 (reader : PNRecordReader) (name : String) : Except Stop (Nat × PNRecordReader) := do
  let r ← pnRecordTryReadUint16 reader
  required name r

/-- `pn_record_read_uint64`. -/
def pnRecordReadUint64 (reader : PNRecordReader) (name : String) : Except Stop (Nat × PNRecordReader) := do
  let r ← pnRecordTryReadUint64 reader
  required name r

/-- `pn_record_read_decoded_int64`. -/
def pnRecordReadDecodedInt64 (reader : PNRecordReader) (name : String) : Except Stop (Int × PNRecordReader) := do
  let (v, reader) ← pnRecordReadUint64 reader name
  .ok (pnDecodeSignRotatedValueInt64 v, reader)

/-- `pn_record_read_decoded_int32`. -/
def pnRecordReadDecodedInt32 (reader : PNRecordReader) (name : String) : Except Stop (Int × PNRecordReader) := do
  let (v, reader) ← pnRecordReadDecodedInt64 reader name
  if v < -2 ^ 31 ∨ 2 ^ 31 - 1 < v then pnFatal "value %ld out of int32 range.\n" [v] else .ok (v, reader)

/-- `pn_record_num_values_left`: read to the end of the record, then go back. The count is an `int`. -/
def pnRecordNumValuesLeft (fuel : Nat) (reader : PNRecordReader) : Except Stop (Nat × PNRecordReader) := do
  let (vs, r) ← readValues fuel reader
  if 2 ^ 31 ≤ vs.length then .error (.undefined "++count overflows")
  else do
    let bs ← pnBitstreamSeekBit r.bs reader.bs.bitOffset
    .ok (vs.length, { reader with bs := bs })

/-- `pn_record_reader_finish`: skip the fields that are left. -/
def pnRecordReaderFinish (fuel : Nat) (reader : PNRecordReader) : Except Stop PNBitStream := do
  let (_, r) ← readValues fuel reader
  .ok r.bs

end Pnacl
