import Pnacl.Vbr

/-!
# Records

The resumable record reader of `pn_record.h`. A record is read field by field, either unabbreviated (code, number of
values and values as VBR-6) or through an abbreviation, a list of operations that say how each field is laid out. The
reader keeps its place in the abbreviation in `opIndex`, and in an array or a blob in `valueIndex` and `numValues`.
-/

namespace Pnacl

open Lib PNBitStream

/-- `PNAbbrevOp`: an encoding with the member of the union that it uses. `num_bits` is an `int`. -/
inductive PNAbbrevOp where
  | literal (value : Nat)
  | fixed (numBits : Int)
  | vbr (numBits : Int)
  | array
  | char6
  | blob
deriving Repr, DecidableEq

/-- `PNAbbrev`; `num_ops` is the length of `ops`. -/
structure PNAbbrev where
  ops : List PNAbbrevOp
deriving Repr, DecidableEq

/-- `PN_ENTRY_END_BLOCK` and the other abbreviation ids with a fixed meaning. -/
def pnEntryEndBlock : Nat := 0
def pnEntrySubblock : Nat := 1
def pnEntryDefineAbbrev : Nat := 2
def pnEntryUnabbrevRecord : Nat := 3

/-- `PNRecordReader`. The stream and the abbreviations, which the source reaches through pointers, are values here. -/
structure PNRecordReader where
  bs : PNBitStream
  abbrevs : List PNAbbrev
  entry : Nat
  opIndex : Nat
  numValues : Nat
  valueIndex : Nat

/-- `pn_record_reader_init`. -/
def pnRecordReaderInit (bs : PNBitStream) (abbrevs : List PNAbbrev) (entry : Nat) : PNRecordReader where
  bs := bs
  abbrevs := abbrevs
  entry := entry
  opIndex := 0
  numValues := 2 ^ 32 - 1
  valueIndex := 0

/-- The characters that `pn_decode_char6` knows, with the terminating NUL of the C string. -/
def char6Data : List Char :=
  ['a', 'b', 'c', 'd', 'e', 'f', 'g', 'h', 'i', 'j', 'k', 'l', 'm', 'n', 'o', 'p', 'q', 'r', 's', 't', 'u', 'v', 'w',
    'x', 'y', 'z', 'A', 'B', 'C', 'D', 'E', 'F', 'G', 'H', 'I', 'J', 'K', 'L', 'M', 'N', 'O', 'P', 'Q', 'R', 'S', 'T',
    'U', 'V', 'W', 'X', 'Y', 'Z', '0', '1', '2', '3', '4', '5', '6', '7', '8', '9', '.', '_', '\x00']

/-- `pn_decode_char6`. -/
def pnDecodeChar6 (value : Nat) : Except Stop Nat :=
  match char6Data[value]? with
  | some c => .ok c.toNat
  | none => pnFatal "Invalid char6 value: %u\n" [value]

/-- `pn_bitstream_read` at a width that is an `int`. -/
def readFixedField (bs : PNBitStream) (numBits : Int) : Except Stop (Nat × PNBitStream) :=
  if numBits < 0 then .error (.undefined "shift by a negative width") else pnBitstreamRead bs numBits.toNat

/-- `pn_bitstream_read_vbr` at a width that is an `int`. -/
def readVbrField (bs : PNBitStream) (numBits : Int) : Except Stop (Nat × PNBitStream) :=
  if numBits < 0 then .error (.undefined "shift by a negative width") else pnBitstreamReadVbr bs numBits.toNat

/-- `pn_decode_char6(pn_bitstream_read(bs, 6))`. -/
def readChar6Field (bs : PNBitStream) : Except Stop (Nat × PNBitStream) := do
  let (v, bs) ← pnBitstreamRead bs 6
  let c ← pnDecodeChar6 v
  .ok (c, bs)

/-- The inner `switch` of `pn_record_read_abbrev`: one element of an array. -/
def readArrayElement (bs : PNBitStream) : PNAbbrevOp → Except Stop (Nat × PNBitStream)
  | .literal value => .ok (value, bs)
  | .fixed numBits => readFixedField bs numBits
  | .vbr numBits => readVbrField bs numBits
  | .char6 => readChar6Field bs
  | .array => pnFatal "bad encoding for array element: %d\n" [3]
  | .blob => pnFatal "bad encoding for array element: %d\n" [5]

/-- The state after a scalar operation. -/
def PNRecordReader.nextOp (reader : PNRecordReader) (bs : PNBitStream) : PNRecordReader :=
  { reader with bs := bs, opIndex := reader.opIndex + 1, valueIndex := 0 }

/-- `pn_record_read_abbrev`; `none` is `PN_FALSE`. -/
def pnRecordReadAbbrev (reader : PNRecordReader) : Except Stop (Option Nat × PNRecordReader) := do
  let index := (reader.entry + 2 ^ 32 - 4) % 2 ^ 32
  match reader.abbrevs[index]? with
  | none => .error (.check "reader->entry - 4 < reader->abbrevs->num_abbrevs")
  | some ab =>
  match ab.ops[reader.opIndex]? with
  | none => .ok (none, reader)
  | some op =>
  match op with
  | .literal value => .ok (some value, reader.nextOp reader.bs)
  | .fixed numBits => do
    let (v, bs) ← readFixedField reader.bs numBits
    .ok (some v, reader.nextOp bs)
  | .vbr numBits => do
    let (v, bs) ← readVbrField reader.bs numBits
    .ok (some v, reader.nextOp bs)
  | .array => do
    -- the first read is the number of elements
    let (numValues, bs) ←
      if reader.valueIndex = 0 then do
        let (k, bs) ← pnBitstreamReadVbr reader.bs 6
        pnCheck (0 < k) "reader->num_values > 0"
        .ok (k, bs)
      else .ok (reader.numValues, reader.bs)
    match ab.ops[reader.opIndex + 1]? with
    | none => .error (.undefined "element operation behind the end of the abbreviation")
    | some eltOp =>
      let (v, bs) ← readArrayElement bs eltOp
      let valueIndex := (reader.valueIndex + 1) % 2 ^ 32
      -- an array uses the following op as the element op: skip both
      let opIndex := if valueIndex = numValues then reader.opIndex + 2 else reader.opIndex
      .ok (some v, { reader with bs := bs, numValues := numValues, valueIndex := valueIndex, opIndex := opIndex })
  | .char6 => do
    let (v, bs) ← readChar6Field reader.bs
    .ok (some v, reader.nextOp bs)
  | .blob => do
    let (numValues, bs) ←
      if reader.valueIndex = 0 then do
        let (k, bs) ← pnBitstreamRead reader.bs 6
        let bs ← pnBitstreamAlign32 bs
        .ok (k, bs)
      else .ok (reader.numValues, reader.bs)
    let (v, bs) ← pnBitstreamRead bs 8
    let opIndex := if reader.valueIndex = numValues then reader.opIndex + 1 else reader.opIndex
    .ok (some v, { reader with
      bs := bs, numValues := numValues, valueIndex := (reader.valueIndex + 1) % 2 ^ 32, opIndex := opIndex })

/-- `pn_record_read_code`. -/
def pnRecordReadCode (reader : PNRecordReader) : Except Stop (Option Nat × PNRecordReader) :=
  if reader.entry = pnEntryUnabbrevRecord then do
    let (code, bs) ← pnBitstreamReadVbr reader.bs 6
    let (numValues, bs) ← pnBitstreamReadVbr bs 6
    .ok (some code, { reader with bs := bs, numValues := numValues })
  else pnRecordReadAbbrev reader

/-- `pn_record_try_read_uint32`. -/
def pnRecordTryReadUint32 (reader : PNRecordReader) : Except Stop (Option Nat × PNRecordReader) :=
  if reader.entry = pnEntryUnabbrevRecord then
    -- num_values must be set, see if we're over the limit
    if reader.numValues ≤ reader.valueIndex then .ok (none, reader)
    else do
      let (v, bs) ← pnBitstreamReadVbr reader.bs 6
      .ok (some v, { reader with bs := bs, valueIndex := (reader.valueIndex + 1) % 2 ^ 32 })
  else pnRecordReadAbbrev reader

/-- `while (pn_record_try_read_uint32(reader, &value))`, with the values it reads. -/
def readValues : Nat → PNRecordReader → Except Stop (List Nat × PNRecordReader)
  | 0, _ => .error .fuel
  | fuel + 1, reader => do
    let (v, reader) ← pnRecordTryReadUint32 reader
    match v with
    | none => .ok ([], reader)
    | some v =>
      let (vs, reader) ← readValues fuel reader
      .ok (v :: vs, reader)

/-- A whole record: initialise the reader, read the code, then the values until there are no more. -/
def readRecord (fuel : Nat) (bs : PNBitStream) (abbrevs : List PNAbbrev) (entry : Nat) :
    Except Stop (Option Nat × List Nat × PNRecordReader) := do
  let (code, reader) ← pnRecordReadCode (pnRecordReaderInit bs abbrevs entry)
  let (vs, reader) ← readValues fuel reader
  .ok (code, vs, reader)

end Pnacl
