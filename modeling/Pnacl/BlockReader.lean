import Pnacl.Module

/-!
# Blocks

What the block readers of `pn_read.h` have in common: the header of a block, its abbreviations, and the loop over its
entries. A block reader says what to do at the end of the block, with a subblock, with a new abbreviation and with a
record; `readBlock` does the rest. An invariant that all of these keep holds at the end of the block (`readBlock_inv`).
-/

namespace Pnacl

open Lib

/-! ## Abbreviations -/

/-- A literal or the encoding of a scalar; `none` for the encodings that are not scalar, with their number. -/
def readScalarOp (bs : PNBitStream) : Except Stop (Except Nat PNAbbrevOp × PNBitStream) := do
  let (isLiteral, bs) ← pnBitstreamRead bs 1
  if isLiteral ≠ 0 then do
    let (value, bs) ← pnBitstreamReadVbr bs 8
    .ok (.ok (.literal value), bs)
  else do
    let (encoding, bs) ← pnBitstreamRead bs 3
    match encoding with
    | 1 => do
      let (numBits, bs) ← pnBitstreamReadVbr bs 5
      -- `num_bits` is an `int`
      pnCheck (Int.bmod numBits (2 ^ 32) ≤ 32) "op->num_bits <= 32"
      .ok (.ok (.fixed (Int.bmod numBits (2 ^ 32))), bs)
    | 2 => do
      let (numBits, bs) ← pnBitstreamReadVbr bs 5
      pnCheck (Int.bmod numBits (2 ^ 32) ≤ 32) "op->num_bits <= 32"
      .ok (.ok (.vbr (Int.bmod numBits (2 ^ 32))), bs)
    | 4 => .ok (.ok .char6, bs)
    | encoding => .ok (.error encoding, bs)

/-- The loop of `pn_abbrev_read`. An array is followed by its element, also if it is the last operation announced; the
element is then stored behind the abbreviation's slots, where the model leaves it. -/
def readAbbrevOps (numOps : Nat) : Nat → PNBitStream → List PNAbbrevOp → Except Stop (List PNAbbrevOp × PNBitStream)
  | 0, _, _ => .error .fuel
  | fuel + 1, bs, ops =>
    if ops.length < numOps then do
      let (op, bs) ← readScalarOp bs
      match op with
      | .ok op => readAbbrevOps numOps fuel bs (ops ++ [op])
      | .error 3 => do
        let (elt, bs) ← readScalarOp bs
        match elt with
        | .ok elt => readAbbrevOps numOps fuel bs (ops ++ [.array, elt])
        | .error encoding => pnFatal "bad encoding for array element: %d\n" [encoding]
      | .error 5 => readAbbrevOps numOps fuel bs (ops ++ [.blob])
      | .error encoding => pnFatal "bad encoding: %d\n" [encoding]
    else .ok (ops, bs)

/-- `pn_abbrev_read`. -/
def pnAbbrevRead (bs : PNBitStream) : Except Stop (PNAbbrev × PNBitStream) := do
  let (numOps, bs) ← pnBitstreamReadVbr bs 5
  let (ops, bs) ← readAbbrevOps numOps (numOps + 1) bs []
  .ok (⟨ops⟩, bs)

/-- `pn_block_info_context_append_abbrev`. -/
def pnBlockInfoContextAppendAbbrev (context : PNBlockInfoContext) (blockId : Nat) (ab : PNAbbrev) :
    Except Stop PNBlockInfoContext := do
  pnCheck (blockId < PN_MAX_BLOCK_IDS) "block_id < PN_MAX_BLOCK_IDS"
  .ok { context with
    blockAbbrevMap := fun id =>
      if id = blockId then context.blockAbbrevMap id ++ [ab] else context.blockAbbrevMap id }

/-! ## The loop over the entries -/

/-- A block reader with the state `σ`. -/
structure PNBlockReader (σ : Type) where
  /-- At `PN_ENTRY_END_BLOCK`, with the alignment that ends the block. -/
  endBlock : σ → PNBitStream → Except Stop (σ × PNBitStream)
  /-- At `PN_ENTRY_SUBBLOCK`. -/
  subblock : σ → PNBitStream → Except Stop (σ × PNBitStream)
  /-- After `pn_abbrev_read` at `PN_ENTRY_DEFINE_ABBREV`. -/
  defineAbbrev : σ → PNAbbrev → Except Stop σ
  /-- A record, from its code to its end. -/
  record : σ → Nat → PNRecordReader → Except Stop (σ × PNBitStream)

section Loop

variable {σ : Type} (host : PNHost) (b : PNBlockReader σ)

/-- The loop of a block reader. -/
def readEntries (codelen : Nat) : Nat → σ → List PNAbbrev → PNBitStream → Except Stop (σ × PNBitStream)
  | 0, _, _, _ => .error .fuel
  | fuel + 1, s, abbrevs, bs =>
    if pnBitstreamAtEnd bs then pnFatal "Unexpected end of stream.\n" []
    else do
      let (entry, bs) ← pnBitstreamRead bs codelen
      if entry = pnEntryEndBlock then b.endBlock s bs
      else if entry = pnEntrySubblock then do
        let (s, bs) ← b.subblock s bs
        readEntries codelen fuel s abbrevs bs
      else if entry = pnEntryDefineAbbrev then do
        let (ab, bs) ← pnAbbrevRead bs
        let s ← b.defineAbbrev s ab
        readEntries codelen fuel s (abbrevs ++ [ab]) bs
      else do
        let (code, reader) ← pnRecordReadCode (pnRecordReaderInit bs abbrevs entry)
        let (s, bs) ← b.record s (code.getD (host.code bs.bitOffset)) reader
        readEntries codelen fuel s abbrevs bs

/-- A block: its header, then its entries. `abbrevs` are those that the block info gives to this kind of block. -/
def readBlock (fuel : Nat) (s : σ) (abbrevs : List PNAbbrev) (bs : PNBitStream) : Except Stop (σ × PNBitStream) := do
  let (codelen, bs) ← pnBitstreamReadVbr bs 4
  pnCheck (codelen ≤ 32) "codelen <= 32"
  let bs ← pnBitstreamAlign32 bs
  let (_, bs) ← pnBitstreamRead bs 32
  readEntries host b codelen fuel s abbrevs bs

/-- An invariant of a block reader, and what holds after the end of the block. -/
structure PNBlockReader.Keeps (P Q : σ → Prop) : Prop where
  endBlock : ∀ {s s' bs bs'}, P s → b.endBlock s bs = .ok (s', bs') → Q s'
  subblock : ∀ {s s' bs bs'}, P s → b.subblock s bs = .ok (s', bs') → P s'
  defineAbbrev : ∀ {s s' ab}, P s → b.defineAbbrev s ab = .ok s' → P s'
  record : ∀ {s s' code reader bs'}, P s → b.record s code reader = .ok (s', bs') → P s'

variable {host b} {P Q : σ → Prop}

theorem readEntries_inv (hk : b.Keeps P Q) {codelen : Nat} : ∀ {fuel : Nat} {s s' : σ} {abbrevs : List PNAbbrev}
    {bs bs' : PNBitStream}, P s → readEntries host b codelen fuel s abbrevs bs = .ok (s', bs') → Q s'
  | 0, _, _, _, _, _, _, h => by cases h
  | fuel + 1, s, s', abbrevs, bs, bs', hs, h => by
    rw [readEntries] at h
    split at h
    · cases h
    · obtain ⟨⟨entry, bs₁⟩, _, h⟩ := bind_eq_ok.mp h
      dsimp only at h
      split at h
      · exact hk.endBlock hs h
      split at h
      · obtain ⟨⟨s₁, bs₂⟩, hsub, h⟩ := bind_eq_ok.mp h
        exact readEntries_inv hk (hk.subblock hs hsub) h
      split at h
      · obtain ⟨⟨ab, bs₂⟩, _, h⟩ := bind_eq_ok.mp h
        obtain ⟨s₁, hdef, h⟩ := bind_eq_ok.mp h
        exact readEntries_inv hk (hk.defineAbbrev hs hdef) h
      · obtain ⟨⟨code, reader⟩, _, h⟩ := bind_eq_ok.mp h
        obtain ⟨⟨s₁, bs₂⟩, hrec, h⟩ := bind_eq_ok.mp h
        exact readEntries_inv hk (hk.record hs hrec) h

/-- What the parts of a block reader keep, the block keeps. -/
theorem readBlock_inv (hk : b.Keeps P Q) {fuel : Nat} {s s' : σ} {abbrevs : List PNAbbrev} {bs bs' : PNBitStream}
    (hs : P s) (h : readBlock host b fuel s abbrevs bs = .ok (s', bs')) : Q s' := by
  obtain ⟨⟨codelen, bs₁⟩, _, h⟩ := bind_eq_ok.mp h
  obtain ⟨_, h⟩ := pnCheck_bind_eq_ok.mp h
  obtain ⟨bs₂, _, h⟩ := bind_eq_ok.mp h
  obtain ⟨⟨_, bs₃⟩, _, h⟩ := bind_eq_ok.mp h
  exact readEntries_inv hk hs h

variable {τ : Type} {b' : PNBlockReader τ} {R S : σ → τ → Prop}

end Loop

end Pnacl
