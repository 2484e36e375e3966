import Pnacl.Opcodes

/-!
# The layout of the instruction stream

The blocks of a function lie one behind the other in its stream (`blockAddr`), and in a block its instructions and, behind
a branch, the phi table. `calculateOpcodes_branch` says what the executor finds at the end of a block that ends with a
branch: the instruction, and behind it the table.
-/

namespace Pnacl

open Lib

/-- The bytes of the instructions in the stream. -/
def instsSize (insts : List PNInstruction) : Nat := (insts.map PNInstruction.streamSize).sum

/-- The bytes of a block in the stream. -/
def PNBasicBlock.streamSize (bb : PNBasicBlock) : Nat :=
  instsSize bb.instructions +
    if bb.instructions.any PNInstruction.isBranch then 4 + 16 * bb.phiAssigns.length else 0

/-- The offset of the `n`th block. -/
def blockOffset (bbs : List PNBasicBlock) (n : Nat) : Nat := ((bbs.take n).map PNBasicBlock.streamSize).sum

/-- The address of the `n`th block in a stream at `base`. -/
def PNFunction.blockAddr (f : PNFunction) (base n : Nat) : Nat := base + blockOffset f.bbs n

/-- The address of the last instruction of the `n`th block. -/
def PNFunction.terminatorAddr (f : PNFunction) (base n : Nat) (bb : PNBasicBlock) : Nat :=
  f.blockAddr base n + instsSize bb.instructions.dropLast

/-- The offsets of the blocks from `offset` on. -/
def offsetsFrom : List PNBasicBlock → Nat → List Nat
  | [], _ => []
  | bb :: bbs, offset => offset :: offsetsFrom bbs (offset + bb.streamSize)

section Offsets

theorem offsetsFrom_getElem? : ∀ {bbs : List PNBasicBlock} {offset n : Nat}, n < bbs.length →
    (offsetsFrom bbs offset)[n]? = some (offset + blockOffset bbs n)
  | [], _, _, h => by cases h
  | bb :: bbs, offset, 0, _ => by simp [offsetsFrom, blockOffset]
  | bb :: bbs, offset, n + 1, h => by
    rw [offsetsFrom, List.getElem?_cons_succ, offsetsFrom_getElem? (Nat.lt_of_succ_lt_succ h)]
    simp [blockOffset, Nat.add_assoc]

theorem streamSize_mod (inst : PNInstruction) : inst.streamSize % 4 = 0 := by
  cases inst <;> simp only [PNInstruction.streamSize] <;> try split <;> omega
  all_goals omega

theorem instsSize_mod : ∀ insts : List PNInstruction, instsSize insts % 4 = 0
  | [] => rfl
  | inst :: insts => by
    have h₁ := streamSize_mod inst
    have h₂ := instsSize_mod insts
    simp only [instsSize, List.map_cons, List.sum_cons] at h₂ ⊢
    omega

theorem blockSize_mod (bb : PNBasicBlock) : bb.streamSize % 4 = 0 := by
  have := instsSize_mod bb.instructions
  unfold PNBasicBlock.streamSize
  split <;> omega

end Offsets

section Write

variable {host : PNHost} {module : PNModule} {f : PNFunction} {bbOffsets : List Nat} {write : Bool}

/-- What is written lies between the two offsets, in ascending order. -/
structure Laid (lo hi : Nat) (stream : PNIstream) : Prop where
  sorted : stream.Pairwise fun a b => a.1 < b.1
  lo : ∀ e ∈ stream, lo ≤ e.1
  hi : ∀ e ∈ stream, e.1 < hi

theorem Laid.nil (lo hi : Nat) : Laid lo hi [] := ⟨.nil, by simp, by simp⟩

theorem Laid.singleton {lo hi : Nat} (h : lo < hi) (i : PNRuntimeInstruction) : Laid lo hi [(lo, i)] :=
  ⟨List.pairwise_singleton _ _, by simp, by simpa using h⟩

theorem Laid.append {lo mid hi : Nat} {s t : PNIstream} (hs : Laid lo mid s) (ht : Laid mid hi t) (hlo : lo ≤ mid)
    (hhi : mid ≤ hi) : Laid lo hi (s ++ t) := by
  refine ⟨List.pairwise_append.mpr ⟨hs.sorted, ht.sorted, ?_⟩, ?_, ?_⟩
  · intro a ha b hb
    exact Nat.lt_of_lt_of_le (hs.hi a ha) (ht.lo b hb)
  · intro e he
    rcases List.mem_append.mp he with he | he
    · exact hs.lo e he
    · exact Nat.le_trans hlo (ht.lo e he)
  · intro e he
    rcases List.mem_append.mp he with he | he
    · exact Nat.lt_of_lt_of_le (hs.hi e he) hhi
    · exact ht.hi e he

/-- In ascending order there is one entry for an address. -/
theorem Laid.at {lo hi : Nat} {stream : PNIstream} (h : Laid lo hi stream) {a : Nat} {i : PNRuntimeInstruction}
    (hmem : (a, i) ∈ stream) : stream.at a = some i := by
  have hs := h.sorted
  clear h
  induction stream with
  | nil => cases hmem
  | cons e rest ih =>
    obtain ⟨hhead, htail⟩ := List.pairwise_cons.mp hs
    unfold PNIstream.at
    rcases List.mem_cons.mp hmem with rfl | hmem
    · exact List.lookup_cons_self
    · have hlt := hhead _ hmem
      rw [List.lookup_cons]
      have hne : (a == e.1) = false := by
        simp only [beq_eq_false_iff_ne, ne_eq]
        omega
      rw [hne]
      exact ih hmem htail

/-- What takes room in the stream is not empty. -/
theorem streamSize_pos {inst : PNInstruction} {i : PNRuntimeInstruction}
    (h : lowerInstruction host module f bbOffsets inst = .ok (some i)) : 0 < inst.streamSize := by
  cases inst with
  | phi d t incoming => cases h
  | forwardtyperef v t => cases h
  | ret valueId =>
    simp only [PNInstruction.streamSize]
    split <;> omega
  | br trueBb falseBb valueId =>
    simp only [PNInstruction.streamSize]
    split <;> omega
  | _ =>
    simp only [PNInstruction.streamSize]
    omega

/-- The instructions of a block, from `offset` on. -/
theorem writeInstructions_spec : ∀ {insts : List PNInstruction} {offset next : Nat} {stream : PNIstream},
    writeInstructions host module f bbOffsets write insts offset = .ok (next, stream) →
    next = offset + instsSize insts ∧ Laid offset next stream
  | [], offset, _, _, h => by
    cases h
    exact ⟨rfl, .nil _ _⟩
  | inst :: insts, offset, next, stream, h => by
    rw [writeInstructions] at h
    obtain ⟨stored, hst, h⟩ := bind_eq_ok.mp h
    obtain ⟨⟨next', stream'⟩, hrest, h⟩ := bind_eq_ok.mp h
    cases h
    obtain ⟨rfl, hlaid⟩ := writeInstructions_spec hrest
    refine ⟨by simp [instsSize, Nat.add_assoc], ?_⟩
    refine Laid.append ?_ hlaid (Nat.le_add_right _ _) (Nat.le_add_right _ _)
    cases stored with
    | none => exact .nil _ _
    | some i =>
      unfold storedInstruction at hst
      split at hst
      · exact .singleton (Nat.lt_add_of_pos_right (streamSize_pos hst)) i
      · cases hst

/-- The last instruction of a block is written behind the others. -/
theorem writeInstructions_last {last : PNInstruction} : ∀ {init : List PNInstruction} {offset next : Nat}
    {stream : PNIstream}, writeInstructions host module f bbOffsets true (init ++ [last]) offset = .ok (next, stream) →
    ∃ stored, lowerInstruction host module f bbOffsets last = .ok stored ∧
      ∀ i ∈ stored, (offset + instsSize init, i) ∈ stream
  | [], offset, next, stream, h => by
    obtain ⟨stored, hst, h⟩ := bind_eq_ok.mp h
    obtain ⟨⟨next', stream'⟩, _, h⟩ := bind_eq_ok.mp h
    cases h
    refine ⟨stored, hst, ?_⟩
    intro i hi
    cases hi
    simp [instsSize]
  | inst :: init, offset, next, stream, h => by
    rw [List.cons_append, writeInstructions] at h
    obtain ⟨stored, _, h⟩ := bind_eq_ok.mp h
    obtain ⟨⟨next', stream'⟩, hrest, h⟩ := bind_eq_ok.mp h
    cases h
    obtain ⟨stored', hst', hmem⟩ := writeInstructions_last hrest
    refine ⟨stored', hst', ?_⟩
    intro i hi
    have := hmem i hi
    rw [Nat.add_assoc] at this
    exact List.mem_append_right _ (by simpa [instsSize] using this)

/-- A block, from `offset` on. -/
theorem writeBlock_spec {bb : PNBasicBlock} {offset next : Nat} {stream : PNIstream}
    (h : pnBasicBlockWriteInstructionStream host module f bb bbOffsets offset write = .ok (next, stream)) :
    next = offset + bb.streamSize ∧ Laid offset next stream := by
  obtain ⟨⟨mid, s⟩, hi, h⟩ := bind_eq_ok.mp h
  obtain ⟨rfl, hlaid⟩ := writeInstructions_spec hi
  dsimp only at h
  split at h
  · next hb =>
    cases h
    have hsize : (bb.phiTable host bbOffsets).sizeof = 4 + 16 * bb.phiAssigns.length := by
      simp [PNBasicBlock.phiTable, PNRuntimeInstruction.sizeof]
    refine ⟨by rw [PNBasicBlock.streamSize, if_pos hb, hsize, Nat.add_assoc], ?_⟩
    split
    · exact hlaid.append (.singleton (by omega) _) (Nat.le_add_right _ _) (Nat.le_add_right _ _)
    · exact ⟨hlaid.sorted, hlaid.lo, fun e he => Nat.lt_of_lt_of_le (hlaid.hi e he) (Nat.le_add_right _ _)⟩
  · next hb =>
    cases h
    exact ⟨by rw [PNBasicBlock.streamSize, if_neg hb, Nat.add_zero], hlaid⟩

/-- The end of a block that ends with a branch. -/
theorem writeBlock_branch {bb : PNBasicBlock} {offset next : Nat} {stream : PNIstream} {init : List PNInstruction}
    {last : PNInstruction} (hinsts : bb.instructions = init ++ [last]) (hb : last.isBranch = true)
    (h : pnBasicBlockWriteInstructionStream host module f bb bbOffsets offset true = .ok (next, stream)) :
    ∃ stored, lowerInstruction host module f bbOffsets last = .ok stored ∧
      (∀ i ∈ stored, (offset + instsSize init, i) ∈ stream) ∧
      (offset + instsSize init + last.streamSize, bb.phiTable host bbOffsets) ∈ stream := by
  obtain ⟨⟨mid, s⟩, hi, h⟩ := bind_eq_ok.mp h
  obtain ⟨rfl, _⟩ := writeInstructions_spec hi
  rw [hinsts] at hi
  obtain ⟨stored, hst, hmem⟩ := writeInstructions_last hi
  dsimp only at h
  rw [if_pos (by simp [hinsts, hb])] at h
  cases h
  refine ⟨stored, hst, fun i hi => List.mem_append_left _ (hmem i hi), List.mem_append_right _ ?_⟩
  simp [hinsts, instsSize, Nat.add_assoc]

/-- The measuring pass adds up the sizes. -/
theorem measureBlocks_spec : ∀ {bbs : List PNBasicBlock} {offset last : Nat} {offsets : List Nat}, offset % 4 = 0 →
    offset < 2 ^ 32 → measureBlocks host module f bbs offset = .ok (offsets, last) →
    offsets = offsetsFrom bbs offset ∧ last = offset + blockOffset bbs bbs.length
  | [], offset, _, _, _, hlt, h => by
    cases h
    exact ⟨rfl, by simp [blockOffset]⟩
  | bb :: bbs, offset, last, offsets, hmod, hlt, h => by
    rw [measureBlocks, pnAlignUpPointer_self ⟨2, rfl⟩ (by omega) (Nat.dvd_of_mod_eq_zero hmod), ok_bind] at h
    obtain ⟨⟨next, s⟩, hb, h⟩ := bind_eq_ok.mp h
    obtain ⟨rfl, _⟩ := writeBlock_spec hb
    dsimp only at h
    split at h
    · cases h
    · obtain ⟨⟨offsets', last'⟩, hrest, h⟩ := bind_eq_ok.mp h
      cases h
      have hsize := blockSize_mod bb
      obtain ⟨rfl, rfl⟩ := measureBlocks_spec (by omega) (by omega) hrest
      refine ⟨rfl, ?_⟩
      simp [blockOffset, Nat.add_assoc]

/-- The writing pass: every block is written to its offset. -/
theorem writeBlocks_spec {base : Nat} : ∀ {bbs : List PNBasicBlock} {offset last : Nat} {stream : PNIstream},
    base + offset + blockOffset bbs bbs.length + 4 ≤ 2 ^ 64 →
    writeBlocks host module f bbOffsets bbs ((offsetsFrom bbs offset).map (base + ·)) (base + offset) = .ok (last, stream) →
    last = base + offset + blockOffset bbs bbs.length ∧ Laid (base + offset) last stream ∧
      ∀ {n : Nat} {bb : PNBasicBlock}, bbs[n]? = some bb → ∃ next s,
        pnBasicBlockWriteInstructionStream host module f bb bbOffsets (base + offset + blockOffset bbs n) true =
          .ok (next, s) ∧ ∀ e ∈ s, e ∈ stream
  | [], offset, last, stream, _, h => by
    cases h
    exact ⟨by simp [blockOffset], .nil _ _, fun hn => by cases hn⟩
  | bb :: bbs, offset, last, stream, hle, h => by
    have hsum : blockOffset (bb :: bbs) (bb :: bbs).length = bb.streamSize + blockOffset bbs bbs.length := by
      simp [blockOffset]
    rw [hsum] at hle ⊢
    rw [offsetsFrom, List.map_cons, writeBlocks] at h
    obtain ⟨o, _, h⟩ := bind_eq_ok.mp h
    obtain ⟨rfl, h⟩ := pnCheck_bind_eq_ok.mp h
    obtain ⟨⟨next, s⟩, hb, h⟩ := bind_eq_ok.mp h
    obtain ⟨⟨last', more⟩, hrest, h⟩ := bind_eq_ok.mp h
    cases h
    obtain ⟨rfl, hlaid⟩ := writeBlock_spec hb
    rw [Nat.add_assoc base offset bb.streamSize] at hrest
    obtain ⟨rfl, hlaid', hblocks⟩ := writeBlocks_spec (by omega) hrest
    refine ⟨by omega, ?_, ?_⟩
    · refine hlaid.append ?_ (by omega) (by omega)
      rw [Nat.add_assoc base offset bb.streamSize]
      exact hlaid'
    · intro n b hn
      cases n with
      | zero =>
        cases hn
        exact ⟨_, s, by simpa [blockOffset] using hb, fun e he => List.mem_append_left _ he⟩
      | succ n =>
        obtain ⟨next, s', hs', hmem⟩ := hblocks hn
        refine ⟨next, s', ?_, fun e he => List.mem_append_right _ (hmem e he)⟩
        have hoff : base + offset + blockOffset (bb :: bbs) (n + 1) = base + (offset + bb.streamSize) + blockOffset bbs n := by
          simp only [blockOffset, List.take_succ_cons, List.map_cons, List.sum_cons]
          omega
        rw [hoff]
        exact hs'

/-- Every block is written to its address. -/
theorem calculateOpcodes_block {f' : PNFunction} {base : Nat} (hbase : base + 2 ^ 32 ≤ 2 ^ 64)
    (h : pnFunctionCalculateOpcodes host module f base = .ok f') :
    ∃ stream offsets, f' = { f with instructions := some (base, stream) } ∧
      (∀ n, n < f.bbs.length → offsets[n]? = some (f.blockAddr base n)) ∧
      ∀ {n : Nat} {bb : PNBasicBlock}, f.bbs[n]? = some bb → ∃ next s,
        pnBasicBlockWriteInstructionStream host module f bb offsets (f.blockAddr base n) true = .ok (next, s) ∧
          ∀ e ∈ s, stream.at e.1 = some e.2 := by
  obtain ⟨⟨offsets, last⟩, hm, h⟩ := bind_eq_ok.mp h
  dsimp only at h
  split at h
  · cases h
  · next hsize =>
    obtain ⟨⟨last', stream⟩, hw, h⟩ := bind_eq_ok.mp h
    cases h
    obtain ⟨rfl, rfl⟩ := measureBlocks_spec rfl (by decide) hm
    have htrap : trapInstruction.sizeof = 16 := rfl
    have hle : base + 0 + blockOffset f.bbs f.bbs.length + 4 ≤ 2 ^ 64 := by omega
    obtain ⟨rfl, hlaid, hblocks⟩ := writeBlocks_spec hle hw
    have hfull := hlaid.append (.singleton (Nat.lt_succ_self _) trapInstruction) (by omega) (Nat.le_succ _)
    refine ⟨_, (offsetsFrom f.bbs 0).map (base + ·), rfl, ?_, ?_⟩
    · intro n hn
      rw [List.getElem?_map, offsetsFrom_getElem? hn]
      simp [PNFunction.blockAddr]
    · intro n bb hn
      obtain ⟨next, s, hs, hmem⟩ := hblocks hn
      exact ⟨next, s, hs, fun e he => hfull.at (List.mem_append_left _ (hmem e he))⟩

/-- **At the end of a block that ends with a branch, the stream holds the branch and behind it the phi table.** -/
theorem calculateOpcodes_branch {f' : PNFunction} {base : Nat} (hbase : base + 2 ^ 32 ≤ 2 ^ 64)
    (h : pnFunctionCalculateOpcodes host module f base = .ok f') :
    ∃ stream offsets, f' = { f with instructions := some (base, stream) } ∧
      (∀ n, n < f.bbs.length → offsets[n]? = some (f.blockAddr base n)) ∧
      ∀ {n : Nat} {bb : PNBasicBlock} {last : PNInstruction}, f.bbs[n]? = some bb → bb.instructions.getLast? = some last →
        last.isBranch = true →
        ∃ stored, lowerInstruction host module f offsets last = .ok stored ∧
          (∀ i ∈ stored, stream.at (f.terminatorAddr base n bb) = some i) ∧
          stream.at (f.terminatorAddr base n bb + last.streamSize) = some (bb.phiTable host offsets) := by
  obtain ⟨stream, offsets, hf', hoffsets, hblocks⟩ := calculateOpcodes_block hbase h
  refine ⟨stream, offsets, hf', hoffsets, fun {n bb last} hn hlast hb => ?_⟩
  obtain ⟨next, s, hs, hat⟩ := hblocks hn
  have hinsts : bb.instructions = bb.instructions.dropLast ++ [last] := by
    obtain ⟨ys, hys⟩ := List.getLast?_eq_some_iff.mp hlast
    rw [hys, List.dropLast_concat]
  obtain ⟨stored, hst, hstored, htable⟩ := writeBlock_branch hinsts hb hs
  exact ⟨stored, hst, fun i hi => hat _ (hstored i hi), hat _ htable⟩

end Write

end Pnacl
