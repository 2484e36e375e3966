import Pnacl.Decode

/-!
# The two layout passes

The measuring pass and the writing pass go through the blocks with the same steps, so every block is written where it was
measured, the stream ends where the buffer does, and the address of a block that an instruction names is the address at which
that block starts (`layout_passes_agree`).
-/

namespace Pnacl

open Lib

/-- The addresses in an instruction of the stream that lead to blocks. -/
def PNRuntimeInstruction.targets : PNRuntimeInstruction → List Nat
  | .br inst => [inst]
  | .brInt1 _ trueInst falseInst => [trueInst, falseInst]
  | .switch _ _ defaultInst _ cases => defaultInst :: cases.map PNRuntimeSwitchCase.inst
  | .phiTable _ _ phiAssigns => phiAssigns.map PNRuntimePhiAssign.inst
  | _ => []

/-- The blocks that an instruction names. -/
def PNInstruction.branchTargets : PNInstruction → List Nat
  | .br trueBb falseBb valueId => if valueId ≠ PN_INVALID_VALUE_ID then [trueBb, falseBb.getD PN_INVALID_BB_ID] else [trueBb]
  | .switch _ _ defaultBb cases _ => defaultBb :: cases.map PNSwitchCase.bb
  | _ => []

/-- The blocks that are named exist. -/
structure PNFunction.TargetsInRange (f : PNFunction) : Prop where
  insts : ∀ bb ∈ f.bbs, ∀ inst ∈ bb.instructions, ∀ t ∈ inst.branchTargets, f.HasBb t
  phis : ∀ bb ∈ f.bbs, ∀ a ∈ bb.phiAssigns, f.HasBb a.bbId

/-- `istream_size`. -/
def PNFunction.istreamSize (f : PNFunction) : Nat := blockOffset f.bbs f.bbs.length + trapInstruction.sizeof

/-- What is written for block `n`: its instructions at their addresses, and behind them the phi table if there is a branch; all
targets are the addresses of the blocks that are named. -/
structure BlockPlaced (f : PNFunction) (base n : Nat) (bb : PNBasicBlock) (s : PNIstream) : Prop where
  pieces : ∃ insts table, s = insts ++ table ∧
    List.Forall₂ (fun e i => e.1 = i.1 ∧ e.2.targets = i.2.branchTargets.map (f.bbAddr base)) insts
      (storedAt (f.blockAddr base n) bb.instructions) ∧
    if bb.instructions.any PNInstruction.isBranch then
      ∃ t, table = [(f.blockAddr base n + instsSize bb.instructions, t)] ∧
        t.targets = bb.phiAssigns.map fun a => f.bbAddr base a.bbId
    else table = []
  bounds : ∀ e ∈ s, f.blockAddr base n ≤ e.1 ∧ e.1 + e.2.sizeof ≤ f.blockAddr base n + bb.streamSize

/-! ## The steps of both passes -/

section Steps

variable {host : PNHost} {module : PNModule} {f : PNFunction} {base : Nat} {offsets : List Nat}

theorem measureInstructions : ∀ (insts : List PNInstruction) (offset : Nat),
    writeInstructions host module f offsets false insts offset = .ok (offset + instsSize insts, [])
  | [], _ => rfl
  | inst :: insts, offset => by
    rw [writeInstructions, storedInstruction, if_neg Bool.false_ne_true, ok_bind, measureInstructions insts, ok_bind]
    simp [instsSize, Nat.add_assoc]

/-- Measuring a block succeeds, and stores nothing. -/
theorem measureBlock (bb : PNBasicBlock) (offset : Nat) :
    pnBasicBlockWriteInstructionStream host module f bb offsets offset false = .ok (offset + bb.streamSize, []) := by
  rw [pnBasicBlockWriteInstructionStream, measureInstructions, ok_bind, PNBasicBlock.streamSize]
  dsimp only
  split
  · simp [PNBasicBlock.phiTable, PNRuntimeInstruction.sizeof, Nat.add_assoc]
  · rfl

theorem blockOffset_cons (bb : PNBasicBlock) (bbs : List PNBasicBlock) :
    blockOffset (bb :: bbs) (bb :: bbs).length = bb.streamSize + blockOffset bbs bbs.length := by
  simp [blockOffset]

/-- So does measuring all blocks. -/
theorem measureBlocks_ok : ∀ {bbs : List PNBasicBlock} {offset : Nat}, offset % 4 = 0 →
    offset + blockOffset bbs bbs.length < 2 ^ 32 →
    measureBlocks host module f bbs offset = .ok (offsetsFrom bbs offset, offset + blockOffset bbs bbs.length)
  | [], offset, _, _ => by simp [measureBlocks, offsetsFrom, blockOffset]
  | bb :: bbs, offset, hmod, hlt => by
    rw [blockOffset_cons] at hlt ⊢
    have hsize := blockSize_mod bb
    rw [measureBlocks, pnAlignUpPointer_self ⟨2, rfl⟩ (by omega) (Nat.dvd_of_mod_eq_zero hmod), ok_bind, measureBlock, ok_bind]
    dsimp only
    rw [if_neg (by omega), measureBlocks_ok (by omega) (by omega), ok_bind]
    simp [offsetsFrom, Nat.add_assoc]

/-- What is stored has the size that is added. -/
theorem Lowered.sizeof {inst : PNInstruction} {r : PNRuntimeInstruction} (h : Lowered host offsets inst (some r)) :
    r.sizeof = inst.streamSize := by
  cases h with
  | retValue h => simp [PNRuntimeInstruction.sizeof, PNInstruction.streamSize, h]
  | brInt1 h => simp [PNRuntimeInstruction.sizeof, PNInstruction.streamSize, h]
  | switch => simp [PNRuntimeInstruction.sizeof, PNInstruction.streamSize]
  | _ => rfl

/-- The targets are the addresses of the blocks. -/
theorem Lowered.targets {inst : PNInstruction} {r : PNRuntimeInstruction}
    (ho : ∀ n, n < f.bbs.length → offsets[n]? = some (f.blockAddr base n)) (h : Lowered host offsets inst (some r))
    (ht : ∀ t ∈ inst.branchTargets, f.HasBb t) : r.targets = inst.branchTargets.map (f.bbAddr base) := by
  have hmap : ∀ {l : List Nat}, (∀ t ∈ l, f.HasBb t) → l.map (bbOffsetAt host offsets) = l.map (f.bbAddr base) :=
    fun hl => List.map_congr_left fun t ht => bbOffsetAt_eq ho (hl t ht)
  cases h with
  | br => exact hmap ht
  | brInt1 hid =>
    rw [PNInstruction.branchTargets, if_pos hid] at ht ⊢
    exact hmap ht
  | switch =>
    rw [← hmap ht]
    simp [PNRuntimeInstruction.targets, PNInstruction.branchTargets]
  | _ => rfl

theorem storedAt_bounds : ∀ {insts : List PNInstruction} {offset : Nat}, ∀ i ∈ storedAt offset insts,
    offset ≤ i.1 ∧ i.1 + i.2.streamSize ≤ offset + instsSize insts ∧ i.2 ∈ insts
  | [], _, _, h => by cases h
  | inst :: insts, offset, i, h => by
    have hsize : instsSize (inst :: insts) = inst.streamSize + instsSize insts := by simp [instsSize]
    rw [storedAt] at h
    rcases List.mem_append.mp h with h | h
    · split at h
      · obtain rfl := List.mem_singleton.mp h
        exact ⟨Nat.le_refl _, by dsimp only; omega, List.mem_cons_self ..⟩
      · cases h
    · obtain ⟨h₁, h₂, h₃⟩ := storedAt_bounds i h
      exact ⟨by omega, by omega, List.mem_cons_of_mem _ h₃⟩

theorem forall₂_mem_left {α β : Type} {R : α → β → Prop} {l : List α} {l' : List β} (h : List.Forall₂ R l l') {a : α}
    (ha : a ∈ l) : ∃ b ∈ l', R a b := by
  induction h with
  | nil => cases ha
  | cons hab _ ih =>
    rcases List.mem_cons.mp ha with rfl | ha
    · exact ⟨_, List.mem_cons_self .., hab⟩
    · obtain ⟨b, hb, hr⟩ := ih ha
      exact ⟨b, List.mem_cons_of_mem _ hb, hr⟩

theorem forall₂_imp_mem {α β : Type} {R S : α → β → Prop} {l : List α} {l' : List β} (h : List.Forall₂ R l l')
    (hS : ∀ a b, b ∈ l' → R a b → S a b) : List.Forall₂ S l l' := by
  induction h with
  | nil => exact .nil
  | cons hab _ ih => exact .cons (hS _ _ (List.mem_cons_self ..) hab) (ih fun a b hb => hS a b (List.mem_cons_of_mem _ hb))

/-- A block that is written at its address is placed. -/
theorem writeBlock_placed {n next : Nat} {bb : PNBasicBlock} {s : PNIstream}
    (ho : ∀ n, n < f.bbs.length → offsets[n]? = some (f.blockAddr base n)) (hr : f.TargetsInRange) (hbb : bb ∈ f.bbs)
    (h : pnBasicBlockWriteInstructionStream host module f bb offsets (f.blockAddr base n) true = .ok (next, s)) :
    BlockPlaced f base n bb s := by
  obtain ⟨⟨mid, insts⟩, hi, h⟩ := bind_eq_ok.mp h
  obtain ⟨rfl, -⟩ := writeInstructions_spec hi
  have hstored := writeInstructions_stored hi
  have hsound : ∀ e i, i ∈ storedAt (f.blockAddr base n) bb.instructions → Stored host offsets e i →
      e.1 = i.1 ∧ e.2.targets = i.2.branchTargets.map (f.bbAddr base) := by
    intro e i hmem hst
    exact ⟨hst.1, hst.2.targets ho (hr.insts bb hbb i.2 (storedAt_bounds i hmem).2.2)⟩
  have htargets : List.Forall₂ (fun e i => e.1 = i.1 ∧ e.2.targets = i.2.branchTargets.map (f.bbAddr base)) insts
      (storedAt (f.blockAddr base n) bb.instructions) :=
    forall₂_imp_mem hstored hsound
  have hinsts : ∀ e ∈ insts, f.blockAddr base n ≤ e.1 ∧ e.1 + e.2.sizeof ≤ f.blockAddr base n + instsSize bb.instructions := by
    intro e he
    obtain ⟨i, hmem, heq, hlow⟩ := forall₂_mem_left hstored he
    obtain ⟨h₁, h₂, -⟩ := storedAt_bounds i hmem
    rw [heq, hlow.sizeof]
    exact ⟨h₁, h₂⟩
  dsimp only at h
  split at h
  · rename_i hbranch
    obtain ⟨rfl, rfl⟩ := Prod.mk.inj (Except.ok.inj h)
    have hsize : bb.streamSize = instsSize bb.instructions + (4 + 16 * bb.phiAssigns.length) := by
      rw [PNBasicBlock.streamSize, if_pos hbranch]
    refine ⟨⟨insts, [(f.blockAddr base n + instsSize bb.instructions, bb.phiTable host offsets)], rfl, htargets, ?_⟩, ?_⟩
    · rw [if_pos hbranch]
      refine ⟨_, rfl, ?_⟩
      rw [PNBasicBlock.phiTable, PNRuntimeInstruction.targets, List.map_map]
      exact List.map_congr_left fun a ha => bbOffsetAt_eq ho (hr.phis bb hbb a ha)
    · intro e he
      rcases List.mem_append.mp he with he | he
      · obtain ⟨h₁, h₂⟩ := hinsts e he
        exact ⟨h₁, by omega⟩
      · obtain rfl := List.mem_singleton.mp he
        have htable : (bb.phiTable host offsets).sizeof = 4 + 16 * bb.phiAssigns.length := by
          simp [PNBasicBlock.phiTable, PNRuntimeInstruction.sizeof]
        dsimp only
        omega
  · rename_i hbranch
    obtain ⟨rfl, rfl⟩ := Prod.mk.inj (Except.ok.inj h)
    have hsize : bb.streamSize = instsSize bb.instructions := by
      rw [PNBasicBlock.streamSize, if_neg hbranch, Nat.add_zero]
    refine ⟨⟨insts, [], (List.append_nil _).symm, htargets, ?_⟩, ?_⟩
    · rw [if_neg hbranch]
    · rw [hsize]
      exact hinsts

/-- The stream is what is written for the blocks, one behind the other. -/
theorem writeBlocks_pieces : ∀ {bbs : List PNBasicBlock} {offset last : Nat} {stream : PNIstream},
    writeBlocks host module f offsets bbs ((offsetsFrom bbs offset).map (base + ·)) (base + offset) = .ok (last, stream) →
    ∃ pieces : List PNIstream, stream = pieces.flatten ∧ pieces.length = bbs.length ∧
      ∀ {n : Nat} {bb : PNBasicBlock} {s : PNIstream}, bbs[n]? = some bb → pieces[n]? = some s → ∃ next,
        pnBasicBlockWriteInstructionStream host module f bb offsets (base + offset + blockOffset bbs n) true = .ok (next, s)
  | [], offset, last, stream, h => by
    cases h
    exact ⟨[], rfl, rfl, fun hn => by cases hn⟩
  | bb :: bbs, offset, last, stream, h => by
    rw [offsetsFrom, List.map_cons, writeBlocks] at h
    obtain ⟨o, _, h⟩ := bind_eq_ok.mp h
    obtain ⟨rfl, h⟩ := pnCheck_bind_eq_ok.mp h
    obtain ⟨⟨next, s⟩, hb, h⟩ := bind_eq_ok.mp h
    obtain ⟨⟨last', more⟩, hrest, h⟩ := bind_eq_ok.mp h
    cases h
    obtain ⟨rfl, -⟩ := writeBlock_spec hb
    rw [Nat.add_assoc base offset bb.streamSize] at hrest
    obtain ⟨pieces, rfl, hlen, hpieces⟩ := writeBlocks_pieces hrest
    refine ⟨s :: pieces, rfl, by rw [List.length_cons, List.length_cons, hlen], ?_⟩
    intro n b s' hn hs'
    cases n with
    | zero =>
      cases hn
      cases hs'
      exact ⟨_, by simpa [blockOffset] using hb⟩
    | succ n =>
      obtain ⟨next, hnext⟩ := hpieces hn hs'
      have hoff : base + offset + blockOffset (bb :: bbs) (n + 1) = base + (offset + bb.streamSize) + blockOffset bbs n := by
        simp only [blockOffset, List.take_succ_cons, List.map_cons, List.sum_cons]
        omega
      rw [hoff]
      exact ⟨next, hnext⟩

end Steps

/-! ## The check of the offsets -/

section Check

variable {host : PNHost} {module : PNModule} {f : PNFunction} {offsets : List Nat}

/-- The reason that the writing pass would have to stop if the passes did not agree. -/
def LayoutDiffers (e : Stop) : Prop := e = .check "offset == bb_offsets[n]"

/-- Storing an instruction takes no fuel, and does not compare offsets. -/
def NotLowering (e : Stop) : Prop := e = .fuel ∨ LayoutDiffers e

theorem not_lowering_check {c : String} (hc : c ≠ "offset == bb_offsets[n]") : ¬NotLowering (.check c) :=
  fun h => h.elim nofun fun he => hc (Stop.check.inj he)

theorem not_lowering_fatal {α : Type} {format : String} {args : List Int} {Q : α → Prop} :
    Avoids NotLowering (pnFatal format args) Q := .error nofun

theorem getValue_avoids {id : Nat} : Avoids NotLowering (pnFunctionGetValue module f id) fun _ => True := by
  unfold pnFunctionGetValue
  split
  · exact .ok trivial
  · exact not_lowering_fatal

theorem basicTypeOf_avoids {id : Nat} : Avoids NotLowering (basicTypeOf host module f id) fun _ => True :=
  getValue_avoids.bind fun _ _ => .ok trivial

theorem ifType_avoids {name : String} {types : List PNBasicType} {t : PNBasicType} {opcode : PNBasicType → PNOpcode} :
    Avoids NotLowering (ifType name types t opcode) fun _ => True := by
  unfold ifType
  split
  · exact .ok trivial
  · exact not_lowering_fatal

theorem pnCheck_avoids {α : Type} {p : Prop} [Decidable p] {c : String} {k : Unit → Except Stop α}
    (hc : c ≠ "offset == bb_offsets[n]") (hk : Avoids NotLowering (k ()) fun _ => True) :
    Avoids NotLowering (pnCheck p c >>= k) fun _ => True := by
  by_cases hp : p
  · rw [pnCheck_bind hp]
    exact hk
  · rw [pnCheck_bind_neg hp]
    exact .error (not_lowering_check hc)

theorem callOpcode_avoids {calleeId : Nat} {argIds : List Nat} {isIndirect : Bool} :
    Avoids NotLowering (callOpcode host module f calleeId argIds isIndirect) fun _ => True := by
  unfold callOpcode
  split
  · exact .ok trivial
  refine getValue_avoids.bind fun callee _ => ?_
  split
  · split
    · exact .error nofun
    · split
      · exact .ok trivial
      · refine pnCheck_avoids (by decide) ?_
        refine getValue_avoids.bind fun value _ => ?_
        split
        · split
          · exact .error nofun
          · refine pnCheck_avoids (by decide) ?_
            split <;> first | exact .ok trivial | exact .error nofun
        · exact .error (not_lowering_check (by decide))
      · exact .ok trivial
  · exact .error nofun

/-- Storing an instruction may fail, but not for this reason. -/
theorem lowerInstruction_avoids (inst : PNInstruction) :
    Avoids NotLowering (lowerInstruction host module f offsets inst) fun _ => True := by
  cases inst with
  | binop resultValueId value0Id value1Id opcode flags =>
    refine basicTypeOf_avoids.bind fun t0 _ => basicTypeOf_avoids.bind fun t1 _ => ?_
    split
    · exact not_lowering_fatal
    · refine Avoids.bind (Q := fun _ => True) ?_ fun _ _ => .ok trivial
      unfold binopOpcode
      split
      · exact ifType_avoids.bind fun _ _ => .ok trivial
      · exact .ok trivial
  | cast resultValueId valueId opcode typeId =>
    refine basicTypeOf_avoids.bind fun t0 _ => ?_
    refine Avoids.bind (Q := fun _ => True) ?_ fun _ _ => .ok trivial
    unfold castOpcode
    split
    · dsimp only
      split
      · exact .ok trivial
      · exact not_lowering_fatal
    · exact .ok trivial
  | ret valueId => exact .ok trivial
  | br trueBb falseBb valueId =>
    rw [lowerInstruction]
    split
    · exact basicTypeOf_avoids.bind fun t0 _ => ifType_avoids.bind fun _ _ => .ok trivial
    · exact .ok trivial
  | switch typeId valueId defaultBb cases caseBbs =>
    exact basicTypeOf_avoids.bind fun t0 _ => ifType_avoids.bind fun _ _ => .ok trivial
  | unreachable => exact .ok trivial
  | phi resultValueId typeId incoming => exact .ok trivial
  | alloca resultValueId sizeId alignment =>
    exact basicTypeOf_avoids.bind fun t0 _ => ifType_avoids.bind fun _ _ => .ok trivial
  | load resultValueId srcId alignment typeId =>
    refine basicTypeOf_avoids.bind fun t0 _ => ?_
    split
    · exact not_lowering_fatal
    · exact ifType_avoids.bind fun _ _ => .ok trivial
  | store destId valueId alignment =>
    refine basicTypeOf_avoids.bind fun t0 _ => basicTypeOf_avoids.bind fun t1 _ => ?_
    split
    · exact not_lowering_fatal
    · exact ifType_avoids.bind fun _ _ => .ok trivial
  | cmp2 resultValueId value0Id value1Id opcode =>
    refine basicTypeOf_avoids.bind fun t0 _ => basicTypeOf_avoids.bind fun t1 _ => ?_
    split
    · exact not_lowering_fatal
    · refine Avoids.bind (Q := fun _ => True) ?_ fun _ _ => .ok trivial
      unfold cmp2Opcode
      split
      · exact ifType_avoids.bind fun _ _ => .ok trivial
      · exact .ok trivial
  | vselect resultValueId condId trueValueId falseValueId =>
    refine basicTypeOf_avoids.bind fun t0 _ => basicTypeOf_avoids.bind fun t1 _ => basicTypeOf_avoids.bind fun t2 _ => ?_
    split
    · exact not_lowering_fatal
    · split
      · exact not_lowering_fatal
      · exact .ok trivial
  | forwardtyperef valueId typeId => exact .ok trivial
  | call resultValueId cc calleeId argIds returnTypeId isIndirect isTailCall =>
    exact callOpcode_avoids.bind fun _ _ => .ok trivial

theorem writeInstructions_avoids : ∀ (insts : List PNInstruction) (offset : Nat),
    Avoids NotLowering (writeInstructions host module f offsets true insts offset) fun _ => True
  | [], _ => .ok trivial
  | inst :: insts, offset => by
    rw [writeInstructions, storedInstruction, if_pos rfl]
    exact (lowerInstruction_avoids inst).bind fun _ _ => (writeInstructions_avoids insts _).bind fun _ _ => .ok trivial

theorem writeBlock_avoids (bb : PNBasicBlock) (offset : Nat) :
    Avoids NotLowering (pnBasicBlockWriteInstructionStream host module f bb offsets offset true) fun _ => True := by
  refine (writeInstructions_avoids bb.instructions offset).bind fun x _ => ?_
  obtain ⟨mid, s⟩ := x
  dsimp only
  split
  · exact .ok trivial
  · exact .ok trivial

/-- **The check of the writing pass never fails**: every block begins where it was measured. -/
theorem writeBlocks_avoids {base : Nat} (hbase : base % 4 = 0) : ∀ {bbs : List PNBasicBlock} {offset : Nat}, offset % 4 = 0 →
    base + offset + blockOffset bbs bbs.length + 4 ≤ 2 ^ 64 →
    Avoids LayoutDiffers
      (writeBlocks host module f offsets bbs ((offsetsFrom bbs offset).map (base + ·)) (base + offset)) fun _ => True
  | [], _, _, _ => .ok trivial
  | bb :: bbs, offset, hmod, hle => by
    rw [blockOffset_cons] at hle
    have hsize := blockSize_mod bb
    rw [offsetsFrom, List.map_cons, writeBlocks, pnAlignUpPointer_self ⟨2, rfl⟩ (by omega) (by omega), ok_bind, pnCheck_bind rfl]
    refine Avoids.bind_ok (fun e he hd => (writeBlock_avoids bb _).2 e he (.inr hd)) fun x hx => ?_
    obtain ⟨next, s⟩ := x
    obtain ⟨rfl, -⟩ := writeBlock_spec hx
    dsimp only
    rw [Nat.add_assoc base offset bb.streamSize]
    exact (writeBlocks_avoids hbase (by omega) (by omega)).bind fun _ _ => .ok trivial

end Check

section Layout

variable {bbs : List PNBasicBlock} {n : Nat} {bb : PNBasicBlock}

theorem blockOffset_succ (h : bbs[n]? = some bb) : blockOffset bbs (n + 1) = blockOffset bbs n + bb.streamSize := by
  rw [blockOffset, blockOffset, List.take_add_one, h]
  simp

theorem blockOffset_le (n : Nat) : blockOffset bbs n ≤ blockOffset bbs bbs.length := by
  have hsplit := List.take_append_drop n bbs
  have hsum : (bbs.map PNBasicBlock.streamSize).sum = blockOffset bbs n + ((bbs.drop n).map PNBasicBlock.streamSize).sum := by
    rw [blockOffset, ← List.sum_append, ← List.map_append, hsplit]
  rw [blockOffset, blockOffset] at *
  rw [List.take_length, hsum]
  exact Nat.le_add_right _ _

/-- Where the measuring pass succeeds, the stream is that of the writing pass, with the trap instruction. -/
theorem calculateOpcodes_eq {host : PNHost} {module : PNModule} {f : PNFunction} (base : Nat)
    (hsize : blockOffset f.bbs f.bbs.length + trapInstruction.sizeof < 2 ^ 32) :
    pnFunctionCalculateOpcodes host module f base =
      (writeBlocks host module f ((offsetsFrom f.bbs 0).map (base + ·)) f.bbs ((offsetsFrom f.bbs 0).map (base + ·))
        (base + 0) >>= fun x => .ok { f with instructions := some (base, x.2 ++ [(x.1, trapInstruction)]) }) := by
  have hmeasure : measureBlocks host module f f.bbs 0 = .ok (offsetsFrom f.bbs 0, 0 + blockOffset f.bbs f.bbs.length) :=
    measureBlocks_ok rfl (by omega)
  rw [pnFunctionCalculateOpcodes, hmeasure, ok_bind]
  dsimp only
  rw [if_neg (by omega)]
  cases writeBlocks host module f ((offsetsFrom f.bbs 0).map (base + ·)) f.bbs ((offsetsFrom f.bbs 0).map (base + ·)) base <;>
    rfl

end Layout

/-- **The two passes agree**: the measuring pass gives the offsets at which the writing pass writes the blocks, its check never
fails, nothing is written outside the stream, the trap instruction ends where the stream does, and every target is the address at
which the named block starts. -/
theorem layout_passes_agree (host : PNHost) (module : PNModule) (f : PNFunction) (base : Nat) (halign : base % 8 = 0)
    (hbase : base + f.istreamSize ≤ 2 ^ 64) (hsize : f.istreamSize < 2 ^ 31) (hr : f.TargetsInRange) :
    measureBlocks host module f f.bbs 0 = .ok (offsetsFrom f.bbs 0, blockOffset f.bbs f.bbs.length) ∧
      (∀ bb offsets offset offset' next s,
        pnBasicBlockWriteInstructionStream host module f bb offsets offset' true = .ok (next, s) →
        ∃ size, pnBasicBlockWriteInstructionStream host module f bb [] offset false = .ok (offset + size, []) ∧
          next = offset' + size) ∧
      pnFunctionCalculateOpcodes host module f base ≠ .error (.check "offset == bb_offsets[n]") ∧
      ∀ f', pnFunctionCalculateOpcodes host module f base = .ok f' → ∃ (pieces : List PNIstream) (trapAddr : Nat),
        f'.instructions = some (base, pieces.flatten ++ [(trapAddr, trapInstruction)]) ∧
        trapAddr + trapInstruction.sizeof = base + f.istreamSize ∧
        (∀ e ∈ pieces.flatten ++ [(trapAddr, trapInstruction)], base ≤ e.1 ∧ e.1 + e.2.sizeof ≤ base + f.istreamSize) ∧
        pieces.length = f.bbs.length ∧
        ∀ {n : Nat} {bb : PNBasicBlock} {s : PNIstream}, f.bbs[n]? = some bb → pieces[n]? = some s → BlockPlaced f base n bb s := by
  have htrap : trapInstruction.sizeof = 16 := rfl
  rw [PNFunction.istreamSize, htrap] at hbase hsize ⊢
  have hmeasure : measureBlocks host module f f.bbs 0 = .ok (offsetsFrom f.bbs 0, 0 + blockOffset f.bbs f.bbs.length) :=
    measureBlocks_ok rfl (by omega)
  rw [Nat.zero_add] at hmeasure
  have hcalc := @calculateOpcodes_eq host module f base (by omega)
  refine ⟨hmeasure, ?_, ?_, ?_⟩
  · intro bb offsets offset offset' next s h
    exact ⟨bb.streamSize, measureBlock bb offset, (writeBlock_spec h).1⟩
  · rw [hcalc]
    have havoids : Avoids LayoutDiffers (writeBlocks host module f ((offsetsFrom f.bbs 0).map (base + ·)) f.bbs
        ((offsetsFrom f.bbs 0).map (base + ·)) (base + 0)) fun _ => True := writeBlocks_avoids (by omega) rfl (by omega)
    intro herror
    cases hw : writeBlocks host module f ((offsetsFrom f.bbs 0).map (base + ·)) f.bbs
        ((offsetsFrom f.bbs 0).map (base + ·)) (base + 0) with
    | ok x =>
      rw [hw] at herror
      cases herror
    | error e =>
      rw [hw] at herror
      exact havoids.2 e hw (Except.error.inj herror)
  · intro f' hok
    rw [hcalc] at hok
    obtain ⟨⟨last, stream⟩, hw, hok⟩ := bind_eq_ok.mp hok
    obtain rfl := Except.ok.inj hok
    obtain ⟨rfl, -, -⟩ := writeBlocks_spec (by omega) hw
    obtain ⟨pieces, rfl, hlen, hpieces⟩ := writeBlocks_pieces hw
    have hoffsets : ∀ n, n < f.bbs.length → ((offsetsFrom f.bbs 0).map (base + ·))[n]? = some (f.blockAddr base n) := by
      intro n hn
      rw [List.getElem?_map, offsetsFrom_getElem? hn, Nat.zero_add]
      rfl
    have hplaced : ∀ {n : Nat} {bb : PNBasicBlock} {s : PNIstream}, f.bbs[n]? = some bb → pieces[n]? = some s →
        BlockPlaced f base n bb s := by
      intro n bb s hn hs
      obtain ⟨next, hnext⟩ := hpieces hn hs
      exact writeBlock_placed hoffsets hr (List.mem_of_getElem? hn) hnext
    refine ⟨pieces, _, rfl, by omega, ?_, hlen, hplaced⟩
    intro e he
    rcases List.mem_append.mp he with he | he
    · obtain ⟨s, hs, he⟩ := List.mem_flatten.mp he
      obtain ⟨n, hn⟩ := List.getElem?_of_mem hs
      have hlt : n < f.bbs.length := by
        rw [← hlen]
        exact (List.getElem?_eq_some_iff.mp hn).1
      have hbb := List.getElem?_eq_getElem hlt
      obtain ⟨hlo, hhi⟩ := (hplaced hbb hn).bounds e he
      have hsucc := blockOffset_succ hbb
      have hle := @blockOffset_le f.bbs (n + 1)
      rw [PNFunction.blockAddr] at hlo hhi
      omega
    · obtain rfl := List.mem_singleton.mp he
      dsimp only
      omega

/-- A function of two blocks, which go to each other. -/
def twoBlocks : PNFunction where
  name := none
  typeId := 0
  intrinsicId := .null
  numArgs := 0
  callingConvention := 0
  isProto := false
  linkage := 0
  constants := []
  bbs := [{ instructions := [.br 1 none PN_INVALID_VALUE_ID] }, { instructions := [.br 0 none PN_INVALID_VALUE_ID] }]
  values := []
  numInstructions := 2
  instructions := none

/-- Its stream has 56 bytes. -/
theorem layout_passes_agree_two :
    ∃ (f' : PNFunction) (pieces : List PNIstream) (trapAddr : Nat),
      pnFunctionCalculateOpcodes zeroHost (pnModuleInit ⟨fun _ => 0, 0⟩) twoBlocks 4096 = .ok f' ∧
      f'.instructions = some (4096, pieces.flatten ++ [(trapAddr, trapInstruction)]) ∧
      trapAddr + trapInstruction.sizeof = 4096 + 56 := by
  have hrange : twoBlocks.TargetsInRange := by
    refine ⟨by decide, ?_⟩
    intro bb hbb a ha
    have hnone : ∀ bb ∈ twoBlocks.bbs, bb.phiAssigns = [] := by decide
    rw [hnone bb hbb] at ha
    cases ha
  obtain ⟨-, -, -, hall⟩ := layout_passes_agree zeroHost (pnModuleInit ⟨fun _ => 0, 0⟩) twoBlocks 4096 (by decide) (by decide)
    (by decide) hrange
  have hok : (pnFunctionCalculateOpcodes zeroHost (pnModuleInit ⟨fun _ => 0, 0⟩) twoBlocks 4096).toOption.map
      (fun _ => ()) = some () := by decide +kernel
  obtain ⟨f', hf', -⟩ := eq_ok_of_toOption hok
  obtain ⟨pieces, trapAddr, hf, htrap, -⟩ := hall f' hf'
  exact ⟨f', pieces, trapAddr, hf', hf, htrap⟩

end Pnacl
