import Pnacl.Module

/-!
# Phi assigns

`pn_calculate_uses.h` and `pn_calculate_phi_assigns.h`: every phi entry of a block becomes an assign of the block that
it names, to be done when that block branches. A block whose assigns may be done one after the other, in place, is marked
with `fast_phi_assign`.
-/

namespace Pnacl

open Lib

/-- The uses of an instruction: one for each entry of a phi. -/
def PNInstruction.phiUses : PNInstruction → List PNPhiUse
  | .phi resultValueId _ incoming => incoming.map fun i => ⟨resultValueId, i⟩
  | _ => []

/-- `pn_basic_block_calculate_uses` without liveness. -/
def pnBasicBlockCalculateUses (bb : PNBasicBlock) : PNBasicBlock :=
  { bb with phiUses := bb.phiUses ++ bb.instructions.flatMap PNInstruction.phiUses }

/-- `pn_function_calculate_uses`. -/
def pnFunctionCalculateUses (function : PNFunction) : PNFunction :=
  { function with bbs := function.bbs.map pnBasicBlockCalculateUses }

/-- All uses of a function with the index of their block, in the order of the loops. -/
def indexedUses (bbs : List PNBasicBlock) : List (Nat × PNPhiUse) :=
  bbs.zipIdx.flatMap fun (bb, n) => bb.phiUses.map fun use => (n, use)

/-- The first loop: `num_phi_assigns` of every block. -/
def countPhiAssigns (numBbs : Nat) : List (Nat × PNPhiUse) → List Nat → Except Stop (List Nat)
  | [], counts => .ok counts
  | (_, use) :: rest, counts => do
    cAssert (use.incoming.bbId < numBbs) "use->incoming.bb_id < function->num_bbs"
    countPhiAssigns numBbs rest (counts.modify use.incoming.bbId (· + 1))

/-- The assign of a use in block `n`. -/
def assignOf (n : Nat) (use : PNPhiUse) : PNPhiAssign := ⟨toBbId n, use.incoming.valueId, use.destValueId⟩

/-- The third loop: fill the arrays of `counts` elements. -/
def fillPhiAssigns (counts : List Nat) : List (Nat × PNPhiUse) → List PNBasicBlock → Except Stop (List PNBasicBlock)
  | [], bbs => .ok bbs
  | (n, use) :: rest, bbs =>
    match bbs[use.incoming.bbId]? with
    | none => .error (.undefined "incoming_bb out of range")
    | some bb =>
      if bb.phiAssigns.length < counts.getD use.incoming.bbId 0 then
        fillPhiAssigns counts rest
          (bbs.set use.incoming.bbId { bb with phiAssigns := bb.phiAssigns ++ [assignOf n use] })
      else .error (.undefined "write behind phi_assigns")

/-- Is `source` the destination of one of the assigns from `first` to before `m`? -/
def isPriorDest (assigns : List PNPhiAssign) (first m source : Nat) : Bool :=
  ((assigns.take m).drop first).any fun a => source = a.destValueId

/-- The loop that looks for assigns that cannot be done in place, from the `m`th on. -/
def fastPhiAssignLoop (assigns : List PNPhiAssign) : List PNPhiAssign → Nat → Nat → Nat → List Nat → Bool
  | [], _, _, _, _ => true
  | assign :: rest, m, first, bbId, seen =>
    if bbId = PN_INVALID_BB_ID ∧ assign.bbId ∉ seen then
      fastPhiAssignLoop assigns rest (m + 1) m assign.bbId (assign.bbId :: seen)
    else if assign.bbId = bbId ∧ isPriorDest assigns first m assign.sourceValueId then false
    else fastPhiAssignLoop assigns rest (m + 1) first bbId seen

/-- `bb->fast_phi_assign`. -/
def fastPhiAssign (assigns : List PNPhiAssign) : Bool := fastPhiAssignLoop assigns assigns 0 0 PN_INVALID_BB_ID []

/-- `pn_function_calculate_phi_assigns`. -/
def pnFunctionCalculatePhiAssigns (function : PNFunction) : Except Stop PNFunction := do
  let uses := indexedUses function.bbs
  let counts ← countPhiAssigns function.bbs.length uses (function.bbs.map fun bb => bb.phiAssigns.length)
  let bbs ← fillPhiAssigns counts uses (function.bbs.map fun bb => { bb with phiAssigns := [] })
  .ok { function with bbs := bbs.map fun bb => { bb with fastPhiAssign := fastPhiAssign bb.phiAssigns } }

/-! ## What the passes compute -/

/-- The assigns of block `p`, in the order of the uses. -/
def assignsFor (uses : List (Nat × PNPhiUse)) (p : Nat) : List PNPhiAssign :=
  (uses.filter fun u => u.2.incoming.bbId = p).map fun u => assignOf u.1 u.2

theorem countPhiAssigns_lt {numBbs : Nat} : ∀ {uses : List (Nat × PNPhiUse)} {counts counts' : List Nat},
    countPhiAssigns numBbs uses counts = .ok counts' → ∀ u ∈ uses, u.2.incoming.bbId < numBbs
  | [], _, _, _ => by simp
  | (n, use) :: rest, counts, counts', h => by
    obtain ⟨hlt, h⟩ := cAssert_bind_eq_ok.mp h
    intro u hu
    rcases List.mem_cons.mp hu with rfl | hu
    · exact hlt
    · exact countPhiAssigns_lt h u hu

/-- The third loop appends to every block its assigns. -/
theorem fillPhiAssigns_spec {counts : List Nat} : ∀ {uses : List (Nat × PNPhiUse)} {bbs bbs' : List PNBasicBlock},
    fillPhiAssigns counts uses bbs = .ok bbs' → ∀ p : Nat,
      bbs'[p]? = (bbs[p]?).map fun bb => { bb with phiAssigns := bb.phiAssigns ++ assignsFor uses p }
  | [], bbs, bbs', h, p => by
    cases h
    simp [assignsFor]
  | (n, use) :: rest, bbs, bbs', h, p => by
    rw [fillPhiAssigns] at h
    split at h
    · cases h
    · next bb hbb =>
      split at h
      · rw [fillPhiAssigns_spec h p, List.getElem?_set]
        have hlt : use.incoming.bbId < bbs.length := (List.getElem?_eq_some_iff.mp hbb).1
        by_cases hp : use.incoming.bbId = p
        · subst hp
          rw [if_pos rfl, if_pos hlt, hbb]
          simp [assignsFor]
        · simp [hp, assignsFor]
      · cases h

/-- **What `pn_function_calculate_phi_assigns` computes**: every use is in a block of the function, and each block gets
the assigns of the uses that name it. -/
theorem phiAssigns_spec {f f' : PNFunction} (h : pnFunctionCalculatePhiAssigns f = .ok f') :
    (∀ u ∈ indexedUses f.bbs, u.2.incoming.bbId < f.bbs.length) ∧
      f' = { f with bbs := f'.bbs } ∧
      ∀ p : Nat, f'.bbs[p]? = (f.bbs[p]?).map fun bb =>
        { bb with
          phiAssigns := assignsFor (indexedUses f.bbs) p
          fastPhiAssign := fastPhiAssign (assignsFor (indexedUses f.bbs) p) } := by
  obtain ⟨counts, hc, h⟩ := bind_eq_ok.mp h
  obtain ⟨bbs, hf, h⟩ := bind_eq_ok.mp h
  cases h
  refine ⟨countPhiAssigns_lt hc, rfl, ?_⟩
  intro p
  simp only [List.getElem?_map, fillPhiAssigns_spec hf p, Option.map_map]
  congr 1

/-- Blocks that are changed one by one, each with its instructions kept. -/
theorem instructions_congr {f f' : PNFunction} {g : Nat → PNBasicBlock → PNBasicBlock}
    (hg : ∀ p bb, (g p bb).instructions = bb.instructions) (h : ∀ p : Nat, f'.bbs[p]? = (f.bbs[p]?).map (g p)) :
    f'.bbs.map PNBasicBlock.instructions = f.bbs.map PNBasicBlock.instructions := by
  apply List.ext_getElem?
  intro p
  simp [h p, Function.comp_def, hg]

theorem insts_congr {f f' : PNFunction} (h : f'.bbs.map PNBasicBlock.instructions = f.bbs.map PNBasicBlock.instructions) :
    f'.insts = f.insts ∧ f'.bbs.length = f.bbs.length := by
  refine ⟨?_, by simpa using congrArg List.length h⟩
  rw [PNFunction.insts, List.flatMap_def, h, ← List.flatMap_def, ← PNFunction.insts]

theorem calculateUses_instructions (f : PNFunction) :
    (pnFunctionCalculateUses f).bbs.map PNBasicBlock.instructions = f.bbs.map PNBasicBlock.instructions :=
  instructions_congr (g := fun _ => pnBasicBlockCalculateUses) (fun _ _ => rfl) fun _ => List.getElem?_map

theorem phiAssigns_instructions {f f' : PNFunction} (h : pnFunctionCalculatePhiAssigns f = .ok f') :
    f'.bbs.map PNBasicBlock.instructions = f.bbs.map PNBasicBlock.instructions := by
  refine instructions_congr ?_ (phiAssigns_spec h).2.2
  intro p bb
  rfl

/-- Every entry of a phi is a use. -/
theorem mem_indexedUses {f : PNFunction} {resultValueId typeId : Nat} {incoming : List PNPhiIncoming} {i : PNPhiIncoming}
    (hmem : .phi resultValueId typeId incoming ∈ f.insts) (hi : i ∈ incoming) :
    ∃ n, (n, ⟨resultValueId, i⟩) ∈ indexedUses (pnFunctionCalculateUses f).bbs := by
  obtain ⟨bb, hbb, hinst⟩ := List.mem_flatMap.mp hmem
  have hbb' : pnBasicBlockCalculateUses bb ∈ (pnFunctionCalculateUses f).bbs := List.mem_map_of_mem hbb
  obtain ⟨n, hn⟩ := List.getElem?_of_mem hbb'
  refine ⟨n, List.mem_flatMap.mpr ⟨(_, n), List.mk_mem_zipIdx_iff_getElem?.mpr hn, ?_⟩⟩
  refine List.mem_map.mpr ⟨⟨resultValueId, i⟩, List.mem_append_right _ ?_, rfl⟩
  exact List.mem_flatMap.mpr ⟨_, hinst, List.mem_map.mpr ⟨i, hi, rfl⟩⟩

end Pnacl
