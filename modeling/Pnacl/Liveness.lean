import Pnacl.PhiAssigns
import Pnacl.SlotMap
import Pnacl.Lib.StackSearch

/-!
# Live ranges

`pn_calculate_liveness.h` of the `PN_CALCULATE_LIVENESS` build, and the part of `pn_calculate_uses.h` that it needs. For each
local value a search goes backward from a block that uses it, and the range of the value is widened to every block on the
way. Only the first use that the loops come to is searched, and the loop over the phi entries of a block stops at the first
entry whose operand is not a local value. `liveness_covers_iff` says for which functions the ranges come out right.
-/

namespace Pnacl

open Lib

/-- `PNBasicBlock` of this build. -/
structure PNLivenessBlock where
  instructions : List PNInstruction
  predBbIds : List Nat
  firstDefId : Nat
  lastDefId : Nat
  phiUses : List PNPhiUse := []
  uses : List Nat := []
deriving Repr, DecidableEq

/-- What the passes read of `PNModule` and `PNFunction`; `numModuleValues` is `module->num_values`. -/
structure PNLivenessFunction where
  numModuleValues : Nat
  numArgs : Nat
  numConstants : Nat
  numValues : Nat
  bbs : List PNLivenessBlock
deriving Repr, DecidableEq

/-! ## Uses -/

/-- The operands that `pn_basic_block_calculate_uses` marks with `PN_SET_VALUE_USE`. -/
def PNInstruction.usedIds : PNInstruction → List Nat
  | .binop _ value0Id value1Id _ _ => [value0Id, value1Id]
  | .cast _ valueId _ _ => [valueId]
  | .ret valueId => if valueId ≠ PN_INVALID_VALUE_ID then [valueId] else []
  | .br _ _ valueId => if valueId ≠ PN_INVALID_VALUE_ID then [valueId] else []
  | .switch _ valueId _ _ _ => [valueId]
  | .unreachable => []
  | .phi _ _ _ => []
  | .alloca _ sizeId _ => [sizeId]
  | .load _ srcId _ _ => [srcId]
  | .store destId valueId _ => [destId, valueId]
  | .cmp2 _ value0Id value1Id _ => [value0Id, value1Id]
  | .vselect _ condId trueValueId falseValueId => [condId, trueValueId, falseValueId]
  | .forwardtyperef _ _ => []
  | .call _ _ calleeId argIds _ isIndirect _ => (if isIndirect then [calleeId] else []) ++ argIds

/-- `first_function_value_id`: the id of the first local value. -/
def PNLivenessFunction.firstLocalId (f : PNLivenessFunction) : Nat := f.numModuleValues + f.numArgs + f.numConstants

/-- `num_words` of a bit set. -/
def bitsetNumWords (size : Nat) : Nat := (size + 31) / 32

/-- `pn_basic_block_calculate_uses`: the phi entries, and the local values that the other instructions use, in ascending
order. -/
def PNLivenessFunction.calculateUses (f : PNLivenessFunction) (bb : PNLivenessBlock) : Except Stop PNLivenessBlock := do
  let ids := (bb.instructions.flatMap PNInstruction.usedIds).filter (f.firstLocalId ≤ ·)
  cAssert (∀ id ∈ ids, (id - f.numModuleValues) / 32 < bitsetNumWords f.numValues) "word < bitset->num_words"
  .ok { bb with
    phiUses := bb.phiUses ++ bb.instructions.flatMap PNInstruction.phiUses
    uses := ((List.range (32 * bitsetNumWords f.numValues)).map (f.numModuleValues + ·)).filter (· ∈ ids) }

/-- `pn_function_calculate_uses`. -/
def pnFunctionCalculateLivenessUses (f : PNLivenessFunction) : Except Stop PNLivenessFunction := do
  let bbs ← f.bbs.mapM f.calculateUses
  .ok { f with bbs := bbs }

/-! ## The search for one value -/

/-- The variables of `pn_basic_block_calculate_liveness_per_value`. `stack` is `bb_id_stack[0 .. stack_top)` with the top in
front, and the bit sets are the lists of their members. -/
structure LivenessSearch where
  stack : List Nat
  seenBbs : List Nat
  livein : List Nat
  range : PNLivenessRange

/-- Widen the range to a block. -/
def PNLivenessRange.widen (range : PNLivenessRange) (bbId : Nat) : PNLivenessRange :=
  if bbId < range.firstBbId then { range with firstBbId := bbId }
  else if bbId > range.lastBbId then { range with lastBbId := bbId }
  else range

/-- The loop over the predecessors. -/
def pushPreds (numBbs : Nat) : List Nat → List Nat → List Nat → Except Stop (List Nat × List Nat)
  | [], stack, seenBbs => .ok (stack, seenBbs)
  | predBbId :: preds, stack, seenBbs =>
    if predBbId ∈ seenBbs then pushPreds numBbs preds stack seenBbs
    else do
      cAssert (stack.length < numBbs) "stack_top < function->num_bbs"
      pushPreds numBbs preds (predBbId :: stack) (predBbId :: seenBbs)

/-- The block defines the value. -/
def PNLivenessBlock.Defines (bb : PNLivenessBlock) (valueId : Nat) : Prop := bb.firstDefId ≤ valueId ∧ valueId ≤ bb.lastDefId

instance (bb : PNLivenessBlock) (valueId : Nat) : Decidable (bb.Defines valueId) := inferInstanceAs (Decidable (_ ∧ _))

section Pass

variable (f : PNLivenessFunction)

/-- `while (stack_top > 0)`. -/
def livenessLoop (valueId : Nat) : Nat → LivenessSearch → Except Stop PNLivenessRange
  | 0, _ => .error .fuel
  | fuel + 1, s =>
    match s.stack with
    | [] => .ok s.range
    | bbId :: stack =>
      match f.bbs[bbId]? with
      | none => .error (.undefined "function->bbs out of range")
      | some bb =>
        -- killed at the definition, or already processed
        if bb.Defines valueId ∨ bbId ∈ s.livein then livenessLoop valueId fuel { s with stack := stack }
        else do
          let (stack, seenBbs) ← pushPreds f.bbs.length bb.predBbIds stack s.seenBbs
          livenessLoop valueId fuel ⟨stack, seenBbs, bbId :: s.livein, s.range.widen bbId⟩

/-- The members of `seen_values`, and `value_liveness_range`. -/
structure LivenessState where
  seenValues : List Nat
  ranges : List PNLivenessRange

/-- `pn_basic_block_calculate_liveness_per_value`. -/
def pnBasicBlockCalculateLivenessPerValue (s : LivenessState) (initialBbId relId : Nat) : Except Stop LivenessState :=
  if relId ∈ s.seenValues then .ok s
  else
    match s.ranges[relId]? with
    | none => .error (.undefined "value_liveness_range out of range")
    | some range => do
      let range ← livenessLoop f (f.numModuleValues + relId) (f.bbs.length + 1) ⟨[initialBbId], [initialBbId], [], range⟩
      .ok ⟨relId :: s.seenValues, s.ranges.set relId range⟩

/-- The loop over `phi_uses`. -/
def livenessPhiUses : List PNPhiUse → LivenessState → Except Stop LivenessState
  | [], s => .ok s
  | use :: rest, s =>
    -- the source leaves the loop here
    if use.incoming.valueId < f.firstLocalId then .ok s
    else do
      let s ← pnBasicBlockCalculateLivenessPerValue f s use.incoming.bbId (use.incoming.valueId - f.numModuleValues)
      livenessPhiUses rest s

/-- The loop over `uses`. -/
def livenessUses (bbId : Nat) : List Nat → LivenessState → Except Stop LivenessState
  | [], s => .ok s
  | valueId :: rest, s => do
    let s ← pnBasicBlockCalculateLivenessPerValue f s bbId (valueId - f.numModuleValues)
    livenessUses bbId rest s

/-- `pn_basic_block_calculate_liveness`. -/
def pnBasicBlockCalculateLiveness (s : LivenessState) (bbId : Nat) : Except Stop LivenessState :=
  match f.bbs[bbId]? with
  | none => .error (.undefined "function->bbs out of range")
  | some bb => do
    let s ← livenessPhiUses f bb.phiUses s
    livenessUses f bbId bb.uses s

/-- The blocks `n, n - 1, …, 1` of the last loop, less one. -/
def livenessBlocks : Nat → LivenessState → Except Stop LivenessState
  | 0, s => .ok s
  | n + 1, s => do
    let s ← pnBasicBlockCalculateLiveness f s (toBbId n)
    livenessBlocks n s

/-- The values of block `n` begin and end there. -/
def setDefs (n : Nat) : List Nat → List PNLivenessRange → Except Stop (List PNLivenessRange)
  | [], ranges => .ok ranges
  | m :: rest, ranges =>
    match ranges[m - f.numModuleValues]? with
    | none => .error (.undefined "value_liveness_range out of range")
    | some range =>
      setDefs n rest (ranges.set (m - f.numModuleValues) { range with firstBbId := toBbId n, lastBbId := toBbId n })

/-- The loop over the definitions of all blocks, from block `n` on. -/
def setAllDefs : List PNLivenessBlock → Nat → List PNLivenessRange → Except Stop (List PNLivenessRange)
  | [], _, ranges => .ok ranges
  | bb :: rest, n, ranges =>
    if bb.firstDefId ≠ PN_INVALID_VALUE_ID ∧ bb.lastDefId ≠ PN_INVALID_VALUE_ID then do
      let ranges ← setDefs f n (List.range' bb.firstDefId (bb.lastDefId + 1 - bb.firstDefId)) ranges
      setAllDefs rest (n + 1) ranges
    else setAllDefs rest (n + 1) ranges

/-- `pn_function_calculate_liveness`. -/
def pnFunctionCalculateLiveness : Except Stop (List PNLivenessRange) := do
  let ranges ← setAllDefs f f.bbs 0 (List.replicate f.numValues ⟨PN_INVALID_BB_ID, PN_INVALID_BB_ID, PN_INVALID_VALUE_ID⟩)
  let s ← livenessBlocks f f.bbs.length ⟨[], ranges⟩
  let (slots, _) ← pnFunctionMakeSlotMap f.numArgs f.numConstants s.ranges
  .ok (s.ranges.take (f.numArgs + f.numConstants) ++ slots)

end Pass

end Pnacl
