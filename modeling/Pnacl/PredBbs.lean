import Pnacl.Lib.Buckets
import Pnacl.PhiAssigns

/-!
# Predecessors

`pn_calculate_pred_bbs.h` of the `PN_CALCULATE_PRED_BBS` build turns the lists of successors into lists of predecessors, the
way `pn_calculate_phi_assigns.h` turns the phi uses into the assigns of their incoming blocks: count, allocate, fill. Both are
the two passes of `transpose_eq` over the entries of all blocks, so nothing is lost and nothing is written behind the counted
elements (`transpositions_exact`).
-/

namespace Pnacl

open Lib

/-- What the pass reads and writes of `PNBasicBlock`; `num_succ_bbs` and `num_pred_bbs` are the lengths. -/
structure PNPredBlock where
  succBbIds : List Nat
  predBbIds : List Nat := []
deriving Repr, DecidableEq

/-- The successors of all blocks with the id that is stored for each, in the order of the loops. -/
def indexedSuccs (bbs : List PNPredBlock) : List (Nat × Nat) :=
  bbs.zipIdx.flatMap fun (bb, n) => bb.succBbIds.map fun succBbId => (succBbId, toBbId n)

/-- `pn_function_calculate_pred_bbs`. -/
def pnFunctionCalculatePredBbs (bbs : List PNPredBlock) : Except Stop (List PNPredBlock) := do
  let succs := indexedSuccs bbs
  let counts ← countInto (.assert "succ_bb_id < function->num_bbs") bbs.length succs (bbs.map fun bb => bb.predBbIds.length)
  -- `num_pred_bbs` is 0 again
  let preds ← fillInto (.undefined "succ_bb out of range") (.undefined "write behind pred_bb_ids") counts succs
    (bbs.map fun _ => [])
  .ok (bbs.zipWith (fun bb predBbIds => { bb with predBbIds := predBbIds }) preds)

/-! ## The lists that are meant -/

/-- The phi uses with the incoming block `p`, by block and then by use. -/
def phiAssignsOf (bbs : List PNBasicBlock) (p : Nat) : List PNPhiAssign :=
  bbs.zipIdx.flatMap fun (bb, n) =>
    (bb.phiUses.filter (·.incoming.bbId = p)).map fun use => ⟨n, use.incoming.valueId, use.destValueId⟩

/-- The blocks with the successor `s`, once for each time that it is one. -/
def predBbsOf (bbs : List PNPredBlock) (s : Nat) : List Nat :=
  bbs.zipIdx.flatMap fun (bb, n) => List.replicate (bb.succBbIds.count s) n

theorem predBbsOf_sorted (bbs : List PNPredBlock) (s : Nat) : (predBbsOf bbs s).Pairwise (· ≤ ·) := by
  have hsorted : (bbs.zipIdx.map Prod.snd).Pairwise (· ≤ ·) := by
    rw [List.zipIdx_map_snd]
    exact List.pairwise_le_range'
  rw [predBbsOf, List.pairwise_flatMap]
  refine ⟨fun e _ => List.pairwise_replicate.mpr (.inr le_rfl), ?_⟩
  refine (List.pairwise_map.mp hsorted).imp fun hle a ha b hb => ?_
  rw [List.eq_of_mem_replicate ha, List.eq_of_mem_replicate hb]
  exact hle

theorem count_predBbsOf {bbs : List PNPredBlock} {n : Nat} {bb : PNPredBlock} (h : bbs[n]? = some bb) (s : Nat) :
    (predBbsOf bbs s).count n = bb.succBbIds.count s := by
  obtain ⟨hn, rfl⟩ := List.getElem?_eq_some_iff.mp h
  -- only the block itself adds its own id
  have hother : ∀ (l : List PNPredBlock) (k : Nat), (∀ e ∈ l.zipIdx k, e.2 ≠ n) →
      ((l.zipIdx k).flatMap fun (bb, n) => List.replicate (bb.succBbIds.count s) n).count n = 0 := fun l k hne => by
    rw [List.count_eq_zero, List.mem_flatMap]
    rintro ⟨e, he, hmem⟩
    exact hne e he (List.eq_of_mem_replicate hmem).symm
  have hlen : (bbs.take n).length = n := List.length_take_of_le (Nat.le_of_lt hn)
  have hbefore := hother (bbs.take n) 0 fun e he => by
    have := (List.mem_zipIdx he).2.1
    omega
  have hbehind := hother (bbs.drop (n + 1)) (n + 1) fun e he => by
    have := (List.mem_zipIdx he).1
    omega
  have hsplit : bbs.zipIdx = (bbs.take n).zipIdx ++ (bbs[n], n) :: (bbs.drop (n + 1)).zipIdx (n + 1) := by
    conv_lhs => rw [← List.take_append_drop n bbs, List.drop_eq_getElem_cons hn, List.zipIdx_append, hlen, List.zipIdx_cons]
    rw [Nat.zero_add]
  rw [predBbsOf, hsplit, List.flatMap_append, List.flatMap_cons, List.count_append, List.count_append, hbefore, hbehind]
  simp

/-! ## Phi assigns -/

/-- A use of block `n` is an event of its incoming block. -/
def phiEvent (u : Nat × PNPhiUse) : Nat × PNPhiAssign := (u.2.incoming.bbId, assignOf u.1 u.2)

theorem countPhiAssigns_eq (numBbs : Nat) (uses : List (Nat × PNPhiUse)) (counts : List Nat) :
    countPhiAssigns numBbs uses counts =
      countInto (.assert "use->incoming.bb_id < function->num_bbs") numBbs (uses.map phiEvent) counts := by
  induction uses generalizing counts with
  | nil => rfl
  | cons u uses ih => exact congrArg _ (funext fun _ => ih _)

/-- The third loop returns if the buckets can be filled. -/
theorem fillPhiAssigns_of_fillInto {counts : List Nat} {bad full : Stop} {uses : List (Nat × PNPhiUse)}
    {bbs : List PNBasicBlock} {filled : List (List PNPhiAssign)}
    (h : fillInto bad full counts (uses.map phiEvent) (bbs.map PNBasicBlock.phiAssigns) = .ok filled) :
    ∃ bbs', fillPhiAssigns counts uses bbs = .ok bbs' := by
  induction uses generalizing bbs with
  | nil => exact ⟨bbs, rfl⟩
  | cons u uses ih =>
    obtain ⟨n, use⟩ := u
    rw [List.map_cons, phiEvent, fillInto, List.getElem?_map] at h
    rw [fillPhiAssigns]
    cases hbb : bbs[use.incoming.bbId]? with
    | none =>
      rw [hbb] at h
      cases h
    | some bb =>
      rw [hbb] at h
      dsimp only [Option.map_some] at h ⊢
      split at h
      · rename_i hroom
        rw [if_pos hroom]
        exact ih (by rw [List.map_set]; exact h)
      · cases h

theorem mem_indexedUses_iff {bbs : List PNBasicBlock} {n : Nat} {use : PNPhiUse} :
    (n, use) ∈ indexedUses bbs ↔ ∃ bb, bbs[n]? = some bb ∧ use ∈ bb.phiUses := by
  simp [indexedUses, List.mem_zipIdx_iff_getElem?]

theorem assignsFor_indexedUses {bbs : List PNBasicBlock} (hid : ∀ n bb, bbs[n]? = some bb → bb.phiUses ≠ [] → n < 2 ^ 16) (p : Nat) :
    assignsFor (indexedUses bbs) p = phiAssignsOf bbs p := by
  rw [assignsFor, indexedUses, List.filter_flatMap, List.map_flatMap, phiAssignsOf]
  refine List.flatMap_congr fun e he => ?_
  obtain ⟨bb, n⟩ := e
  rw [List.filter_map, List.map_map]
  refine List.map_congr_left fun use huse => ?_
  have hne : bb.phiUses ≠ [] := List.ne_nil_of_mem (List.mem_of_mem_filter huse)
  have hn := hid n bb (List.mem_zipIdx_iff_getElem?.mp he) hne
  have htrunc : toBbId n = n := Nat.mod_eq_of_lt hn
  rw [Function.comp_apply, assignOf, htrunc]

/-- The pass returns on a function whose phi uses name blocks of it. -/
theorem phiAssigns_total {f : PNFunction} (h : ∀ bb ∈ f.bbs, ∀ use ∈ bb.phiUses, use.incoming.bbId < f.bbs.length) :
    ∃ f', pnFunctionCalculatePhiAssigns f = .ok f' := by
  have hevents : ∀ e ∈ (indexedUses f.bbs).map phiEvent, e.1 < (f.bbs.map fun bb => bb.phiAssigns.length).length := by
    intro e he
    obtain ⟨⟨n, use⟩, hu, rfl⟩ := List.mem_map.mp he
    obtain ⟨bb, hbb, huse⟩ := mem_indexedUses_iff.mp hu
    rw [List.length_map]
    exact h bb (List.mem_of_getElem? hbb) use huse
  obtain ⟨counts, hcount, hfill⟩ := transpose_eq (Stop.assert "use->incoming.bb_id < function->num_bbs")
    (Stop.undefined "incoming_bb out of range") (Stop.undefined "write behind phi_assigns") hevents
  have hempty : ((f.bbs.map fun bb => bb.phiAssigns.length).map fun _ => ([] : List PNPhiAssign)) =
      (f.bbs.map fun bb => { bb with phiAssigns := [] }).map PNBasicBlock.phiAssigns := by
    rw [List.map_map, List.map_map]
    rfl
  rw [List.length_map] at hcount
  rw [hempty] at hfill
  obtain ⟨bbs', hbbs'⟩ := fillPhiAssigns_of_fillInto hfill
  exact ⟨_, bind_eq_ok.mpr ⟨counts, (countPhiAssigns_eq ..).trans hcount, bind_eq_ok.mpr ⟨bbs', hbbs', rfl⟩⟩⟩

/-! ## Predecessors -/

theorem bucket_indexedSuccs {bbs : List PNPredBlock} (hid : ∀ n bb, bbs[n]? = some bb → bb.succBbIds ≠ [] → n < 2 ^ 16)
    (s : Nat) : bucket (indexedSuccs bbs) s = predBbsOf bbs s := by
  rw [indexedSuccs, bucket_flatMap, predBbsOf]
  refine List.flatMap_congr fun e he => ?_
  obtain ⟨bb, n⟩ := e
  have hn := hid n bb (List.mem_zipIdx_iff_getElem?.mp he)
  rw [bucket, List.filter_map, List.map_map, List.eq_replicate_iff]
  refine ⟨?_, fun m hm => ?_⟩
  · rw [List.length_map, List.count_eq_length_filter]
    exact congrArg List.length (List.filter_congr fun x _ => rfl)
  · obtain ⟨succ, hsucc, rfl⟩ := List.mem_map.mp hm
    exact Nat.mod_eq_of_lt (hn (List.ne_nil_of_mem (List.mem_of_mem_filter hsucc)))

theorem predBbs_eq {bbs : List PNPredBlock} (h : ∀ bb ∈ bbs, ∀ s ∈ bb.succBbIds, s < bbs.length)
    (hid : ∀ n bb, bbs[n]? = some bb → bb.succBbIds ≠ [] → n < 2 ^ 16) :
    pnFunctionCalculatePredBbs bbs = .ok (bbs.mapIdx fun s bb => { bb with predBbIds := predBbsOf bbs s }) := by
  have hevents : ∀ e ∈ indexedSuccs bbs, e.1 < (bbs.map fun bb => bb.predBbIds.length).length := by
    intro e he
    obtain ⟨⟨bb, n⟩, hbb, he⟩ := List.mem_flatMap.mp he
    obtain ⟨s, hs, rfl⟩ := List.mem_map.mp he
    rw [List.length_map]
    exact h bb (List.mem_of_getElem? (List.mem_zipIdx_iff_getElem?.mp hbb)) s hs
  obtain ⟨counts, hcount, hfill⟩ := transpose_eq (Stop.assert "succ_bb_id < function->num_bbs")
    (Stop.undefined "succ_bb out of range") (Stop.undefined "write behind pred_bb_ids") hevents
  rw [List.length_map] at hcount
  rw [List.map_map] at hfill
  refine bind_eq_ok.mpr ⟨counts, hcount, bind_eq_ok.mpr ⟨_, hfill, ?_⟩⟩
  refine congrArg _ (List.ext_getElem? fun s => ?_)
  rw [List.getElem?_zipWith, List.getElem?_mapIdx, List.getElem?_mapIdx, List.getElem?_map]
  cases bbs[s]? with
  | none => rfl
  | some bb => simp [bucket_indexedSuccs hid]

/-- **The transpositions lose and duplicate nothing.** On blocks whose entries name blocks, and whose own ids fit, both passes
return, so they write nothing behind the counted elements. The assigns of block `p` are the phi uses with incoming block `p`,
by block and then by use; the predecessors of block `s` are in ascending order the blocks with the successor `s`, once for
each time that it is one. -/
theorem transpositions_exact :
    (∀ f : PNFunction, (∀ bb ∈ f.bbs, ∀ use ∈ bb.phiUses, use.incoming.bbId < f.bbs.length) →
      (∀ n bb, f.bbs[n]? = some bb → bb.phiUses ≠ [] → n < 2 ^ 16) →
      ∃ f', pnFunctionCalculatePhiAssigns f = .ok f' ∧ f'.bbs.length = f.bbs.length ∧
        ∀ p bb', f'.bbs[p]? = some bb' → bb'.phiAssigns = phiAssignsOf f.bbs p) ∧
    (∀ bbs : List PNPredBlock, (∀ bb ∈ bbs, ∀ s ∈ bb.succBbIds, s < bbs.length) →
      (∀ n bb, bbs[n]? = some bb → bb.succBbIds ≠ [] → n < 2 ^ 16) →
      ∃ bbs', pnFunctionCalculatePredBbs bbs = .ok bbs' ∧ bbs'.length = bbs.length ∧
        ∀ s bb', bbs'[s]? = some bb' → bb'.predBbIds = predBbsOf bbs s ∧ bb'.predBbIds.Pairwise (· ≤ ·) ∧
          ∀ n bb, bbs[n]? = some bb → bb'.predBbIds.count n = bb.succBbIds.count s) := by
  constructor
  · intro f hlt hid
    obtain ⟨f', hf'⟩ := phiAssigns_total hlt
    have hspec := (phiAssigns_spec hf').2.2
    refine ⟨f', hf', (insts_congr (phiAssigns_instructions hf')).2, fun p bb' hbb' => ?_⟩
    rw [hspec p, Option.map_eq_some_iff] at hbb'
    obtain ⟨bb, -, rfl⟩ := hbb'
    exact assignsFor_indexedUses hid p
  · intro bbs hlt hid
    refine ⟨_, predBbs_eq hlt hid, List.length_mapIdx, fun s bb' hbb' => ?_⟩
    rw [List.getElem?_mapIdx, Option.map_eq_some_iff] at hbb'
    obtain ⟨bb, -, rfl⟩ := hbb'
    exact ⟨rfl, predBbsOf_sorted bbs s, fun n bb h => count_predBbsOf h s⟩

/-- Block 0 branches twice to block 1 and once to itself, block 1 back to block 0. -/
theorem transpositions_exact_two : ∃ bbs', pnFunctionCalculatePredBbs [⟨[1, 1, 0], []⟩, ⟨[0], []⟩] = .ok bbs' ∧
    ∀ bb', bbs'[1]? = some bb' → bb'.predBbIds = [0, 0] := by
  obtain ⟨bbs', hrun, -, hspec⟩ := transpositions_exact.2 [⟨[1, 1, 0], []⟩, ⟨[0], []⟩] (by decide) (by
    intro n bb hbb _
    have := (List.getElem?_eq_some_iff.mp hbb).1
    simp at this
    omega)
  refine ⟨bbs', hrun, fun bb' hbb' => ?_⟩
  rw [(hspec 1 bb' hbb').1]
  rfl

end Pnacl
