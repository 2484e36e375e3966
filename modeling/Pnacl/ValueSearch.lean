import Pnacl.BlockUses

/-!
# The search for one value, with its bit sets

`pn_basic_block_calculate_liveness_per_value` with the three bit sets of `PNLivenessState` and a record of all blocks that
were pushed. The bit sets hold what the lists of `livenessLoop` hold (`searchLoop_spec`), so the search ends, no block is
pushed twice, and `livein` is the set of blocks from which a way leads to the start without passing the definition
(`valueSearch_exact`).
-/

namespace Pnacl

open Lib

/-! ## The search -/

/-- `pn_bitset_clear`. -/
def pnBitsetClear (b : PNBitSet) : PNBitSet := { b with words := fun _ => 0 }

/-- The variables of the search: `stack` is `bb_id_stack[0 .. stack_top)` with the top in front, `pushed` are the blocks that
have ever been written to it, the last one in front. -/
structure ValueSearch where
  stack : List Nat
  pushed : List Nat
  seenBbs : PNBitSet
  livein : PNBitSet
  range : PNLivenessRange

/-- `PNLivenessState` and `value_liveness_range`. -/
structure PNLivenessState where
  seenValues : PNBitSet
  seenBbs : PNBitSet
  livein : PNBitSet
  ranges : List PNLivenessRange

/-- The loop over `pred_bb_ids`. -/
def searchPreds (numBbs : Nat) : List Nat → ValueSearch → Except Stop ValueSearch
  | [], s => .ok s
  | predBbId :: preds, s => do
    let seen ← pnBitsetIsSet s.seenBbs predBbId
    if seen then searchPreds numBbs preds s
    else do
      cAssert (s.stack.length < numBbs) "stack_top < function->num_bbs"
      let seenBbs ← pnBitsetSet s.seenBbs predBbId true
      searchPreds numBbs preds
        { s with stack := predBbId :: s.stack, pushed := predBbId :: s.pushed, seenBbs := seenBbs }

section Pass

variable (f : PNLivenessFunction)

/-- `while (stack_top > 0)`. -/
def searchLoop (valueId : Nat) : Nat → ValueSearch → Except Stop ValueSearch
  | 0, _ => .error .fuel
  | fuel + 1, s =>
    match s.stack with
    | [] => .ok s
    | bbId :: stack =>
      match f.bbs[bbId]? with
      | none => .error (.undefined "function->bbs out of range")
      | some bb =>
        -- killed at the definition
        if bb.Defines valueId then searchLoop valueId fuel { s with stack := stack }
        else do
          let processed ← pnBitsetIsSet s.livein bbId
          if processed then searchLoop valueId fuel { s with stack := stack }
          else do
            let livein ← pnBitsetSet s.livein bbId true
            let s ← searchPreds f.bbs.length bb.predBbIds
              { s with stack := stack, livein := livein, range := s.range.widen bbId }
            searchLoop valueId fuel s

/-- `pn_basic_block_calculate_liveness_per_value`, and the blocks that it has pushed. -/
def calculateLivenessPerValue (s : PNLivenessState) (initialBbId relId : Nat) : Except Stop (PNLivenessState × List Nat) := do
  let seen ← pnBitsetIsSet s.seenValues relId
  if seen then .ok (s, [])
  else do
    let seenValues ← pnBitsetSet s.seenValues relId true
    let seenBbs ← pnBitsetSet (pnBitsetClear s.seenBbs) initialBbId true
    match s.ranges[relId]? with
    | none => .error (.undefined "value_liveness_range out of range")
    | some range => do
      let t ← searchLoop f (f.numModuleValues + relId) (f.bbs.length + 1)
        ⟨[initialBbId], [initialBbId], seenBbs, pnBitsetClear s.livein, range⟩
      .ok (⟨seenValues, t.seenBbs, t.livein, s.ranges.set relId t.range⟩, t.pushed)

end Pass

/-! ## Bit sets as lists -/

/-- The bit set has room for `n` bits, and its set bits are the members of `l`. -/
structure PNBitSet.Holds (b : PNBitSet) (n : Nat) (l : List Nat) : Prop where
  words : b.numWords = bitsetNumWords n
  bit_iff : ∀ p, b.bit p = true ↔ p ∈ l

section Holds

variable {b b' : PNBitSet} {n p : Nat} {l : List Nat}

theorem pnBitsetIsSet_total (hp : p < 32 * b.numWords) : pnBitsetIsSet b p = .ok (b.bit p) := by
  have hword : p >>> 5 < b.numWords := by
    rw [shiftRight_five]
    omega
  obtain ⟨r, hr⟩ : ∃ r, pnBitsetIsSet b p = .ok r := ⟨_, cAssert_bind hword⟩
  rw [hr, (pnBitsetIsSet_eq_ok hr).2]

theorem PNBitSet.Holds.isSet (h : b.Holds n l) (hp : p < n) : pnBitsetIsSet b p = .ok (decide (p ∈ l)) := by
  have hle := bitsetNumWords_le n
  have hbit : b.bit p = decide (p ∈ l) := by
    rw [Bool.eq_iff_iff, h.bit_iff, decide_eq_true_iff]
  rw [pnBitsetIsSet_total (by rw [h.words]; omega), hbit]

theorem PNBitSet.Holds.set (h : b.Holds n l) (hp : p < n) : ∃ b', pnBitsetSet b p true = .ok b' ∧ b'.Holds n (p :: l) := by
  have hle := bitsetNumWords_le n
  obtain ⟨b', hset⟩ := pnBitsetSet_total (b := b) (p := p) (by rw [h.words]; omega) true
  obtain ⟨-, hwords, hbit⟩ := pnBitsetSet_bit hset
  refine ⟨b', hset, hwords.trans h.words, fun q => ?_⟩
  rw [hbit, List.mem_cons]
  by_cases hq : q = p
  · simp [hq]
  · rw [if_neg hq, h.bit_iff]
    simp [hq]

theorem pnBitsetClear_holds (hwords : b.numWords = bitsetNumWords n) : (pnBitsetClear b).Holds n [] where
  words := hwords
  bit_iff p := by simp [pnBitsetClear, PNBitSet.bit]

end Holds

/-! ## The loops -/

section Loops

variable {f : PNLivenessFunction} {v start numBbs : Nat}

/-- The loop over the predecessors pushes those that have not been seen. -/
theorem searchPreds_eq : ∀ {preds seen : List Nat} {s : ValueSearch}, (∀ p ∈ preds, p < numBbs) → s.stack.Nodup →
    (∀ a ∈ s.stack, a ∈ seen) → (∀ a ∈ seen, a < numBbs) → s.seenBbs.Holds numBbs seen → s.pushed = seen →
    ∃ seenBbs, searchPreds numBbs preds s = .ok { s with
      stack := (pushUnseen preds s.stack seen).1, pushed := (pushUnseen preds s.stack seen).2, seenBbs := seenBbs } ∧
      seenBbs.Holds numBbs (pushUnseen preds s.stack seen).2
  | [], seen, s, _, _, _, _, hholds, hpushed => ⟨s.seenBbs, by rw [← hpushed]; rfl, hholds⟩
  | p :: preds, seen, s, hpreds, hnodup, hsub, hlt, hholds, hpushed => by
    obtain ⟨hp, hpreds'⟩ := List.forall_mem_cons.mp hpreds
    rw [searchPreds, hholds.isSet hp, ok_bind, pushUnseen]
    by_cases hmem : p ∈ seen
    · rw [if_pos (by simpa using hmem), if_pos hmem]
      exact searchPreds_eq hpreds' hnodup hsub hlt hholds hpushed
    · rw [if_neg (by simpa using hmem), if_neg hmem]
      have hnodup' : (p :: s.stack).Nodup := List.nodup_cons.mpr ⟨fun h => hmem (hsub p h), hnodup⟩
      have hsub' : ∀ a ∈ p :: s.stack, a ∈ p :: seen :=
        List.forall_mem_cons.mpr ⟨List.mem_cons_self .., fun a ha => List.mem_cons_of_mem _ (hsub a ha)⟩
      have hlt' : ∀ a ∈ p :: seen, a < numBbs := List.forall_mem_cons.mpr ⟨hp, hlt⟩
      have hroom : s.stack.length < numBbs := length_le_of_nodup hnodup' fun a ha => hlt' a (hsub' a ha)
      obtain ⟨seenBbs, hset, hholds'⟩ := hholds.set hp
      obtain ⟨seenBbs', hrun, hholds''⟩ := @searchPreds_eq preds (p :: seen) ⟨p :: s.stack, p :: s.pushed, seenBbs, s.livein, s.range⟩
        hpreds' hnodup' hsub' hlt' hholds' (by rw [hpushed])
      refine ⟨seenBbs', ?_, hholds''⟩
      rw [cAssert_bind hroom, hset, ok_bind]
      exact hrun

/-- **The loop returns**, with the range that `livenessLoop` finds; the blocks pushed are distinct and `livein` holds the blocks
from which a way leads to the start. -/
theorem searchLoop_spec (hpreds : ∀ bb ∈ f.bbs, ∀ n ∈ bb.predBbIds, n < f.bbs.length) {range : PNLivenessRange}
    (hrange : range.firstBbId ≤ range.lastBbId) : ∀ {fuel : Nat} {s : ValueSearch} {livein : List Nat},
    SearchInv f.preds (f.DefinedIn v) start s.stack s.pushed livein → (∀ a ∈ s.pushed, a < f.bbs.length) →
    s.seenBbs.Holds f.bbs.length s.pushed → s.livein.Holds f.bbs.length livein → Widened range (· ∈ livein) s.range →
    s.range.slotId = range.slotId → f.bbs.length + s.stack.length < fuel + s.pushed.length →
    ∃ s', searchLoop f (f.numModuleValues + v) fuel s = .ok s' ∧
      livenessLoop f (f.numModuleValues + v) fuel ⟨s.stack, s.pushed, livein, s.range⟩ = .ok s'.range ∧
      s'.pushed.Nodup ∧ s'.seenBbs.numWords = s.seenBbs.numWords ∧ s'.livein.numWords = s.livein.numWords ∧
      (∀ b, s'.livein.bit b = true ↔ f.LeadsTo v start b) ∧ Widened range (f.LeadsTo v start) s'.range ∧
      s'.range.slotId = range.slotId
  | 0, s, _, hinv, hlt, _, _, _, _, hfuel => by
    have := length_le_of_nodup hinv.seen_nodup hlt
    omega
  | fuel + 1, ⟨[], pushed, seenBbs, live, range'⟩, livein, hinv, hlt, hseen, hlive, hwide, hslot, hfuel => by
    refine ⟨_, rfl, rfl, hinv.seen_nodup, rfl, rfl, fun b => ?_, hwide.congr fun _ => hinv.visited_iff, hslot⟩
    exact (hlive.bit_iff b).trans hinv.visited_iff
  | fuel + 1, ⟨b :: stack, pushed, seenBbs, live, range'⟩, livein, hinv, hlt, hseen, hlive, hwide, hslot, hfuel => by
    dsimp only at hinv hlt hseen hlive hwide hslot hfuel ⊢
    have hb : b < f.bbs.length := hlt b (hinv.stack_seen b (List.mem_cons_self ..))
    have hget := List.getElem?_eq_getElem hb
    have hfresh := hinv.fresh b (List.mem_cons_self ..)
    rw [searchLoop, livenessLoop]
    dsimp only
    rw [hget]
    dsimp only
    rw [List.length_cons] at hfuel
    by_cases hdef : (f.bbs[b]).Defines (f.numModuleValues + v)
    · rw [if_pos hdef, if_pos (.inl hdef)]
      exact searchLoop_spec hpreds hrange (hinv.pop ⟨_, hget, hdef⟩) hlt hseen hlive hwide hslot (by dsimp only; omega)
    · have hstop : ¬f.DefinedIn v b := by
        rintro ⟨bb, hbb, hdef'⟩
        obtain rfl := Option.some.inj (hget.symm.trans hbb)
        exact hdef hdef'
      have hnext : f.preds b = (f.bbs[b]).predBbIds := by
        rw [PNLivenessFunction.preds, hget]
        rfl
      have hvisit := hinv.visit hstop
      have hsub := fun a ha => hinv.stack_seen a (List.mem_cons_of_mem b ha)
      have hpreds' := hpreds _ (List.getElem_mem hb)
      have hnodup := (List.nodup_cons.mp hinv.stack_nodup).2
      have hlength := pushUnseen_length (f.bbs[b]).predBbIds stack pushed
      obtain ⟨live', hset, hlive'⟩ := hlive.set hb
      obtain ⟨seenBbs', hpush, hseen'⟩ := @searchPreds_eq f.bbs.length (f.bbs[b]).predBbIds pushed
        ⟨stack, pushed, seenBbs, live', range'.widen b⟩ hpreds' hnodup hsub hlt hseen rfl
      have hslot' : (range'.widen b).slotId = range.slotId := by
        rw [← hslot, PNLivenessRange.widen]
        split_ifs <;> rfl
      rw [hnext] at hvisit
      rw [if_neg hdef, hlive.isSet hb, ok_bind, if_neg (by simpa using hfresh), hset, ok_bind, hpush, ok_bind,
        if_neg (not_or.mpr ⟨hdef, hfresh⟩), pushPreds_eq hpreds' hnodup hsub hlt, ok_bind]
      obtain ⟨s', hrun, hrun', hnd, hw₁, hw₂, hrest⟩ := @searchLoop_spec hpreds range hrange fuel
        ⟨(pushUnseen (f.bbs[b]).predBbIds stack pushed).1, (pushUnseen (f.bbs[b]).predBbIds stack pushed).2, seenBbs', live',
          range'.widen b⟩ (b :: livein) hvisit
        (fun a ha => (mem_pushUnseen_seen.mp ha).elim (hlt a) (hpreds' a)) hseen' hlive'
        ((hwide.widen hrange b).congr fun c => by simp) hslot' (by dsimp only; omega)
      exact ⟨s', hrun, hrun', hnd, hw₁.trans (hseen'.words.trans hseen.words.symm), hw₂.trans (hlive'.words.trans hlive.words.symm), hrest⟩

end Loops

/-! ## What the search finds -/

/-- The old range and all blocks of `S` lie between `lo` and `hi` just if the new range does: it is the smallest that has them. -/
theorem Widened.between_iff {range range' : PNLivenessRange} {S : Nat → Prop} (h : Widened range S range') (lo hi : Nat) :
    (lo ≤ range.firstBbId ∧ range.lastBbId ≤ hi ∧ ∀ b, S b → lo ≤ b ∧ b ≤ hi) ↔
      lo ≤ range'.firstBbId ∧ range'.lastBbId ≤ hi := by
  constructor
  · rintro ⟨hlo, hhi, hS⟩
    constructor
    · rcases h.first_mem with heq | hmem
      · rwa [heq]
      · exact (hS _ hmem).1
    · rcases h.last_mem with heq | hmem
      · rwa [heq]
      · exact (hS _ hmem).2
  · rintro ⟨hlo, hhi⟩
    refine ⟨hlo.trans h.first_le, h.le_last.trans hhi, fun b hb => ?_⟩
    exact ⟨hlo.trans (h.covers b hb).1, (h.covers b hb).2.trans hhi⟩

/-- The bit sets have the sizes with which `pn_function_calculate_liveness` makes them; what is in them does not matter. -/
structure PNLivenessState.Sized (f : PNLivenessFunction) (s : PNLivenessState) : Prop where
  seenValues : s.seenValues.numWords = bitsetNumWords f.numValues
  seenBbs : s.seenBbs.numWords = bitsetNumWords f.bbs.length
  livein : s.livein.numWords = bitsetNumWords f.bbs.length
  ranges : s.ranges.length = f.numValues

/-- **The search for one value is exact.** On every graph of predecessors and from every block it returns, for a value that has
not been seen. No block has been pushed twice. `livein` has the blocks from which a way leads to the start without passing the
definition, and the range of the value, which was an interval, becomes the smallest interval that has the old one and these
blocks. Only this value becomes seen, and no other range changes; `livenessLoop` finds the same range. -/
theorem valueSearch_exact (f : PNLivenessFunction) (hpreds : ∀ bb ∈ f.bbs, ∀ n ∈ bb.predBbIds, n < f.bbs.length)
    (s : PNLivenessState) (hsized : s.Sized f) (start v : Nat) (hstart : start < f.bbs.length) (hv : v < f.numValues)
    (hseen : s.seenValues.bit v = false) (range : PNLivenessRange) (hget : s.ranges[v]? = some range)
    (hrange : range.firstBbId ≤ range.lastBbId) :
    ∃ s' pushed range', calculateLivenessPerValue f s start v = .ok (s', pushed) ∧ s'.Sized f ∧ pushed.Nodup ∧
      (∀ w, s'.seenValues.bit w = true ↔ w = v ∨ s.seenValues.bit w = true) ∧
      (∀ b, s'.livein.bit b = true ↔ f.LeadsTo v start b) ∧
      s'.ranges = s.ranges.set v range' ∧ range'.slotId = range.slotId ∧
      (∀ lo hi, (lo ≤ range.firstBbId ∧ range.lastBbId ≤ hi ∧ ∀ b, f.LeadsTo v start b → lo ≤ b ∧ b ≤ hi) ↔
        lo ≤ range'.firstBbId ∧ range'.lastBbId ≤ hi) ∧
      livenessLoop f (f.numModuleValues + v) (f.bbs.length + 1) ⟨[start], [start], [], range⟩ = .ok range' := by
  have hvalues := bitsetNumWords_le f.numValues
  have hvlt : v < 32 * s.seenValues.numWords := by
    rw [hsized.seenValues]
    omega
  obtain ⟨seenValues, hset⟩ := pnBitsetSet_total hvlt true
  obtain ⟨-, hwords, hbit⟩ := pnBitsetSet_bit hset
  obtain ⟨seenBbs, hsetBb, hholds⟩ := (pnBitsetClear_holds hsized.seenBbs).set hstart
  have hrefl : Widened range (· ∈ ([] : List Nat)) range := .refl _ (by simp)
  obtain ⟨t, hrun, hrun', hnodup, hw₁, hw₂, hlive, hwide, hslot⟩ := @searchLoop_spec f v start hpreds range hrange
    (f.bbs.length + 1) ⟨[start], [start], seenBbs, pnBitsetClear s.livein, range⟩ [] (.init _ _ _) (by simpa using hstart)
    hholds (pnBitsetClear_holds hsized.livein) hrefl rfl (by simp)
  refine ⟨⟨seenValues, t.seenBbs, t.livein, s.ranges.set v t.range⟩, t.pushed, t.range, ?_, ?_, hnodup, fun w => ?_, hlive, rfl,
    hslot, hwide.between_iff, hrun'⟩
  · rw [calculateLivenessPerValue, pnBitsetIsSet_total hvlt, ok_bind, hseen, if_neg (by decide), hset, ok_bind, hsetBb, ok_bind,
      hget]
    dsimp only
    rw [hrun]
    rfl
  · exact {
      seenValues := hwords.trans hsized.seenValues
      seenBbs := hw₁.trans hholds.words
      livein := hw₂.trans hsized.livein
      ranges := by rw [List.length_set, hsized.ranges] }
  · rw [hbit]
    by_cases hw : w = v <;> simp [hw]

/-- A loop: block 0 defines the value, block 1 uses it and is its own predecessor. -/
def selfLoop : PNLivenessFunction :=
  ⟨0, 0, 0, 1, [⟨[], [], 0, 0, [], []⟩, ⟨[], [0, 1, 0], PN_INVALID_VALUE_ID, PN_INVALID_VALUE_ID, [], []⟩]⟩

theorem valueSearch_exact_selfLoop : ∃ s' pushed, calculateLivenessPerValue selfLoop
    ⟨pnBitsetInit 1, pnBitsetInit 2, pnBitsetInit 2, [⟨0, 0, PN_INVALID_VALUE_ID⟩]⟩ 1 0 = .ok (s', pushed) ∧ pushed.Nodup ∧
      ∀ b, s'.livein.bit b = true ↔ selfLoop.LeadsTo 0 1 b := by
  obtain ⟨s', pushed, -, hrun, -, hnodup, -, hlive, -⟩ := valueSearch_exact selfLoop (by decide)
    ⟨pnBitsetInit 1, pnBitsetInit 2, pnBitsetInit 2, [⟨0, 0, PN_INVALID_VALUE_ID⟩]⟩ ⟨rfl, rfl, rfl, rfl⟩ 1 0 (by decide)
    (by decide) (by decide) ⟨0, 0, PN_INVALID_VALUE_ID⟩ rfl (by decide)
  exact ⟨s', pushed, hrun, hnodup, hlive⟩

end Pnacl
