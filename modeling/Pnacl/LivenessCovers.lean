import Mathlib.Data.List.Find
import Mathlib.Data.List.TakeWhile
import Pnacl.Liveness

/-!
# What live ranges cover

A value is live on entry to a block if some way backward from a use leads there without passing the definition. The range of
a value is the span of its defining block and of what the search from the first use finds (`livenessRanges_spec`), so it
covers the live blocks of the other uses only where they lie inside that span (`liveness_covers_iff`).
-/

namespace Pnacl

open Lib

/-! ## Live blocks -/

/-- The phi entries of a block. -/
def PNLivenessBlock.phiEntries (bb : PNLivenessBlock) : List PNPhiUse := bb.instructions.flatMap PNInstruction.phiUses

/-- The operands of the other instructions. -/
def PNLivenessBlock.usedIds (bb : PNLivenessBlock) : List Nat := bb.instructions.flatMap PNInstruction.usedIds

namespace PNLivenessFunction

variable (f : PNLivenessFunction)

/-- Value number `v` of the function is a local value: neither an argument nor a constant. -/
def IsLocal (v : Nat) : Prop := f.numArgs + f.numConstants ≤ v ∧ v < f.numValues

def preds (n : Nat) : List Nat := (f.bbs[n]?.map PNLivenessBlock.predBbIds).getD []

/-- Block `n` defines the value. -/
def DefinedIn (v n : Nat) : Prop := ∃ bb, f.bbs[n]? = some bb ∧ bb.Defines (f.numModuleValues + v)

/-- The value is used at the end of block `n`, or in it: an instruction there uses it, or a phi entry that comes from `n`. -/
def UsedAt (v n : Nat) : Prop :=
  (∃ bb, f.bbs[n]? = some bb ∧ f.numModuleValues + v ∈ bb.usedIds) ∨
    ∃ bb ∈ f.bbs, ∃ use ∈ bb.phiEntries, use.incoming = ⟨n, f.numModuleValues + v⟩

/-- Without passing the definition, a way leads from block `b` to block `n`. -/
def LeadsTo (v n b : Nat) : Prop := Reaches f.preds (f.DefinedIn v) n b

/-- The value is live on entry to block `b`. -/
def LiveIn (v b : Nat) : Prop := ∃ n, f.UsedAt v n ∧ f.LeadsTo v n b

/-- The range of every local value has the block that defines it and all blocks where it is live. -/
def Covers (ranges : List PNLivenessRange) : Prop :=
  ∀ v, f.IsLocal v → ∃ range, ranges[v]? = some range ∧
    (∀ n, f.DefinedIn v n → range.firstBbId ≤ n ∧ n ≤ range.lastBbId) ∧
    ∀ b, f.LiveIn v b → range.firstBbId ≤ b ∧ b ≤ range.lastBbId

/-! ## The use that is searched -/

/-- Where the search for the value starts from block `n`: at the block of a phi entry, if its operand and those of all entries
in front of it are local values, else at `n`, if another instruction uses it. -/
def blockSearch (v n : Nat) : Option Nat :=
  match f.bbs[n]? with
  | none => none
  | some bb =>
    match (bb.phiEntries.takeWhile (f.firstLocalId ≤ ·.incoming.valueId)).find? (·.incoming.valueId = f.numModuleValues + v) with
    | some use => some use.incoming.bbId
    | none => if f.numModuleValues + v ∈ bb.usedIds then some n else none

/-- The first of the blocks `n - 1, …, 0` with such a use. -/
def searchBelow (v : Nat) : Nat → Option Nat
  | 0 => none
  | n + 1 =>
    match f.blockSearch v n with
    | some start => some start
    | none => searchBelow v n

/-- Where the only search for the value starts. -/
def searchStart (v : Nat) : Option Nat := f.searchBelow v f.bbs.length

/-- The block defines the value, or a way leads from it to where the search starts. -/
def Found (v b : Nat) : Prop := f.DefinedIn v b ∨ ∃ start ∈ f.searchStart v, f.LeadsTo v start b

/-- No block where the value is live lies in front of all blocks that are found, or behind them. -/
def SearchSpans (v : Nat) : Prop := ∀ b, f.LiveIn v b → (∃ b' ≤ b, f.Found v b') ∧ ∃ b' ≥ b, f.Found v b'

/-- A function whose local values are each defined in one block, and whose operands and blocks exist; the passes have not run
yet. -/
structure SsaForm : Prop where
  bbs_le : f.bbs.length ≤ 2 ^ 16
  ids_le : f.numModuleValues + f.numValues ≤ PN_INVALID_VALUE_ID
  preds_lt : ∀ bb ∈ f.bbs, ∀ n ∈ bb.predBbIds, n < f.bbs.length
  used_lt : ∀ bb ∈ f.bbs, ∀ id ∈ bb.usedIds, id < f.numModuleValues + f.numValues
  phis_lt : ∀ bb ∈ f.bbs, ∀ use ∈ bb.phiEntries,
    use.incoming.bbId < f.bbs.length ∧ use.incoming.valueId < f.numModuleValues + f.numValues
  defs : ∀ bb ∈ f.bbs, (bb.firstDefId = PN_INVALID_VALUE_ID ∧ bb.lastDefId = PN_INVALID_VALUE_ID) ∨
    (f.numModuleValues ≤ bb.firstDefId ∧ bb.firstDefId ≤ bb.lastDefId ∧ bb.lastDefId < f.numModuleValues + f.numValues)
  defined : ∀ v, f.IsLocal v → ∃! n, f.DefinedIn v n
  fresh : ∀ bb ∈ f.bbs, bb.phiUses = [] ∧ bb.uses = []

end PNLivenessFunction

variable {f : PNLivenessFunction} {v start : Nat}

/-! ## One search -/

/-- The range is widened to the blocks of `S`, and no further. -/
structure Widened (range : PNLivenessRange) (S : Nat → Prop) (range' : PNLivenessRange) : Prop where
  first_le : range'.firstBbId ≤ range.firstBbId
  le_last : range.lastBbId ≤ range'.lastBbId
  covers : ∀ b, S b → range'.firstBbId ≤ b ∧ b ≤ range'.lastBbId
  first_mem : range'.firstBbId = range.firstBbId ∨ S range'.firstBbId
  last_mem : range'.lastBbId = range.lastBbId ∨ S range'.lastBbId

theorem Widened.refl (range : PNLivenessRange) {S : Nat → Prop} (h : ∀ b, ¬S b) : Widened range S range :=
  ⟨le_rfl, le_rfl, fun b hb => absurd hb (h b), .inl rfl, .inl rfl⟩

theorem Widened.congr {range range' : PNLivenessRange} {S T : Nat → Prop} (h : Widened range S range') (hST : ∀ b, S b ↔ T b) :
    Widened range T range' :=
  ⟨h.first_le, h.le_last, fun b hb => h.covers b ((hST b).mpr hb), h.first_mem.imp_right (hST _).mp, h.last_mem.imp_right (hST _).mp⟩

theorem Widened.ordered {range range' : PNLivenessRange} {S : Nat → Prop} (h : Widened range S range')
    (hr : range.firstBbId ≤ range.lastBbId) : range'.firstBbId ≤ range'.lastBbId :=
  h.first_le.trans (hr.trans h.le_last)

/-- One more block. -/
theorem Widened.widen {range range' : PNLivenessRange} {S : Nat → Prop} (h : Widened range S range')
    (hr : range.firstBbId ≤ range.lastBbId) (b : Nat) : Widened range (fun c => c = b ∨ S c) (range'.widen b) := by
  have hordered := h.ordered hr
  unfold PNLivenessRange.widen
  split
  · rename_i hlt
    refine ⟨(Nat.le_of_lt hlt).trans h.first_le, h.le_last, ?_, .inr (.inl rfl), h.last_mem.imp_right .inr⟩
    rintro c (rfl | hc)
    · exact ⟨le_rfl, (Nat.le_of_lt hlt).trans hordered⟩
    · exact ⟨(Nat.le_of_lt hlt).trans (h.covers c hc).1, (h.covers c hc).2⟩
  · rename_i hge
    split
    · rename_i hgt
      refine ⟨h.first_le, h.le_last.trans (Nat.le_of_lt hgt), ?_, h.first_mem.imp_right .inr, .inr (.inl rfl)⟩
      rintro c (rfl | hc)
      · exact ⟨Nat.le_of_not_lt hge, le_rfl⟩
      · exact ⟨(h.covers c hc).1, (h.covers c hc).2.trans (Nat.le_of_lt hgt)⟩
    · rename_i hle
      refine ⟨h.first_le, h.le_last, ?_, h.first_mem.imp_right .inr, h.last_mem.imp_right .inr⟩
      rintro c (rfl | hc)
      · exact ⟨Nat.le_of_not_lt hge, Nat.le_of_not_lt hle⟩
      · exact h.covers c hc

theorem length_le_of_nodup {l : List Nat} {n : Nat} (h : l.Nodup) (hlt : ∀ a ∈ l, a < n) : l.length ≤ n := by
  have hsub : l ⊆ List.range n := fun a ha => List.mem_range.mpr (hlt a ha)
  simpa using (h.subperm hsub).length_le

/-- The assertion of the push never fails. -/
theorem pushPreds_eq {numBbs : Nat} : ∀ {preds stack seen : List Nat}, (∀ p ∈ preds, p < numBbs) → stack.Nodup →
    (∀ a ∈ stack, a ∈ seen) → (∀ a ∈ seen, a < numBbs) →
    pushPreds numBbs preds stack seen = .ok (pushUnseen preds stack seen)
  | [], _, _, _, _, _, _ => rfl
  | p :: preds, stack, seen, hpreds, hnodup, hsub, hlt => by
    rw [pushPreds, pushUnseen]
    have hpreds' := fun q hq => hpreds q (List.mem_cons_of_mem _ hq)
    split
    · exact pushPreds_eq hpreds' hnodup hsub hlt
    · rename_i hp
      have hnodup' : (p :: stack).Nodup := List.nodup_cons.mpr ⟨fun h => hp (hsub p h), hnodup⟩
      have hsub' : ∀ a ∈ p :: stack, a ∈ p :: seen := fun a ha => by
        rcases List.mem_cons.mp ha with rfl | ha
        · exact List.mem_cons_self ..
        · exact List.mem_cons_of_mem _ (hsub a ha)
      have hlt' : ∀ a ∈ p :: seen, a < numBbs := fun a ha => by
        rcases List.mem_cons.mp ha with rfl | ha
        · exact hpreds _ (List.mem_cons_self ..)
        · exact hlt a ha
      have hlen := length_le_of_nodup hnodup' fun a ha => hlt' a (hsub' a ha)
      rw [cAssert_bind (show stack.length < numBbs from hlen)]
      exact pushPreds_eq hpreds' hnodup' hsub' hlt'

/-- The search returns, and widens the range to the blocks from which a way leads to its start. -/
theorem livenessLoop_spec (hpreds : ∀ bb ∈ f.bbs, ∀ n ∈ bb.predBbIds, n < f.bbs.length) {range : PNLivenessRange}
    (hrange : range.firstBbId ≤ range.lastBbId) : ∀ {fuel : Nat} {s : LivenessSearch},
    SearchInv f.preds (f.DefinedIn v) start s.stack s.seenBbs s.livein → (∀ a ∈ s.seenBbs, a < f.bbs.length) →
    Widened range (· ∈ s.livein) s.range → f.bbs.length + s.stack.length < fuel + s.seenBbs.length →
    ∃ range', livenessLoop f (f.numModuleValues + v) fuel s = .ok range' ∧ Widened range (f.LeadsTo v start) range'
  | 0, s, hinv, hlt, _, hfuel => by
    have := length_le_of_nodup hinv.seen_nodup hlt
    omega
  | fuel + 1, ⟨[], seenBbs, livein, range'⟩, hinv, hlt, hwide, hfuel => ⟨range', rfl, hwide.congr fun _ => hinv.visited_iff⟩
  | fuel + 1, ⟨b :: stack, seenBbs, livein, range'⟩, hinv, hlt, hwide, hfuel => by
    have hb : b < f.bbs.length := hlt b (hinv.stack_seen b (List.mem_cons_self ..))
    have hget := List.getElem?_eq_getElem hb
    rw [livenessLoop]
    dsimp only at hinv hlt hwide hfuel ⊢
    rw [hget]
    dsimp only
    rw [List.length_cons] at hfuel
    have hfresh := hinv.fresh b (List.mem_cons_self ..)
    by_cases hdef : (f.bbs[b]).Defines (f.numModuleValues + v)
    · rw [if_pos (.inl hdef)]
      exact livenessLoop_spec hpreds hrange (hinv.pop ⟨_, hget, hdef⟩) hlt hwide (by dsimp only; omega)
    · have hstop : ¬f.DefinedIn v b := by
        rintro ⟨bb, hbb, hdef'⟩
        obtain rfl := Option.some.inj (hget.symm.trans hbb)
        exact hdef hdef'
      have hnext : f.preds b = (f.bbs[b]).predBbIds := by
        rw [PNLivenessFunction.preds, hget]
        rfl
      have hvisit := hinv.visit hstop
      have hseen := fun a ha => hinv.stack_seen a (List.mem_cons_of_mem b ha)
      have hlt' := hpreds _ (List.getElem_mem hb)
      have hlength := pushUnseen_length (f.bbs[b]).predBbIds stack seenBbs
      rw [hnext] at hvisit
      rw [if_neg (not_or.mpr ⟨hdef, hfresh⟩),
        pushPreds_eq hlt' (List.nodup_cons.mp hinv.stack_nodup).2 hseen hlt, ok_bind]
      refine livenessLoop_spec hpreds hrange hvisit (fun a ha => ?_) ?_ (by dsimp only; omega)
      · rcases mem_pushUnseen_seen.mp ha with ha | ha
        · exact hlt a ha
        · exact hlt' a ha
      · exact (hwide.widen hrange b).congr fun c => by simp

/-! ## All searches -/

/-- The searches of the loops in their order: the block and the value. -/
def searchAll (f : PNLivenessFunction) : List (Nat × Nat) → LivenessState → Except Stop LivenessState
  | [], s => .ok s
  | start :: starts, s => do
    let s ← pnBasicBlockCalculateLivenessPerValue f s start.1 start.2
    searchAll f starts s

theorem searchAll_append (starts starts' : List (Nat × Nat)) (s : LivenessState) :
    searchAll f (starts ++ starts') s = searchAll f starts s >>= searchAll f starts' := by
  induction starts generalizing s with
  | nil => rfl
  | cons start starts ih =>
    rw [List.cons_append, searchAll, searchAll]
    cases pnBasicBlockCalculateLivenessPerValue f s start.1 start.2 with
    | error e => rfl
    | ok s' => exact ih s'

theorem livenessPhiUses_eq (uses : List PNPhiUse) (s : LivenessState) :
    livenessPhiUses f uses s = searchAll f ((uses.takeWhile (f.firstLocalId ≤ ·.incoming.valueId)).map fun use =>
      (use.incoming.bbId, use.incoming.valueId - f.numModuleValues)) s := by
  induction uses generalizing s with
  | nil => rfl
  | cons use uses ih =>
    rw [livenessPhiUses]
    by_cases h : use.incoming.valueId < f.firstLocalId
    · rw [if_pos h, List.takeWhile_cons_of_neg (by simpa using h)]
      rfl
    · rw [if_neg h, List.takeWhile_cons_of_pos (by simpa using h), List.map_cons, searchAll]
      cases pnBasicBlockCalculateLivenessPerValue f s use.incoming.bbId (use.incoming.valueId - f.numModuleValues) with
      | error e => rfl
      | ok s' => exact ih s'

theorem livenessUses_eq (n : Nat) (uses : List Nat) (s : LivenessState) :
    livenessUses f n uses s = searchAll f (uses.map fun id => (n, id - f.numModuleValues)) s := by
  induction uses generalizing s with
  | nil => rfl
  | cons id uses ih =>
    rw [livenessUses, List.map_cons, searchAll]
    cases pnBasicBlockCalculateLivenessPerValue f s n (id - f.numModuleValues) with
    | error e => rfl
    | ok s' => exact ih s'

/-- The searches of block `n`. -/
def blockStarts (f : PNLivenessFunction) (n : Nat) : List (Nat × Nat) :=
  match f.bbs[n]? with
  | none => []
  | some bb =>
    ((bb.phiUses.takeWhile (f.firstLocalId ≤ ·.incoming.valueId)).map fun use =>
      (use.incoming.bbId, use.incoming.valueId - f.numModuleValues)) ++ bb.uses.map fun id => (n, id - f.numModuleValues)

/-- The searches of the blocks `n - 1, …, 0`. -/
def startsBelow (f : PNLivenessFunction) : Nat → List (Nat × Nat)
  | 0 => []
  | n + 1 => blockStarts f n ++ startsBelow f n

theorem livenessBlocks_eq {n : Nat} (hn : n ≤ f.bbs.length) (hbbs : f.bbs.length ≤ 2 ^ 16) (s : LivenessState) :
    livenessBlocks f n s = searchAll f (startsBelow f n) s := by
  induction n generalizing s with
  | zero => rfl
  | succ n ih =>
    have hget := List.getElem?_eq_getElem hn
    have hid : toBbId n = n := Nat.mod_eq_of_lt (by omega)
    have hblock : pnBasicBlockCalculateLiveness f s n = searchAll f (blockStarts f n) s := by
      rw [pnBasicBlockCalculateLiveness, blockStarts, hget]
      dsimp only
      rw [searchAll_append, ← livenessPhiUses_eq]
      exact congrArg _ (funext fun s' => livenessUses_eq n _ s')
    rw [livenessBlocks, hid, hblock, startsBelow, searchAll_append]
    exact congrArg _ (funext fun s' => ih (by omega) s')

/-- What the first search for `v` among `starts` makes of its range. -/
def Searched (f : PNLivenessFunction) (v : Nat) (start : Option (Nat × Nat)) (range range' : PNLivenessRange) : Prop :=
  match start with
  | none => range' = range
  | some start => Widened range (f.LeadsTo v start.1) range'

theorem perValue_spec (hpreds : ∀ bb ∈ f.bbs, ∀ n ∈ bb.predBbIds, n < f.bbs.length) {s : LivenessState} {n : Nat}
    (hn : n < f.bbs.length) (hv : v < s.ranges.length) (hseen : v ∉ s.seenValues)
    (hordered : s.ranges[v].firstBbId ≤ s.ranges[v].lastBbId) :
    ∃ range', pnBasicBlockCalculateLivenessPerValue f s n v = .ok ⟨v :: s.seenValues, s.ranges.set v range'⟩ ∧
      Widened s.ranges[v] (f.LeadsTo v n) range' := by
  have hrefl : Widened s.ranges[v] (· ∈ ([] : List Nat)) s.ranges[v] := .refl _ (by simp)
  obtain ⟨range', hloop, hwide⟩ := @livenessLoop_spec f v n hpreds s.ranges[v] hordered (f.bbs.length + 1)
    ⟨[n], [n], [], s.ranges[v]⟩ (.init _ _ _) (by simpa using hn) hrefl (by simp)
  refine ⟨range', ?_, hwide⟩
  rw [pnBasicBlockCalculateLivenessPerValue, if_neg hseen, List.getElem?_eq_getElem hv]
  dsimp only
  rw [hloop]
  rfl

/-- All searches return, and every range is widened by the first search for its value. -/
theorem searchAll_spec (hpreds : ∀ bb ∈ f.bbs, ∀ n ∈ bb.predBbIds, n < f.bbs.length) : ∀ {starts : List (Nat × Nat)}
    {s : LivenessState}, (∀ start ∈ starts, start.1 < f.bbs.length ∧ start.2 < s.ranges.length) →
    (∀ range ∈ s.ranges, range.firstBbId ≤ range.lastBbId) →
    ∃ s', searchAll f starts s = .ok s' ∧ s'.ranges.length = s.ranges.length ∧
      ∀ {v range}, s.ranges[v]? = some range → ∃ range', s'.ranges[v]? = some range' ∧
        Searched f v (if v ∈ s.seenValues then none else starts.find? (·.2 = v)) range range'
  | [], s, _, _ => ⟨s, rfl, rfl, fun {v range} hv => ⟨range, hv, by rw [List.find?_nil, ite_self]; rfl⟩⟩
  | start :: starts, s, hlt, hordered => by
    obtain ⟨n, w⟩ := start
    obtain ⟨hn, hw⟩ := hlt (n, w) (List.mem_cons_self ..)
    have hlt' := fun start' h => hlt start' (List.mem_cons_of_mem _ h)
    rw [searchAll]
    dsimp only at hn hw ⊢
    by_cases hseen : w ∈ s.seenValues
    · have hskip : pnBasicBlockCalculateLivenessPerValue f s n w = .ok s := if_pos hseen
      obtain ⟨s', hs', hlen, hspec⟩ := searchAll_spec hpreds hlt' hordered
      refine ⟨s', by rw [hskip]; exact hs', hlen, fun {v range} hv => ?_⟩
      obtain ⟨range', hv', hsearched⟩ := hspec hv
      refine ⟨range', hv', ?_⟩
      by_cases hvs : v ∈ s.seenValues
      · rwa [if_pos hvs] at hsearched ⊢
      · rw [if_neg hvs] at hsearched ⊢
        rwa [List.find?_cons_of_neg (by simpa using fun h : w = v => hvs (h ▸ hseen))]
    · obtain ⟨range₁, hper, hwide⟩ := perValue_spec hpreds hn hw hseen (hordered _ (List.getElem_mem hw))
      have hordered' : ∀ range ∈ s.ranges.set w range₁, range.firstBbId ≤ range.lastBbId := fun range hmem => by
        rcases List.mem_or_eq_of_mem_set hmem with hmem | rfl
        · exact hordered range hmem
        · exact hwide.ordered (hordered _ (List.getElem_mem hw))
      obtain ⟨s', hs', hlen, hspec⟩ := @searchAll_spec hpreds starts ⟨w :: s.seenValues, s.ranges.set w range₁⟩
        (by simpa using hlt') hordered'
      refine ⟨s', by rw [hper]; exact hs', by simpa using hlen, fun {v range} hv => ?_⟩
      by_cases hvw : v = w
      · subst hvw
        have hset : (s.ranges.set v range₁)[v]? = some range₁ := List.getElem?_set_self hw
        obtain ⟨range', hv', hsearched⟩ := hspec hset
        obtain rfl : s.ranges[v] = range := Option.some.inj ((List.getElem?_eq_getElem hw).symm.trans hv)
        rw [if_pos (List.mem_cons_self ..)] at hsearched
        refine ⟨range', hv', ?_⟩
        rw [if_neg hseen, List.find?_cons_of_pos (by simp), show range' = range₁ from hsearched]
        exact hwide
      · have hset : (s.ranges.set w range₁)[v]? = some range := (List.getElem?_set_ne (Ne.symm hvw)).trans hv
        obtain ⟨range', hv', hsearched⟩ := hspec hset
        refine ⟨range', hv', ?_⟩
        rw [List.find?_cons_of_neg (by simpa using Ne.symm hvw)]
        by_cases hvs : v ∈ s.seenValues
        · rw [if_pos (List.mem_cons_of_mem _ hvs)] at hsearched
          rwa [if_pos hvs]
        · rw [if_neg (by simpa [hvw] using hvs)] at hsearched
          rwa [if_neg hvs]

/-! ## Definitions -/

theorem setDefs_spec {n : Nat} : ∀ {ms : List Nat} {ranges : List PNLivenessRange},
    (∀ m ∈ ms, f.numModuleValues ≤ m ∧ m < f.numModuleValues + ranges.length) →
    ∃ ranges', setDefs f n ms ranges = .ok ranges' ∧ ranges'.length = ranges.length ∧
      ∀ {v range}, ranges[v]? = some range → ∃ range', ranges'[v]? = some range' ∧
        if f.numModuleValues + v ∈ ms then range'.firstBbId = toBbId n ∧ range'.lastBbId = toBbId n else range' = range
  | [], ranges, _ => ⟨ranges, rfl, rfl, fun {v range} hv => ⟨range, hv, by simp⟩⟩
  | m :: ms, ranges, hlt => by
    obtain ⟨hle, hm⟩ := hlt m (List.mem_cons_self ..)
    have hget : ranges[m - f.numModuleValues]? = some ranges[m - f.numModuleValues] := List.getElem?_eq_getElem (by omega)
    rw [setDefs, hget]
    dsimp only
    generalize hnew : ({ ranges[m - f.numModuleValues] with firstBbId := toBbId n, lastBbId := toBbId n } : PNLivenessRange) = new
    obtain ⟨ranges', hs, hlen, hspec⟩ := @setDefs_spec n ms (ranges.set (m - f.numModuleValues) new)
      fun m' h => by
        rw [List.length_set]
        exact hlt m' (List.mem_cons_of_mem _ h)
    refine ⟨ranges', hs, by rw [hlen, List.length_set], fun {v range} hv => ?_⟩
    by_cases hvm : f.numModuleValues + v = m
    · have hset : (ranges.set (m - f.numModuleValues) new)[v]? = some new := by
        rw [show m - f.numModuleValues = v by omega]
        exact List.getElem?_set_self (List.getElem?_eq_some_iff.mp hv).1
      obtain ⟨range', hv', hspec⟩ := hspec hset
      refine ⟨range', hv', ?_⟩
      rw [if_pos (hvm ▸ List.mem_cons_self ..)]
      split at hspec
      · exact hspec
      · rw [hspec, ← hnew]
        exact ⟨rfl, rfl⟩
    · have hset : (ranges.set (m - f.numModuleValues) new)[v]? = some range :=
        (List.getElem?_set_ne (by omega)).trans hv
      obtain ⟨range', hv', hspec⟩ := hspec hset
      refine ⟨range', hv', ?_⟩
      by_cases hmem : f.numModuleValues + v ∈ ms
      · rw [if_pos hmem] at hspec
        rwa [if_pos (List.mem_cons_of_mem _ hmem)]
      · rw [if_neg hmem] at hspec
        rwa [if_neg (by simp [hvm, hmem])]

/-- A block defines nothing, or a piece of the function's values. -/
def DefsOk (f : PNLivenessFunction) (bb : PNLivenessBlock) : Prop :=
  (bb.firstDefId = PN_INVALID_VALUE_ID ∧ bb.lastDefId = PN_INVALID_VALUE_ID) ∨
    (f.numModuleValues ≤ bb.firstDefId ∧ bb.firstDefId ≤ bb.lastDefId ∧ bb.lastDefId < f.numModuleValues + f.numValues)

/-- What the loop over the definitions of the blocks from `n` on makes of the range of value `v`. -/
structure DefSet (f : PNLivenessFunction) (bbs : List PNLivenessBlock) (n v : Nat) (range range' : PNLivenessRange) : Prop where
  kept : (∀ bb ∈ bbs, ¬bb.Defines (f.numModuleValues + v)) → range' = range
  set : ∀ {k bb}, bbs[k]? = some bb → bb.Defines (f.numModuleValues + v) →
    (∀ {k' bb'}, bbs[k']? = some bb' → bb'.Defines (f.numModuleValues + v) → k' = k) →
    range'.firstBbId = toBbId (n + k) ∧ range'.lastBbId = toBbId (n + k)
  ordered : range.firstBbId ≤ range.lastBbId → range'.firstBbId ≤ range'.lastBbId

theorem setAllDefs_spec (hids : f.numModuleValues + f.numValues ≤ PN_INVALID_VALUE_ID) : ∀ {bbs : List PNLivenessBlock}
    {n : Nat} {ranges : List PNLivenessRange}, (∀ bb ∈ bbs, DefsOk f bb) → ranges.length = f.numValues →
    ∃ ranges', setAllDefs f bbs n ranges = .ok ranges' ∧ ranges'.length = ranges.length ∧
      ∀ {v range}, ranges[v]? = some range → ∃ range', ranges'[v]? = some range' ∧ DefSet f bbs n v range range'
  | [], n, ranges, _, _ => by
    refine ⟨ranges, rfl, rfl, fun {v range} hv => ⟨range, hv, fun _ => rfl, fun {k bb} hk => ?_, id⟩⟩
    cases hk
  | bb :: bbs, n, ranges, hok, hlength => by
    -- the values that this block sets are those that it defines
    have hblock : ∃ ranges₁, (if bb.firstDefId ≠ PN_INVALID_VALUE_ID ∧ bb.lastDefId ≠ PN_INVALID_VALUE_ID then
          setDefs f n (List.range' bb.firstDefId (bb.lastDefId + 1 - bb.firstDefId)) ranges else .ok ranges) = .ok ranges₁ ∧
        ranges₁.length = ranges.length ∧ ∀ {v range}, ranges[v]? = some range → ∃ range', ranges₁[v]? = some range' ∧
          if bb.Defines (f.numModuleValues + v) then range'.firstBbId = toBbId n ∧ range'.lastBbId = toBbId n
          else range' = range := by
      rcases hok bb (List.mem_cons_self ..) with ⟨hfirst, hlast⟩ | ⟨h₁, h₂, h₃⟩
      · refine ⟨ranges, if_neg fun h => h.1 hfirst, rfl, fun {v range} hv => ⟨range, hv, ?_⟩⟩
        have hvlt := (List.getElem?_eq_some_iff.mp hv).1
        rw [if_neg fun h => ?_]
        have := h.1
        omega
      · rw [if_pos ⟨by omega, by omega⟩]
        obtain ⟨ranges₁, hs, hlen, hspec⟩ := @setDefs_spec f n
          (List.range' bb.firstDefId (bb.lastDefId + 1 - bb.firstDefId)) ranges fun m hm => by
            rw [List.mem_range'_1] at hm
            omega
        refine ⟨ranges₁, hs, hlen, fun {v range} hv => ?_⟩
        obtain ⟨range', hv', hspec⟩ := hspec hv
        refine ⟨range', hv', ?_⟩
        have hiff : f.numModuleValues + v ∈ List.range' bb.firstDefId (bb.lastDefId + 1 - bb.firstDefId) ↔
            bb.Defines (f.numModuleValues + v) := by
          rw [List.mem_range'_1]
          unfold PNLivenessBlock.Defines
          omega
        simpa only [hiff] using hspec
    obtain ⟨ranges₁, hs₁, hlen₁, hspec₁⟩ := hblock
    obtain ⟨ranges', hs, hlen, hspec⟩ := setAllDefs_spec hids (n := n + 1)
      (fun bb' h => hok bb' (List.mem_cons_of_mem _ h)) (hlen₁.trans hlength)
    refine ⟨ranges', ?_, hlen.trans hlen₁, fun {v range} hv => ?_⟩
    · rw [setAllDefs]
      split
      · rename_i h
        rw [if_pos h] at hs₁
        rw [hs₁, ok_bind, hs]
      · rename_i h
        rw [if_neg h] at hs₁
        rwa [Except.ok.inj hs₁]
    · obtain ⟨range₁, hv₁, hr₁⟩ := hspec₁ hv
      obtain ⟨range', hv', hr'⟩ := hspec hv₁
      refine ⟨range', hv', fun hno => ?_, fun {k bb₁} hk hdef huniq => ?_, fun hle => hr'.ordered ?_⟩
      · rw [if_neg (hno bb (List.mem_cons_self ..))] at hr₁
        rw [hr'.kept fun bb' h => hno bb' (List.mem_cons_of_mem _ h), hr₁]
      · cases k with
        | zero =>
          obtain rfl : bb = bb₁ := Option.some.inj hk
          rw [if_pos hdef] at hr₁
          have hkept := hr'.kept fun bb' hmem hdef' => by
            obtain ⟨k', hk'⟩ := List.mem_iff_getElem?.mp hmem
            cases @huniq (k' + 1) bb' hk' hdef'
          rw [hkept]
          exact hr₁
        | succ k =>
          have hset := hr'.set (k := k) hk hdef fun {k' bb'} hk' hdef' => Nat.succ.inj (@huniq (k' + 1) bb' hk' hdef')
          rwa [show n + 1 + k = n + (k + 1) by omega] at hset
      · split at hr₁
        · exact (hr₁.1.trans hr₁.2.symm).le
        · rwa [hr₁]

/-- The slot map leaves the blocks of the ranges alone. -/
theorem placeRanges_blocks {numValues : Nat} : ∀ {ranges slots : List PNLivenessRange} {s : SlotScan} {visited : List SlotScan},
    placeRanges numValues ranges s = .ok (slots, visited) →
    slots.map (fun r => (r.firstBbId, r.lastBbId)) = ranges.map fun r => (r.firstBbId, r.lastBbId)
  | [], _, _, _, h => by
    cases h
    rfl
  | range :: ranges, slots, s, visited, h => by
    obtain ⟨⟨range', s', visited'⟩, hplace, h⟩ := bind_eq_ok.mp h
    obtain ⟨⟨slots', visited''⟩, hrest, h⟩ := bind_eq_ok.mp h
    cases h
    obtain ⟨⟨t, visited₁⟩, -, hplace⟩ := bind_eq_ok.mp hplace
    obtain ⟨⟨slotId, avail⟩, -, hplace⟩ := bind_eq_ok.mp hplace
    obtain ⟨-, hplace⟩ := cAssert_bind_eq_ok.mp hplace
    cases hplace
    rw [List.map_cons, placeRanges_blocks hrest]
    rfl

/-- Nor does it drop one. -/
theorem slotMap_get {numArgs numConstants : Nat} {ranges slots : List PNLivenessRange} {visited : List SlotScan}
    (h : pnFunctionMakeSlotMap numArgs numConstants ranges = .ok (slots, visited)) {range : PNLivenessRange}
    (hv : ranges[v]? = some range) : ∃ range', (ranges.take (numArgs + numConstants) ++ slots)[v]? = some range' ∧
      range'.firstBbId = range.firstBbId ∧ range'.lastBbId = range.lastBbId := by
  obtain ⟨⟨slots', visited'⟩, hplace, h⟩ := bind_eq_ok.mp h
  cases h
  have hmap : (ranges.take (numArgs + numConstants) ++ slots).map (fun r => (r.firstBbId, r.lastBbId)) =
      ranges.map fun r => (r.firstBbId, r.lastBbId) := by
    rw [List.map_append, placeRanges_blocks hplace, ← List.map_append, List.take_append_drop]
  have hget := congrArg (·[v]?) hmap
  rw [List.getElem?_map, List.getElem?_map, hv] at hget
  obtain ⟨range', hv', heq⟩ := Option.map_eq_some_iff.mp hget
  rw [Prod.mk.injEq] at heq
  exact ⟨range', hv', heq⟩

/-! ## The whole pass -/

/-- `bb'` is the block `bb` of `f` with its uses. -/
def UsesSet (f : PNLivenessFunction) (bb bb' : PNLivenessBlock) : Prop :=
  bb' = { bb with phiUses := bb.phiEntries, uses := bb'.uses } ∧ ∀ id, id ∈ bb'.uses ↔ f.firstLocalId ≤ id ∧ id ∈ bb.usedIds

theorem calculateUses_ok (h : f.SsaForm) {bb : PNLivenessBlock} (hbb : bb ∈ f.bbs) :
    ∃ bb', f.calculateUses bb = .ok bb' ∧ UsesSet f bb bb' := by
  have hword : ∀ id ∈ (bb.instructions.flatMap PNInstruction.usedIds).filter (f.firstLocalId ≤ ·),
      (id - f.numModuleValues) / 32 < bitsetNumWords f.numValues := by
    intro id hid
    obtain ⟨hmem, hlocal⟩ := List.mem_filter.mp hid
    have hlt := h.used_lt bb hbb id hmem
    have hle : f.firstLocalId ≤ id := by simpa using hlocal
    unfold PNLivenessFunction.firstLocalId at hle
    unfold bitsetNumWords
    omega
  refine ⟨_, by rw [PNLivenessFunction.calculateUses, cAssert_bind hword], ?_, fun id => ?_⟩
  · rw [(h.fresh bb hbb).1]
    rfl
  · show id ∈ List.filter _ _ ↔ _
    rw [List.mem_filter, decide_eq_true_eq, List.mem_filter, decide_eq_true_eq]
    constructor
    · rintro ⟨-, hid, hle⟩
      exact ⟨hle, hid⟩
    · rintro ⟨hle, hid⟩
      have hlt := h.used_lt bb hbb id hid
      unfold PNLivenessFunction.firstLocalId at hle
      refine ⟨List.mem_map.mpr ⟨id - f.numModuleValues, List.mem_range.mpr ?_, by omega⟩, hid, hle⟩
      unfold bitsetNumWords
      omega

theorem mapM_forall₂ {α β : Type} {R : α → β → Prop} {g : α → Except Stop β} :
    ∀ {l : List α}, (∀ a ∈ l, ∃ b, g a = .ok b ∧ R a b) → ∃ l', l.mapM g = .ok l' ∧ List.Forall₂ R l l'
  | [], _ => ⟨[], rfl, .nil⟩
  | a :: l, h => by
    obtain ⟨b, hb, hab⟩ := h a (List.mem_cons_self ..)
    obtain ⟨l', hl', hrest⟩ := mapM_forall₂ fun a' h' => h a' (List.mem_cons_of_mem _ h')
    refine ⟨b :: l', ?_, .cons hab hrest⟩
    rw [List.mapM_cons, hb, ok_bind, hl']
    rfl

/-- `f'` is `f` with the uses of all blocks. -/
structure UsesOf (f f' : PNLivenessFunction) : Prop where
  numModuleValues : f'.numModuleValues = f.numModuleValues
  numArgs : f'.numArgs = f.numArgs
  numConstants : f'.numConstants = f.numConstants
  numValues : f'.numValues = f.numValues
  blocks : List.Forall₂ (UsesSet f) f.bbs f'.bbs

theorem calculateLivenessUses_ok (h : f.SsaForm) : ∃ f', pnFunctionCalculateLivenessUses f = .ok f' ∧ UsesOf f f' := by
  obtain ⟨bbs, hbbs, hblocks⟩ := mapM_forall₂ (R := UsesSet f) fun bb hbb => calculateUses_ok h hbb
  refine ⟨{ f with bbs := bbs }, ?_, rfl, rfl, rfl, rfl, hblocks⟩
  rw [pnFunctionCalculateLivenessUses, hbbs]
  rfl

variable {f' : PNLivenessFunction}

theorem UsesOf.length (h : UsesOf f f') : f'.bbs.length = f.bbs.length := h.blocks.length_eq.symm

theorem UsesOf.get (h : UsesOf f f') {n : Nat} :
    (f.bbs[n]? = none ∧ f'.bbs[n]? = none) ∨ ∃ bb bb', f.bbs[n]? = some bb ∧ f'.bbs[n]? = some bb' ∧ UsesSet f bb bb' := by
  by_cases hn : n < f.bbs.length
  · have hn' := h.length ▸ hn
    refine .inr ⟨_, _, List.getElem?_eq_getElem hn, List.getElem?_eq_getElem hn', ?_⟩
    exact (List.forall₂_iff_get.mp h.blocks).2 n hn hn'
  · exact .inl ⟨List.getElem?_eq_none (by omega), List.getElem?_eq_none (by rw [h.length]; omega)⟩

theorem UsesOf.definedIn (h : UsesOf f f') {n : Nat} : f'.DefinedIn v n ↔ f.DefinedIn v n := by
  unfold PNLivenessFunction.DefinedIn
  rw [h.numModuleValues]
  rcases @UsesOf.get f f' h n with ⟨hbb, hbb'⟩ | ⟨bb, bb', hbb, hbb', hset, -⟩
  · simp [hbb, hbb']
  · rw [hbb, hbb', hset]
    simp [PNLivenessBlock.Defines]

theorem UsesOf.preds (h : UsesOf f f') : f'.preds = f.preds := by
  funext n
  unfold PNLivenessFunction.preds
  rcases @UsesOf.get f f' h n with ⟨hbb, hbb'⟩ | ⟨bb, bb', hbb, hbb', hset, -⟩
  · rw [hbb, hbb']
  · rw [hbb, hbb', hset]
    rfl

theorem UsesOf.leadsTo (h : UsesOf f f') : f'.LeadsTo v start = f.LeadsTo v start := by
  have hdef : f'.DefinedIn v = f.DefinedIn v := funext fun n => propext h.definedIn
  funext b
  rw [PNLivenessFunction.LeadsTo, PNLivenessFunction.LeadsTo, h.preds, hdef]

/-- A block is searched for a value from where `blockSearch` has it. -/
theorem blockStarts_find (h : UsesOf f f') (n v : Nat) (hv : f.IsLocal v) :
    ((blockStarts f' n).find? (·.2 = v)).map (·.1) = f.blockSearch v n := by
  have hlocal : f'.firstLocalId = f.firstLocalId := by
    unfold PNLivenessFunction.firstLocalId
    rw [h.numModuleValues, h.numArgs, h.numConstants]
  have hle : f.firstLocalId ≤ f.numModuleValues + v := by
    have := hv.1
    unfold PNLivenessFunction.firstLocalId
    omega
  rw [blockStarts, PNLivenessFunction.blockSearch, hlocal, h.numModuleValues]
  rcases @UsesOf.get f f' h n with ⟨hbb, hbb'⟩ | ⟨bb, bb', hbb, hbb', hset, huses⟩
  · rw [hbb, hbb']
    rfl
  · rw [hbb, hbb']
    dsimp only
    have hphis : bb'.phiUses = bb.phiEntries := by rw [hset]
    rw [hphis, List.find?_append, List.find?_map, List.find?_map]
    -- an operand that the loop comes to is a local value, so its number says which one
    have hcongr : (bb.phiEntries.takeWhile (f.firstLocalId ≤ ·.incoming.valueId)).find?
          ((fun start : Nat × Nat => decide (start.2 = v)) ∘ fun use => (use.incoming.bbId, use.incoming.valueId - f.numModuleValues)) =
        (bb.phiEntries.takeWhile (f.firstLocalId ≤ ·.incoming.valueId)).find? (·.incoming.valueId = f.numModuleValues + v) := by
      refine List.find?_congr fun use huse => ?_
      have hge : f.firstLocalId ≤ use.incoming.valueId := by simpa using List.mem_takeWhile_imp huse
      unfold PNLivenessFunction.firstLocalId at hge
      simp only [Function.comp_apply, decide_eq_decide]
      omega
    rw [hcongr]
    cases (bb.phiEntries.takeWhile (f.firstLocalId ≤ ·.incoming.valueId)).find? (·.incoming.valueId = f.numModuleValues + v) with
    | some use => rfl
    | none =>
      rw [Option.map_none, Option.none_or, Option.map_map]
      have hmem := huses (f.numModuleValues + v)
      cases hfind : bb'.uses.find? ((fun start : Nat × Nat => decide (start.2 = v)) ∘ fun id => (n, id - f.numModuleValues)) with
      | some id =>
        have hid := List.mem_of_find?_eq_some hfind
        have hp := List.find?_some hfind
        have hge := ((huses id).mp hid).1
        unfold PNLivenessFunction.firstLocalId at hge
        simp only [Function.comp_apply, decide_eq_true_eq] at hp
        obtain rfl : id = f.numModuleValues + v := by omega
        rw [if_pos (hmem.mp hid).2]
        rfl
      | none =>
        rw [if_neg fun hused => ?_]
        · rfl
        · have := List.find?_eq_none.mp hfind _ (hmem.mpr ⟨hle, hused⟩)
          simp at this

theorem startsBelow_find (h : UsesOf f f') (v : Nat) (hv : f.IsLocal v) (n : Nat) :
    ((startsBelow f' n).find? (·.2 = v)).map (·.1) = f.searchBelow v n := by
  induction n with
  | zero => rfl
  | succ n ih =>
    rw [startsBelow, PNLivenessFunction.searchBelow, ← blockStarts_find h n v hv, List.find?_append]
    cases (blockStarts f' n).find? (·.2 = v) with
    | some start => rfl
    | none => exact ih

/-- Every search starts at a block of the function, for one of its values. -/
theorem startsBelow_lt (h : f.SsaForm) (hu : UsesOf f f') {n : Nat} : ∀ start ∈ startsBelow f' n,
    start.1 < f.bbs.length ∧ start.2 < f.numValues := by
  induction n with
  | zero => simp [startsBelow]
  | succ n ih =>
    intro start hstart
    rcases List.mem_append.mp hstart with hstart | hstart
    · rw [blockStarts] at hstart
      rcases @UsesOf.get f f' hu n with ⟨-, hbb'⟩ | ⟨bb, bb', hbb, hbb', hset, huses⟩
      · rw [hbb'] at hstart
        cases hstart
      · rw [hbb'] at hstart
        obtain ⟨hn, hbb⟩ := List.getElem?_eq_some_iff.mp hbb
        have hmem : bb ∈ f.bbs := hbb ▸ List.getElem_mem hn
        have hphis : bb'.phiUses = bb.phiEntries := by rw [hset]
        rcases List.mem_append.mp hstart with hstart | hstart
        · obtain ⟨use, huse, rfl⟩ := List.mem_map.mp hstart
          rw [hphis] at huse
          obtain ⟨hbbId, hid⟩ := h.phis_lt bb hmem use (List.takeWhile_sublist _ |>.subset huse)
          have hge : f'.firstLocalId ≤ use.incoming.valueId := by simpa using List.mem_takeWhile_imp huse
          unfold PNLivenessFunction.firstLocalId at hge
          rw [hu.numModuleValues] at hge ⊢
          dsimp only
          omega
        · obtain ⟨id, hid, rfl⟩ := List.mem_map.mp hstart
          obtain ⟨hge, hused⟩ := (huses id).mp hid
          have hlt := h.used_lt bb hmem id hused
          unfold PNLivenessFunction.firstLocalId at hge
          rw [hu.numModuleValues]
          dsimp only
          omega
    · exact ih start hstart

/-- The range begins and ends at blocks of `S`, and has all of them. -/
structure Spans (S : Nat → Prop) (range : PNLivenessRange) : Prop where
  covers : ∀ b, S b → range.firstBbId ≤ b ∧ b ≤ range.lastBbId
  first_mem : S range.firstBbId
  last_mem : S range.lastBbId

theorem Widened.spans {range range' : PNLivenessRange} {S : Nat → Prop} {n : Nat} (h : Widened range S range')
    (hfirst : range.firstBbId = n) (hlast : range.lastBbId = n) : Spans (fun b => b = n ∨ S b) range' := by
  refine ⟨?_, ?_, ?_⟩
  · rintro b (rfl | hb)
    · exact ⟨hfirst ▸ h.first_le, hlast ▸ h.le_last⟩
    · exact h.covers b hb
  · exact h.first_mem.imp_left (·.trans hfirst)
  · exact h.last_mem.imp_left (·.trans hlast)

theorem Spans.congr {S : Nat → Prop} {range range' : PNLivenessRange} (h : Spans S range)
    (hfirst : range'.firstBbId = range.firstBbId) (hlast : range'.lastBbId = range.lastBbId) : Spans S range' := by
  refine ⟨fun b hb => ?_, hfirst ▸ h.first_mem, hlast ▸ h.last_mem⟩
  rw [hfirst, hlast]
  exact h.covers b hb

/-- A range that spans `S` has the blocks of `T` if none of them lies in front of all blocks of `S`, or behind. -/
theorem Spans.covers_iff {S T : Nat → Prop} {range : PNLivenessRange} (h : Spans S range) :
    (∀ b, T b → range.firstBbId ≤ b ∧ b ≤ range.lastBbId) ↔ ∀ b, T b → (∃ b' ≤ b, S b') ∧ ∃ b' ≥ b, S b' := by
  constructor
  · intro hcovers b hb
    exact ⟨⟨_, (hcovers b hb).1, h.first_mem⟩, _, (hcovers b hb).2, h.last_mem⟩
  · intro hspan b hb
    obtain ⟨⟨b₁, hb₁, hS₁⟩, b₂, hb₂, hS₂⟩ := hspan b hb
    exact ⟨(h.covers b₁ hS₁).1.trans hb₁, hb₂.trans (h.covers b₂ hS₂).2⟩

/-- What the searches make of the ranges. -/
theorem livenessBlocks_spans (h : f.SsaForm) (hu : UsesOf f f') {ranges : List PNLivenessRange} (hlength : ranges.length = f.numValues)
    (hordered : ∀ range ∈ ranges, range.firstBbId ≤ range.lastBbId)
    (hdefs : ∀ v, f.IsLocal v → ∀ range ∈ ranges[v]?, ∃ n, f.DefinedIn v n ∧ range.firstBbId = n ∧ range.lastBbId = n) :
    ∃ s, livenessBlocks f' f'.bbs.length ⟨[], ranges⟩ = .ok s ∧ s.ranges.length = f.numValues ∧
      ∀ v, f.IsLocal v → ∃ range, s.ranges[v]? = some range ∧ Spans (f.Found v) range := by
  have hpreds : ∀ bb ∈ f'.bbs, ∀ n ∈ bb.predBbIds, n < f'.bbs.length := by
    intro bb' hbb' n hn
    obtain ⟨k, hk⟩ := List.mem_iff_getElem?.mp hbb'
    rcases @UsesOf.get f f' hu k with ⟨-, hnone⟩ | ⟨bb, bb₁, hbb, hbb₁, hset, -⟩
    · cases hk.symm.trans hnone
    · obtain rfl := Option.some.inj (hk.symm.trans hbb₁)
      rw [hset] at hn
      rw [hu.length]
      exact h.preds_lt bb (List.mem_of_getElem? hbb) n hn
  have hstarts : ∀ start ∈ startsBelow f' f'.bbs.length, start.1 < f'.bbs.length ∧ start.2 < ranges.length := by
    rw [hlength, hu.length]
    exact startsBelow_lt h hu
  obtain ⟨s, hs, hlen, hspec⟩ := @searchAll_spec f' hpreds _ ⟨[], ranges⟩ hstarts hordered
  refine ⟨s, ?_, hlen.trans hlength, fun v hv => ?_⟩
  · rw [livenessBlocks_eq le_rfl (by rw [hu.length]; exact h.bbs_le)]
    exact hs
  · have hlt : v < ranges.length := hlength ▸ hv.2
    have hget := List.getElem?_eq_getElem hlt
    obtain ⟨range, hrange, hsearched⟩ := hspec hget
    obtain ⟨n, hdef, hfirst, hlast⟩ := hdefs v hv _ hget
    have hfound : ∀ b, f.DefinedIn v b ↔ b = n := fun b =>
      ⟨fun hb => (h.defined v hv).unique hb hdef, fun hb => hb ▸ hdef⟩
    have hstart := startsBelow_find hu v hv f'.bbs.length
    rw [hu.length] at hstart hsearched
    refine ⟨range, hrange, ?_⟩
    rw [if_neg (List.not_mem_nil)] at hsearched
    have hiff : f.Found v = fun b => b = n ∨ ∃ start ∈ f.searchStart v, f.LeadsTo v start b := by
      funext b
      rw [PNLivenessFunction.Found, hfound b]
    rw [hiff, PNLivenessFunction.searchStart, ← hstart]
    cases hfind : (startsBelow f' f.bbs.length).find? (·.2 = v) with
    | none =>
      rw [hfind] at hsearched
      obtain rfl : range = _ := hsearched
      exact ⟨by simp [hfirst, hlast], .inl hfirst, .inl hlast⟩
    | some start =>
      rw [hfind] at hsearched
      have hwide : Widened _ (f'.LeadsTo v start.1) range := hsearched
      rw [hu.leadsTo] at hwide
      simpa using hwide.spans hfirst hlast

/-- **The range of a local value spans** the block that defines it and the blocks that the one search for it finds. -/
theorem livenessRanges_spec (h : f.SsaForm) : ∃ f' ranges, pnFunctionCalculateLivenessUses f = .ok f' ∧
    pnFunctionCalculateLiveness f' = .ok ranges ∧
    ∀ v, f.IsLocal v → ∃ range, ranges[v]? = some range ∧ Spans (f.Found v) range := by
  obtain ⟨f', huses, hu⟩ := calculateLivenessUses_ok h
  have hok : ∀ bb ∈ f'.bbs, DefsOk f' bb := by
    intro bb' hbb'
    obtain ⟨k, hk⟩ := List.mem_iff_getElem?.mp hbb'
    rcases @UsesOf.get f f' hu k with ⟨-, hnone⟩ | ⟨bb, bb₁, hbb, hbb₁, hset, -⟩
    · cases hk.symm.trans hnone
    · obtain rfl := Option.some.inj (hk.symm.trans hbb₁)
      rw [DefsOk, hu.numModuleValues, hu.numValues, hset]
      exact h.defs bb (List.mem_of_getElem? hbb)
  have hids : f'.numModuleValues + f'.numValues ≤ PN_INVALID_VALUE_ID := by
    rw [hu.numModuleValues, hu.numValues]
    exact h.ids_le
  generalize hinit : List.replicate f'.numValues (⟨PN_INVALID_BB_ID, PN_INVALID_BB_ID, PN_INVALID_VALUE_ID⟩ : PNLivenessRange) = init
  have hinitLength : init.length = f'.numValues := by rw [← hinit, List.length_replicate]
  obtain ⟨ranges, hset, hlength, hspec⟩ := @setAllDefs_spec f' hids f'.bbs 0 init hok hinitLength
  have hlength' : ranges.length = f.numValues := by rw [hlength, hinitLength, hu.numValues]
  have hordered : ∀ range ∈ ranges, range.firstBbId ≤ range.lastBbId := by
    intro range hrange
    obtain ⟨v, hv⟩ := List.mem_iff_getElem?.mp hrange
    have hlt : v < init.length := hlength ▸ (List.getElem?_eq_some_iff.mp hv).1
    obtain ⟨range', hv', hr'⟩ := hspec (List.getElem?_eq_getElem hlt)
    obtain rfl := Option.some.inj (hv.symm.trans hv')
    refine hr'.ordered ?_
    simp only [← hinit, List.getElem_replicate, le_refl]
  have hdefs : ∀ v, f.IsLocal v → ∀ range ∈ ranges[v]?, ∃ n, f.DefinedIn v n ∧ range.firstBbId = n ∧ range.lastBbId = n := by
    intro v hv range hrange
    have hlt : v < init.length := by
      rw [hinitLength, hu.numValues]
      exact hv.2
    obtain ⟨range', hv', hr'⟩ := hspec (List.getElem?_eq_getElem hlt)
    obtain rfl := Option.some.inj (hrange.symm.trans hv')
    obtain ⟨n, hdef, huniq⟩ := h.defined v hv
    obtain ⟨bb, hbb, hdefines⟩ := hu.definedIn.mpr hdef
    have hn : n < 2 ^ 16 := by
      have := (List.getElem?_eq_some_iff.mp hbb).1
      have := h.bbs_le
      have := hu.length
      omega
    obtain ⟨hfirst, hlast⟩ := hr'.set hbb hdefines fun {k' bb'} hk' hdef' => huniq k' (hu.definedIn.mp ⟨bb', hk', hdef'⟩)
    rw [Nat.zero_add, toBbId, Nat.mod_eq_of_lt hn] at hfirst hlast
    exact ⟨n, hdef, hfirst, hlast⟩
  obtain ⟨s, hs, hslength, hspans⟩ := livenessBlocks_spans h hu hlength' hordered hdefs
  obtain ⟨slots, visited, hslots⟩ := pnFunctionMakeSlotMap_returns f'.numArgs f'.numConstants s.ranges
  refine ⟨f', s.ranges.take (f'.numArgs + f'.numConstants) ++ slots, huses, ?_, fun v hv => ?_⟩
  · rw [pnFunctionCalculateLiveness, hinit, hset, ok_bind, hs, ok_bind, hslots]
    rfl
  · obtain ⟨range, hrange, hspan⟩ := hspans v hv
    obtain ⟨range', hrange', hfirst, hlast⟩ := slotMap_get hslots hrange
    exact ⟨range', hrange', hspan.congr hfirst hlast⟩

/-- **Liveness ranges cover all live blocks exactly if** no live block of a local value lies in front of what the one search
for the value finds, or behind it. -/
theorem liveness_covers_iff (h : f.SsaForm) : ∃ f' ranges, pnFunctionCalculateLivenessUses f = .ok f' ∧
    pnFunctionCalculateLiveness f' = .ok ranges ∧ (f.Covers ranges ↔ ∀ v, f.IsLocal v → f.SearchSpans v) := by
  obtain ⟨f', ranges, huses, hlive, hspec⟩ := livenessRanges_spec h
  refine ⟨f', ranges, huses, hlive, ?_⟩
  constructor
  · intro hcovers v hv
    obtain ⟨range, hrange, hspans⟩ := hspec v hv
    obtain ⟨range', hrange', -, hlivein⟩ := hcovers v hv
    obtain rfl := Option.some.inj (hrange.symm.trans hrange')
    exact hspans.covers_iff.mp hlivein
  · intro hsearch v hv
    obtain ⟨range, hrange, hspans⟩ := hspec v hv
    exact ⟨range, hrange, fun n hn => hspans.covers n (.inl hn), hspans.covers_iff.mpr (hsearch v hv)⟩

/-- `%b0: br %b1`, `%b1: %v0 = phi [%c0, %b0], [%v1, %b2]; %v1 = add %v0, %v0; br %b2`, `%b2: br %b1`. The loop over the phi
entries ends at the constant, and nothing else uses `%v1`. -/
def phiLoop : PNLivenessFunction where
  numModuleValues := 0
  numArgs := 0
  numConstants := 1
  numValues := 3
  bbs := [⟨[.br 1 none PN_INVALID_VALUE_ID], [], PN_INVALID_VALUE_ID, PN_INVALID_VALUE_ID, [], []⟩,
    ⟨[.phi 1 0 [⟨0, 0⟩, ⟨2, 2⟩], .binop 2 1 1 0 0, .br 2 none PN_INVALID_VALUE_ID], [0, 2], 1, 2, [], []⟩,
    ⟨[.br 1 none PN_INVALID_VALUE_ID], [1], PN_INVALID_VALUE_ID, PN_INVALID_VALUE_ID, [], []⟩]

/-- `%b0` defines `%v0` and goes to `%b2` or `%b3`, `%b3` goes to `%b1`, and `%b1` and `%b2` return `%v0`. The use in `%b2` is
searched, and then `%v0` has been seen. -/
def twoReturns : PNLivenessFunction where
  numModuleValues := 0
  numArgs := 0
  numConstants := 1
  numValues := 2
  bbs := [⟨[.alloca 1 0 1, .br 2 (some 3) 0], [], 1, 1, [], []⟩,
    ⟨[.ret 1], [3], PN_INVALID_VALUE_ID, PN_INVALID_VALUE_ID, [], []⟩,
    ⟨[.ret 1], [0], PN_INVALID_VALUE_ID, PN_INVALID_VALUE_ID, [], []⟩,
    ⟨[.br 1 none PN_INVALID_VALUE_ID], [0], PN_INVALID_VALUE_ID, PN_INVALID_VALUE_ID, [], []⟩]

theorem phiLoop_ssaForm : phiLoop.SsaForm where
  bbs_le := by decide
  ids_le := by decide
  preds_lt := by decide
  used_lt := by decide
  phis_lt := by decide
  defs := by decide
  defined v hv := by
    obtain ⟨hle, hlt⟩ : 1 ≤ v ∧ v < 3 := hv
    refine ⟨1, ⟨_, rfl, by show 1 ≤ 0 + v ∧ 0 + v ≤ 2; omega⟩, ?_⟩
    rintro n ⟨bb, hbb, hfirst, hlast⟩
    match n, hbb with
    | 0, hbb | 2, hbb =>
      cases hbb
      exact absurd hfirst (by show ¬PN_INVALID_VALUE_ID ≤ 0 + v; unfold PN_INVALID_VALUE_ID; omega)
    | 1, _ => rfl
  fresh := by decide

theorem twoReturns_ssaForm : twoReturns.SsaForm where
  bbs_le := by decide
  ids_le := by decide
  preds_lt := by decide
  used_lt := by decide
  phis_lt := by decide
  defs := by decide
  defined v hv := by
    obtain rfl : v = 1 := by
      obtain ⟨hle, hlt⟩ : 1 ≤ v ∧ v < 2 := hv
      omega
    refine ⟨0, ⟨_, rfl, by decide⟩, ?_⟩
    rintro n ⟨bb, hbb, hfirst, hlast⟩
    match n, hbb with
    | 0, _ => rfl
    | 1, hbb | 2, hbb | 3, hbb =>
      cases hbb
      exact absurd hfirst (by decide)
  fresh := by decide

theorem liveness_covers_iff_phiLoop : ∃ f' ranges, pnFunctionCalculateLivenessUses phiLoop = .ok f' ∧
    pnFunctionCalculateLiveness f' = .ok ranges ∧ (phiLoop.Covers ranges ↔ ∀ v, phiLoop.IsLocal v → phiLoop.SearchSpans v) :=
  liveness_covers_iff phiLoop_ssaForm

/-- One live block outside its value's range is enough. -/
theorem not_covers {ranges : List PNLivenessRange} {range : PNLivenessRange} {b : Nat} (hv : f.IsLocal v)
    (hrange : ranges[v]? = some range) (hlive : f.LiveIn v b) (hout : b < range.firstBbId ∨ range.lastBbId < b) :
    ¬f.Covers ranges := by
  intro hcovers
  obtain ⟨range', hrange', -, hlivein⟩ := hcovers v hv
  obtain rfl := Option.some.inj (hrange.symm.trans hrange')
  have := hlivein b hlive
  omega

/-- The loop misses `%b2`, where `%v1` is live, and the second function `%b3`. -/
theorem liveness_covers_false :
    (phiLoop.SsaForm ∧ ∃ f' ranges, pnFunctionCalculateLivenessUses phiLoop = .ok f' ∧
      pnFunctionCalculateLiveness f' = .ok ranges ∧ ¬phiLoop.Covers ranges) ∧
    twoReturns.SsaForm ∧ ∃ f' ranges, pnFunctionCalculateLivenessUses twoReturns = .ok f' ∧
      pnFunctionCalculateLiveness f' = .ok ranges ∧ ¬twoReturns.Covers ranges := by
  refine ⟨⟨phiLoop_ssaForm, _, _, rfl, rfl, ?_⟩, twoReturns_ssaForm, _, _, rfl, rfl, ?_⟩
  · have hstop : ∀ n, n ≠ 1 → ¬phiLoop.DefinedIn 2 n := fun n hn hdef =>
      hn ((phiLoop_ssaForm.defined 2 ⟨by decide, by decide⟩).unique hdef ⟨_, rfl, by decide⟩)
    refine @not_covers phiLoop 2 _ _ 2 ⟨by decide, by decide⟩ rfl ⟨2, .inr ?_, .start (hstop 2 (by decide))⟩ (.inr (by decide))
    exact ⟨_, List.mem_of_getElem? (show phiLoop.bbs[1]? = some _ from rfl), ⟨1, 2, 2⟩, by decide, rfl⟩
  · have hstop : ∀ n, n ≠ 0 → ¬twoReturns.DefinedIn 1 n := fun n hn hdef =>
      hn ((twoReturns_ssaForm.defined 1 ⟨by decide, by decide⟩).unique hdef ⟨_, rfl, by decide⟩)
    have hway : twoReturns.LeadsTo 1 1 3 := .next (.start (hstop 1 (by decide))) (by decide) (hstop 3 (by decide))
    exact @not_covers twoReturns 1 _ _ 3 ⟨by decide, by decide⟩ rfl ⟨1, .inl ⟨_, rfl, by decide⟩, hway⟩ (.inr (by decide))

end Pnacl
