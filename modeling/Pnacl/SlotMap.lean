import Pnacl.Basic
import Pnacl.Lib.HoleHeap
import Mathlib.Data.List.Chain
import Mathlib.Data.Nat.Prime.Basic

/-!
# Slots of local values

`pn_function_make_slot_map` of the `PN_CALCULATE_LIVENESS` build: a linear scan over the live ranges of the local values
that hands out slots from a heap. Popping leaves the hole of the heap where the sift stops, so that a free slot is lost
when that is not the last cell. The slots come out right exactly for the functions of `SlotsSafe` (`slotMap_iff`).
-/

namespace Pnacl

open Lib

/-! ## The scan -/

/-- `PNLivenessRange`. -/
structure PNLivenessRange where
  firstBbId : Nat
  lastBbId : Nat
  slotId : Nat
deriving Repr, DecidableEq

/-- The variables of the scan: `avail_slots[0 .. num_avail_slots)`, `active[0 .. num_active)` and `bb_id`. -/
structure SlotScan where
  avail : List Nat
  active : List PNLivenessRange
  bbId : Nat
deriving Repr, DecidableEq

/-- "Reheap avail". The cell at `num_avail_slots` is written in any case. -/
def reheapAvail (numValues : Nat) (avail : List Nat) (slotId : Nat) : Except Stop (List Nat) := do
  cAssert (avail.length < numValues) "num_avail_slots < function->num_values"
  .ok (siftUp slotId avail.length (avail ++ [slotId]) avail.length)

/-- "Evict active intervals that are now finished", from `active[m]` on; also the scans after each eviction. -/
def evictFinished (numValues : Nat) : Nat → Nat → SlotScan → Except Stop (SlotScan × List SlotScan)
  | 0, _, _ => .error .fuel
  | fuel + 1, m, s =>
    match s.active[m]? with
    | none => .ok (s, [])
    | some range =>
      if range.lastBbId < s.bbId then do
        let avail ← reheapAvail numValues s.avail range.slotId
        -- active[m] = active[--num_active]
        let s' := { s with avail := avail, active := (s.active.set m (s.active.getLastD range)).dropLast }
        let (t, visited) ← evictFinished numValues fuel m s'
        .ok (t, s' :: visited)
      else evictFinished numValues fuel (m + 1) s

/-- The eviction at the turn of `range`: only if the range begins behind `bb_id`. -/
def evictBefore (numValues : Nat) (range : PNLivenessRange) (s : SlotScan) : Except Stop (SlotScan × List SlotScan) :=
  if range.firstBbId > s.bbId then
    evictFinished numValues (s.active.length + 1) 0 { s with bbId := range.firstBbId }
  else .ok (s, [])

/-- "Pop minimum slot id from heap". -/
def popMinimum (avail : List Nat) : Except Stop (Nat × List Nat) :=
  match avail with
  | [] => .error (.undefined "avail_slots[0]")
  | slotId :: _ => .ok (slotId, (siftDown avail.length avail 0).1.dropLast)

/-- One turn of the loop over the local values: the range with its slot, the scan and the scans on the way. -/
def placeRange (numValues : Nat) (range : PNLivenessRange) (s : SlotScan) :
    Except Stop (PNLivenessRange × SlotScan × List SlotScan) := do
  let (s, visited) ← evictBefore numValues range s
  let (slotId, avail) ← popMinimum s.avail
  cAssert (s.active.length < numValues) "num_active < function->num_values"
  let range := { range with slotId := slotId }
  let s := { s with avail := avail, active := s.active ++ [range] }
  .ok (range, s, visited ++ [s])

/-- The loop over the local values. -/
def placeRanges (numValues : Nat) : List PNLivenessRange → SlotScan → Except Stop (List PNLivenessRange × List SlotScan)
  | [], _ => .ok ([], [])
  | range :: ranges, s => do
    let (range, s, visited) ← placeRange numValues range s
    let (slots, rest) ← placeRanges numValues ranges s
    .ok (range :: slots, visited ++ rest)

/-- The scan before the first local value. -/
def SlotScan.init (numValues : Nat) : SlotScan := ⟨List.range numValues, [], 0⟩

/-- `pn_function_make_slot_map` for the ranges of all `num_values` values of a function: the ranges of the local values
with their slots, and the scans that the run goes through. -/
def pnFunctionMakeSlotMap (numArgs numConstants : Nat) (ranges : List PNLivenessRange) :
    Except Stop (List PNLivenessRange × List SlotScan) := do
  let (slots, visited) ← placeRanges ranges.length (ranges.drop (numArgs + numConstants)) (.init ranges.length)
  .ok (slots, .init ranges.length :: visited)

/-! ## What the slots promise -/

/-- The two ranges have a block in common. -/
def PNLivenessRange.Meets (r r' : PNLivenessRange) : Prop := r.firstBbId ≤ r'.lastBbId ∧ r'.firstBbId ≤ r.lastBbId

instance (r r' : PNLivenessRange) : Decidable (r.Meets r') := inferInstanceAs (Decidable (_ ∧ _))

/-- No two values that meet share a slot, and every slot is below `numValues`. -/
def Separate (numValues : Nat) (slots : List PNLivenessRange) : Prop :=
  slots.Pairwise (fun r r' => r.Meets r' → r.slotId ≠ r'.slotId) ∧ ∀ r ∈ slots, r.slotId < numValues

/-- `r` ends before `r'` begins. -/
def PNLivenessRange.Before (r r' : PNLivenessRange) : Prop := r.lastBbId < r'.firstBbId

/-- `avail` holds the slots below `numValues` that are not in `held`, each once, with the smallest in front. -/
def HeapExact (numValues : Nat) (avail held : List Nat) : Prop :=
  avail.Perm ((List.range numValues).filter (· ∉ held)) ∧ ∀ x ∈ avail, avail.headD 0 ≤ x

instance (numValues : Nat) (avail held : List Nat) : Decidable (HeapExact numValues avail held) :=
  inferInstanceAs (Decidable (_ ∧ _))

/-- The heap holds exactly the slots that no active range holds. -/
def SlotScan.Exact (numValues : Nat) (s : SlotScan) : Prop := HeapExact numValues s.avail (s.active.map (·.slotId))

/-- The run returns, its slots are separate, and the heap is exact all the time. -/
def SlotsKept (numArgs numConstants : Nat) (ranges : List PNLivenessRange) : Prop :=
  ∃ slots visited, pnFunctionMakeSlotMap numArgs numConstants ranges = .ok (slots, visited) ∧
    Separate ranges.length slots ∧ ∀ s ∈ visited, s.Exact ranges.length

/-- Of four local values, the first two meet, both are finished when the third begins, and the fourth goes back to a
block of the second. -/
def Revisits : List PNLivenessRange → Prop
  | [v₀, v₁, v₂, v₃] =>
    v₁.firstBbId ≤ v₀.lastBbId ∧ v₀.lastBbId < v₂.firstBbId ∧ v₁.lastBbId < v₂.firstBbId ∧ v₃.Meets v₁
  | _ => False

/-- The functions whose slot map is right: there is no local value, or there are at most two values, or four that do not
revisit a block, or a power of two of them whose local values are live one after the other. -/
def SlotsSafe (numArgs numConstants : Nat) (ranges : List PNLivenessRange) : Prop :=
  let locals := ranges.drop (numArgs + numConstants)
  locals = [] ∨ ranges.length ≤ 2 ∨ (ranges.length = 4 ∧ ¬ Revisits locals) ∨
    (∃ k, ranges.length = 2 ^ k) ∧ locals.IsChain PNLivenessRange.Before

/-! ## Popping an exact heap -/

theorem HeapExact.nodup {numValues : Nat} {avail held : List Nat} (h : HeapExact numValues avail held) : avail.Nodup :=
  h.1.nodup_iff.mpr (List.nodup_range.filter _)

theorem HeapExact.mem_iff {numValues : Nat} {avail held : List Nat} (h : HeapExact numValues avail held) {x : Nat} :
    x ∈ avail ↔ x < numValues ∧ x ∉ held := by
  rw [h.1.mem_iff, List.mem_filter, List.mem_range, decide_eq_true_iff]

/-- If the hole ends in the last cell, the popped slot is the only one that leaves the heap. -/
theorem HeapExact.pop {numValues x : Nat} {t held : List Nat} (h : HeapExact numValues (x :: t) held) {n : Nat}
    (hole : (siftDown n (x :: t) 0).2 + 1 = (x :: t).length) :
    (siftDown n (x :: t) 0).1.dropLast.Perm ((List.range numValues).filter (· ∉ held ++ [x])) := by
  have hx : x ∉ t := (List.nodup_cons.mp h.nodup).1
  have hsplit : (List.range numValues).filter (· ∉ held ++ [x]) =
      ((List.range numValues).filter (· ∉ held)).filter (· ≠ x) := by
    rw [List.filter_filter]
    apply List.filter_congr
    intro y _
    simp [and_comm]
  calc
    List.Perm (siftDown n (x :: t) 0).1.dropLast t := popped_perm (List.cons_ne_nil x t) hole
    _ = (x :: t).filter (· ≠ x) := by
      rw [List.filter_cons_of_neg (by simp), List.filter_eq_self.mpr]
      intro y hy
      simpa using fun hyx : y = x => hx (hyx ▸ hy)
    List.Perm _ (((List.range numValues).filter (· ∉ held)).filter (· ≠ x)) := h.1.filter _
    _ = (List.range numValues).filter (· ∉ held ++ [x]) := hsplit.symm

/-- If it ends elsewhere, a free slot is missing from the heap. -/
theorem HeapExact.not_pop {numValues x : Nat} {t held : List Nat} (h : HeapExact numValues (x :: t) held) {n : Nat}
    (hole : (siftDown n (x :: t) 0).2 + 1 ≠ (x :: t).length) :
    ¬ HeapExact numValues (siftDown n (x :: t) 0).1.dropLast (held ++ [x]) := by
  intro hpop
  have hne : x :: t ≠ [] := List.cons_ne_nil x t
  have ht : t ≠ [] := by
    rintro rfl
    have := (siftDown_sinks n [x] 0).lt (by simp)
    simp only [List.length_singleton] at this hole
    omega
  have hlast : (x :: t).getLast hne ∈ t := by
    rw [List.getLast_cons ht]; exact List.getLast_mem ht
  have hfree := h.mem_iff.mp (List.getLast_mem hne)
  have hlastx : (x :: t).getLast hne ≠ x := fun heq => (List.nodup_cons.mp h.nodup).1 (heq ▸ hlast)
  exact popped_loses h.nodup hne hole (hpop.mem_iff.mpr ⟨hfree.1, by simp [hfree.2, hlastx]⟩)

/-! ## The heap of all slots -/

theorem cell_range {n i : Nat} (h : i < n) : cell (List.range n) i = i := by
  rw [cell_eq_getElem (by simpa using h), List.getElem_range]

/-- The heap after the first pop. -/
def firstPopped (numValues : Nat) : List Nat := (siftDown numValues (List.range numValues) 0).1.dropLast

/-- In the heap of all slots the hole goes to the left. -/
theorem siftDown_range (n : Nat) : (∃ p, (siftDown n (List.range n) 0).2 + 1 = 2 ^ p) ∧
    ∀ j, (∀ p, j + 1 ≠ 2 ^ p) → cell (siftDown n (List.range n) 0).1 j = cell (List.range n) j := by
  simpa using siftDown_left n (a := List.range n) (i := 0) (by
    intro q hq hlt
    rw [List.length_range] at hlt
    have := Nat.one_le_two_pow (n := q)
    rw [cell_range (by omega), cell_range (by omega)]
    omega)

/-- The hole ends in the last cell exactly if the number of slots is a power of two. -/
theorem siftDown_range_last {n : Nat} (hn : 0 < n) :
    (siftDown n (List.range n) 0).2 + 1 = n ↔ ∃ k, n = 2 ^ k := by
  obtain ⟨p, hp⟩ := (siftDown_range n).1
  refine ⟨fun h => ⟨p, by omega⟩, ?_⟩
  rintro ⟨k, rfl⟩
  have hleaf := siftDown_leaf (2 ^ k) (a := List.range (2 ^ k)) (i := 0) (by simp)
  have hlt := (siftDown_sinks (2 ^ k) (List.range (2 ^ k)) 0).lt (by simp)
  rw [List.length_range] at hleaf hlt
  have hpk : p ≤ k := (Nat.pow_le_pow_iff_right (by omega)).mp (by omega : 2 ^ p ≤ 2 ^ k)
  have hkp : k < p + 1 := (Nat.pow_lt_pow_iff_right (by omega : 1 < 2)).mp (by rw [pow_succ]; omega)
  rw [hp, show p = k by omega]

theorem exact_range (n : Nat) : HeapExact n (List.range n) [] := by
  refine ⟨by simp, fun x _ => ?_⟩
  cases n <;> simp [List.range_succ_eq_map]

theorem range_eq_cons {n : Nat} (hn : 0 < n) : List.range n = 0 :: (List.range (n - 1)).map Nat.succ := by
  rw [← List.range_succ_eq_map, show n - 1 + 1 = n by omega]

theorem firstPopped_length (n : Nat) : (firstPopped n).length = n - 1 := by
  rw [firstPopped, List.length_dropLast, (siftDown_sinks n _ 0).length, List.length_range]

theorem firstPopped_cell {n i : Nat} (h : i < n - 1) : cell (firstPopped n) i = cell (siftDown n (List.range n) 0).1 i := by
  have hlen := (siftDown_sinks n (List.range n) 0).length
  rw [List.length_range] at hlen
  rw [cell_eq_getElem (by rw [firstPopped_length]; exact h), cell_eq_getElem (by omega)]
  exact List.getElem_dropLast _

theorem headD_eq_cell (a : List Nat) : a.headD 0 = cell a 0 := by cases a <;> rfl

theorem firstPopped_head {n : Nat} (hn : 1 < n) : cell (firstPopped n) 0 = 1 := by
  obtain ⟨m, rfl⟩ := Nat.exists_eq_add_of_lt (by omega : 0 < n)
  rw [firstPopped_cell (by omega), Nat.zero_add, siftDown, List.length_range]
  have hone : cell (List.range (m + 1)) (2 * 0 + 1) = 1 := cell_range (by omega)
  split
  · rw [if_pos (by rw [hone, cell_range (by omega)]; omega), (siftDown_sinks _ _ _).cell_eq (.inl (by omega)),
      cell_set_self (by simp), hone]
  · rw [if_pos (by omega), cell_set_self (by simp), hone]

/-- With a power of two of slots, the first pop takes slot 0 and nothing else. -/
theorem exact_firstPopped {n : Nat} (hn : 0 < n) (hpow : ∃ k, n = 2 ^ k) : HeapExact n (firstPopped n) [0] := by
  have hex := exact_range n
  have hhole := (siftDown_range_last hn).mpr hpow
  have hperm := HeapExact.pop (n := n) (by rw [← range_eq_cons hn]; exact hex) (by rw [← range_eq_cons hn]; simpa using hhole)
  rw [← range_eq_cons hn] at hperm
  refine ⟨hperm, fun x hx => ?_⟩
  have hx0 : x ≠ 0 := by
    have := hperm.mem_iff.mp hx
    simp at this
    exact this.2
  have hlen : 0 < (firstPopped n).length := List.length_pos_of_mem hx
  rw [firstPopped_length] at hlen
  rw [headD_eq_cell, firstPopped_head (by omega)]
  omega

/-- Otherwise the last slot is lost at the first pop. -/
theorem not_exact_firstPopped {n : Nat} (hn : 0 < n) (hpow : ¬ ∃ k, n = 2 ^ k) : ¬ HeapExact n (firstPopped n) [0] := by
  have hhole := mt (siftDown_range_last hn).mp hpow
  have hlost := HeapExact.not_pop (n := n) (by rw [← range_eq_cons hn]; exact exact_range n)
    (by rw [← range_eq_cons hn]; simpa using hhole)
  rwa [← range_eq_cons hn] at hlost

/-- Pushing slot 0 back restores the heap of all slots. -/
theorem siftUp_firstPopped {n : Nat} (hn : 0 < n) (hpow : ∃ k, n = 2 ^ k) :
    siftUp 0 (firstPopped n).length (firstPopped n ++ [0]) (firstPopped n).length = List.range n := by
  have hhole := (siftDown_range_last hn).mpr hpow
  have hs := siftDown_sinks n (List.range n) 0
  have hback := hs.siftUp (x := 0) (fun y _ => Nat.zero_le y) (fun j hj hlt => by
    rw [List.length_range] at hlt
    rw [cell_range hlt]; omega)
  have hlen := hs.length
  rw [List.length_range] at hlen
  have happend : firstPopped n ++ [0] = (siftDown n (List.range n) 0).1.set (n - 1) 0 := by
    have hne : (siftDown n (List.range n) 0).1 ≠ [] := by rw [← List.length_pos_iff, hlen]; exact hn
    conv_rhs => rw [← List.dropLast_append_getLast hne]
    rw [List.set_append_right _ _ (by simp; omega)]
    simp [hlen, firstPopped]
  rw [firstPopped_length, happend, siftUp_set, show n - 1 = (siftDown n (List.range n) 0).2 by omega, hback]
  rw [siftUp, range_eq_cons hn, List.set_cons_zero]

theorem three_mul_two_pow_ne (q p : Nat) : 2 ^ q * 3 ≠ 2 ^ p := by
  intro h
  have hdvd : 3 ∣ 2 ^ p := ⟨2 ^ q, by omega⟩
  have := Nat.prime_three.dvd_of_dvd_pow hdvd
  omega

theorem three_mul_two_pow_succ_ne (q p : Nat) (h : 2 ^ p ≠ 4) : 2 ^ q * 3 + 1 ≠ 2 ^ p := by
  intro heq
  cases q with
  | zero => omega
  | succ q =>
    cases p with
    | zero => have := Nat.one_le_two_pow (n := q); omega
    | succ p => rw [pow_succ, pow_succ] at heq; omega

/-- With eight slots or more, the second pop in a row loses a slot. -/
theorem firstPopped_hole {n k : Nat} (hk : 3 ≤ k) (hpow : n = 2 ^ k) :
    (siftDown (firstPopped n).length (firstPopped n) 0).2 + 1 ≠ (firstPopped n).length := by
  have hex := exact_firstPopped (n := n) (by rw [hpow]; exact Nat.two_pow_pos k) ⟨k, hpow⟩
  have hn : 8 ≤ n := hpow ▸ Nat.pow_le_pow_right (by omega : 0 < 2) hk
  -- off the way of the first pop the cells are as at the start
  have hcell (j : Nat) (hj : j < n - 1) (hj2 : ∀ p, j + 1 ≠ 2 ^ p) : cell (firstPopped n) j = j := by
    rw [firstPopped_cell hj, (siftDown_range n).2 j hj2, cell_range (by omega)]
  have hlen := firstPopped_length n
  have hcell2 : cell (firstPopped n) 2 = 2 := hcell 2 (by omega) (fun p h => three_mul_two_pow_ne 0 p (by omega))
  -- the left child of the root holds a slot above 2
  have hcell1 : 2 < cell (firstPopped n) 1 := by
    have hfree := (hex.mem_iff.mp (cell_mem (i := 1) (by omega))).2
    have h0 : cell (firstPopped n) 1 ≠ cell (firstPopped n) 0 := fun h => by
      have := cell_inj hex.nodup (by omega) (by omega) h
      omega
    have h2 : cell (firstPopped n) 1 ≠ cell (firstPopped n) 2 := fun h => by
      have := cell_inj hex.nodup (by omega) (by omega) h
      omega
    rw [firstPopped_head (by omega)] at h0
    rw [hcell2] at h2
    rw [List.mem_singleton] at hfree
    omega
  obtain ⟨m, hm⟩ := Nat.exists_eq_add_of_lt (by omega : 0 < (firstPopped n).length)
  have hright : siftDown (firstPopped n).length (firstPopped n) 0 = siftDown m ((firstPopped n).set 0 2) 2 := by
    rw [hm, Nat.zero_add, siftDown, if_pos (by omega), Nat.mul_zero, Nat.zero_add, Nat.zero_add, hcell2,
      if_neg (by omega)]
  obtain ⟨p, hp⟩ := (siftDown_left m (a := (firstPopped n).set 0 2) (i := 2) (by
    intro q hq hlt
    rw [List.length_set] at hlt
    have hq2 : 2 ≤ 2 ^ q := Nat.le_self_pow (by omega) 2
    rw [cell_set_ne (by omega), cell_set_ne (by omega)]
    rw [hcell _ (by omega) (fun p h => three_mul_two_pow_ne q p (by omega)),
      hcell _ (by omega) (fun p h => three_mul_two_pow_succ_ne q p (by omega) h)]
    omega)).1
  rw [hright, hp, hlen, hpow]
  intro h
  exact three_mul_two_pow_succ_ne p k (by omega) (by omega)

/-! ## The run returns -/

/-- The scan after the eviction of `active[m]`, which is `range`. -/
def SlotScan.evict (s : SlotScan) (m : Nat) (range : PNLivenessRange) : SlotScan :=
  { s with
    avail := siftUp range.slotId s.avail.length (s.avail ++ [range.slotId]) s.avail.length
    active := (s.active.set m (s.active.getLastD range)).dropLast }

theorem evictFinished_evict {numValues fuel m : Nat} {s t : SlotScan} {range : PNLivenessRange} {visited : List SlotScan}
    (hm : s.active[m]? = some range) (hlast : range.lastBbId < s.bbId) (hlen : s.avail.length < numValues)
    (hrest : evictFinished numValues fuel m (s.evict m range) = .ok (t, visited)) :
    evictFinished numValues (fuel + 1) m s = .ok (t, s.evict m range :: visited) := by
  rw [evictFinished]
  simp only [hm]
  rw [if_pos hlast, reheapAvail, cAssert_bind hlen, ok_bind]
  change (evictFinished numValues fuel m (s.evict m range) >>= _) = _
  rw [hrest]
  rfl

theorem evictFinished_returns {numValues : Nat} : ∀ {fuel m : Nat} {s : SlotScan},
    s.avail.length + s.active.length = numValues → m ≤ s.active.length → s.active.length < fuel + m →
    ∃ t visited, evictFinished numValues fuel m s = .ok (t, visited) ∧
      t.avail.length + t.active.length = numValues ∧ t.active.length ≤ s.active.length
  | 0, m, s, _, hm, hfuel => by omega
  | fuel + 1, m, s, hlen, hm, hfuel => by
    cases hrange : s.active[m]? with
    | none => exact ⟨s, [], by rw [evictFinished]; simp only [hrange], hlen, le_rfl⟩
    | some range =>
      have hlt : m < s.active.length := (List.getElem?_eq_some_iff.mp hrange).1
      by_cases hlast : range.lastBbId < s.bbId
      · have hact : (s.evict m range).active.length = s.active.length - 1 := by
          simp only [SlotScan.evict, List.length_dropLast, List.length_set]
        have havail : (s.evict m range).avail.length = s.avail.length + 1 := by
          simp only [SlotScan.evict, siftUp_length, List.length_append, List.length_singleton]
        obtain ⟨t, visited, ht, htlen, hle⟩ :=
          @evictFinished_returns numValues fuel m (s.evict m range) (by omega) (by omega) (by omega)
        exact ⟨t, _, evictFinished_evict hrange hlast (by omega) ht, htlen, by omega⟩
      · rw [evictFinished]
        simp only [hrange]
        rw [if_neg hlast]
        exact evictFinished_returns hlen (by omega) (by omega)

/-- The turn of `range` after the eviction. -/
theorem placeRange_eq {numValues slotId : Nat} {range : PNLivenessRange} {s t : SlotScan} {visited : List SlotScan}
    {rest : List Nat} (hevict : evictBefore numValues range s = .ok (t, visited)) (havail : t.avail = slotId :: rest)
    (hact : t.active.length < numValues) :
    placeRange numValues range s =
      .ok ({ range with slotId := slotId },
        ⟨(siftDown t.avail.length t.avail 0).1.dropLast, t.active ++ [{ range with slotId := slotId }], t.bbId⟩,
        visited ++
          [⟨(siftDown t.avail.length t.avail 0).1.dropLast, t.active ++ [{ range with slotId := slotId }], t.bbId⟩]) := by
  have hpop : popMinimum t.avail = .ok (slotId, (siftDown t.avail.length t.avail 0).1.dropLast) := by
    rw [havail]; rfl
  rw [placeRange, hevict, ok_bind]
  simp only
  rw [hpop, ok_bind]
  simp only
  rw [cAssert_bind hact]

theorem placeRange_returns {numValues : Nat} (range : PNLivenessRange) {s : SlotScan}
    (hlen : s.avail.length + s.active.length = numValues) (hact : s.active.length < numValues) :
    ∃ r t visited, placeRange numValues range s = .ok (r, t, visited) ∧
      t.avail.length + t.active.length = numValues ∧ t.active.length ≤ s.active.length + 1 := by
  have hevict : ∃ t visited, evictBefore numValues range s = .ok (t, visited) ∧
      t.avail.length + t.active.length = numValues ∧ t.active.length ≤ s.active.length := by
    rw [evictBefore]
    split
    · exact evictFinished_returns (s := { s with bbId := range.firstBbId }) hlen (by omega) (by simp)
    · exact ⟨s, [], rfl, hlen, le_rfl⟩
  obtain ⟨t, visited, ht, htlen, hle⟩ := hevict
  obtain ⟨slotId, rest, havail⟩ := List.exists_cons_of_length_pos (by omega : 0 < t.avail.length)
  refine ⟨_, _, _, placeRange_eq ht havail (by omega), ?_, ?_⟩
  · rw [havail, List.length_cons] at htlen
    simp only [List.length_dropLast, (siftDown_sinks _ _ _).length, List.length_append, List.length_cons,
      List.length_nil, havail]
    omega
  · simp only [List.length_append, List.length_cons, List.length_nil]; omega

theorem placeRanges_returns {numValues : Nat} : ∀ (ranges : List PNLivenessRange) {s : SlotScan},
    s.avail.length + s.active.length = numValues → s.active.length + ranges.length ≤ numValues →
    ∃ slots visited, placeRanges numValues ranges s = .ok (slots, visited)
  | [], _, _, _ => ⟨[], [], rfl⟩
  | range :: ranges, s, hlen, hact => by
    rw [List.length_cons] at hact
    obtain ⟨r, t, visited, ht, htlen, hle⟩ := placeRange_returns range hlen (by omega)
    obtain ⟨slots, rest, hrest⟩ := placeRanges_returns ranges htlen (by omega)
    exact ⟨r :: slots, visited ++ rest, by rw [placeRanges, ht, ok_bind]; simp only; rw [hrest]; rfl⟩

/-- **The scan returns.** No assertion fails, and the heap is never empty at a pop. -/
theorem pnFunctionMakeSlotMap_returns (numArgs numConstants : Nat) (ranges : List PNLivenessRange) :
    ∃ slots visited, pnFunctionMakeSlotMap numArgs numConstants ranges = .ok (slots, visited) := by
  obtain ⟨slots, visited, h⟩ := @placeRanges_returns ranges.length (ranges.drop (numArgs + numConstants))
    (.init ranges.length) (by simp [SlotScan.init]) (by simp [SlotScan.init])
  exact ⟨slots, _, by rw [pnFunctionMakeSlotMap, h]; rfl⟩

/-! ## Turns -/

/-- At its turn `r` gets the slot `slotId` and leaves the scan `s'`; the heap is exact all the time. -/
def Turn (numValues : Nat) (s : SlotScan) (r : PNLivenessRange) (slotId : Nat) (s' : SlotScan) : Prop :=
  ∃ visited, placeRange numValues r s = .ok ({ r with slotId := slotId }, s', visited) ∧
    ∀ t ∈ visited, t.Exact numValues

/-- From the scan `s` on, the run gives `slots` to the local values `rs`; the heap is exact all the time. -/
def Turns (numValues : Nat) (s : SlotScan) (rs slots : List PNLivenessRange) : Prop :=
  ∃ visited, placeRanges numValues rs s = .ok (slots, visited) ∧ ∀ t ∈ visited, t.Exact numValues

theorem Turns.nil (numValues : Nat) (s : SlotScan) : Turns numValues s [] [] := ⟨[], rfl, by simp⟩

theorem Turns.cons {numValues : Nat} {s s' : SlotScan} {r : PNLivenessRange} {slotId : Nat}
    {rs slots : List PNLivenessRange} (h : Turn numValues s r slotId s') (hs : Turns numValues s' rs slots) :
    Turns numValues s (r :: rs) ({ r with slotId := slotId } :: slots) := by
  obtain ⟨visited, hr, hex⟩ := h
  obtain ⟨rest, hrs, hrest⟩ := hs
  refine ⟨visited ++ rest, by rw [placeRanges, hr, ok_bind]; simp only; rw [hrs]; rfl, ?_⟩
  intro t ht
  rcases List.mem_append.mp ht with ht | ht
  · exact hex t ht
  · exact hrest t ht

theorem Turns.unique {numValues : Nat} {s : SlotScan} {rs slots slots' : List PNLivenessRange}
    (h : Turns numValues s rs slots) (h' : Turns numValues s rs slots') : slots = slots' := by
  obtain ⟨visited, hrun, -⟩ := h
  obtain ⟨visited', hrun', -⟩ := h'
  rw [hrun] at hrun'
  exact (Prod.mk.inj (Except.ok.inj hrun')).1

theorem Turns.exists_turn {numValues : Nat} {s : SlotScan} {r : PNLivenessRange} {rs slots : List PNLivenessRange}
    (h : Turns numValues s (r :: rs) slots) :
    ∃ r' s' visited slots', placeRange numValues r s = .ok (r', s', visited) ∧ (∀ t ∈ visited, t.Exact numValues) ∧
      Turns numValues s' rs slots' ∧ slots = r' :: slots' := by
  obtain ⟨all, hrun, hex⟩ := h
  rw [placeRanges] at hrun
  obtain ⟨⟨r', s', visited⟩, hr, hrun⟩ := bind_eq_ok.mp hrun
  obtain ⟨⟨slots', rest⟩, hrs, hrun⟩ := bind_eq_ok.mp hrun
  obtain ⟨rfl, rfl⟩ := Prod.mk.inj (Except.ok.inj hrun)
  exact ⟨r', s', visited, slots', hr, fun t ht => hex t (List.mem_append_left _ ht),
    ⟨rest, hrs, fun t ht => hex t (List.mem_append_right _ ht)⟩, rfl⟩

/-- The slots are kept exactly if the run from the start keeps the heap exact and its slots are right. -/
theorem slotsKept_iff_turns {numArgs numConstants : Nat} {ranges : List PNLivenessRange} :
    SlotsKept numArgs numConstants ranges ↔
      ∃ slots, Turns ranges.length (.init ranges.length) (ranges.drop (numArgs + numConstants)) slots ∧
        Separate ranges.length slots := by
  constructor
  · rintro ⟨slots, visited, hrun, hsep, hex⟩
    rw [pnFunctionMakeSlotMap] at hrun
    obtain ⟨⟨slots', rest⟩, hrest, hok⟩ := bind_eq_ok.mp hrun
    obtain ⟨rfl, rfl⟩ := Prod.mk.inj (Except.ok.inj hok)
    exact ⟨slots', ⟨rest, hrest, fun t ht => hex t (List.mem_cons_of_mem _ ht)⟩, hsep⟩
  · rintro ⟨slots, ⟨rest, hrest, hex⟩, hsep⟩
    refine ⟨slots, .init ranges.length :: rest, by rw [pnFunctionMakeSlotMap, hrest]; rfl, hsep, ?_⟩
    intro t ht
    rcases List.mem_cons.mp ht with rfl | ht
    · exact exact_range _
    · exact hex t ht

/-- `x` is finished when `r` begins, and the scan, which stands at block `b`, moves on to `r`. -/
def Evicts (b : Nat) (r x : PNLivenessRange) : Prop := b < r.firstBbId ∧ x.lastBbId < r.firstBbId

/-- Only `x` is active, in slot 0. -/
def scanOne (n : Nat) (x : PNLivenessRange) : SlotScan := ⟨firstPopped n, [{ x with slotId := 0 }], x.firstBbId⟩

theorem placeRange_init {n : Nat} (hn : 0 < n) (r : PNLivenessRange) :
    placeRange n r (.init n) = .ok ({ r with slotId := 0 }, scanOne n r, [scanOne n r]) := by
  have hevict : evictBefore n r (.init n) = .ok ({ SlotScan.init n with bbId := r.firstBbId }, []) := by
    rw [evictBefore]
    split
    · rfl
    · rename_i h
      simp only [SlotScan.init, gt_iff_lt, Nat.not_lt, Nat.le_zero] at h ⊢
      rw [h]
  rw [placeRange_eq hevict (range_eq_cons hn) hn, SlotScan.init, List.length_range]
  rfl

theorem turn_init {n : Nat} (hn : 0 < n) (hpow : ∃ k, n = 2 ^ k) (r : PNLivenessRange) :
    Turn n (.init n) r 0 (scanOne n r) :=
  ⟨_, placeRange_init hn r, fun t ht => by rw [List.mem_singleton.mp ht]; exact exact_firstPopped hn hpow⟩

/-- The next local value gets the same slot if its range begins behind the last one. -/
theorem turn_next {n : Nat} (hn : 0 < n) (hpow : ∃ k, n = 2 ^ k) {x r : PNLivenessRange} (h : Evicts x.firstBbId r x) :
    Turn n (scanOne n x) r 0 (scanOne n r) := by
  have hpos : (firstPopped n).length < n := by rw [firstPopped_length]; omega
  have hrange : ({ scanOne n x with bbId := r.firstBbId } : SlotScan).evict 0 { x with slotId := 0 } =
      ⟨List.range n, [], r.firstBbId⟩ := by
    rw [SlotScan.evict]
    exact congrArg₂ (SlotScan.mk · · _) (siftUp_firstPopped hn hpow) rfl
  have hevict : evictBefore n r (scanOne n x) = .ok (⟨List.range n, [], r.firstBbId⟩, [⟨List.range n, [], r.firstBbId⟩]) := by
    rw [evictBefore, if_pos (show r.firstBbId > (scanOne n x).bbId from h.1), ← hrange]
    exact evictFinished_evict rfl h.2 hpos rfl
  refine ⟨[⟨List.range n, [], r.firstBbId⟩, scanOne n r], ?_, ?_⟩
  · rw [placeRange_eq hevict (range_eq_cons hn) hn, List.length_range]
    rfl
  · intro t ht
    simp only [List.mem_cons, List.not_mem_nil, or_false] at ht
    rcases ht with rfl | rfl
    · exact exact_range n
    · exact exact_firstPopped hn hpow

/-- If it does not, the turn evicts nothing. -/
theorem evictBefore_one {n : Nat} {x r : PNLivenessRange} (h : ¬ Evicts x.firstBbId r x) :
    evictBefore n r (scanOne n x) = .ok ({ scanOne n x with bbId := max x.firstBbId r.firstBbId }, []) := by
  rw [evictBefore]
  split
  · rename_i hb
    have hlt : x.firstBbId < r.firstBbId := hb
    have hx : ¬ x.lastBbId < r.firstBbId := fun hx => h ⟨hlt, hx⟩
    rw [Nat.max_eq_right (Nat.le_of_lt hlt)]
    simp only [scanOne, evictFinished, List.length_singleton, List.getElem?_cons_zero, if_neg hx]
    rfl
  · rename_i hb
    rw [Nat.max_eq_left (show r.firstBbId ≤ x.firstBbId from Nat.le_of_not_lt hb)]
    rfl

/-- With eight slots or more it loses one. -/
theorem turn_loses {n k : Nat} (hk : 3 ≤ k) (hpow : n = 2 ^ k) {x r : PNLivenessRange} (h : ¬ Evicts x.firstBbId r x)
    {r' : PNLivenessRange} {s' : SlotScan} {visited : List SlotScan}
    (hrun : placeRange n r (scanOne n x) = .ok (r', s', visited)) : ¬ ∀ t ∈ visited, t.Exact n := by
  have hn : 8 ≤ n := hpow ▸ Nat.pow_le_pow_right (by omega : 0 < 2) hk
  have hex := exact_firstPopped (n := n) (by omega) ⟨k, hpow⟩
  have hhole := firstPopped_hole hk hpow
  have hlen := firstPopped_length n
  obtain ⟨y, rest, hy⟩ := List.exists_cons_of_length_pos (by omega : 0 < (firstPopped n).length)
  have hplace := placeRange_eq (evictBefore_one (n := n) h) (show firstPopped n = y :: rest from hy)
    (show 1 < n by omega)
  intro hvis
  rw [hplace] at hrun
  obtain ⟨-, -, rfl⟩ := Prod.mk.inj (Except.ok.inj hrun) |>.imp_right Prod.mk.inj
  have hlast := hvis _ (List.mem_append_right _ (List.mem_singleton_self _))
  change HeapExact n (siftDown (firstPopped n).length (firstPopped n) 0).1.dropLast ([0] ++ [y]) at hlast
  rw [hy] at hex hhole hlast
  exact hex.not_pop hhole hlast

/-! ## Local values live one after the other -/

/-- With a power of two of slots they all get slot 0. -/
theorem turns_chain {n : Nat} (hn : 0 < n) (hpow : ∃ k, n = 2 ^ k) : ∀ {x : PNLivenessRange} {rs : List PNLivenessRange},
    (∀ r ∈ x :: rs, r.firstBbId ≤ r.lastBbId) → (x :: rs).IsChain PNLivenessRange.Before →
    Turns n (scanOne n x) rs (rs.map fun r => { r with slotId := 0 })
  | _, [], _, _ => .nil n _
  | x, r :: rs, hr, hchain => by
    rw [List.isChain_cons_cons] at hchain
    have hx := hr x List.mem_cons_self
    have hev : Evicts x.firstBbId r x := ⟨Nat.lt_of_le_of_lt hx hchain.1, hchain.1⟩
    exact .cons (turn_next hn hpow hev) (turns_chain hn hpow (fun r hm => hr r (List.mem_cons_of_mem _ hm)) hchain.2)

/-- With eight slots or more the heap stays exact for no others. -/
theorem chain_of_turns {n k : Nat} (hk : 3 ≤ k) (hpow : n = 2 ^ k) :
    ∀ {x : PNLivenessRange} {rs slots : List PNLivenessRange}, Turns n (scanOne n x) rs slots →
    (x :: rs).IsChain PNLivenessRange.Before
  | _, [], _, _ => List.isChain_singleton _
  | x, r :: rs, slots, h => by
    have hn : 0 < n := hpow ▸ Nat.two_pow_pos k
    obtain ⟨r', s', visited, slots', hrun, hex, hrest, -⟩ := h.exists_turn
    by_cases hev : Evicts x.firstBbId r x
    · obtain ⟨_, hnext, -⟩ := turn_next hn ⟨k, hpow⟩ hev
      rw [hnext] at hrun
      obtain ⟨-, hscan⟩ := Prod.mk.inj (Except.ok.inj hrun)
      obtain ⟨rfl, -⟩ := Prod.mk.inj hscan
      exact List.isChain_cons_cons.mpr ⟨hev.2, chain_of_turns hk hpow hrest⟩
    · exact absurd hex (turn_loses hk hpow hev hrun)

/-- In a chain no two values meet. -/
theorem chain_apart : ∀ {x : PNLivenessRange} {rs : List PNLivenessRange}, (∀ r ∈ x :: rs, r.firstBbId ≤ r.lastBbId) →
    (x :: rs).IsChain PNLivenessRange.Before → (x :: rs).Pairwise PNLivenessRange.Before
  | _, [], _, _ => List.pairwise_singleton _ _
  | x, r :: rs, hr, hchain => by
    rw [List.isChain_cons_cons] at hchain
    have hrest := chain_apart (fun r hm => hr r (List.mem_cons_of_mem _ hm)) hchain.2
    have hr0 := hr r (List.mem_cons_of_mem _ List.mem_cons_self)
    refine List.pairwise_cons.mpr ⟨fun r' hr' => ?_, hrest⟩
    rcases List.mem_cons.mp hr' with rfl | hr'
    · exact hchain.1
    · have := (List.pairwise_cons.mp hrest).1 r' hr'
      unfold PNLivenessRange.Before at this hchain ⊢
      omega

theorem slotsKept_of_chain {numArgs numConstants : Nat} {ranges : List PNLivenessRange} (hn : 0 < ranges.length)
    (hpow : ∃ k, ranges.length = 2 ^ k)
    (hr : ∀ r ∈ ranges.drop (numArgs + numConstants), r.firstBbId ≤ r.lastBbId)
    (hchain : (ranges.drop (numArgs + numConstants)).IsChain PNLivenessRange.Before) :
    SlotsKept numArgs numConstants ranges := by
  rw [slotsKept_iff_turns]
  refine ⟨(ranges.drop (numArgs + numConstants)).map fun r => { r with slotId := 0 }, ?_, ?_, ?_⟩
  · cases hl : ranges.drop (numArgs + numConstants) with
    | nil => exact .nil _ _
    | cons x rs =>
      rw [hl] at hr hchain
      exact .cons (turn_init hn hpow x) (turns_chain hn hpow hr hchain)
  · cases hl : ranges.drop (numArgs + numConstants) with
    | nil => exact List.Pairwise.nil
    | cons x rs =>
      rw [hl] at hr hchain
      refine List.pairwise_map.mpr ((chain_apart hr hchain).imp fun {r r'} hb hm => ?_)
      unfold PNLivenessRange.Before at hb
      exact absurd hm.2 (Nat.not_le_of_lt hb)
  · intro r hr
    obtain ⟨r', -, rfl⟩ := List.mem_map.mp hr
    exact hn

/-! ## Two and four values -/

/-- `x` holds `i` and `y` holds `j`, and the heap is `avail`. -/
def scanTwo (avail : List Nat) (x y : PNLivenessRange) (i j b : Nat) : SlotScan :=
  ⟨avail, [{ x with slotId := i }, { y with slotId := j }], b⟩

/-- `x`, `y` and `z` hold the slots 0, 1 and 2 of four. -/
def scanThree (x y z : PNLivenessRange) (b : Nat) : SlotScan :=
  ⟨[3], [{ x with slotId := 0 }, { y with slotId := 1 }, { z with slotId := 2 }], b⟩

/-- The second turn of two. -/
theorem turn_second_of_two (x r : PNLivenessRange) :
    ∃ slotId s', Turn 2 (scanOne 2 x) r slotId s' ∧ (slotId = 0 ∧ Evicts x.firstBbId r x ∨ slotId = 1) := by
  by_cases h : Evicts x.firstBbId r x
  · exact ⟨0, _, turn_next (by omega) ⟨1, rfl⟩ h, .inl ⟨rfl, h⟩⟩
  · refine ⟨1, _, ⟨_, placeRange_eq (evictBefore_one h) (show firstPopped 2 = 1 :: [] from rfl) (show 1 < 2 by omega), ?_⟩, .inr rfl⟩
    intro t ht
    rw [List.mem_singleton.mp ht]
    change HeapExact 2 [] [0, 1]
    decide

section Four

variable {x y z r : PNLivenessRange} {b : Nat}

-- with these, `simp` runs a turn once it knows which ranges are finished
attribute [local simp] placeRange evictBefore evictFinished reheapAvail popMinimum siftUp siftDown cell scanTwo scanThree
  cAssert require ok_bind SlotScan.Exact

/-- One of four slots is taken. -/
theorem turn_one_of_four :
    Evicts x.firstBbId r x ∧ Turn 4 (scanOne 4 x) r 0 (scanOne 4 r) ∨
    ¬ Evicts x.firstBbId r x ∧ Turn 4 (scanOne 4 x) r 1 (scanTwo [2, 3] x r 0 1 (max x.firstBbId r.firstBbId)) := by
  by_cases h : Evicts x.firstBbId r x
  · exact .inl ⟨h, turn_next (by omega) ⟨2, rfl⟩ h⟩
  · refine .inr ⟨h, ⟨_, placeRange_eq (evictBefore_one h) (show firstPopped 4 = 1 :: [3, 2] from rfl) (show 1 < 4 by omega), ?_⟩⟩
    intro t ht
    rw [List.mem_singleton.mp ht]
    change HeapExact 4 [2, 3] [0, 1]
    decide

/-- Two of four slots are taken. -/
theorem turn_two_of_four :
    Evicts b r x ∧ Evicts b r y ∧ Turn 4 (scanTwo [2, 3] x y 0 1 b) r 0 (scanOne 4 r) ∨
    Evicts b r x ∧ ¬ Evicts b r y ∧ Turn 4 (scanTwo [2, 3] x y 0 1 b) r 0 (scanTwo [2, 3] y r 1 0 r.firstBbId) ∨
    ¬ Evicts b r x ∧ Evicts b r y ∧ Turn 4 (scanTwo [2, 3] x y 0 1 b) r 1 (scanTwo [2, 3] x r 0 1 r.firstBbId) ∨
    ¬ Evicts b r x ∧ ¬ Evicts b r y ∧ Turn 4 (scanTwo [2, 3] x y 0 1 b) r 2 (scanThree x y r (max b r.firstBbId)) := by
  by_cases hb : b < r.firstBbId
  · by_cases hx : x.lastBbId < r.firstBbId <;> by_cases hy : y.lastBbId < r.firstBbId
    · refine .inl ⟨⟨hb, hx⟩, ⟨hb, hy⟩, _, by simp [hb, hx, hy]; exact ⟨rfl, rfl⟩, ?_⟩
      simp; decide
    · refine .inr (.inl ⟨⟨hb, hx⟩, fun h => hy h.2, _, by simp [hb, hx, hy]; rfl, ?_⟩)
      simp; decide
    · refine .inr (.inr (.inl ⟨fun h => hx h.2, ⟨hb, hy⟩, _, by simp [hb, hx, hy]; rfl, ?_⟩))
      simp; decide
    · refine .inr (.inr (.inr ⟨fun h => hx h.2, fun h => hy h.2, _, by simp [hb, hx, hy, Nat.le_of_lt hb]; rfl, ?_⟩))
      simp; decide
  · refine .inr (.inr (.inr ⟨fun h => hb h.1, fun h => hb h.1, _, by simp [hb, Nat.le_of_not_lt hb]; rfl, ?_⟩))
    simp; decide

/-- The last turn of four, after the first value that was finished. -/
theorem turn_last_two :
    ∃ slotId s', Turn 4 (scanTwo [2, 3] x y 1 0 b) r slotId s' ∧
      (slotId = 1 ∧ Evicts b r x ∨ slotId = 0 ∧ Evicts b r y ∨ slotId = 2) := by
  by_cases hb : b < r.firstBbId
  · by_cases hx : x.lastBbId < r.firstBbId <;> by_cases hy : y.lastBbId < r.firstBbId
    all_goals
      refine ⟨_, _, ⟨_, by simp [hb, hx, hy]; exact ⟨rfl, rfl, rfl⟩, by simp; decide⟩, by simp [Evicts, *]⟩
  · refine ⟨_, _, ⟨_, by simp [hb]; exact ⟨rfl, rfl, rfl⟩, by simp; decide⟩, by simp [Evicts, *]⟩

/-- The last turn of four, when no value was finished. -/
theorem turn_last_three :
    ∃ slotId s', Turn 4 (scanThree x y z b) r slotId s' ∧
      (slotId = 0 ∧ Evicts b r x ∨ slotId = 1 ∧ Evicts b r y ∨ slotId = 2 ∧ Evicts b r z ∨ slotId = 3) := by
  by_cases hb : b < r.firstBbId
  · by_cases hx : x.lastBbId < r.firstBbId <;> by_cases hy : y.lastBbId < r.firstBbId <;>
      by_cases hz : z.lastBbId < r.firstBbId
    all_goals
      refine ⟨_, _, ⟨_, by simp [hb, hx, hy, hz]; exact ⟨rfl, rfl, rfl⟩, by simp; decide⟩, by simp [Evicts, *]⟩
  · refine ⟨_, _, ⟨_, by simp [hb]; exact ⟨rfl, rfl, rfl⟩, by simp; decide⟩, by simp [Evicts, *]⟩

end Four

section FourLocals

variable {v₀ v₁ v₂ v₃ : PNLivenessRange}

theorem turns_two_of_four : ∃ slots, Turns 4 (.init 4) [v₀, v₁] slots ∧ Separate 4 slots := by
  have t₀ := turn_init (n := 4) (by omega) ⟨2, rfl⟩ v₀
  rcases turn_one_of_four (x := v₀) (r := v₁) with ⟨e₁, t₁⟩ | ⟨e₁, t₁⟩
  all_goals
    refine ⟨_, .cons t₀ (.cons t₁ (.nil _ _)), ?_⟩
    simp [Separate, PNLivenessRange.Meets, Evicts] at e₁ ⊢ <;> omega

theorem turns_three_of_four :
    ∃ slots, Turns 4 (.init 4) [v₀, v₁, v₂] slots ∧ Separate 4 slots := by
  have t₀ := turn_init (n := 4) (by omega) ⟨2, rfl⟩ v₀
  rcases turn_one_of_four (x := v₀) (r := v₁) with ⟨e₁, t₁⟩ | ⟨e₁, t₁⟩
  · rcases turn_one_of_four (x := v₁) (r := v₂) with ⟨e₂, t₂⟩ | ⟨e₂, t₂⟩
    all_goals
      refine ⟨_, .cons t₀ (.cons t₁ (.cons t₂ (.nil _ _))), ?_⟩
      simp [Separate, PNLivenessRange.Meets, Evicts] at e₁ e₂ ⊢
      omega
  · rcases turn_two_of_four (x := v₀) (y := v₁) (r := v₂) (b := max v₀.firstBbId v₁.firstBbId) with
      ⟨e₂, e₃, t₂⟩ | ⟨e₂, e₃, t₂⟩ | ⟨e₂, e₃, t₂⟩ | ⟨e₂, e₃, t₂⟩
    all_goals
      refine ⟨_, .cons t₀ (.cons t₁ (.cons t₂ (.nil _ _))), ?_⟩
      simp [Separate, PNLivenessRange.Meets, Evicts] at e₁ e₂ e₃ ⊢ <;> omega

/-- The last of four local values, by the scan that the third one leaves. -/
theorem turns_four_of_four (h₀ : v₀.firstBbId ≤ v₀.lastBbId) (hrev : ¬ Revisits [v₀, v₁, v₂, v₃]) :
    ∃ slots, Turns 4 (.init 4) [v₀, v₁, v₂, v₃] slots ∧ Separate 4 slots := by
  have t₀ := turn_init (n := 4) (by omega) ⟨2, rfl⟩ v₀
  rcases turn_one_of_four (x := v₀) (r := v₁) with ⟨e₁, t₁⟩ | ⟨e₁, t₁⟩
  · rcases turn_one_of_four (x := v₁) (r := v₂) with ⟨e₂, t₂⟩ | ⟨e₂, t₂⟩
    · rcases turn_one_of_four (x := v₂) (r := v₃) with ⟨e₃, t₃⟩ | ⟨e₃, t₃⟩
      all_goals
        refine ⟨_, .cons t₀ (.cons t₁ (.cons t₂ (.cons t₃ (.nil _ _)))), ?_⟩
        simp [Separate, PNLivenessRange.Meets, Evicts] at e₁ e₂ e₃ ⊢
        omega
    · rcases turn_two_of_four (x := v₁) (y := v₂) (r := v₃) (b := max v₁.firstBbId v₂.firstBbId) with
        ⟨e₃, e₄, t₃⟩ | ⟨e₃, e₄, t₃⟩ | ⟨e₃, e₄, t₃⟩ | ⟨e₃, e₄, t₃⟩
      all_goals
        refine ⟨_, .cons t₀ (.cons t₁ (.cons t₂ (.cons t₃ (.nil _ _)))), ?_⟩
        simp [Separate, PNLivenessRange.Meets, Evicts] at e₁ e₂ e₃ e₄ ⊢
        omega
  · rcases turn_two_of_four (x := v₀) (y := v₁) (r := v₂) (b := max v₀.firstBbId v₁.firstBbId) with
      ⟨e₂, e₃, t₂⟩ | ⟨e₂, e₃, t₂⟩ | ⟨e₂, e₃, t₂⟩ | ⟨e₂, e₃, t₂⟩
    · rcases turn_one_of_four (x := v₂) (r := v₃) with ⟨e₄, t₃⟩ | ⟨e₄, t₃⟩
      all_goals
        refine ⟨_, .cons t₀ (.cons t₁ (.cons t₂ (.cons t₃ (.nil _ _)))), ?_⟩
        simp [Separate, PNLivenessRange.Meets, Evicts, Revisits] at e₁ e₂ e₃ e₄ hrev ⊢
        omega
    · obtain ⟨slotId, s', t₃, e₄⟩ := turn_last_two (x := v₁) (y := v₂) (r := v₃) (b := v₂.firstBbId)
      refine ⟨_, .cons t₀ (.cons t₁ (.cons t₂ (.cons t₃ (.nil _ _)))), ?_⟩
      simp [Separate, PNLivenessRange.Meets, Evicts] at e₁ e₂ e₃ e₄ ⊢
      omega
    · rcases turn_two_of_four (x := v₀) (y := v₂) (r := v₃) (b := v₂.firstBbId) with
        ⟨e₄, e₅, t₃⟩ | ⟨e₄, e₅, t₃⟩ | ⟨e₄, e₅, t₃⟩ | ⟨e₄, e₅, t₃⟩
      all_goals
        refine ⟨_, .cons t₀ (.cons t₁ (.cons t₂ (.cons t₃ (.nil _ _)))), ?_⟩
        simp [Separate, PNLivenessRange.Meets, Evicts] at e₁ e₂ e₃ e₄ e₅ ⊢
        omega
    · obtain ⟨slotId, s', t₃, e₄⟩ := turn_last_three (x := v₀) (y := v₁) (z := v₂) (r := v₃)
        (b := max (max v₀.firstBbId v₁.firstBbId) v₂.firstBbId)
      refine ⟨_, .cons t₀ (.cons t₁ (.cons t₂ (.cons t₃ (.nil _ _)))), ?_⟩
      simp [Separate, PNLivenessRange.Meets, Evicts] at e₁ e₂ e₃ e₄ ⊢
      omega

/-- Where the values revisit a block, the fourth takes the slot of the second. -/
theorem not_separate_of_revisits (h₀ : v₀.firstBbId ≤ v₀.lastBbId) (hrev : Revisits [v₀, v₁, v₂, v₃])
    {slots : List PNLivenessRange} (hrun : Turns 4 (.init 4) [v₀, v₁, v₂, v₃] slots) : ¬ Separate 4 slots := by
  obtain ⟨h₁, h₂, h₃, hmeets⟩ := hrev
  have t₀ := turn_init (n := 4) (by omega) ⟨2, rfl⟩ v₀
  have t₁ := turn_one_of_four (x := v₀) (r := v₁) |>.resolve_left fun e => Nat.not_lt_of_le h₁ e.1.2
  have hb : max v₀.firstBbId v₁.firstBbId < v₂.firstBbId := by omega
  obtain ⟨-, -, t₂⟩ := turn_two_of_four (x := v₀) (y := v₁) (r := v₂) (b := max v₀.firstBbId v₁.firstBbId)
    |>.resolve_right fun e => by simp [Evicts, hb, h₂, h₃] at e
  have t₃ := turn_one_of_four (x := v₂) (r := v₃) |>.resolve_left fun e => by
    have := e.1.1
    have := hmeets.1
    omega
  have hslots := hrun.unique (.cons t₀ (.cons t₁.2 (.cons t₂ (.cons t₃.2 (.nil _ _)))))
  rintro ⟨hpair, -⟩
  rw [hslots] at hpair
  have hlast := (List.pairwise_cons.mp (List.pairwise_cons.mp hpair).2).1
  exact hlast { v₃ with slotId := 1 } (by simp) ⟨hmeets.2, hmeets.1⟩ rfl

end FourLocals

/-! ## When the slots are kept -/

section Iff

variable {numArgs numConstants : Nat} {ranges : List PNLivenessRange}

theorem slotsKept_of_nil (hlocals : ranges.drop (numArgs + numConstants) = []) : SlotsKept numArgs numConstants ranges := by
  rw [slotsKept_iff_turns, hlocals]
  exact ⟨[], .nil _ _, List.Pairwise.nil, by simp⟩

theorem slotsKept_of_le_two (hn : ranges.length ≤ 2) : SlotsKept numArgs numConstants ranges := by
  rw [slotsKept_iff_turns]
  have hlen : (ranges.drop (numArgs + numConstants)).length ≤ ranges.length := by simp
  cases hlocals : ranges.drop (numArgs + numConstants) with
  | nil => exact ⟨[], .nil _ _, List.Pairwise.nil, by simp⟩
  | cons v rs =>
    rw [hlocals, List.length_cons] at hlen
    have hpos : 0 < ranges.length := by omega
    have hpow : ∃ k, ranges.length = 2 ^ k := by
      rcases (by omega : ranges.length = 1 ∨ ranges.length = 2) with h | h
      · exact ⟨0, h⟩
      · exact ⟨1, h⟩
    cases rs with
    | nil =>
      refine ⟨_, .cons (turn_init hpos hpow v) (.nil _ _), List.pairwise_singleton _ _, ?_⟩
      simpa using hpos
    | cons r rs =>
      have htwo : ranges.length = 2 := by rw [List.length_cons] at hlen; omega
      have hrs : rs = [] := List.eq_nil_of_length_eq_zero (by rw [List.length_cons] at hlen; omega)
      rw [htwo, hrs]
      obtain ⟨slotId, s', ht, hslot⟩ := turn_second_of_two v r
      refine ⟨_, .cons (turn_init (by omega) ⟨1, rfl⟩ v) (.cons ht (.nil _ _)), ?_⟩
      simp [Separate, PNLivenessRange.Meets, Evicts] at hslot ⊢
      omega

theorem slotsKept_four_iff (hn : ranges.length = 4)
    (hr : ∀ r ∈ ranges.drop (numArgs + numConstants), r.firstBbId ≤ r.lastBbId) :
    SlotsKept numArgs numConstants ranges ↔ ¬ Revisits (ranges.drop (numArgs + numConstants)) := by
  rw [slotsKept_iff_turns, hn]
  have hlen : (ranges.drop (numArgs + numConstants)).length ≤ 4 := by simp [hn]
  match hlocals : ranges.drop (numArgs + numConstants) with
  | [] => exact ⟨fun _ => id, fun _ => ⟨[], .nil _ _, List.Pairwise.nil, by simp⟩⟩
  | [v₀] =>
    exact ⟨fun _ => id, fun _ => ⟨_, .cons (turn_init (by omega) ⟨2, rfl⟩ v₀) (.nil _ _), by simp [Separate]⟩⟩
  | [v₀, v₁] => exact ⟨fun _ => id, fun _ => turns_two_of_four⟩
  | [v₀, v₁, v₂] => exact ⟨fun _ => id, fun _ => turns_three_of_four⟩
  | [v₀, v₁, v₂, v₃] =>
    have h₀ : v₀.firstBbId ≤ v₀.lastBbId := hr v₀ (by simp [hlocals])
    refine ⟨?_, turns_four_of_four h₀⟩
    rintro ⟨slots, hrun, hsep⟩ hrev
    exact not_separate_of_revisits h₀ hrev hrun hsep
  | _ :: _ :: _ :: _ :: _ :: _ =>
    simp only [hlocals, List.length_cons] at hlen
    omega

/-- A function with a local value needs a power of two of slots. -/
theorem SlotsKept.pow {v : PNLivenessRange} {rs : List PNLivenessRange} (h : SlotsKept numArgs numConstants ranges)
    (hlocals : ranges.drop (numArgs + numConstants) = v :: rs) (hn : 0 < ranges.length) : ∃ k, ranges.length = 2 ^ k := by
  by_contra hpow
  obtain ⟨slots, hrun, -⟩ := slotsKept_iff_turns.mp h
  rw [hlocals] at hrun
  obtain ⟨r', s', visited, -, hplace, hex, -, -⟩ := hrun.exists_turn
  rw [placeRange_init hn v] at hplace
  obtain ⟨-, -, rfl⟩ := Prod.mk.inj (Except.ok.inj hplace) |>.imp_right Prod.mk.inj
  exact not_exact_firstPopped hn hpow (hex _ (List.mem_singleton_self _))

/-- With eight values or more, the local values are live one after the other. -/
theorem SlotsKept.chain {k : Nat} (h : SlotsKept numArgs numConstants ranges) (hk : 3 ≤ k)
    (hpow : ranges.length = 2 ^ k) : (ranges.drop (numArgs + numConstants)).IsChain PNLivenessRange.Before := by
  obtain ⟨slots, hrun, -⟩ := slotsKept_iff_turns.mp h
  cases hlocals : ranges.drop (numArgs + numConstants) with
  | nil => exact List.isChain_nil
  | cons v rs =>
    have hn : 0 < ranges.length := hpow ▸ Nat.two_pow_pos k
    rw [hlocals] at hrun
    obtain ⟨r', s', visited, slots', hplace, -, hrest, -⟩ := hrun.exists_turn
    rw [placeRange_init hn v] at hplace
    obtain ⟨-, rfl, -⟩ := Prod.mk.inj (Except.ok.inj hplace) |>.imp_right Prod.mk.inj
    exact chain_of_turns hk hpow hrest

end Iff

/-- **The slots are kept exactly for the functions of `SlotsSafe`.** -/
theorem slotMap_iff (numArgs numConstants : Nat) (ranges : List PNLivenessRange)
    (hr : ∀ r ∈ ranges.drop (numArgs + numConstants), r.firstBbId ≤ r.lastBbId) :
    SlotsKept numArgs numConstants ranges ↔ SlotsSafe numArgs numConstants ranges := by
  constructor
  · intro h
    cases hlocals : ranges.drop (numArgs + numConstants) with
    | nil => exact .inl hlocals
    | cons v rs =>
      have hn : 0 < ranges.length := by
        have := congrArg List.length hlocals
        simp only [List.length_drop, List.length_cons] at this
        omega
      obtain ⟨k, hpow⟩ := h.pow hlocals hn
      rcases (by omega : k ≤ 1 ∨ k = 2 ∨ 3 ≤ k) with hk | rfl | hk
      · exact .inr (.inl (hpow ▸ Nat.pow_le_pow_right (by omega) hk))
      · exact .inr (.inr (.inl ⟨hpow, (slotsKept_four_iff hpow hr).mp h⟩))
      · exact .inr (.inr (.inr ⟨⟨k, hpow⟩, h.chain hk hpow⟩))
  · rintro (hnil | htwo | ⟨hfour, hrev⟩ | ⟨hpow, hchain⟩)
    · exact slotsKept_of_nil hnil
    · exact slotsKept_of_le_two htwo
    · exact (slotsKept_four_iff hfour hr).mpr hrev
    · obtain ⟨k, hk⟩ := hpow
      exact slotsKept_of_chain (hk ▸ Nat.two_pow_pos k) ⟨k, hk⟩ hr hchain

/-- Four values that are live in the same blocks. -/
theorem slotMap_iff_four :
    (∀ r ∈ List.replicate 4 (⟨0, 1, 0⟩ : PNLivenessRange), r.firstBbId ≤ r.lastBbId) ∧
      SlotsKept 0 0 (List.replicate 4 ⟨0, 1, 0⟩) :=
  ⟨by decide, (slotMap_iff 0 0 _ (by decide)).mpr (.inr (.inr (.inl ⟨rfl, fun h => absurd h.2.1 (by decide)⟩)))⟩

/-- Of three values that are live in block 0, the last two get slot 1. -/
theorem three_share_slot :
    (pnFunctionMakeSlotMap 0 0 (List.replicate 3 ⟨0, 0, 0⟩)).map Prod.fst = .ok [⟨0, 0, 0⟩, ⟨0, 0, 1⟩, ⟨0, 0, 1⟩] ∧
      ¬ SlotsKept 0 0 (List.replicate 3 ⟨0, 0, 0⟩) := by
  have hrun : (pnFunctionMakeSlotMap 0 0 (List.replicate 3 ⟨0, 0, 0⟩)).map Prod.fst =
      .ok [⟨0, 0, 0⟩, ⟨0, 0, 1⟩, ⟨0, 0, 1⟩] := by decide +kernel
  refine ⟨hrun, ?_⟩
  rintro ⟨slots, visited, hok, ⟨hpair, -⟩, -⟩
  rw [hok] at hrun
  obtain rfl : slots = [⟨0, 0, 0⟩, ⟨0, 0, 1⟩, ⟨0, 0, 1⟩] := Except.ok.inj hrun
  exact (List.pairwise_cons.mp (List.pairwise_cons.mp hpair).2).1 ⟨0, 0, 1⟩ (by simp) (by decide) rfl

end Pnacl
