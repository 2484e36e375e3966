import Pnacl.Lib.Moves
import Pnacl.ThreadOps

/-!
# Branches

BR, conditional BR and SWITCH: the destination, the phi table behind the instruction, and `pn_thread_do_phi_assigns` on it.
The values of the current frame are an environment (`frameValue`), in which the in-place loop does the moves of the table
in order (`phiAssignsInPlace_spec`) and the two-pass loop does them at once (`phiAssignsTwoPass_spec`).
-/

namespace Pnacl

open Lib

/-! ## The instructions -/

/-- `value.ty` as the `int64_t` that a case is compared with. -/
def switchValue (type0 : PNBasicType) (value : Nat) : Int :=
  match type0 with
  | .int16 => Int.bmod value (2 ^ 16)
  | .int32 => Int.bmod value (2 ^ 32)
  | .int64 => Int.bmod value (2 ^ 64)
  | _ => Int.bmod value (2 ^ 8)

/-- `new_inst`; `none` for an instruction that is not a branch. -/
def newInst (ex : PNExecutor) (th : PNThread) : PNRuntimeInstruction → Option Nat
  | .br inst => some inst
  | .brInt1 valueId trueInst falseInst =>
    some (if pnThreadGetValue ex th valueId % 2 ^ 8 ≠ 0 then trueInst else falseInst)
  | .switch (.switch type0) valueId defaultInst numCases cases =>
    let value := switchValue type0 (pnThreadGetValue ex th valueId)
    some (match (cases.take numCases).find? fun c => value = c.value with
      | some c => c.inst
      | none => defaultInst)
  | _ => none

/-- The phi assigns of the table behind the instruction, on the way to `destInst`. -/
def branchTo (ex : PNExecutor) (stream : PNIstream) (malloc : Malloc) (destInst : Nat) (th : PNThread) :
    Except Stop PNThread :=
  match stream.at th.inst with
  | none => .error (.undefined "no instruction at this address")
  | some inst =>
    match stream.at (th.inst + inst.sizeof) with
    | some (.phiTable numPhiAssigns fastPhiAssign phiAssigns) =>
      (PNThreadOp.phiAssigns malloc (fastPhiAssign ≠ 0) (phiAssigns.take numPhiAssigns) destInst).exec ex th
    | _ => .error (.undefined "no phi table at this address")

/-- `PN_OPCODE_BR`, `PN_OPCODE_BR_INT1` and `PN_OPCODE_SWITCH` on the stream of the current function. -/
def opcodeBranch (ex : PNExecutor) (stream : PNIstream) (malloc : Malloc) (th : PNThread) : Except Stop PNThread :=
  match (stream.at th.inst).bind (newInst ex th) with
  | none => .error (.undefined "no branch at this address")
  | some destInst => branchTo ex stream malloc destInst th

/-! ## The values of a frame -/

/-- The current frame and its `n` values are allocated. -/
structure FrameState (th : PNThread) (n : Nat) : Prop where
  inv : th.allocator.Inv
  frame : PNBlock.AllocatedIn ⟨th.currentFrame, PNCallFrame.sizeof⟩ th.allocator
  values : PNBlock.AllocatedIn ⟨(readFrame th.mem th.currentFrame).functionValues, 8 * n⟩ th.allocator
  disjoint : PNBlock.Disjoint ⟨th.currentFrame, PNCallFrame.sizeof⟩
    ⟨(readFrame th.mem th.currentFrame).functionValues, 8 * n⟩

/-- The moves that a table asks for on the way to `destInst`. -/
def movesTo (destInst : Nat) (assigns : List PNRuntimePhiAssign) : List (Move Nat) :=
  (assigns.filter fun a => a.inst = destInst).map fun a => ⟨a.destValueId, a.sourceValueId⟩

section

variable {ex : PNExecutor} {th th' : PNThread} {n destInst : Nat}

theorem movesTo_cons_of_eq {a : PNRuntimePhiAssign} {as : List PNRuntimePhiAssign} (h : a.inst = destInst) :
    movesTo destInst (a :: as) = ⟨a.destValueId, a.sourceValueId⟩ :: movesTo destInst as := by
  simp [movesTo, h]

theorem movesTo_cons_of_ne {a : PNRuntimePhiAssign} {as : List PNRuntimePhiAssign} (h : a.inst ≠ destInst) :
    movesTo destInst (a :: as) = movesTo destInst as := by
  simp [movesTo, h]

/-- The storage invariant gives the frame state of the current frame. -/
theorem ThreadInv.frameState {e : Entry} {es : List Entry} (h : ThreadInv ex th (e :: es)) :
    FrameState th (ex.functions e.functionId).numValues := by
  obtain ⟨_, hx, hbase, _, _⟩ := h.levels
  have hvalues := h.fixed.values
  refine ⟨h.inv, ?_, ?_, ?_⟩
  · rw [h.current]
    exact (hbase e.frameBlock (by simp)).mono hx
  · rw [hvalues]
    exact (hbase (e.valuesBlock ex) (by simp)).mono hx
  · rw [hvalues, h.current]
    exact (h.values_disjoint (b := e.frameBlock) (by simp [Entry.records])).symm

/-- The memory has changed outside the frame only. -/
theorem FrameState.congr (h : FrameState th n) (hframe : th'.currentFrame = th.currentFrame) (hi : th'.allocator.Inv)
    (hx : Extends th.allocator th'.allocator)
    (hm : SameWords th.mem th'.mem th.currentFrame PNCallFrame.sizeof) : FrameState th' n := by
  have hread : readFrame th'.mem th'.currentFrame = readFrame th.mem th.currentFrame := by
    rw [hframe]
    exact readFrame_congr hm
  refine ⟨hi, ?_, ?_, ?_⟩
  · rw [hframe]
    exact h.frame.mono hx
  · rw [hread]
    exact h.values.mono hx
  · rw [hread, hframe]
    exact h.disjoint

/-- Setting a value is an update of the environment. -/
theorem FrameState.setValue (h : FrameState th n) {id w : Nat} (hlt : id < ex.numValues + n)
    (hs : pnThreadSetValue ex th id w = .ok th') :
    FrameState th' n ∧ pnThreadGetValue ex th' = Function.update (pnThreadGetValue ex th) id w ∧
      th' = th.store ((readFrame th.mem th.currentFrame).functionValues + 8 * (id - ex.numValues)) w := by
  obtain ⟨hid, _, _, rfl⟩ := setValue_ok hs
  generalize hp : (readFrame th.mem th.currentFrame).functionValues = values at *
  have hdis := h.disjoint
  simp only [hp, PNBlock.Disjoint] at hdis
  have hsame : SameWords th.mem (th.store (values + 8 * (id - ex.numValues)) w).mem th.currentFrame PNCallFrame.sizeof :=
    update_sameWords (by omega)
  refine ⟨h.congr rfl h.inv (.refl _) hsame, ?_, rfl⟩
  have hread := readFrame_congr hsame
  funext i
  unfold pnThreadGetValue pnExecutorGetValueFromFrame
  rw [show (th.store (values + 8 * (id - ex.numValues)) w).currentFrame = th.currentFrame from rfl, hread, hp]
  by_cases heq : i = id
  · subst heq
    rw [Function.update_self, if_pos hid]
    exact Function.update_self ..
  · rw [Function.update_of_ne heq]
    split
    · exact Function.update_of_ne (by omega) _ _
    · rfl

/-- A value of the function can be set. -/
theorem FrameState.setValue_returns (h : FrameState th n) {id : Nat} (hge : ex.numValues ≤ id)
    (hlt : id < ex.numValues + n) (hne : id ≠ PN_INVALID_VALUE_ID) (w : Nat) :
    pnThreadSetValue ex th id w =
      .ok (th.store ((readFrame th.mem th.currentFrame).functionValues + 8 * (id - ex.numValues)) w) := by
  obtain ⟨c, hc, hlo, hhi⟩ := h.values
  have hend := (h.inv.wf c hc).current_le
  unfold pnThreadSetValue
  rw [cAssert_bind hge]
  refine if_pos ⟨hne, ?_⟩
  rw [live_iff]
  simp only at hlo hhi
  exact ⟨c, hc, hlo, by omega⟩

/-! ## The loops -/

/-- The in-place loop does the moves in order. -/
theorem phiAssignsInPlace_spec : ∀ {as : List PNRuntimePhiAssign} {th : PNThread}, FrameState th n →
    (∀ a ∈ as, a.destValueId < ex.numValues + n) → phiAssignsInPlace ex destInst th as = .ok th' →
    pnThreadGetValue ex th' = movesInOrder (pnThreadGetValue ex th) (movesTo destInst as)
  | [], th, _, _, hs => by
    cases hs
    rfl
  | a :: as, th, h, hr, hs => by
    have hrest : ∀ b ∈ as, b.destValueId < ex.numValues + n := fun b hb => hr b (List.mem_cons_of_mem _ hb)
    rw [phiAssignsInPlace] at hs
    split at hs
    · next heq =>
      obtain ⟨th₁, h₁, hs⟩ := bind_eq_ok.mp hs
      obtain ⟨hf, henv, _⟩ := h.setValue (hr a (List.mem_cons_self ..)) h₁
      rw [phiAssignsInPlace_spec hf hrest hs, henv, movesTo_cons_of_eq heq, movesInOrder]
    · next hne => rw [phiAssignsInPlace_spec h hrest hs, movesTo_cons_of_ne hne]

/-- Words outside the frame and its values do not change what the ids of the frame name. -/
theorem getValue_congr {mem' : PNWords} (hframe : SameWords th.mem mem' th.currentFrame PNCallFrame.sizeof)
    (hvalues : SameWords th.mem mem' (readFrame th.mem th.currentFrame).functionValues (8 * n)) {id : Nat}
    (hlt : id < ex.numValues + n) {a : PNAllocator} :
    pnThreadGetValue ex { th with mem := mem', allocator := a } id = pnThreadGetValue ex th id := by
  unfold pnThreadGetValue pnExecutorGetValueFromFrame
  dsimp only
  rw [readFrame_congr hframe]
  split
  · exact hvalues _ (by omega) (by omega)
  · rfl

/-- The first pass: the array gets the values of the sources. -/
theorem phiAssignsRead_spec : ∀ {as : List PNRuntimePhiAssign} (temp : Nat) (th : PNThread), FrameState th n →
    PNBlock.Disjoint ⟨temp, 8 * as.length⟩ ⟨th.currentFrame, PNCallFrame.sizeof⟩ →
    PNBlock.Disjoint ⟨temp, 8 * as.length⟩ ⟨(readFrame th.mem th.currentFrame).functionValues, 8 * n⟩ →
    ∀ {i : Nat} {a : PNRuntimePhiAssign}, as[i]? = some a → a.sourceValueId < ex.numValues + n →
      (phiAssignsRead ex th temp as).mem (temp + 8 * i) = pnThreadGetValue ex th a.sourceValueId
  | [], _, _, _, _, _, _, _, ha, _ => by cases ha
  | b :: as, temp, th, h, hdf, hdv, i, a, ha, hlt => by
    simp only [PNBlock.Disjoint, List.length_cons] at hdf hdv
    rw [phiAssignsRead]
    cases i with
    | zero =>
      cases ha
      rw [(phiAssignsRead_eq ex as (temp + 8) _).2 _ (.inl (by omega))]
      exact Function.update_self ..
    | succ i =>
      have hframe : SameWords th.mem (th.store temp (pnThreadGetValue ex th b.sourceValueId)).mem th.currentFrame
          PNCallFrame.sizeof := update_sameWords (by omega)
      have hvalues : SameWords th.mem (th.store temp (pnThreadGetValue ex th b.sourceValueId)).mem
          (readFrame th.mem th.currentFrame).functionValues (8 * n) := update_sameWords (by omega)
      have hread : readFrame (th.store temp (pnThreadGetValue ex th b.sourceValueId)).mem th.currentFrame =
          readFrame th.mem th.currentFrame := readFrame_congr hframe
      rw [List.getElem?_cons_succ] at ha
      rw [show temp + 8 * (i + 1) = temp + 8 + 8 * i by omega,
        phiAssignsRead_spec (temp + 8) (th.store temp (pnThreadGetValue ex th b.sourceValueId))
          (h.congr rfl h.inv (.refl _) hframe) ?_ ?_ ha hlt]
      · exact getValue_congr hframe hvalues hlt
      · simp only [PNBlock.Disjoint, PNThread.store]
        omega
      · show PNBlock.Disjoint _ ⟨(readFrame _ th.currentFrame).functionValues, _⟩
        rw [hread]
        simp only [PNBlock.Disjoint]
        omega

/-- The second pass: the destinations get what is in the array, and nothing else changes. -/
theorem phiAssignsWrite_spec : ∀ {as : List PNRuntimePhiAssign} (temp : Nat) {th : PNThread}, FrameState th n →
    PNBlock.Disjoint ⟨temp, 8 * as.length⟩ ⟨(readFrame th.mem th.currentFrame).functionValues, 8 * n⟩ →
    (∀ a ∈ as, a.destValueId < ex.numValues + n) → ((movesTo destInst as).map Move.dest).Nodup →
    phiAssignsWrite ex destInst th temp as = .ok th' →
    (∀ {i : Nat} {a : PNRuntimePhiAssign}, as[i]? = some a → a.inst = destInst →
      pnThreadGetValue ex th' a.destValueId = th.mem (temp + 8 * i)) ∧
    ∀ id, id ∉ (movesTo destInst as).map Move.dest → pnThreadGetValue ex th' id = pnThreadGetValue ex th id
  | [], _, th, _, _, _, _, hs => by
    cases hs
    refine ⟨?_, fun _ _ => rfl⟩
    intro i a ha
    cases ha
  | b :: as, temp, th, h, hd, hr, hn, hs => by
    have hrest : ∀ a ∈ as, a.destValueId < ex.numValues + n := fun a ha => hr a (List.mem_cons_of_mem _ ha)
    rw [phiAssignsWrite] at hs
    simp only [PNBlock.Disjoint, List.length_cons] at hd
    split at hs
    · next heq =>
      obtain ⟨th₁, h₁, hs⟩ := bind_eq_ok.mp hs
      obtain ⟨hid, _⟩ := setValue_ok h₁
      have hlt := hr b (List.mem_cons_self ..)
      obtain ⟨hf, henv, rfl⟩ := h.setValue hlt h₁
      generalize hv : (readFrame th.mem th.currentFrame).functionValues = values at *
      rw [movesTo_cons_of_eq heq, List.map_cons] at hn ⊢
      rw [List.nodup_cons] at hn
      -- the write is in the values, so the array and the frame stay
      have hframe : readFrame (th.store (values + 8 * (b.destValueId - ex.numValues)) (th.mem temp)).mem th.currentFrame =
          readFrame th.mem th.currentFrame := by
        apply readFrame_congr
        have hdis := h.disjoint
        simp only [hv, PNBlock.Disjoint] at hdis
        exact update_sameWords (by omega)
      obtain ⟨hdest, hother⟩ := phiAssignsWrite_spec (temp + 8) hf (by
        show PNBlock.Disjoint _ ⟨(readFrame _ th.currentFrame).functionValues, _⟩
        rw [hframe, hv]
        simp only [PNBlock.Disjoint]
        omega) hrest hn.2 hs
      constructor
      · intro i a ha hinst
        cases i with
        | zero =>
          cases ha
          rw [hother _ hn.1, henv, Function.update_self]
          rfl
        | succ i =>
          have hi : i < as.length := Nat.lt_of_succ_lt_succ (List.getElem?_eq_some_iff.mp ha).1
          rw [hdest ha hinst, show temp + 8 + 8 * i = temp + 8 * (i + 1) by omega]
          exact Function.update_of_ne (by omega) _ _
      · intro id hid
        rw [List.mem_cons, not_or] at hid
        rw [hother id hid.2, henv, Function.update_of_ne hid.1]
    · next hne =>
      rw [movesTo_cons_of_ne hne] at hn ⊢
      obtain ⟨hdest, hother⟩ := phiAssignsWrite_spec (temp + 8) h (by
        simp only [PNBlock.Disjoint]
        omega) hrest hn hs
      refine ⟨?_, hother⟩
      intro i a ha hinst
      cases i with
      | zero =>
        cases ha
        exact absurd hinst hne
      | succ i => rw [hdest ha hinst, show temp + 8 + 8 * i = temp + 8 * (i + 1) by omega]

/-- **The two-pass loop does the moves at once**: every source that names a value is read before the first write. -/
theorem phiAssignsTwoPass_spec {malloc : Malloc} {as : List PNRuntimePhiAssign} (h : FrameState th n)
    (hm : MallocOk (malloc th.allocator.chunks) th.allocator.chunks) (hlen : as.length < 2 ^ 16)
    (hr : ∀ a ∈ as, a.destValueId < ex.numValues + n) (hn : ((movesTo destInst as).map Move.dest).Nodup)
    (hs : pnThreadDoPhiAssigns ex malloc false as destInst th = .ok th') :
    (∀ m ∈ movesTo destInst as, m.source < ex.numValues + n →
      pnThreadGetValue ex th' m.dest = pnThreadGetValue ex th m.source) ∧
    ∀ id, id < ex.numValues + n → id ∉ (movesTo destInst as).map Move.dest →
      pnThreadGetValue ex th' id = pnThreadGetValue ex th id := by
  rw [pnThreadDoPhiAssigns, if_neg (by simp)] at hs
  obtain ⟨⟨temp, a⟩, hal, hs⟩ := bind_eq_ok.mp hs
  obtain ⟨th₂, hw, hs⟩ := bind_eq_ok.mp hs
  cases hs
  unfold PNRuntimeValue.sizeof at hal
  obtain ⟨hi, hx, _, _, hd⟩ := alloc_block h.inv hm isAlign_eight (by omega) hal
  have hdf := hd _ h.frame
  have hdv := hd _ h.values
  let th₁ : PNThread := phiAssignsRead ex { th with allocator := a } temp as
  obtain ⟨heq, hout⟩ := phiAssignsRead_eq ex as temp { th with allocator := a }
  have hframe : SameWords th.mem th₁.mem th.currentFrame PNCallFrame.sizeof := by
    intro p hlo hhi
    simp only [PNBlock.Disjoint] at hdf
    exact hout p (by omega)
  have hvalues : SameWords th.mem th₁.mem (readFrame th.mem th.currentFrame).functionValues (8 * n) := by
    intro p hlo hhi
    simp only [PNBlock.Disjoint] at hdv
    exact hout p (by omega)
  have hth₁ : th₁ = { th with mem := th₁.mem, allocator := a } := heq
  have hread : readFrame th₁.mem th₁.currentFrame = readFrame th.mem th.currentFrame := by
    rw [hth₁]
    exact readFrame_congr hframe
  have h₁ : FrameState th₁ n := by
    rw [hth₁]
    exact h.congr rfl hi hx hframe
  have hsame : ∀ id, id < ex.numValues + n → pnThreadGetValue ex th₁ id = pnThreadGetValue ex th id := by
    intro id hid
    rw [hth₁]
    exact getValue_congr hframe hvalues hid
  obtain ⟨hdest, hother⟩ := phiAssignsWrite_spec temp h₁ (by rw [hread]; exact hdv) hr hn hw
  constructor
  · intro m hmem hsource
    obtain ⟨b, hb, rfl⟩ := List.mem_map.mp hmem
    obtain ⟨hb, hinst⟩ := List.mem_filter.mp hb
    obtain ⟨i, hi'⟩ := List.getElem?_of_mem hb
    refine (hdest hi' (of_decide_eq_true hinst)).trans ?_
    exact phiAssignsRead_spec temp { th with allocator := a } ⟨hi, h.frame.mono hx, h.values.mono hx, h.disjoint⟩ hdf hdv
      hi' hsource
  · intro id hid hnot
    exact (hother id hnot).trans (hsame id hid)

/-- In place, the loop returns if the destinations are values of the function. -/
theorem phiAssignsInPlace_returns : ∀ {as : List PNRuntimePhiAssign} {th : PNThread}, FrameState th n →
    (∀ m ∈ movesTo destInst as, ex.numValues ≤ m.dest ∧ m.dest < ex.numValues + n ∧ m.dest ≠ PN_INVALID_VALUE_ID) →
    ∃ th', phiAssignsInPlace ex destInst th as = .ok th'
  | [], th, _, _ => ⟨th, rfl⟩
  | a :: as, th, h, hr => by
    rw [phiAssignsInPlace]
    split
    · next heq =>
      rw [movesTo_cons_of_eq heq] at hr
      obtain ⟨hge, hlt, hne⟩ := hr _ (List.mem_cons_self ..)
      have hset := h.setValue_returns hge hlt hne (pnThreadGetValue ex th a.sourceValueId)
      rw [hset, ok_bind]
      exact phiAssignsInPlace_returns (h.setValue hlt hset).1 fun m hm => hr m (List.mem_cons_of_mem _ hm)
    · next hne =>
      rw [movesTo_cons_of_ne hne] at hr
      exact phiAssignsInPlace_returns h hr

/-- If it returns, the destinations have been values of a function. -/
theorem phiAssignsInPlace_dests : ∀ {as : List PNRuntimePhiAssign} {th : PNThread},
    phiAssignsInPlace ex destInst th as = .ok th' → ∀ m ∈ movesTo destInst as,
      ex.numValues ≤ m.dest ∧ m.dest ≠ PN_INVALID_VALUE_ID
  | [], _, _, m, hm => by cases hm
  | a :: as, th, hs, m, hm => by
    rw [phiAssignsInPlace] at hs
    split at hs
    · next heq =>
      rw [movesTo_cons_of_eq heq] at hm
      obtain ⟨th₁, h₁, hs⟩ := bind_eq_ok.mp hs
      rcases List.mem_cons.mp hm with rfl | hm
      · obtain ⟨hid, hne, _⟩ := setValue_ok h₁
        exact ⟨hid, hne⟩
      · exact phiAssignsInPlace_dests hs m hm
    · next hne =>
      rw [movesTo_cons_of_ne hne] at hm
      exact phiAssignsInPlace_dests hs m hm

end

end Pnacl
