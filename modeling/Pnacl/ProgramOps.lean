import Pnacl.BodyPreserved
import Pnacl.Calls
import Pnacl.ProgramMeaning

/-!
# Executing calls

The cases of `pn_thread_execute_instruction` that change the frame, for functions of the module. A CALL stops for lack of memory or
leaves a frame with the arguments and the constants on top of the caller's (`FramesInv.call_returns`), and a return goes back to it.
-/

namespace Pnacl

open Lib

/-- `pn_thread_execute_instruction` on the stream of the running function; ALLOCA, intrinsics and builtins are `other`. -/
def executeProgramInstruction (ex : PNExecutor) (module : PNModule)
    (other : PNRuntimeInstruction → PNThread → Except Stop PNThread) (step : StepHost) (th : PNThread) : Except Stop PNThread :=
  match (module.functions[th.functionId]?).bind PNFunction.instructions with
  | none => .error (.undefined "no instructions")
  | some (_, stream) =>
    match stream.at th.inst with
    | some (.call .call res calleeId num flags argIds) =>
      if flags % 2 = 1 then
        let index := pnFunctionPointerToIndex (pnThreadGetValue ex th calleeId % 2 ^ 32)
        if index < PN_MAX_BUILTINS then other (.call .call res calleeId num flags argIds) th
        else opcodeCall ex step.malloc (index - PN_MAX_BUILTINS) th
      else
        match (module.values[calleeId]?).map PNValue.code with
        | some (.function functionId) => opcodeCall ex step.malloc functionId th
        | _ => .error (.assert "function_value->code == PN_VALUE_CODE_FUNCTION")
    | some .ret => opcodeRet ex th
    | some (.retValue valueId) => opcodeRetValue ex valueId th
    | _ => executeInstruction ex stream other step th

/-- One instruction after the other. -/
def executeProgram (ex : PNExecutor) (module : PNModule) (other : PNRuntimeInstruction → PNThread → Except Stop PNThread) :
    List StepHost → PNThread → Except Stop PNThread
  | [], th => .ok th
  | step :: steps, th => do
    let th ← executeProgramInstruction ex module other step th
    executeProgram ex module other steps th

/-! ## The values of a frame on the chain -/

/-- `pn_executor_get_value_from_frame` on the frame of an entry. -/
def frameValue (ex : PNExecutor) (mem : PNWords) (e : Entry) (id : Nat) : Nat :=
  if id ≥ ex.numValues then mem (e.values + 8 * (id - ex.numValues)) else ex.moduleValues id

section Values

variable {ex : PNExecutor} {th th' : PNThread} {e e' x : Entry} {es : List Entry} {mem mem' : PNWords} {bs : List PNBlock}
  {id w n functionId : Nat} {malloc : Malloc}

theorem FramesInv.getValue_eq (h : FramesInv ex th (e :: es)) : pnThreadGetValue ex th = frameValue ex th.mem e :=
  funext h.getValue

theorem frameValue_same (hs : SameOn mem mem' bs) (hb : x.valuesBlock ex ∈ bs) (hid : x.HasValue ex id) :
    frameValue ex mem' x id = frameValue ex mem x id := by
  unfold frameValue
  unfold Entry.HasValue at hid
  split
  · refine hs _ hb _ ?_ ?_
    · simp only [Entry.valuesBlock]
      omega
    · simp only [Entry.valuesBlock, PNRuntimeValue.sizeof]
      omega
  · rfl

theorem frameValue_set (h : FramesInv ex th (e :: es)) (hid : e.HasValue ex id) (hset : pnThreadSetValue ex th id w = .ok th') :
    frameValue ex th'.mem e = Function.update (frameValue ex th.mem e) id w := by
  obtain ⟨-, henv, -⟩ := h.frameState.setValue hid hset
  rwa [h.getValue_eq, (h.calm (h.setValue hid hset)).getValue_eq] at henv

/-- Setting values that are all different. -/
theorem setValues_values : ∀ {vs : List (Nat × Nat)} {th : PNThread}, FramesInv ex th (e :: es) →
    (∀ v ∈ vs, e.HasValue ex v.1) → (vs.map Prod.fst).Nodup → setValues ex th vs = .ok th' →
    (∀ v ∈ vs, frameValue ex th'.mem e v.1 = v.2) ∧
      ∀ id, id ∉ vs.map Prod.fst → frameValue ex th'.mem e id = frameValue ex th.mem e id
  | [], _, _, _, _, hset => by
    cases hset
    exact ⟨fun _ hv => (List.not_mem_nil hv).elim, fun _ _ => rfl⟩
  | v :: vs, th, h, hr, hn, hset => by
    obtain ⟨th₁, hone, hset⟩ := bind_eq_ok.mp hset
    obtain ⟨hnot, hn⟩ := List.nodup_cons.mp hn
    have hv := hr v (List.mem_cons_self ..)
    have henv := frameValue_set h hv hone
    obtain ⟨hin, hout⟩ := setValues_values (h.calm (h.setValue hv hone)) (fun u hu => hr u (List.mem_cons_of_mem _ hu)) hn hset
    constructor
    · intro u hu
      rcases List.mem_cons.mp hu with rfl | hu
      · rw [hout _ hnot, henv, Function.update_self]
      · exact hin u hu
    · intro id hid
      obtain ⟨hne, hid⟩ := List.ne_and_not_mem_of_not_mem_cons hid
      rw [hout id hid, henv, Function.update_of_ne hne]

theorem setValues_returns : ∀ {vs : List (Nat × Nat)} {th : PNThread}, FrameState th n →
    (∀ v ∈ vs, ex.numValues ≤ v.1 ∧ v.1 < ex.numValues + n ∧ v.1 ≠ PN_INVALID_VALUE_ID) → ∃ th', setValues ex th vs = .ok th'
  | [], th, _, _ => ⟨th, rfl⟩
  | v :: vs, th, h, hr => by
    obtain ⟨hge, hlt, hne⟩ := hr v (List.mem_cons_self ..)
    have hset := h.setValue_returns hge hlt hne v.2
    obtain ⟨th', hrest⟩ := setValues_returns (h.setValue hlt hset).1 fun u hu => hr u (List.mem_cons_of_mem _ hu)
    refine ⟨th', ?_⟩
    rw [setValues, hset, ok_bind, hrest]

/-- The arguments are copied from the frame below. -/
theorem copyArguments_values : ∀ {ids : List Nat} {th : PNThread} {n : Nat}, FramesInv ex th (e' :: e :: es) →
    (∀ k, k < ids.length → e'.HasValue ex (ex.numValues + (n + k))) → (∀ id ∈ ids, e.HasValue ex id) →
    copyArguments ex e.addr th n ids = .ok th' →
    (∀ k id, ids[k]? = some id → frameValue ex th'.mem e' (ex.numValues + (n + k)) = frameValue ex th.mem e id) ∧
      ∀ id, id < ex.numValues + n ∨ ex.numValues + (n + ids.length) ≤ id → frameValue ex th'.mem e' id = frameValue ex th.mem e' id
  | [], _, _, _, _, _, hcopy => by
    cases hcopy
    exact ⟨fun _ _ hk => (Option.some_ne_none _ hk.symm).elim, fun _ _ => rfl⟩
  | argId :: ids, th, n, h, hr, hids, hcopy => by
    obtain ⟨th₁, hone, hcopy⟩ := bind_eq_ok.mp hcopy
    have hfirst : e'.HasValue ex (ex.numValues + n) := hr 0 (Nat.succ_pos _)
    have harg : pnExecutorGetValueFromFrame ex th.mem (readFrame th.mem e.addr) argId = frameValue ex th.mem e argId := by
      unfold pnExecutorGetValueFromFrame frameValue
      rw [h.values_eq (List.mem_cons_of_mem _ (List.mem_cons_self ..))]
    rw [harg] at hone
    have henv := frameValue_set h hfirst hone
    have c := h.setValue hfirst hone
    have hkeep : ∀ id, e.HasValue ex id → frameValue ex th₁.mem e id = frameValue ex th.mem e id := fun id hid =>
      frameValue_same c.same (List.mem_cons_of_mem _ (valuesBlock_mem (List.mem_cons_self ..))) hid
    obtain ⟨hin, hout⟩ := copyArguments_values (n := n + 1) (h.calm c)
      (fun k hk => by
        rw [Nat.add_assoc, Nat.add_comm 1]
        exact hr (k + 1) (Nat.succ_lt_succ hk))
      (fun id hid => hids id (List.mem_cons_of_mem _ hid)) hcopy
    constructor
    · intro k id hk
      cases k with
      | zero =>
        cases hk
        rw [Nat.add_zero, hout _ (.inl (by omega)), henv, Function.update_self]
      | succ k =>
        rw [show n + (k + 1) = n + 1 + k by omega, hin k id hk]
        exact hkeep id (hids id (List.mem_cons_of_mem _ (List.mem_of_getElem? hk)))
    · intro id hid
      simp only [List.length_cons] at hid
      rw [hout id (by omega), henv, Function.update_of_ne (by omega)]

theorem copyArguments_returns : ∀ {ids : List Nat} {th : PNThread} {n : Nat}, FramesInv ex th (e' :: e :: es) →
    (∀ k, k < ids.length → e'.HasValue ex (ex.numValues + (n + k)) ∧ ex.numValues + (n + k) ≠ PN_INVALID_VALUE_ID) →
    ∃ th', copyArguments ex e.addr th n ids = .ok th'
  | [], th, _, _, _ => ⟨th, rfl⟩
  | argId :: ids, th, n, h, hr => by
    obtain ⟨hfirst, hne⟩ : e'.HasValue ex (ex.numValues + n) ∧ ex.numValues + n ≠ PN_INVALID_VALUE_ID := hr 0 (Nat.succ_pos _)
    obtain ⟨th₁, hone⟩ := h.setValue_ok (pnExecutorGetValueFromFrame ex th.mem (readFrame th.mem e.addr) argId)
      (Nat.le_add_right _ _) hfirst hne
    obtain ⟨th', hrest⟩ := copyArguments_returns (n := n + 1) (h.calm (h.setValue hfirst hone)) fun k hk => by
      rw [Nat.add_assoc, Nat.add_comm 1]
      exact hr (k + 1) (Nat.succ_lt_succ hk)
    refine ⟨th', ?_⟩
    rw [copyArguments, hone, ok_bind, hrest]

/-! ## CALL -/

/-- The function can be called: it has a body, room for its arguments and constants, and not too many values. -/
structure Callable (ex : PNExecutor) (functionId : Nat) : Prop where
  declared : functionId < ex.numFunctions
  body : (ex.functions functionId).instructions ≠ 0
  room : (ex.functions functionId).numArgs + (ex.functions functionId).constants.length ≤ (ex.functions functionId).numValues
  size : (ex.functions functionId).numValues < 2 ^ 28
  ids : ex.numValues + (ex.functions functionId).numValues ≤ PN_INVALID_VALUE_ID

theorem constantValues_ids (function : PNRuntimeFunction) : (constantValues ex function).map Prod.fst =
    (List.range function.constants.length).map fun n => ex.numValues + function.numArgs + n := by
  rw [constantValues, List.map_map, List.range_eq_range', ← List.zipIdx_map_snd 0 function.constants, List.map_map]
  rfl

theorem Callable.constant_range (hc : Callable ex functionId) : ∀ v ∈ constantValues ex (ex.functions functionId),
    ex.numValues ≤ v.1 ∧ v.1 < ex.numValues + (ex.functions functionId).numValues ∧ v.1 ≠ PN_INVALID_VALUE_ID := by
  intro v hv
  have hmem := List.mem_map_of_mem (f := Prod.fst) hv
  rw [constantValues_ids] at hmem
  obtain ⟨n, hn, heq⟩ := List.mem_map.mp hmem
  have hlt := List.mem_range.mp hn
  have hroom := hc.room
  have hids := hc.ids
  omega

theorem constantValues_nodup (function : PNRuntimeFunction) : ((constantValues ex function).map Prod.fst).Nodup := by
  rw [constantValues_ids]
  exact List.nodup_range.map fun _ _ h => Nat.add_left_cancel h

theorem mem_constantValues_of_get {function : PNRuntimeFunction} {w : Nat} (h : function.constants[n]? = some w) :
    (ex.numValues + function.numArgs + n, w) ∈ constantValues ex function :=
  List.mem_map.mpr ⟨(w, n), List.mem_zipIdx_iff_getElem?.mpr h, rfl⟩

/-- A push stops for lack of memory only. -/
theorem FramesInv.push_outOfMemory (h : FramesInv ex th es) (hm : MallocFresh ex malloc) (hc : Callable ex functionId) :
    Avoids (· ≠ outOfMemory) (pnThreadPushFunction ex malloc th functionId) fun _ => True := by
  unfold pnThreadPushFunction
  refine Avoids.bind_ok (alloc_outOfMemory h.inv (hm.ok _) isAlign_eight (by decide)).2 fun x hal₁ => ?_
  obtain ⟨frame, a₁⟩ := x
  obtain ⟨h₁, hx₁, hin₁, hd₁, -⟩ := h.alloc hm (by decide) hal₁
  have hprev : th.frame ex th.currentFrame = .ok (readFrame th.mem th.currentFrame) := by
    rw [h.current]
    cases es with
    | nil => exact if_pos (.inl rfl)
    | cons e es => exact h.frame_ok (List.mem_cons_self ..)
  dsimp only
  rw [hprev, ok_bind]
  have hsize := hc.size
  have hz : PNRuntimeValue.sizeof * (ex.functions functionId).numValues < 2 ^ 31 := by
    unfold PNRuntimeValue.sizeof
    omega
  refine Avoids.bind_ok (alloc_outOfMemory h₁.inv (hm.ok _) isAlign_eight hz).2 fun x hal₂ => ?_
  obtain ⟨values, a₂⟩ := x
  obtain ⟨h₂, hx₂, hin₂, hd₂, -⟩ := h₁.alloc hm (by omega) hal₂
  dsimp only
  rw [if_neg hc.body]
  -- the new frame with its values
  have hstate : ∀ (record : PNCallFrame) (inst : Nat), record.functionValues = values →
      FrameState ⟨a₂, writeFrame th.mem frame record, frame, inst, functionId, th.memory, th.numSetjmps, th.dead⟩
        (ex.functions functionId).numValues := by
    intro record inst hvalues
    refine ⟨h₂.inv, hin₁.mono hx₂, ?_, ?_⟩
    · rw [readFrame_writeFrame, hvalues]
      exact hin₂
    · rw [readFrame_writeFrame, hvalues]
      exact (hd₂ _ hin₁).symm
  obtain ⟨th', hset⟩ := setValues_returns (hstate ⟨⟨functionId, (ex.functions functionId).instructions⟩, pnAllocatorMark a₂, values,
    th.currentFrame, 0, (readFrame th.mem th.currentFrame).memoryStackTop⟩ (ex.functions functionId).instructions rfl)
    hc.constant_range
  exact ⟨fun _ _ => trivial, fun e he => by rw [hset] at he; cases he⟩

/-- What CALL leaves: the frame of the function with its arguments and constants, where the allocator stands. -/
structure CalledWith (ex : PNExecutor) (th th' : PNThread) (e' e : Entry) (es : List Entry) (functionId : Nat) : Prop where
  called : Called ex th th' e' e es
  function : e'.functionId = functionId
  alloc : e'.alloc = th'.allocator
  last : th'.allocator.lastAlloc = e'.values
  inst : th'.inst = (ex.functions functionId).instructions
  memory : th'.memory = th.memory
  argument : ∀ n id, (ex.callAt th.inst).argIds[n]? = some id →
    frameValue ex th'.mem e' (ex.numValues + n) = frameValue ex th.mem e id
  constant : ∀ n w, (ex.functions functionId).constants[n]? = some w →
    frameValue ex th'.mem e' (ex.numValues + (ex.functions functionId).numArgs + n) = w

/-- **CALL** stops for lack of memory, or pushes the frame. -/
theorem FramesInv.call_returns (h : FramesInv ex th (e :: es)) (hm : MallocFresh ex malloc) (hc : Callable ex functionId)
    (hr : ResultInRange ex e.functionId (ex.callAt th.inst))
    (hargs : (ex.callAt th.inst).argIds.length ≤ (ex.functions functionId).numArgs)
    (hids : ∀ id ∈ (ex.callAt th.inst).argIds, e.HasValue ex id) :
    Avoids (· ≠ outOfMemory) (opcodeCall ex malloc functionId th) fun th' => ∃ e', CalledWith ex th th' e' e es functionId := by
  have hroom := hc.room
  have hlimit := hc.ids
  have hfid : functionId ≠ PN_INVALID_FUNCTION_ID := by
    have hlt := hc.declared
    have := ex.numFunctions_lt
    unfold PN_INVALID_FUNCTION_ID
    omega
  obtain ⟨h₁, hsame₁, hframe⟩ := h.saveInst
  have hcalls : ∀ x ∈ e :: es, ResultInRange ex x.functionId (ex.callAt (readFrame th.saveInst.mem x.addr).location.inst) := by
    intro x hx
    rcases List.mem_cons.mp hx with rfl | hx
    · rw [hframe]
      exact hr
    · exact h₁.calls x hx
  constructor
  · intro th' hcall
    obtain ⟨e', th₁, th₂, -, hpush₁, halloc, hstart, -, hset, hcopy, hcalled⟩ := h.callFrame_alloc hm hr hcall
    have c₁ := hpush₁.inv.sets_last hpush₁.last (setValues_sets (P := fun _ => True) (fun _ _ => trivial) hset)
    have hpush := hpush₁.calm c₁
    have c₂ := hpush.inv.sets_last hpush.last (copyArguments_sets hcopy)
    have halloc' : e'.alloc = th'.allocator := by rw [halloc, c₂.eq, c₁.eq]
    have hinst : th'.inst = (ex.functions functionId).instructions := by rw [c₂.eq, c₁.eq, hstart]
    have hmemory : th'.memory = th.memory := by
      rw [c₂.eq]
      exact hpush.memory
    have hlast : th'.allocator.lastAlloc = e'.values := by
      rw [c₂.eq]
      exact hpush.last.last
    have hfun := hpush.function
    have hrange : ∀ v ∈ constantValues ex (ex.functions functionId), e'.HasValue ex v.1 := by
      intro v hv
      unfold Entry.HasValue
      rw [hfun]
      exact (hc.constant_range v hv).2.1
    obtain ⟨hconstants, -⟩ := setValues_values hpush₁.inv hrange (constantValues_nodup _) hset
    obtain ⟨harguments, hothers⟩ := copyArguments_values hpush.inv
      (fun k hk => by
        unfold Entry.HasValue
        rw [hfun]
        omega) hids hcopy
    refine ⟨e', hcalled, hfun, halloc', hlast, hinst, hmemory, fun n id hn => ?_, fun n w hn => ?_⟩
    · have harg := harguments n id hn
      rw [Nat.zero_add] at harg
      have hid := hids id (List.mem_of_getElem? hn)
      rw [harg, frameValue_same hpush.same (valuesBlock_mem (List.mem_cons_self ..)) hid,
        frameValue_same hsame₁ (List.mem_cons_self ..) hid]
    · rw [hothers _ (.inr (by omega))]
      exact hconstants _ (mem_constantValues_of_get hn)
  · unfold opcodeCall
    rw [cAssert_bind hc.declared]
    refine (Avoids.bind_ok (R := fun _ => True) (h₁.push_outOfMemory hm hc).2 fun th₂ hp => ?_).2
    obtain ⟨e', hpush⟩ := h₁.push hm hfid hcalls hp
    obtain ⟨th', hcopy⟩ := copyArguments_returns (n := 0) hpush.inv fun k (hk : k < (ex.callAt th.inst).argIds.length) => by
      unfold Entry.HasValue
      rw [hpush.function]
      omega
    rw [show th.currentFrame = e.addr from h.current]
    exact ⟨fun _ _ => trivial, fun e he => by rw [hcopy] at he; cases he⟩

end Values

end Pnacl
