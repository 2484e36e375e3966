import Pnacl.Frames
import Pnacl.FrameStorage

/-!
# The operations on frames and values

For every operation of a thread, what it does to the frames and what it leaves of the frames below. Frames and values stay
where they are as long as every reset of the allocator stops at the right chunk (`MarkFound`) and LONGJMP finds a buffer that
still holds a copy of its frame (`BufIntact`).

- `FrameStep`: how a step changes the frames;
- `FramesInv.step`: every step that is `FrameSafe` is one of these and keeps the invariant.
-/

namespace Pnacl

open Lib

variable {ex : PNExecutor} {th th' : PNThread} {e : Entry} {es : List Entry} {a : PNAllocator}

/-! ## CALL -/

/-- A frame whose record is in memory becomes the current one. -/
theorem FramesInv.pushEntry (h : FramesInv ex th es) (hal : e.alloc = th.allocator)
    (hfid : e.functionId ≠ PN_INVALID_FUNCTION_ID) (hfix : e.Fixed (top ex es) (readFrame th.mem e.addr))
    (hbase : ∀ b ∈ e.base ex, b.AllocatedIn th.allocator) (hfv : PNBlock.Disjoint e.frameBlock (e.valuesBlock ex))
    (hd : ∀ b ∈ e.base ex, ∀ b' ∈ baseBlocks ex es, b.Disjoint b')
    (hcalls : ∀ e ∈ es, ResultInRange ex e.functionId (ex.callAt (readFrame th.mem e.addr).location.inst)) (inst : Nat) :
    FramesInv ex { th with currentFrame := e.addr, functionId := e.functionId, inst := inst } (e :: es) := by
  have hne : e.addr ≠ ex.sentinel := by
    have := h.block_apart (hbase e.frameBlock (by simp [Entry.base]))
    simp only [Entry.frameBlock, PNCallFrame.sizeof] at this
    omega
  refine ⟨h.inv, h.away, h.sentinel, rfl, ⟨hne, hfid, hfix, h.links⟩, ?_, ?_, hcalls, ?_⟩
  · rw [FrameLevels, hal]
    exact ⟨h.inv, .refl _, hbase, h.levels⟩
  · rw [baseBlocks_cons]
    refine List.pairwise_append.mpr ⟨?_, h.disjoint, hd⟩
    simpa [Entry.base] using hfv
  · intro e' he'
    cases he'
    rfl

/-- What a push leaves: the blocks below, the stack top, and the other fields. -/
structure Pushed (ex : PNExecutor) (th th' : PNThread) (e : Entry) (es : List Entry) (functionId : Nat) : Prop where
  inv : FramesInv ex th' (e :: es)
  function : e.functionId = functionId
  last : ValuesLast ex th'.allocator e
  same : SameOn th.mem th'.mem (baseBlocks ex es)
  top : (readFrame th'.mem e.addr).memoryStackTop = (readFrame th.mem th.currentFrame).memoryStackTop
  memory : th'.memory = th.memory
  dead : th'.dead = th.dead

/-- Values of the new function are set. -/
theorem Pushed.calm {th₁ : PNThread} {functionId : Nat} (h : Pushed ex th th₁ e es functionId) (c : Calm ex th₁ th' e es) :
    Pushed ex th th' e es functionId := by
  refine ⟨h.inv.calm c, h.function, ?_, h.same.trans fun b hb => c.same b (List.mem_cons_of_mem _ hb), ?_, ?_, ?_⟩
  · rw [c.eq]
    exact ⟨h.last.last, h.last.current⟩
  · rw [c.readFrame e (List.mem_cons_self ..)]
    exact h.top
  · rw [c.eq]
    exact h.memory
  · rw [c.eq]
    exact h.dead

/-- `pn_thread_push_function` pushes an entry, at whose mark the allocator is as it is now, and then sets the constants; every frame
below must remember its call. -/
theorem FramesInv.pushFrame_alloc (h : FramesInv ex th es) {malloc : Malloc} (hm : MallocFresh ex malloc) {functionId : Nat}
    (hfid : functionId ≠ PN_INVALID_FUNCTION_ID)
    (hcalls : ∀ e ∈ es, ResultInRange ex e.functionId (ex.callAt (readFrame th.mem e.addr).location.inst))
    (hp : pnThreadPushFunction ex malloc th functionId = .ok th') : ∃ e th₁, Pushed ex th th₁ e es functionId ∧
      e.alloc = th₁.allocator ∧ th₁.inst = (ex.functions functionId).instructions ∧
      (ex.functions functionId).instructions ≠ 0 ∧ setValues ex th₁ (constantValues ex (ex.functions functionId)) = .ok th' := by
  obtain ⟨⟨frame, a₁⟩, hal₁, hp⟩ := bind_eq_ok.mp hp
  obtain ⟨prev, hprev, hp⟩ := bind_eq_ok.mp hp
  obtain rfl := frame_ok hprev
  obtain ⟨⟨values, a₂⟩, hal₂, hp⟩ := bind_eq_ok.mp hp
  dsimp only at hal₂ hp
  split at hp
  · cases hp
  rename_i hinst
  have hsz := ex.numValues_lt functionId
  have hz : PNRuntimeValue.sizeof * (ex.functions functionId).numValues < 2 ^ 64 := by
    unfold PNRuntimeValue.sizeof
    omega
  obtain ⟨h₁, hx₁, hin₁, hd₁, -⟩ := h.alloc hm (by decide) hal₁
  obtain ⟨h₂, hx₂, hin₂, hd₂, hlast⟩ := h₁.alloc hm hz hal₂
  have hdf : ∀ b ∈ baseBlocks ex es, PNBlock.Disjoint ⟨frame, PNCallFrame.sizeof⟩ b :=
    fun b hb => hd₁ b (h.levels.allocated b hb)
  have hdv := fun b hb => hd₂ b (h₁.levels.allocated b hb)
  -- the record goes into a block that no entry lists
  generalize hrec : (⟨⟨functionId, (ex.functions functionId).instructions⟩, pnAllocatorMark a₂, values,
    th.currentFrame, 0, (readFrame th.mem th.currentFrame).memoryStackTop⟩ : PNCallFrame) = record at hp
  have hout : ∀ x, x < frame ∨ frame + PNCallFrame.sizeof ≤ x → writeFrame th.mem frame record x = th.mem x :=
    fun _ hx => writeFrame_outside hx
  obtain ⟨hsame, hsent⟩ := h₂.writeBlock (hin₁.mono hx₂) hdf hout
  have h₃ := h₂.withBlocks hsame hsent
  let e : Entry := ⟨frame, values, functionId, a₂, []⟩
  have hfix : e.Fixed (Pnacl.top ex es) (readFrame (writeFrame th.mem frame record) frame) := by
    rw [readFrame_writeFrame, ← hrec]
    exact ⟨rfl, rfl, rfl, h.current⟩
  have hbase : ∀ b ∈ e.base ex, b.AllocatedIn a₂ := by
    intro b hb
    rcases mem_base.mp hb with rfl | rfl
    · exact hin₁.mono hx₂
    · exact hin₂
  have hdis : ∀ b ∈ e.base ex, ∀ b' ∈ baseBlocks ex es, b.Disjoint b' := by
    intro b hb
    rcases mem_base.mp hb with rfl | rfl
    · exact hdf
    · exact hdv
  have hcalls' : ∀ e ∈ es, ResultInRange ex e.functionId
      (ex.callAt (readFrame (writeFrame th.mem frame record) e.addr).location.inst) := by
    intro e he
    rw [hsame.readFrame (frameBlock_mem he)]
    exact hcalls e he
  have h₄ := h₃.pushEntry (e := e) rfl hfid hfix hbase (hd₂ _ hin₁).symm hdis hcalls'
    (ex.functions functionId).instructions
  refine ⟨e, _, ⟨h₄, rfl, ⟨hlast.1, hlast.2⟩, hsame, ?_, rfl, rfl⟩, rfl, rfl, hinst, hp⟩
  rw [readFrame_writeFrame, ← hrec]

theorem FramesInv.pushFrame (h : FramesInv ex th es) {malloc : Malloc} (hm : MallocFresh ex malloc) {functionId : Nat}
    (hfid : functionId ≠ PN_INVALID_FUNCTION_ID)
    (hcalls : ∀ e ∈ es, ResultInRange ex e.functionId (ex.callAt (readFrame th.mem e.addr).location.inst))
    (hp : pnThreadPushFunction ex malloc th functionId = .ok th') : ∃ e th₁, Pushed ex th th₁ e es functionId ∧
      (ex.functions functionId).instructions ≠ 0 ∧ setValues ex th₁ (constantValues ex (ex.functions functionId)) = .ok th' := by
  obtain ⟨e, th₁, hpush, -, -, hinst, hset⟩ := h.pushFrame_alloc hm hfid hcalls hp
  exact ⟨e, th₁, hpush, hinst, hset⟩

theorem FramesInv.push (h : FramesInv ex th es) {malloc : Malloc} (hm : MallocFresh ex malloc) {functionId : Nat}
    (hfid : functionId ≠ PN_INVALID_FUNCTION_ID)
    (hcalls : ∀ e ∈ es, ResultInRange ex e.functionId (ex.callAt (readFrame th.mem e.addr).location.inst))
    (hp : pnThreadPushFunction ex malloc th functionId = .ok th') : ∃ e, Pushed ex th th' e es functionId := by
  obtain ⟨e, th₁, hpush, -, hset⟩ := h.pushFrame hm hfid hcalls hp
  exact ⟨e, hpush.calm (hpush.inv.sets_last hpush.last (setValues_sets (P := fun _ => True) (fun _ _ => trivial) hset))⟩

/-- What CALL leaves: the caller's frame remembers the call, its values and everything below stay. -/
structure Called (ex : PNExecutor) (th th' : PNThread) (e' e : Entry) (es : List Entry) : Prop where
  inv : FramesInv ex th' (e' :: e :: es)
  same : SameOn th.mem th'.mem (e.valuesBlock ex :: baseBlocks ex es)
  caller : readFrame th'.mem e.addr =
    { readFrame th.mem e.addr with location := ⟨(readFrame th.mem e.addr).location.functionId, th.inst⟩ }
  top : (readFrame th'.mem e'.addr).memoryStackTop = (readFrame th.mem e.addr).memoryStackTop
  dead : th'.dead = th.dead

/-- CALL pushes an entry, sets the constants and copies the arguments. -/
theorem FramesInv.callFrame_alloc (h : FramesInv ex th (e :: es)) {malloc : Malloc} (hm : MallocFresh ex malloc) {functionId : Nat}
    (hr : ResultInRange ex e.functionId (ex.callAt th.inst)) (hc : opcodeCall ex malloc functionId th = .ok th') :
    ∃ e' th₁ th₂, functionId < ex.numFunctions ∧ Pushed ex th.saveInst th₁ e' (e :: es) functionId ∧
      e'.alloc = th₁.allocator ∧ th₁.inst = (ex.functions functionId).instructions ∧
      (ex.functions functionId).instructions ≠ 0 ∧ setValues ex th₁ (constantValues ex (ex.functions functionId)) = .ok th₂ ∧
      copyArguments ex e.addr th₂ 0 (ex.callAt th.inst).argIds = .ok th' ∧ Called ex th th' e' e es := by
  unfold opcodeCall at hc
  obtain ⟨hlt, hc⟩ := cAssert_bind_eq_ok.mp hc
  obtain ⟨th₂, hp, hc⟩ := bind_eq_ok.mp hc
  have hfid : functionId ≠ PN_INVALID_FUNCTION_ID := by
    have := ex.numFunctions_lt
    unfold PN_INVALID_FUNCTION_ID
    omega
  have hcur : th.currentFrame = e.addr := h.current
  obtain ⟨h₁, hsame₁, hframe⟩ := h.saveInst
  have hcalls : ∀ e' ∈ e :: es,
      ResultInRange ex e'.functionId (ex.callAt (readFrame th.saveInst.mem e'.addr).location.inst) := by
    intro e' he'
    rcases List.mem_cons.mp he' with rfl | he'
    · rw [hframe]
      exact hr
    · exact h₁.calls e' he'
  obtain ⟨e', th₁, hpush₁, halloc, hstart, hinst, hset⟩ := h₁.pushFrame_alloc hm hfid hcalls hp
  have hpush := hpush₁.calm (hpush₁.inv.sets_last hpush₁.last (setValues_sets (P := fun _ => True) (fun _ _ => trivial) hset))
  have c := hpush.inv.sets_last hpush.last (copyArguments_sets hc)
  have hsame₂ : SameOn th.saveInst.mem th'.mem (baseBlocks ex (e :: es)) :=
    hpush.same.trans fun b hb => c.same b (List.mem_cons_of_mem _ hb)
  refine ⟨e', th₁, th₂, hlt, hpush₁, halloc, hstart, hinst, hset, hcur ▸ hc, hpush.inv.calm c, ?_, ?_, ?_, ?_⟩
  · refine hsame₁.trans (hsame₂.subset ?_)
    rw [baseBlocks_cons]
    intro b hb
    rcases List.mem_cons.mp hb with rfl | hb
    · simp [Entry.base]
    · exact List.mem_append_right _ hb
  · rw [hsame₂.readFrame (frameBlock_mem (List.mem_cons_self ..)), hframe]
  · rw [c.readFrame e' (List.mem_cons_self ..), hpush.top, show th.saveInst.currentFrame = e.addr from hcur, hframe]
  · rw [c.eq]
    exact hpush.dead

theorem FramesInv.callFrame (h : FramesInv ex th (e :: es)) {malloc : Malloc} (hm : MallocFresh ex malloc) {functionId : Nat}
    (hr : ResultInRange ex e.functionId (ex.callAt th.inst)) (hc : opcodeCall ex malloc functionId th = .ok th') :
    ∃ e' th₁ th₂, functionId < ex.numFunctions ∧ Pushed ex th.saveInst th₁ e' (e :: es) functionId ∧
      (ex.functions functionId).instructions ≠ 0 ∧ setValues ex th₁ (constantValues ex (ex.functions functionId)) = .ok th₂ ∧
      copyArguments ex e.addr th₂ 0 (ex.callAt th.inst).argIds = .ok th' ∧ Called ex th th' e' e es := by
  obtain ⟨e', th₁, th₂, hlt, hpush, -, -, hinst, hset, hcopy, hcalled⟩ := h.callFrame_alloc hm hr hc
  exact ⟨e', th₁, th₂, hlt, hpush, hinst, hset, hcopy, hcalled⟩

theorem FramesInv.call (h : FramesInv ex th (e :: es)) {malloc : Malloc} (hm : MallocFresh ex malloc) {functionId : Nat}
    (hr : ResultInRange ex e.functionId (ex.callAt th.inst)) (hc : opcodeCall ex malloc functionId th = .ok th') :
    ∃ e', Called ex th th' e' e es := by
  obtain ⟨e', -, -, -, -, -, -, -, hcalled⟩ := h.callFrame hm hr hc
  exact ⟨e', hcalled⟩

/-! ## RET -/

/-- The memory behind a return into the frame of `e`: RET_VALUE sets the result of the call there. -/
def PNThreadOp.returned (ex : PNExecutor) (th : PNThread) (e : Entry) : PNThreadOp → PNWords
  | .retValue valueId => Function.update th.mem
      (e.values + 8 * ((ex.callAt (readFrame th.mem e.addr).location.inst).resultValueId - ex.numValues))
      (pnThreadGetValue ex th valueId)
  | _ => th.mem

/-- What a return into the frame of `e` leaves. -/
structure ReturnedTo (ex : PNExecutor) (op : PNThreadOp) (th th' : PNThread) (e : Entry) (es : List Entry) : Prop where
  inv : FramesInv ex th' (e :: es)
  mem : th'.mem = op.returned ex th e
  same : SameOn th.mem th'.mem (e.frameBlock :: baseBlocks ex es)
  /-- A result goes to a value of the function. -/
  result : ∀ valueId, op = .retValue valueId →
    ex.numValues ≤ (ex.callAt (readFrame th.mem e.addr).location.inst).resultValueId ∧
      e.HasValue ex (ex.callAt (readFrame th.mem e.addr).location.inst).resultValueId
  inst : th'.inst = (readFrame th.mem e.addr).location.inst + (ex.callAt (readFrame th.mem e.addr).location.inst).size
  dead : th'.dead = th.dead

/-- The reset of a return stops at the right chunk. -/
def ReturnFound (ex : PNExecutor) (th : PNThread) : Prop :=
  (readFrame th.mem th.currentFrame).parent ≠ ex.sentinel →
    MarkFound th.allocator (readFrame th.mem (readFrame th.mem th.currentFrame).parent).mark

theorem FramesInv.parent_eq (h : FramesInv ex th (e :: es)) :
    (readFrame th.mem th.currentFrame).parent = top ex es := by
  rw [h.current]
  exact h.head.parent

/-- The last frame returns: the thread is dead. -/
theorem FramesInv.popLast (h : FramesInv ex th [e]) : FramesInv ex { th with currentFrame := ex.sentinel, dead := true } [] :=
  ⟨h.inv, h.away, h.sentinel, rfl, trivial, trivial, .nil, fun _ he => (List.not_mem_nil he).elim, fun _ he => by cases he⟩

/-- The frame below the current one, if there is one. -/
theorem FramesInv.below (h : FramesInv ex th (e :: es)) :
    (es = [] ∧ (readFrame th.mem (top ex es)).location.functionId = PN_INVALID_FUNCTION_ID) ∨
      ∃ e' es', es = e' :: es' ∧ (readFrame th.mem (top ex es)).location.functionId = e'.functionId ∧
        e'.functionId ≠ PN_INVALID_FUNCTION_ID ∧ (readFrame th.mem (top ex es)).mark = pnAllocatorMark e'.alloc ∧
        FramesInv ex { th with currentFrame := e'.addr, functionId := e'.functionId } (e' :: es') := by
  cases es with
  | nil => exact .inl ⟨rfl, h.sentinel.1⟩
  | cons e' es' =>
    have hp := h.pop [e]
    exact .inr ⟨e', es', rfl, hp.head.functionId, hp.links.2.1, hp.head.mark, hp⟩

theorem FramesInv.found (h : FramesInv ex th (e :: es)) {e' : Entry} {es' : List Entry} (hes : es = e' :: es')
    (hf : ReturnFound ex th) : MarkFound th.allocator (pnAllocatorMark e'.alloc) := by
  subst hes
  unfold ReturnFound at hf
  rw [h.parent_eq] at hf
  have hp := h.pop [e]
  have := hf hp.links.1
  rw [show (readFrame th.mem (top ex (e' :: es'))).mark = pnAllocatorMark e'.alloc from hp.head.mark] at this
  exact this

/-- RET goes back to the frame below, if there is one. -/
theorem FramesInv.ret (h : FramesInv ex th (e :: es)) (hf : ReturnFound ex th) (hr : opcodeRet ex th = .ok th') :
    (es = [] ∧ th'.dead = true ∧ FramesInv ex th' []) ∨
      ∃ e' es', es = e' :: es' ∧ ReturnedTo ex .ret th th' e' es' := by
  obtain ⟨f, hf₁, hr⟩ := bind_eq_ok.mp hr
  obtain rfl := frame_ok hf₁
  obtain ⟨frame, hframe, hr⟩ := bind_eq_ok.mp hr
  obtain rfl := frame_ok hframe
  simp only [h.parent_eq] at hr
  rcases h.below with ⟨rfl, h0⟩ | ⟨e', es', rfl, hid, hne, hmark, hp⟩
  · rw [if_neg (not_not.mpr h0)] at hr
    cases hr
    exact .inl ⟨rfl, rfl, h.popLast⟩
  · have hm := h.found rfl hf
    rw [if_pos (hid ▸ hne), hmark] at hr
    cases hr
    refine .inr ⟨e', es', rfl, ?_, rfl, .refl _ _, (fun _ hv => by cases hv), rfl, rfl⟩
    exact (hp.reset hm).fields rfl rfl rfl hid

/-- RET_VALUE also sets the result of the call. -/
theorem FramesInv.retValue (h : FramesInv ex th (e :: es)) (hf : ReturnFound ex th) {valueId : Nat}
    (hr : opcodeRetValue ex valueId th = .ok th') :
    (es = [] ∧ th'.dead = true ∧ FramesInv ex th' []) ∨
      ∃ e' es', es = e' :: es' ∧ ReturnedTo ex (.retValue valueId) th th' e' es' := by
  obtain ⟨f, hf₁, hr⟩ := bind_eq_ok.mp hr
  obtain rfl := frame_ok hf₁
  obtain ⟨frame, hframe, hr⟩ := bind_eq_ok.mp hr
  obtain rfl := frame_ok hframe
  simp only [h.parent_eq] at hr
  rcases h.below with ⟨rfl, h0⟩ | ⟨e', es', rfl, hid, hne, hmark, hp⟩
  · rw [if_neg (not_not.mpr h0)] at hr
    cases hr
    exact .inl ⟨rfl, rfl, h.popLast⟩
  · have hm := h.found rfl hf
    rw [if_pos (hid ▸ hne)] at hr
    obtain ⟨th₁, hset, hr⟩ := bind_eq_ok.mp hr
    rw [hmark] at hr
    cases hr
    obtain ⟨hlo, hinv, -, hth⟩ := setValue_ok hset
    have hrange : e'.HasValue ex (ex.callAt (readFrame th.mem e'.addr).location.inst).resultValueId := by
      rcases h.calls e' (List.mem_cons_self ..) with heq | hin
      · exact absurd heq hinv
      · exact hin.2
    have c := hp.setValue hrange (setValue_functionId (x := e'.functionId) hset)
    have hvalues : (readFrame th.mem e'.addr).functionValues = e'.values := hp.head.values
    subst hth
    refine .inr ⟨e', es', rfl, ?_, ?_, c.same, fun _ _ => ⟨hlo, hrange⟩, rfl, rfl⟩
    · exact ((hp.calm c).reset hm).fields rfl rfl rfl hid
    · simp only [PNThread.resetTo, PNThread.resume, PNThread.store, PNThreadOp.returned]
      rw [show (readFrame th.mem (top ex (e' :: es'))).functionValues = e'.values from hvalues]
      rfl

/-! ## SETJMP and LONGJMP -/

/-- A step that stays in the current frame. -/
structure Stayed (ex : PNExecutor) (stackTop : Nat) (th th' : PNThread) (e : Entry) (es : List Entry) : Prop where
  inv : FramesInv ex th' (e :: es)
  same : SameOn th.mem th'.mem (baseBlocks ex es)
  top : (readFrame th'.mem e.addr).memoryStackTop = stackTop
  dead : th'.dead = th.dead

/-- The thread has come to the frame of `e` and is about to set values of it: these and the frames below are as before. -/
structure Prepared (ex : PNExecutor) (stackTop : Nat) (th th₀ : PNThread) (e : Entry) (es : List Entry) : Prop where
  inv : FramesInv ex th₀ (e :: es)
  same : SameOn th.mem th₀.mem (e.valuesBlock ex :: baseBlocks ex es)
  top : (readFrame th₀.mem e.addr).memoryStackTop = stackTop
  dead : th₀.dead = th.dead

theorem Prepared.refl (h : FramesInv ex th (e :: es)) : Prepared ex (readFrame th.mem e.addr).memoryStackTop th th e es :=
  ⟨h, .refl _ _, rfl, rfl⟩

/-- Then the values are set. -/
theorem Prepared.stayed {th₀ : PNThread} {stackTop : Nat} (p : Prepared ex stackTop th th₀ e es) (c : Calm ex th₀ th' e es) :
    Stayed ex stackTop th th' e es := by
  refine ⟨p.inv.calm c, ?_, ?_, ?_⟩
  · exact (p.same.subset fun b hb => List.mem_cons_of_mem _ hb).trans (c.same.subset fun b hb => List.mem_cons_of_mem _ hb)
  · rw [c.readFrame e (List.mem_cons_self ..)]
    exact p.top
  · rw [c.eq]
    exact p.dead

theorem Stayed.withInst {stackTop : Nat} (h : Stayed ex stackTop th th' e es) (inst : Nat) (memory : PNMemory) :
    Stayed ex stackTop th { th' with inst := inst, memory := memory } e es :=
  ⟨h.inv.fields rfl rfl rfl rfl, h.same, h.top, h.dead⟩

theorem FramesInv.setjmpFrame (h : FramesInv ex th (e :: es)) {malloc : Malloc} (hm : MallocFresh ex malloc)
    (hs : opcodeSetjmp ex malloc th = .ok th') : ∃ th₀ th₁, Prepared ex (readFrame th.mem e.addr).memoryStackTop th th₀ e es ∧
      (ex.callAt th.inst).resultValueId ≠ PN_INVALID_VALUE_ID ∧
      pnThreadSetValue ex th₀ (ex.callAt th.inst).resultValueId 0 = .ok th₁ ∧
      th' = { th₁ with inst := th'.inst } := by
  unfold opcodeSetjmp at hs
  obtain ⟨_, hs⟩ := pnCheck_bind_eq_ok.mp hs
  obtain ⟨hne, hs⟩ := pnCheck_bind_eq_ok.mp hs
  obtain ⟨⟨buf, a⟩, hal, hs⟩ := bind_eq_ok.mp hs
  obtain ⟨memory, _, hs⟩ := bind_eq_ok.mp hs
  obtain ⟨th₁, hset, hs⟩ := bind_eq_ok.mp hs
  cases hs
  obtain ⟨h₁, hsame₁, hframe₁⟩ := h.saveInst
  -- the buffer is written into a block that no entry lists, and then linked
  obtain ⟨h₂, _, hin, hd, -⟩ := h₁.alloc hm (by decide) hal
  have hdis : ∀ b ∈ baseBlocks ex (e :: es), PNBlock.Disjoint ⟨buf, PNJmpBuf.sizeof⟩ b :=
    fun b hb => hd b (h₁.levels.allocated b hb)
  have hout : ∀ x, x < buf ∨ buf + PNJmpBuf.sizeof ≤ x →
      (PNThread.fillJmpBuf { th.saveInst with allocator := a } buf).mem x = th.saveInst.mem x :=
    fun x hx => writeJmpBuf_outside hx
  obtain ⟨hsame₃, hsent⟩ := h₂.writeBlock hin hdis hout
  have h₃ : FramesInv ex (PNThread.fillJmpBuf { th.saveInst with allocator := a } buf) (e :: es) :=
    (h₂.withBlocks hsame₃ hsent).fields rfl rfl rfl rfl
  have hfix := h₃.head
  obtain ⟨h₄, hsame₄, hframe₄⟩ := h₃.modifyFrame (f := fun f => { f with jmpbufHead := buf })
    ⟨hfix.functionId, hfix.mark, hfix.values, hfix.parent⟩
  have h₅ : FramesInv ex { (PNThread.fillJmpBuf { th.saveInst with allocator := a } buf).linkJmpBuf buf with
      memory := memory } (e :: es) := h₄.fields rfl rfl rfl rfl
  refine ⟨_, th₁, ⟨h₅, ?_, ?_, rfl⟩, hne, hset, rfl⟩
  · have h₃' : SameOn th.saveInst.mem (PNThread.fillJmpBuf { th.saveInst with allocator := a } buf).mem
        (e.valuesBlock ex :: baseBlocks ex es) := by
      apply hsame₃.subset
      rw [baseBlocks_cons]
      intro b hb
      rcases List.mem_cons.mp hb with rfl | hb
      · simp [Entry.base]
      · exact List.mem_append_right _ hb
    exact (hsame₁.trans h₃').trans hsame₄
  · have hframe₃ : readFrame (PNThread.fillJmpBuf { th.saveInst with allocator := a } buf).mem e.addr =
        readFrame th.saveInst.mem e.addr := hsame₃.readFrame (frameBlock_mem (List.mem_cons_self ..))
    simp only [PNThread.linkJmpBuf]
    rw [hframe₄]
    simp only [hframe₃, hframe₁]

theorem FramesInv.setjmp (h : FramesInv ex th (e :: es)) {malloc : Malloc} (hm : MallocFresh ex malloc)
    (hr : ResultInRange ex e.functionId (ex.callAt th.inst)) (hs : opcodeSetjmp ex malloc th = .ok th') :
    Stayed ex (readFrame th.mem e.addr).memoryStackTop th th' e es := by
  obtain ⟨th₀, th₁, p, hne, hset, heq⟩ := h.setjmpFrame hm hs
  have hrange : e.HasValue ex (ex.callAt th.inst).resultValueId := by
    rcases hr with hinv | hin
    · exact absurd hinv hne
    · exact hin.2
  rw [heq]
  exact (p.stayed (p.inv.setValue hrange hset)).withInst _ _

/-- The buffer at `buf` holds a copy of the frame at `f`, made at a call with a result in the function. -/
structure BufIntact (ex : PNExecutor) (th : PNThread) (f buf : Nat) : Prop where
  functionId : (readJmpBuf th.mem buf).frame.location.functionId = (readFrame th.mem f).location.functionId
  mark : (readJmpBuf th.mem buf).frame.mark = (readFrame th.mem f).mark
  values : (readJmpBuf th.mem buf).frame.functionValues = (readFrame th.mem f).functionValues
  parent : (readJmpBuf th.mem buf).frame.parent = (readFrame th.mem f).parent
  result : ResultInRange ex (readFrame th.mem f).location.functionId
    (ex.callAt (readJmpBuf th.mem buf).frame.location.inst)

/-- LONGJMP finds an intact buffer, and its reset stops at the right chunk. -/
def LongjmpFound (ex : PNExecutor) (fuel : Nat) (th : PNThread) : Prop :=
  ∀ id f buf, longjmpId ex th = .ok id → searchFrames ex th id fuel th.currentFrame = .ok (some (f, buf)) →
    MarkFound th.allocator (readFrame th.mem f).mark ∧ BufIntact ex th f buf

/-- LONGJMP lands in a frame of the thread. -/
theorem searchFrames_entry {id f buf fuel : Nat} (hl : Linked ex th.mem es)
    (hs : searchFrames ex th id fuel (top ex es) = .ok (some (f, buf))) :
    ∃ pre e post, es = pre ++ e :: post ∧ f = e.addr := by
  induction es generalizing fuel with
  | nil =>
    cases fuel with
    | zero => cases hs
    | succ fuel =>
      rw [searchFrames, top, if_pos rfl] at hs
      cases hs
  | cons e es ih =>
    cases fuel with
    | zero => cases hs
    | succ fuel =>
      obtain ⟨hne, -, hfix, hl⟩ := hl
      rw [searchFrames, top, if_neg hne] at hs
      obtain ⟨frame, hf, hs⟩ := bind_eq_ok.mp hs
      obtain rfl := frame_ok hf
      obtain ⟨found, hb, hs⟩ := bind_eq_ok.mp hs
      cases found with
      | some b =>
        cases hs
        exact ⟨[], e, es, rfl, rfl⟩
      | none =>
        rw [hfix.parent] at hs
        obtain ⟨pre, e', post, rfl, hf⟩ := ih hl hs
        exact ⟨e :: pre, e', post, rfl, hf⟩

/-- What LONGJMP to the buffer at `buf` leaves. -/
structure JumpedTo (ex : PNExecutor) (th th' : PNThread) (buf : Nat) (e : Entry) (es : List Entry) : Prop where
  inv : FramesInv ex th' (e :: es)
  same : SameOn th.mem th'.mem (baseBlocks ex es)
  frame : readFrame th'.mem e.addr = (readJmpBuf th.mem buf).frame
  dead : th'.dead = th.dead

theorem FramesInv.jumpToFrame {pre post : List Entry} (h : FramesInv ex th (pre ++ e :: post)) {buf value : Nat}
    (hi : BufIntact ex th e.addr buf) (hm : MarkFound th.allocator (readFrame th.mem e.addr).mark)
    (hj : jumpTo ex th e.addr buf value = .ok th') : ∃ th₀ th₁, Prepared ex (readFrame th₀.mem e.addr).memoryStackTop th th₀ e post ∧
      readFrame th₀.mem e.addr = (readJmpBuf th.mem buf).frame ∧
      e.HasValue ex (ex.callAt (readJmpBuf th.mem buf).frame.location.inst).resultValueId ∧
      pnThreadSetValue ex th₀ (ex.callAt (readJmpBuf th.mem buf).frame.location.inst).resultValueId value = .ok th₁ ∧
      th' = { th₁ with inst := th'.inst } := by
  obtain ⟨frame, hf, hj⟩ := bind_eq_ok.mp hj
  obtain rfl := frame_ok hf
  obtain ⟨b, hbuf, hj⟩ := bind_eq_ok.mp hj
  obtain rfl := jmpbuf_ok hbuf
  obtain ⟨_, _, hj⟩ := bind_eq_ok.mp hj
  obtain ⟨th₂, hset, hj⟩ := bind_eq_ok.mp hj
  cases hj
  have hp := h.pop pre
  have hfix : e.Fixed (top ex post) (readFrame th.mem e.addr) := hp.head
  have hcopy : e.Fixed (top ex post) (readJmpBuf th.mem buf).frame :=
    ⟨hi.functionId.trans hfix.functionId, hi.mark.trans hfix.mark, hi.values.trans hfix.values, hi.parent.trans hfix.parent⟩
  rw [hfix.mark] at hm hset
  have hset' := setValue_functionId (x := e.functionId) hset
  have hres := (hp.writeHead hcopy).reset hm
  have hrange : e.HasValue ex (ex.callAt (readJmpBuf th.mem buf).frame.location.inst).resultValueId := by
    have hr := hi.result
    rw [hfix.functionId] at hr
    rcases hr with hinv | hin
    · exact absurd hinv (setValue_ok hset).2.1
    · exact hin.2
  refine ⟨_, _, ⟨hres, hp.writeFrame_sameOn _, rfl, rfl⟩, readFrame_writeFrame _, hrange, hset', ?_⟩
  exact congrArg (fun f => ({ th₂.resume ex (readJmpBuf th.mem buf).frame.location with functionId := f } : PNThread)) hcopy.functionId

theorem FramesInv.jumpTo {pre post : List Entry} (h : FramesInv ex th (pre ++ e :: post)) {buf value : Nat}
    (hi : BufIntact ex th e.addr buf) (hm : MarkFound th.allocator (readFrame th.mem e.addr).mark)
    (hj : jumpTo ex th e.addr buf value = .ok th') : JumpedTo ex th th' buf e post := by
  obtain ⟨th₀, th₁, p, hframe, hrange, hset, heq⟩ := h.jumpToFrame hi hm hj
  have c := p.inv.setValue hrange hset
  have hst := (p.stayed c).withInst th'.inst th₁.memory
  rw [heq]
  exact ⟨hst.inv, hst.same, (c.readFrame e (List.mem_cons_self ..)).trans hframe, hst.dead⟩

/-- LONGJMP jumps to a buffer of a frame of the thread. -/
theorem FramesInv.longjmpFrame (h : FramesInv ex th es) {fuel : Nat} (hs : LongjmpFound ex fuel th)
    (hl : opcodeLongjmp ex fuel th = .ok th') :
    ∃ pre e post id buf, es = pre ++ e :: post ∧ longjmpId ex th = .ok id ∧
      searchFrames ex th id fuel th.currentFrame = .ok (some (e.addr, buf)) ∧
      MarkFound th.allocator (readFrame th.mem e.addr).mark ∧ BufIntact ex th e.addr buf ∧
      Pnacl.jumpTo ex th e.addr buf (longjmpValue ex th) = .ok th' := by
  unfold opcodeLongjmp at hl
  obtain ⟨_, hl⟩ := pnCheck_bind_eq_ok.mp hl
  obtain ⟨_, hl⟩ := pnCheck_bind_eq_ok.mp hl
  obtain ⟨id, hid, hl⟩ := bind_eq_ok.mp hl
  obtain ⟨found, hf, hl⟩ := bind_eq_ok.mp hl
  cases found with
  | none => cases hl
  | some x =>
    obtain ⟨f, buf⟩ := x
    obtain ⟨hm, hi⟩ := hs id f buf hid hf
    have hf' := hf
    rw [h.current] at hf'
    obtain ⟨pre, e, post, rfl, rfl⟩ := searchFrames_entry h.links hf'
    exact ⟨pre, e, post, id, buf, rfl, hid, hf, hm, hi, hl⟩

theorem FramesInv.longjmp (h : FramesInv ex th es) {fuel : Nat} (hs : LongjmpFound ex fuel th)
    (hl : opcodeLongjmp ex fuel th = .ok th') :
    ∃ pre e post id buf, es = pre ++ e :: post ∧ longjmpId ex th = .ok id ∧
      searchFrames ex th id fuel th.currentFrame = .ok (some (e.addr, buf)) ∧ JumpedTo ex th th' buf e post := by
  obtain ⟨pre, e, post, id, buf, rfl, hid, hf, hm, hi, hj⟩ := h.longjmpFrame hs hl
  exact ⟨pre, e, post, id, buf, rfl, hid, hf, h.jumpTo hi hm hj⟩

/-! ## The instructions that stay in the frame -/

theorem FramesInv.phiFrame (h : FramesInv ex th (e :: es)) {malloc : Malloc} (hm : MallocFresh ex malloc)
    {as : List PNRuntimePhiAssign} {destInst : Nat} (hlen : as.length < 2 ^ 16)
    (hs : pnThreadDoPhiAssigns ex malloc false as destInst th = .ok th') : ∃ temp a th₁,
      FramesInv ex { th with allocator := a } (e :: es) ∧
      PNBlock.Disjoint ⟨temp, 8 * as.length⟩ (e.valuesBlock ex) ∧ PNBlock.Disjoint ⟨temp, 8 * as.length⟩ e.frameBlock ∧
      Prepared ex (readFrame th.mem e.addr).memoryStackTop th (phiAssignsRead ex { th with allocator := a } temp as) e es ∧
      phiAssignsWrite ex destInst (phiAssignsRead ex { th with allocator := a } temp as) temp as = .ok th₁ ∧
      th' = th₁.resetTo (pnAllocatorMark th.allocator) ∧
      (MarkFound th.allocator (pnAllocatorMark th.allocator) →
        pnAllocatorResetToMark a (pnAllocatorMark th.allocator) = th.allocator) := by
  rw [pnThreadDoPhiAssigns, if_neg (by decide)] at hs
  obtain ⟨⟨temp, a⟩, hal, hs⟩ := bind_eq_ok.mp hs
  obtain ⟨th₁, hw, hs⟩ := bind_eq_ok.mp hs
  cases hs
  obtain ⟨h₁, hx, hin, hd, -⟩ := h.alloc hm (by unfold PNRuntimeValue.sizeof; omega) hal
  have hdis : ∀ b ∈ baseBlocks ex (e :: es), PNBlock.Disjoint ⟨temp, 8 * as.length⟩ b :=
    fun b hb => hd b (h.levels.allocated b hb)
  obtain ⟨heq, hout⟩ := phiAssignsRead_eq ex as temp { th with allocator := a }
  obtain ⟨hsame, hsent⟩ := h₁.writeBlock hin hdis hout
  have h₂ : FramesInv ex (phiAssignsRead ex { th with allocator := a } temp as) (e :: es) := by
    rw [heq]
    exact h₁.withBlocks hsame hsent
  refine ⟨temp, a, th₁, h₁, hdis _ (valuesBlock_mem (List.mem_cons_self ..)), hdis _ (frameBlock_mem (List.mem_cons_self ..)),
    ⟨h₂, ?_, ?_, ?_⟩, hw, rfl, fun hf => resetToMark_restores h.inv (hf.safe h.inv (.refl _)) h₁.inv hx⟩
  · apply hsame.subset
    rw [baseBlocks_cons]
    intro b hb
    rcases List.mem_cons.mp hb with rfl | hb
    · simp [Entry.base]
    · exact List.mem_append_right _ hb
  · rw [hsame.readFrame (frameBlock_mem (List.mem_cons_self ..))]
  · rw [heq]

theorem FramesInv.phiAssigns (h : FramesInv ex th (e :: es)) {malloc : Malloc} (hm : MallocFresh ex malloc) {fast : Bool}
    {as : List PNRuntimePhiAssign} {destInst : Nat} (hlen : as.length < 2 ^ 16)
    (hr : ∀ a ∈ as, e.HasValue ex a.destValueId)
    (hf : fast = false → MarkFound th.allocator (pnAllocatorMark th.allocator))
    (hs : pnThreadDoPhiAssigns ex malloc fast as destInst th = .ok th') :
    Stayed ex (readFrame th.mem e.addr).memoryStackTop th th' e es := by
  cases fast with
  | true => exact (Prepared.refl h).stayed (h.sets (phiAssignsInPlace_sets hr hs))
  | false =>
    obtain ⟨temp, a, th₁, -, -, -, p, hw, rfl, hreset⟩ := h.phiFrame hm hlen hs
    have c := p.inv.sets (phiAssignsWrite_sets hr hw)
    have hst := p.stayed c
    have hal : th₁.allocator = a := by rw [c.eq, (phiAssignsRead_eq ex as temp { th with allocator := a }).1]
    have h₃ := hst.inv
    unfold PNThread.resetTo
    rw [hal, hreset (hf rfl)]
    exact ⟨⟨h.inv, h.away, h₃.sentinel, h₃.current, h₃.links, h.levels, h.disjoint, h₃.calls, h₃.running⟩, hst.same,
      hst.top, hst.dead⟩

theorem FramesInv.otherFrame (h : FramesInv ex th (e :: es)) {inst locationInst stackTop : Nat} {values : List (Nat × Nat)}
    {memory : PNMemory} (hs : (PNThreadOp.other inst locationInst values stackTop memory).exec ex th = .ok th') :
    ∃ th₀ th₁, Prepared ex stackTop th th₀ e es ∧ setValues ex th₀ values = .ok th₁ ∧
      th' = { th₁ with inst := inst, memory := memory } := by
  obtain ⟨th₁, hset, hs⟩ := bind_eq_ok.mp hs
  cases hs
  have hfix := h.head
  obtain ⟨h₁, hsame, hframe⟩ := h.modifyFrame (f := fun f => { f with
    memoryStackTop := stackTop, location := ⟨f.location.functionId, locationInst⟩ })
    ⟨hfix.functionId, hfix.mark, hfix.values, hfix.parent⟩
  exact ⟨_, th₁, ⟨h₁, hsame, by rw [hframe], rfl⟩, hset, rfl⟩

theorem FramesInv.other (h : FramesInv ex th (e :: es)) {inst locationInst stackTop : Nat} {values : List (Nat × Nat)}
    {memory : PNMemory} (hr : ∀ v ∈ values, e.HasValue ex v.1)
    (hs : (PNThreadOp.other inst locationInst values stackTop memory).exec ex th = .ok th') :
    Stayed ex stackTop th th' e es := by
  obtain ⟨th₀, th₁, p, hset, rfl⟩ := h.otherFrame hs
  exact (p.stayed (p.inv.sets (setValues_sets hr hset))).withInst inst memory

/-! ## Steps -/

/-- The resets of the step stop at the right chunk, and LONGJMP finds an intact buffer. -/
def PNThreadOp.FrameSafe (ex : PNExecutor) (th : PNThread) : PNThreadOp → Prop
  | .ret | .retValue _ => ReturnFound ex th
  | .longjmp fuel => LongjmpFound ex fuel th
  | .phiAssigns _ fast _ _ => fast = false → MarkFound th.allocator (pnAllocatorMark th.allocator)
  | .call _ _ | .setjmp _ | .other _ _ _ _ _ | .elsewhere _ _ => True

/-- RET and RET_VALUE. -/
def PNThreadOp.Returns : PNThreadOp → Prop
  | .ret | .retValue _ => True
  | _ => False

/-- The stack top behind an operation that stays in its frame. -/
def PNThreadOp.stackTop (old : Nat) : PNThreadOp → Nat
  | .other _ _ _ memoryStackTop _ => memoryStackTop
  | _ => old

/-- How a step changes the frames. -/
inductive FrameStep (ex : PNExecutor) (op : PNThreadOp) (th th' : PNThread) : List Entry → List Entry → Prop where
  | stay {e : Entry} {es : List Entry} (hop : ¬op.Lands)
      (h : Stayed ex (op.stackTop (readFrame th.mem e.addr).memoryStackTop) th th' e es) : FrameStep ex op th th' (e :: es) (e :: es)
  | call {e' e : Entry} {es : List Entry} {malloc : Malloc} {functionId : Nat} (hop : op = .call malloc functionId)
      (h : Called ex th th' e' e es) :
      FrameStep ex op th th' (e :: es) (e' :: e :: es)
  | ret {e e' : Entry} {es : List Entry} (hop : op.Returns) (h : ReturnedTo ex op th th' e' es) :
      FrameStep ex op th th' (e :: e' :: es) (e' :: es)
  | last {e : Entry} (hop : op.Returns) (h : th'.dead = true) : FrameStep ex op th th' [e] []
  | jump {es pre : List Entry} {e : Entry} {post : List Entry} {fuel id buf : Nat} (hop : op = .longjmp fuel)
      (hes : es = pre ++ e :: post) (hid : longjmpId ex th = .ok id)
      (hf : searchFrames ex th id fuel th.currentFrame = .ok (some (e.addr, buf))) (h : JumpedTo ex th th' buf e post) :
      FrameStep ex op th th' es (e :: post)

/-- **Every safe step keeps the frames.** -/
theorem FramesInv.step (h : FramesInv ex th (e :: es)) {op : PNThreadOp} (hp : op.Promised ex th) (hs : op.FrameSafe ex th)
    (he : op.exec ex th = .ok th') : ∃ es', FramesInv ex th' es' ∧ FrameStep ex op th th' (e :: es) es' := by
  have hrun : th.functionId = e.functionId := h.running e rfl
  have hval : ∀ id, id < ex.numValues + (ex.functions th.functionId).numValues → e.HasValue ex id := by
    intro id hid
    rw [hrun] at hid
    exact hid
  cases op with
  | call malloc functionId =>
    obtain ⟨hm, hr⟩ := hp
    obtain ⟨e', hc⟩ := h.call hm (hrun ▸ hr) he
    exact ⟨_, hc.inv, .call rfl hc⟩
  | ret =>
    rcases h.ret hs he with ⟨rfl, hd, hi⟩ | ⟨e', es', rfl, hr⟩
    · exact ⟨[], hi, .last trivial hd⟩
    · exact ⟨_, hr.inv, .ret trivial hr⟩
  | retValue valueId =>
    rcases h.retValue hs he with ⟨rfl, hd, hi⟩ | ⟨e', es', rfl, hr⟩
    · exact ⟨[], hi, .last trivial hd⟩
    · exact ⟨_, hr.inv, .ret trivial hr⟩
  | setjmp malloc =>
    obtain ⟨hm, hr⟩ := hp
    have hst := h.setjmp hm (hrun ▸ hr) he
    exact ⟨_, hst.inv, .stay id hst⟩
  | longjmp fuel =>
    obtain ⟨pre, e', post, id, buf, heq, hid, hf, hj⟩ := h.longjmp hs he
    exact ⟨_, hj.inv, .jump rfl heq hid hf hj⟩
  | phiAssigns malloc fast assigns destInst =>
    obtain ⟨hm, hlen, hr⟩ := hp
    obtain ⟨th₁, hd, he⟩ := bind_eq_ok.mp he
    cases he
    have hst := h.phiAssigns hm hlen (fun a ha => hval _ (hr a ha)) hs hd
    have hinv : FramesInv ex { th₁ with inst := destInst } (e :: es) := hst.inv.fields rfl rfl rfl rfl
    exact ⟨_, hinv, .stay id ⟨hinv, hst.same, hst.top, hst.dead⟩⟩
  | other inst locationInst values stackTop memory =>
    have hst := h.other (fun v hv => hval _ (hp v hv)) he
    exact ⟨_, hst.inv, .stay id hst⟩
  | elsewhere setjmps memory =>
    cases he
    have hinv : FramesInv ex { th with numSetjmps := th.numSetjmps + setjmps, memory := memory } (e :: es) :=
      h.fields rfl rfl rfl rfl
    exact ⟨_, hinv, .stay id ⟨hinv, .refl _ _, rfl, rfl⟩⟩

/-- A new thread has no frames. -/
theorem startThread_frames (mem : PNWords) (memory : PNMemory) (mark : PNAllocatorMark) (n : Nat)
    (ha : pnAllocatorInit (64 * 1024) = .ok a) :
    FramesInv ex ⟨a, writeFrame mem ex.sentinel ⟨⟨PN_INVALID_FUNCTION_ID, 0⟩, mark, 0, 0, 0, ex.stackEnd⟩, ex.sentinel, 0,
      PN_INVALID_FUNCTION_ID, memory, n, false⟩ [] := by
  have hinv := pnAllocatorInit_inv (by decide) ha
  have hnil : a.chunks = [] := by
    obtain ⟨_, ha⟩ := cAssert_bind_eq_ok.mp ha
    obtain ⟨_, ha⟩ := cAssert_bind_eq_ok.mp ha
    cases ha
    rfl
  refine ⟨hinv, ?_, by simp only [readFrame_writeFrame, and_self], rfl, trivial, trivial, .nil, fun _ he => (List.not_mem_nil he).elim,
    fun _ he => by cases he⟩
  intro c hc
  rw [hnil] at hc
  cases hc

/-- `pn_executor_init` pushes the first frame; its stack top is the end of memory. -/
theorem pnExecutorInit_frames {malloc : Malloc} (hm : MallocFresh ex malloc) {mem : PNWords} {memory : PNMemory}
    {mark : PNAllocatorMark} (h : pnExecutorInit ex malloc mem memory mark = .ok th) :
    ∃ e, FramesInv ex th [e] ∧ (readFrame th.mem e.addr).memoryStackTop = ex.stackEnd ∧ th.memory = memory ∧
      th.dead = false := by
  unfold pnExecutorInit at h
  obtain ⟨a, ha, h⟩ := bind_eq_ok.mp h
  obtain ⟨hfid, h⟩ := pnCheck_bind_eq_ok.mp h
  obtain ⟨_, h⟩ := pnCheck_bind_eq_ok.mp h
  obtain ⟨th₁, hp, h⟩ := bind_eq_ok.mp h
  obtain ⟨_, hset⟩ := pnCheck_bind_eq_ok.mp h
  obtain ⟨e, hpush⟩ := (startThread_frames mem memory mark 0 ha).push hm hfid (fun _ he => (List.not_mem_nil he).elim) hp
  have c := hpush.inv.setValue_last hpush.last hset
  refine ⟨e, hpush.inv.calm c, ?_, ?_, ?_⟩
  · rw [c.readFrame e (List.mem_cons_self ..), hpush.top, readFrame_writeFrame]
  · rw [c.eq]
    exact hpush.memory
  · rw [c.eq]
    exact hpush.dead

end Pnacl
