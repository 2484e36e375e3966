import Pnacl.ThreadSteps

/-!
# The operations on the storage

For every operation of a thread: what it does to the entries of the storage, that the invariant holds again, and that
the jump buffers which stay listed keep their contents.
-/

namespace Pnacl

open Lib

variable {ex : PNExecutor} {th th' : PNThread} {e : Entry} {es : List Entry}

/-- The jump buffers of the entries. -/
def bufsOf (es : List Entry) : List Nat := es.flatMap Entry.bufs

/-- The jump buffers have the same contents. -/
def BufsSame (th th' : PNThread) (bs : List Nat) : Prop := ∀ b ∈ bs, readJmpBuf th'.mem b = readJmpBuf th.mem b

theorem BufsSame.trans {th₂ : PNThread} {bs : List Nat} (h : BufsSame th th' bs) (h' : BufsSame th' th₂ bs) :
    BufsSame th th₂ bs :=
  fun b hb => (h' b hb).trans (h b hb)

theorem Quiet.bufs (q : Quiet ex th th' es) : BufsSame th th' (bufsOf es) := by
  intro b hb
  obtain ⟨e, he, hb⟩ := List.mem_flatMap.mp hb
  have hs : SameOn th.mem th'.mem e.records := fun x hx => q.same x (List.mem_flatMap.mpr ⟨e, he, hx⟩)
  exact readJmpBuf_congr (hs.buf hb)

/-- What the invariant does not read, apart from the instruction pointer. -/
structure SameRest (th th' : PNThread) : Prop where
  memory : th'.memory = th.memory
  numSetjmps : th'.numSetjmps = th.numSetjmps
  dead : th'.dead = th.dead

theorem SameRest.trans {th₂ : PNThread} (h : SameRest th th') (h' : SameRest th' th₂) : SameRest th th₂ :=
  ⟨h'.memory.trans h.memory, h'.numSetjmps.trans h.numSetjmps, h'.dead.trans h.dead⟩

theorem Quiet.rest (q : Quiet ex th th' es) : SameRest th th' := by
  rw [q.eq]
  exact ⟨rfl, rfl, rfl⟩

/-! ## CALL -/

/-- A frame whose record is already in memory becomes the current one. -/
theorem ThreadInv.pushEntry (h : ThreadInv ex th es) (hal : e.alloc = th.allocator) (hbufs : e.bufs = [])
    (hfid : e.functionId ≠ PN_INVALID_FUNCTION_ID) (hfix : e.Fixed (top ex es) (readFrame th.mem e.addr))
    (hhead : (readFrame th.mem e.addr).jmpbufHead = 0)
    (hf : e.frameBlock.AllocatedIn th.allocator) (hv : (e.valuesBlock ex).AllocatedIn th.allocator)
    (hfv : PNBlock.Disjoint e.frameBlock (e.valuesBlock ex))
    (hdf : ∀ b ∈ allBlocks ex es, PNBlock.Disjoint e.frameBlock b)
    (hdv : ∀ b ∈ allBlocks ex es, PNBlock.Disjoint (e.valuesBlock ex) b)
    (hcalls : ∀ e ∈ es, ResultInRange ex e.functionId (ex.callAt (readFrame th.mem e.addr).location.inst))
    (inst : Nat) :
    ThreadInv ex { th with currentFrame := e.addr, functionId := e.functionId, inst := inst } (e :: es) := by
  have hnil : e.bufBlocks = [] := by rw [Entry.bufBlocks, hbufs]; rfl
  have hne : e.addr ≠ ex.sentinel := by
    obtain ⟨c, hc, hlo, hhi⟩ := hf
    have hcur := (h.inv.wf c hc).current_le
    simp only [PNAllocatorChunk.sizeof, Entry.frameBlock, PNCallFrame.sizeof] at hlo hhi
    exact h.ne_sentinel hc (by omega) (by omega)
  refine ⟨h.inv, h.away, h.sentinel, rfl, ⟨⟨hne, hfid, hfix, ?_, ?_⟩, h.chain⟩, ?_, ?_, hcalls, ?_⟩
  · rw [hhead, hbufs]
    exact .nil
  · rw [hbufs]
    intro b hb
    cases hb
  · rw [Levels, hal, hnil]
    refine ⟨h.inv, .refl _, ?_, fun b hb => (List.not_mem_nil hb).elim, h.levels⟩
    intro b hb
    rcases List.mem_cons.mp hb with rfl | hb
    · exact hf
    · rw [List.mem_singleton.mp hb]
      exact hv
  · rw [allBlocks, List.flatMap_cons, Entry.blocks, hnil]
    refine List.pairwise_cons.mpr ⟨?_, List.pairwise_cons.mpr ⟨hdv, h.disjoint⟩⟩
    intro b hb
    rcases List.mem_cons.mp hb with rfl | hb
    · exact hfv
    · exact hdf b hb
  · intro e' he'
    cases he'
    rfl

/-- `pn_thread_push_function` pushes an entry; every frame below must remember its call. -/
theorem push_inv (h : ThreadInv ex th es) {malloc : Malloc} (hm : MallocFresh ex malloc) {functionId : Nat}
    (hfid : functionId ≠ PN_INVALID_FUNCTION_ID)
    (hcalls : ∀ e ∈ es, ResultInRange ex e.functionId (ex.callAt (readFrame th.mem e.addr).location.inst))
    (hp : pnThreadPushFunction ex malloc th functionId = .ok th') :
    ∃ e, e.bufs = [] ∧ e.functionId = functionId ∧ ThreadInv ex th' (e :: es) ∧ ValuesLast ex th'.allocator e ∧
      BufsSame th th' (bufsOf es) ∧ SameRest th th' := by
  obtain ⟨⟨frame, a₁⟩, hal1, hp⟩ := bind_eq_ok.mp hp
  obtain ⟨prev, _, hp⟩ := bind_eq_ok.mp hp
  obtain ⟨⟨values, a₂⟩, hal2, hp⟩ := bind_eq_ok.mp hp
  dsimp only at hal2 hp
  split at hp
  · cases hp
  · have hsz := ex.numValues_lt functionId
    have hz2 : PNRuntimeValue.sizeof * (ex.functions functionId).numValues < 2 ^ 64 := by
      unfold PNRuntimeValue.sizeof
      omega
    obtain ⟨h1, hx1, hin1, hd1⟩ := h.alloc hm (by decide) hal1
    obtain ⟨h2, hx2, hin2, hd2⟩ := h1.alloc hm hz2 hal2
    obtain ⟨_, _, _, hlast, _⟩ := alloc_block h1.inv (hm.ok _) isAlign_eight hz2 hal2
    have hdf (b : PNBlock) (hb : b ∈ allBlocks ex es) := hd1 b (h.levels.allocated b hb)
    have hdv (b : PNBlock) (hb : b ∈ allBlocks ex es) := hd2 b (h1.levels.allocated b hb)
    -- the record goes into a block that no entry lists
    generalize hrec : (⟨⟨functionId, (ex.functions functionId).instructions⟩, pnAllocatorMark a₂, values,
      th.currentFrame, 0, prev.memoryStackTop⟩ : PNCallFrame) = record at hp
    have q := h2.writeBlock (writeFrame th.mem frame record) (hin1.mono hx2) hdf fun a ha => writeFrame_outside ha
    have h3 := h2.quiet q
    have hcalls' : ∀ e ∈ es, ResultInRange ex e.functionId
        (ex.callAt (readFrame (writeFrame th.mem frame record) e.addr).location.inst) := by
      intro e he
      have hf : readFrame (writeFrame th.mem frame record) e.addr = readFrame th.mem e.addr :=
        readFrame_congr (q.same e.frameBlock
          (List.mem_flatMap.mpr ⟨e, he, List.mem_append_right _ (List.mem_singleton_self _)⟩))
      rw [hf]
      exact hcalls e he
    have hfix : Entry.Fixed ⟨frame, values, functionId, a₂, []⟩ (top ex es)
        (readFrame (writeFrame th.mem frame record) frame) := by
      rw [readFrame_writeFrame, ← hrec]
      exact ⟨rfl, rfl, rfl, h.current⟩
    have hhead : (readFrame (writeFrame th.mem frame record) frame).jmpbufHead = 0 := by
      rw [readFrame_writeFrame, ← hrec]
    have h4 := h3.pushEntry (e := ⟨frame, values, functionId, a₂, []⟩) rfl rfl hfid hfix hhead (hin1.mono hx2) hin2
      (hd2 _ hin1).symm hdf hdv hcalls' (ex.functions functionId).instructions
    have hvl : ValuesLast ex a₂ ⟨frame, values, functionId, a₂, []⟩ := ⟨hlast.1, hlast.2⟩
    have q2 := setValues_last h4 hvl hp
    refine ⟨_, rfl, rfl, h4.quiet q2, hvl.quiet q2, ?_, ?_⟩
    · refine BufsSame.trans q.bufs ?_
      intro b hb
      exact q2.bufs b (by rw [bufsOf, List.flatMap_cons]; exact hb)
    · exact ⟨q2.rest.memory, q2.rest.numSetjmps, q2.rest.dead⟩

/-- Storing the instruction pointer into the current frame. -/
theorem ThreadInv.saveInst (h : ThreadInv ex th (e :: es)) : ThreadInv ex th.saveInst (e :: es) := by
  have hfix := h.chain.1.fixed
  exact h.modifyFrame ⟨hfix.functionId, hfix.mark, hfix.values, hfix.parent⟩ rfl

/-- Writing the current frame does not change the jump buffers. -/
theorem ThreadInv.modifyFrame_bufs (h : ThreadInv ex th (e :: es)) (f : PNCallFrame → PNCallFrame) :
    BufsSame th (th.modifyFrame f) (bufsOf (e :: es)) := by
  intro b hb
  have hcur : th.currentFrame = e.addr := h.current
  have hsame := h.writeFrame_sameOn (f (readFrame th.mem e.addr))
  unfold PNThread.modifyFrame
  rw [hcur]
  rw [bufsOf, List.flatMap_cons] at hb
  rcases List.mem_append.mp hb with hb | hb
  · exact readJmpBuf_congr (hsame.bufBlock hb)
  · obtain ⟨e', he', hb⟩ := List.mem_flatMap.mp hb
    have hs : SameOn th.mem (writeFrame th.mem e.addr (f (readFrame th.mem e.addr))) e'.records :=
      fun x hx => hsame x (List.mem_append_right _ (List.mem_flatMap.mpr ⟨e', he', hx⟩))
    exact readJmpBuf_congr (hs.buf hb)

theorem readFrame_modifyFrame (f : PNCallFrame → PNCallFrame) :
    readFrame (th.modifyFrame f).mem th.currentFrame = f (readFrame th.mem th.currentFrame) :=
  readFrame_writeFrame _

/-- CALL pushes an entry. -/
theorem call_inv (h : ThreadInv ex th (e :: es)) {malloc : Malloc} (hm : MallocFresh ex malloc) {functionId : Nat}
    (hr : ResultInRange ex e.functionId (ex.callAt th.inst)) (hc : opcodeCall ex malloc functionId th = .ok th') :
    ∃ e', e'.bufs = [] ∧ ThreadInv ex th' (e' :: e :: es) ∧ BufsSame th th' (bufsOf (e :: es)) ∧ SameRest th th' := by
  unfold opcodeCall at hc
  obtain ⟨hlt, hc⟩ := cAssert_bind_eq_ok.mp hc
  obtain ⟨th₂, hp, hc⟩ := bind_eq_ok.mp hc
  have hfid : functionId ≠ PN_INVALID_FUNCTION_ID := by
    have := ex.numFunctions_lt
    unfold PN_INVALID_FUNCTION_ID
    omega
  have h1 := h.saveInst
  have hb1 : BufsSame th th.saveInst (bufsOf (e :: es)) := h.modifyFrame_bufs _
  have hcur : th.currentFrame = e.addr := h.current
  have hcalls : ∀ e' ∈ e :: es,
      ResultInRange ex e'.functionId (ex.callAt (readFrame th.saveInst.mem e'.addr).location.inst) := by
    intro e' he'
    rcases List.mem_cons.mp he' with rfl | he'
    · rw [← hcur, PNThread.saveInst, readFrame_modifyFrame]
      exact hr
    · exact h1.calls e' he'
  obtain ⟨e', hbufs, _, h2, hvl, hb2, hr2⟩ := push_inv h1 hm hfid hcalls hp
  have q := copyArguments_last h2 hvl hc
  refine ⟨e', hbufs, h2.quiet q, ?_, ?_⟩
  · refine (hb1.trans hb2).trans ?_
    intro b hb
    refine q.bufs b ?_
    rw [bufsOf, List.flatMap_cons]
    exact List.mem_append_right _ hb
  · exact ⟨q.rest.memory.trans hr2.memory, q.rest.numSetjmps.trans hr2.numSetjmps, q.rest.dead.trans hr2.dead⟩

/-! ## RET -/

theorem frame_ok {p : Nat} {f : PNCallFrame} (h : th.frame ex p = .ok f) : f = readFrame th.mem p := by
  unfold PNThread.frame at h
  split at h
  · cases h; rfl
  · cases h

theorem jmpbuf_ok {p : Nat} {b : PNJmpBuf} (h : th.jmpbuf p = .ok b) : b = readJmpBuf th.mem p := by
  unfold PNThread.jmpbuf at h
  split at h
  · cases h; rfl
  · cases h

theorem ThreadInv.parent_eq (h : ThreadInv ex th (e :: es)) : (readFrame th.mem th.currentFrame).parent = top ex es :=
  h.fixed.parent

/-- Returning from the last frame ends the thread. -/
theorem ThreadInv.popLast (h : ThreadInv ex th [e]) : ThreadInv ex { th with currentFrame := ex.sentinel, dead := true } [] :=
  ⟨h.inv, h.away, h.sentinel, rfl, trivial, trivial, .nil, fun _ he => (List.not_mem_nil he).elim,
    fun _ he => by cases he⟩

theorem ThreadInv.sentinel_functionId (h : ThreadInv ex th es) :
    (readFrame th.mem ex.sentinel).location.functionId = PN_INVALID_FUNCTION_ID := h.sentinel

/-- A frame without a jump buffer list has no jump buffers. -/
theorem EntryOk.bufs_nil {mem : PNWords} {parent : Nat} (h : EntryOk ex mem parent e)
    (h0 : (readFrame mem e.addr).jmpbufHead = 0) : e.bufs = [] := by
  have hb := h.bufs
  rw [h0] at hb
  cases hb' : e.bufs with
  | nil => rfl
  | cons b bs =>
    rw [hb'] at hb
    cases hb with
    | cons hne _ => exact absurd rfl hne

/-- The thread goes on in the current frame, with the allocator reset to its mark. -/
theorem ThreadInv.land (h : ThreadInv ex th (e :: es)) (hb : e.bufs = [])
    (hm : MarkFound th.allocator (pnAllocatorMark e.alloc)) {location : PNLocation}
    (hl : location.functionId = e.functionId) :
    ThreadInv ex ((th.resetTo (pnAllocatorMark e.alloc)).resume ex location) (e :: es) := by
  refine ((h.reset hb hm).1).fields rfl rfl rfl ?_
  exact hl.trans (h.running e rfl).symm

/-- What RET and RET_VALUE need of the frame they land in. -/
def LandingSafe (th : PNThread) (es : List Entry) : Prop :=
  ∀ e ∈ es.head?, (readFrame th.mem e.addr).jmpbufHead = 0 ∧ MarkFound th.allocator (readFrame th.mem e.addr).mark

/-- The frame below the current one, if there is one. -/
theorem ThreadInv.below (h : ThreadInv ex th (e :: es)) :
    (es = [] ∧ (readFrame th.mem (top ex es)).location.functionId = PN_INVALID_FUNCTION_ID) ∨
      ∃ e' es', es = e' :: es' ∧ (readFrame th.mem (top ex es)).location.functionId = e'.functionId ∧
        e'.functionId ≠ PN_INVALID_FUNCTION_ID ∧ (readFrame th.mem (top ex es)).mark = pnAllocatorMark e'.alloc ∧
        ThreadInv ex { th with currentFrame := e'.addr, functionId := e'.functionId } (e' :: es') := by
  cases es with
  | nil => exact .inl ⟨rfl, h.sentinel_functionId⟩
  | cons e' es' =>
    have hp := h.pop [e]
    have hok := hp.chain.1
    exact .inr ⟨e', es', rfl, hok.fixed.functionId, hok.functionId_ne, hok.fixed.mark, hp⟩

/-- RET pops an entry. -/
theorem ret_inv (h : ThreadInv ex th (e :: es)) (hsafe : LandingSafe th es) (hr : opcodeRet ex th = .ok th') :
    ThreadInv ex th' es ∧ BufsSame th th' (bufsOf es) ∧ th'.numSetjmps = th.numSetjmps ∧
      (es ≠ [] → th'.dead = th.dead) ∧ (es = [] → th'.dead = true) := by
  obtain ⟨f, hf, hr⟩ := bind_eq_ok.mp hr
  obtain rfl := frame_ok hf
  obtain ⟨frame, hframe, hr⟩ := bind_eq_ok.mp hr
  obtain rfl := frame_ok hframe
  simp only [h.parent_eq] at hr
  rcases h.below with ⟨rfl, h0⟩ | ⟨e', es', rfl, hid, hne, hmark, hp⟩
  · rw [if_neg (not_not.mpr h0)] at hr
    cases hr
    exact ⟨h.popLast, fun b hb => (List.not_mem_nil hb).elim, rfl, fun hne => absurd rfl hne, fun _ => rfl⟩
  · obtain ⟨hj, hm⟩ := hsafe e' rfl
    have hbufs : e'.bufs = [] := hp.chain.1.bufs_nil hj
    rw [if_pos (hid ▸ hne), hmark] at hr
    cases hr
    replace hm : MarkFound th.allocator (pnAllocatorMark e'.alloc) := hp.chain.1.fixed.mark ▸ hm
    exact ⟨(hp.land hbufs hm hid).fields rfl rfl rfl rfl, fun b _ => rfl, rfl, fun _ => rfl, fun hn => by cases hn⟩

theorem setValue_functionId {id w x : Nat} (h : pnThreadSetValue ex th id w = .ok th') :
    pnThreadSetValue ex { th with functionId := x } id w = .ok { th' with functionId := x } := by
  obtain ⟨hid, h⟩ := cAssert_bind_eq_ok.mp h
  unfold pnThreadSetValue
  rw [cAssert_bind hid]
  dsimp only at h ⊢
  split at h
  next hc =>
    cases h
    exact if_pos hc
  next => cases h

/-- RET_VALUE pops an entry and sets the result of the call. -/
theorem retValue_inv (h : ThreadInv ex th (e :: es)) (hsafe : LandingSafe th es) {valueId : Nat}
    (hr : opcodeRetValue ex valueId th = .ok th') :
    ThreadInv ex th' es ∧ BufsSame th th' (bufsOf es) ∧ th'.numSetjmps = th.numSetjmps ∧
      (es ≠ [] → th'.dead = th.dead) ∧ (es = [] → th'.dead = true) := by
  obtain ⟨f, hf, hr⟩ := bind_eq_ok.mp hr
  obtain rfl := frame_ok hf
  obtain ⟨frame, hframe, hr⟩ := bind_eq_ok.mp hr
  obtain rfl := frame_ok hframe
  simp only [h.parent_eq] at hr
  rcases h.below with ⟨rfl, h0⟩ | ⟨e', es', rfl, hid, hne, hmark, hp⟩
  · rw [if_neg (not_not.mpr h0)] at hr
    cases hr
    exact ⟨h.popLast, fun b hb => (List.not_mem_nil hb).elim, rfl, fun hne => absurd rfl hne, fun _ => rfl⟩
  · obtain ⟨hj, hm⟩ := hsafe e' rfl
    have hbufs : e'.bufs = [] := hp.chain.1.bufs_nil hj
    rw [if_pos (hid ▸ hne)] at hr
    obtain ⟨th₁, hset, hr⟩ := bind_eq_ok.mp hr
    rw [hmark] at hr
    cases hr
    replace hm : MarkFound th.allocator (pnAllocatorMark e'.alloc) := hp.chain.1.fixed.mark ▸ hm
    have hrange : (ex.callAt (readFrame th.mem e'.addr).location.inst).resultValueId <
        ex.numValues + (ex.functions e'.functionId).numValues := by
      rcases h.calls e' (List.mem_cons_self ..) with hinv | hin
      · exact absurd hinv (setValue_ok hset).2.1
      · exact hin.2
    have q := hp.setValue hrange (setValue_functionId (x := e'.functionId) hset)
    have hp' := hp.quiet q
    have heq : th₁.allocator = th.allocator := by
      obtain ⟨_, _, _, rfl⟩ := setValue_ok hset
      rfl
    have hland := hp'.land hbufs (show MarkFound th₁.allocator _ from heq ▸ hm) hid
    refine ⟨hland.fields rfl rfl rfl rfl, q.bufs, ?_, fun _ => ?_, fun hn => by cases hn⟩
    · exact q.rest.numSetjmps
    · exact q.rest.dead

/-! ## SETJMP -/

/-- A jump buffer that is in memory is linked into the current frame. -/
theorem ThreadInv.linkBuf (h : ThreadInv ex th (e :: es)) {buf : Nat}
    (hal : PNBlock.AllocatedIn ⟨buf, PNJmpBuf.sizeof⟩ th.allocator)
    (hd : ∀ b ∈ allBlocks ex (e :: es), PNBlock.Disjoint ⟨buf, PNJmpBuf.sizeof⟩ b)
    (hfix : e.Fixed (top ex es) (readJmpBuf th.mem buf).frame)
    (hnext : (readJmpBuf th.mem buf).next = (readFrame th.mem e.addr).jmpbufHead)
    (hr : ResultInRange ex e.functionId (ex.callAt (readJmpBuf th.mem buf).frame.location.inst)) :
    ThreadInv ex (th.linkJmpBuf buf) ({ e with bufs := buf :: e.bufs } :: es) ∧
      readJmpBuf (th.linkJmpBuf buf).mem buf = readJmpBuf th.mem buf := by
  have hcur : th.currentFrame = e.addr := h.current
  have hok := h.chain.1
  let f : PNCallFrame := { readFrame th.mem e.addr with jmpbufHead := buf }
  have hsame := h.writeFrame_sameOn f
  have hfb : e.frameBlock ∈ allBlocks ex (e :: es) :=
    List.mem_flatMap.mpr ⟨e, List.mem_cons_self .., List.mem_append_right _ (List.mem_cons_self ..)⟩
  have hbuf : readJmpBuf (writeFrame th.mem e.addr f) buf = readJmpBuf th.mem buf := by
    refine readJmpBuf_congr fun a ha ha' => writeFrame_outside ?_
    have hdis := hd _ hfb
    simp only [PNBlock.Disjoint, Entry.frameBlock] at hdis
    omega
  have hne : buf ≠ 0 := by
    obtain ⟨c, _, hlo, _⟩ := hal
    simp only [PNAllocatorChunk.sizeof] at hlo
    omega
  have hw : ThreadInv ex { th with mem := writeFrame th.mem e.addr f } ({ e with bufs := buf :: e.bufs } :: es) := by
    refine h.writeHead ?_ ?_ ?_ ?_ ?_
    · exact ⟨hok.fixed.functionId, hok.fixed.mark, hok.fixed.values, hok.fixed.parent⟩
    · refine .cons hne ?_
      rw [hbuf, hnext]
      exact hok.bufs.congr fun b hb => hsame.bufBlock hb
    · intro b hb
      rcases List.mem_cons.mp hb with rfl | hb
      · rw [hbuf]
        exact ⟨hfix, hr⟩
      · rw [readJmpBuf_congr (hsame.bufBlock hb)]
        exact hok.saved b hb
    · intro b hb
      rcases List.mem_cons.mp hb with rfl | hb
      · exact hal
      · exact h.levels.2.2.2.1 _ (List.mem_map.mpr ⟨b, hb, rfl⟩)
    · exact List.pairwise_cons.mpr ⟨hd, h.disjoint⟩
  have hmem : (th.linkJmpBuf buf).mem = writeFrame th.mem e.addr f := by
    unfold PNThread.linkJmpBuf PNThread.modifyFrame
    rw [hcur]
  exact ⟨hw.fields rfl hmem rfl rfl, by rw [hmem, hbuf]⟩

/-- A new jump buffer is filled; no entry lists it yet. -/
theorem ThreadInv.fillJmpBuf (h : ThreadInv ex th es) {buf : Nat}
    (hal : PNBlock.AllocatedIn ⟨buf, PNJmpBuf.sizeof⟩ th.allocator)
    (hd : ∀ b ∈ allBlocks ex es, PNBlock.Disjoint ⟨buf, PNJmpBuf.sizeof⟩ b) :
    ThreadInv ex (th.fillJmpBuf buf) es ∧ BufsSame th (th.fillJmpBuf buf) (bufsOf es) ∧
      SameOn th.mem (th.fillJmpBuf buf).mem (es.flatMap Entry.records) := by
  have q := h.writeBlock (th.fillJmpBuf buf).mem hal hd fun a ha => writeJmpBuf_outside ha
  exact ⟨(h.quiet q).fields rfl rfl rfl rfl, q.bufs, q.same⟩

/-- The jump buffer that SETJMP makes. -/
def PNThread.newJmpBuf (th : PNThread) : PNJmpBuf :=
  let frame := readFrame th.mem th.currentFrame
  ⟨th.numSetjmps % 2 ^ 32, { frame with location := ⟨frame.location.functionId, th.inst⟩ }, frame.jmpbufHead⟩

/-- SETJMP adds a buffer with a copy of the frame to the first entry. -/
theorem setjmp_inv (h : ThreadInv ex th (e :: es)) {malloc : Malloc} (hm : MallocFresh ex malloc)
    (hr : ResultInRange ex e.functionId (ex.callAt th.inst)) (hs : opcodeSetjmp ex malloc th = .ok th') :
    ∃ buf, ThreadInv ex th' ({ e with bufs := buf :: e.bufs } :: es) ∧ BufsSame th th' (bufsOf (e :: es)) ∧
      readJmpBuf th'.mem buf = th.newJmpBuf ∧ th'.numSetjmps = th.numSetjmps + 1 ∧ th'.dead = th.dead := by
  unfold opcodeSetjmp at hs
  obtain ⟨_, hs⟩ := pnCheck_bind_eq_ok.mp hs
  obtain ⟨hne, hs⟩ := pnCheck_bind_eq_ok.mp hs
  obtain ⟨⟨buf, a⟩, hal, hs⟩ := bind_eq_ok.mp hs
  obtain ⟨memory, _, hs⟩ := bind_eq_ok.mp hs
  obtain ⟨th₅, hset, hs⟩ := bind_eq_ok.mp hs
  cases hs
  have hcur : th.currentFrame = e.addr := h.current
  have h1 := h.saveInst
  have hb1 : BufsSame th th.saveInst (bufsOf (e :: es)) := h.modifyFrame_bufs _
  have hf1 : readFrame th.saveInst.mem th.currentFrame = th.newJmpBuf.frame := readFrame_modifyFrame _
  -- the buffer is written into a block that no entry lists, and then linked
  obtain ⟨h2, _, hin, hd⟩ := h1.alloc hm (by decide) hal
  have hd2 (b : PNBlock) (hb : b ∈ allBlocks ex (e :: es)) := hd b (h1.levels.allocated b hb)
  obtain ⟨h3, hb3, hsame⟩ := h2.fillJmpBuf hin hd2
  have hread : readJmpBuf (PNThread.fillJmpBuf { th.saveInst with allocator := a } buf).mem buf = th.newJmpBuf := by
    unfold PNThread.fillJmpBuf
    rw [readJmpBuf_writeJmpBuf]
    simp only [PNThread.saveInst, PNThread.modifyFrame, readFrame_writeFrame, PNThread.newJmpBuf]
  have hframe : readFrame (PNThread.fillJmpBuf { th.saveInst with allocator := a } buf).mem e.addr = th.newJmpBuf.frame := by
    rw [← hf1, hcur]
    exact readFrame_congr (hsame e.frameBlock
      (List.mem_flatMap.mpr ⟨e, List.mem_cons_self .., List.mem_append_right _ (List.mem_singleton_self _)⟩))
  have hfix : e.Fixed (top ex es) th.newJmpBuf.frame := hf1 ▸ hcur ▸ h1.chain.1.fixed
  obtain ⟨h4, hlink⟩ := h3.linkBuf hin hd2 (by rw [hread]; exact hfix) (by rw [hread, hframe]; rfl)
    (by rw [hread]; exact hr)
  have hb4 : BufsSame _ _ (bufsOf (e :: es)) := h3.modifyFrame_bufs fun f => { f with jmpbufHead := buf }
  have hrange : (ex.callAt th.inst).resultValueId < ex.numValues + (ex.functions e.functionId).numValues := by
    rcases hr with hinv | hin
    · exact absurd hinv hne
    · exact hin.2
  have h5 : ThreadInv ex { (PNThread.fillJmpBuf { th.saveInst with allocator := a } buf).linkJmpBuf buf with
      memory := memory } ({ e with bufs := buf :: e.bufs } :: es) := h4.fields rfl rfl rfl rfl
  have q := h5.setValue hrange hset
  have hq := q.bufs
  rw [bufsOf, List.flatMap_cons] at hq
  refine ⟨buf, (h5.quiet q).fields rfl rfl rfl rfl, ?_, ?_, ?_, ?_⟩
  · refine ((hb1.trans hb3).trans hb4).trans ?_
    intro b hb
    exact hq b (List.mem_cons_of_mem _ hb)
  · exact (hq buf (List.mem_cons_self ..)).trans (hlink.trans hread)
  · exact q.rest.numSetjmps
  · exact q.rest.dead

/-! ## LONGJMP -/

/-- The inner search finds a buffer of the list with the id. -/
theorem searchBufs_some {id buf : Nat} : ∀ {fuel head : Nat} {bs : List Nat}, BufChain th.mem head bs →
    searchBufs th id fuel head = .ok (some buf) → buf ∈ bs ∧ (readJmpBuf th.mem buf).id = id
  | 0, _, _, _, hs => by cases hs
  | fuel + 1, head, bs, hc, hs => by
    rw [searchBufs] at hs
    cases hc with
    | nil => rw [if_pos rfl] at hs; cases hs
    | cons hne ht =>
      rw [if_neg hne] at hs
      obtain ⟨b, hb, hs⟩ := bind_eq_ok.mp hs
      obtain rfl := jmpbuf_ok hb
      split at hs
      next hid =>
        cases hs
        exact ⟨List.mem_cons_self .., hid⟩
      next =>
        obtain ⟨hmem, hid⟩ := searchBufs_some ht hs
        exact ⟨List.mem_cons_of_mem _ hmem, hid⟩

/-- The outer search finds an entry and one of its buffers. -/
theorem searchFrames_some {id f buf : Nat} : ∀ {fuel : Nat} {es : List Entry}, Chain ex th.mem es →
    searchFrames ex th id fuel (top ex es) = .ok (some (f, buf)) →
    ∃ pre e post, es = pre ++ e :: post ∧ f = e.addr ∧ buf ∈ e.bufs ∧ (readJmpBuf th.mem buf).id = id
  | 0, _, _, hs => by cases hs
  | fuel + 1, [], _, hs => by
    rw [searchFrames, top, if_pos rfl] at hs
    cases hs
  | fuel + 1, e :: es, hc, hs => by
    obtain ⟨hok, hc⟩ := hc
    rw [searchFrames, top, if_neg hok.addr_ne] at hs
    obtain ⟨frame, hf, hs⟩ := bind_eq_ok.mp hs
    obtain rfl := frame_ok hf
    obtain ⟨found, hb, hs⟩ := bind_eq_ok.mp hs
    cases found with
    | some b =>
      cases hs
      obtain ⟨hmem, hid⟩ := searchBufs_some hok.bufs hb
      exact ⟨[], e, es, rfl, rfl, hmem, hid⟩
    | none =>
      rw [hok.fixed.parent] at hs
      obtain ⟨pre, e', post, rfl, hf, hmem, hid⟩ := searchFrames_some hc hs
      exact ⟨e :: pre, e', post, rfl, hf, hmem, hid⟩

/-- The jump: the frame of the buffer is the current one again, without jump buffers if the copy has none. -/
theorem jumpTo_inv {pre post : List Entry} (h : ThreadInv ex th (pre ++ e :: post)) {buf value : Nat} (hb : buf ∈ e.bufs)
    (h0 : (readJmpBuf th.mem buf).frame.jmpbufHead = 0)
    (hm : MarkFound th.allocator (readFrame th.mem e.addr).mark)
    (hj : jumpTo ex th e.addr buf value = .ok th') :
    ThreadInv ex th' ({ e with bufs := [] } :: post) ∧ BufsSame th th' (bufsOf post) ∧
      th'.numSetjmps = th.numSetjmps ∧ th'.dead = th.dead := by
  obtain ⟨frame, hf, hj⟩ := bind_eq_ok.mp hj
  obtain rfl := frame_ok hf
  obtain ⟨b, hbuf, hj⟩ := bind_eq_ok.mp hj
  obtain rfl := jmpbuf_ok hbuf
  obtain ⟨_, _, hj⟩ := bind_eq_ok.mp hj
  obtain ⟨th₂, hset, hj⟩ := bind_eq_ok.mp hj
  cases hj
  have hp := h.pop pre
  have hok := hp.chain.1
  obtain ⟨hfix, hr⟩ := hok.saved buf hb
  have hmark : (readFrame th.mem e.addr).mark = pnAllocatorMark e.alloc := hok.fixed.mark
  rw [hmark] at hm hset
  have hset' := setValue_functionId (x := e.functionId) hset
  have hbufs : BufsSame _ _ (bufsOf (e :: post)) := hp.modifyFrame_bufs fun _ => (readJmpBuf th.mem buf).frame
  have hdis : (allBlocks ex ({ e with bufs := [] } :: post)).Pairwise PNBlock.Disjoint := by
    have hd := hp.disjoint
    rw [allBlocks, List.flatMap_cons, Entry.blocks, List.append_assoc] at hd
    exact (List.pairwise_append.mp hd).2.1
  have hw := hp.writeHead hfix (by rw [h0]; exact .nil) (fun b hb => (List.not_mem_nil hb).elim)
    (fun b hb => (List.not_mem_nil hb).elim) hdis
  have hres := (hw.reset rfl hm).1
  have hrange : (ex.callAt (readJmpBuf th.mem buf).frame.location.inst).resultValueId <
      ex.numValues + (ex.functions e.functionId).numValues := by
    rcases hr with hinv | hin
    · exact absurd hinv (setValue_ok hset).2.1
    · exact hin.2
  have q := hres.setValue hrange hset'
  refine ⟨(hres.quiet q).fields rfl rfl rfl hfix.functionId, ?_, q.rest.numSetjmps, q.rest.dead⟩
  intro b hb
  have hb' : b ∈ bufsOf (e :: post) := by
    rw [bufsOf, List.flatMap_cons]
    exact List.mem_append_right _ hb
  exact (q.bufs b hb).trans (hbufs b hb')

/-- What LONGJMP needs of the buffer that it finds: the copy of the frame has no jump buffers, and the reset to the
frame's mark stops at the right chunk. -/
def LongjmpSafe (ex : PNExecutor) (fuel : Nat) (th : PNThread) : Prop :=
  ∀ id f buf, longjmpId ex th = .ok id → searchFrames ex th id fuel th.currentFrame = .ok (some (f, buf)) →
    (readJmpBuf th.mem buf).frame.jmpbufHead = 0 ∧ MarkFound th.allocator (readFrame th.mem f).mark

/-- LONGJMP goes back to the entry of the buffer. -/
theorem longjmp_inv (h : ThreadInv ex th es) {fuel : Nat} (hsafe : LongjmpSafe ex fuel th)
    (hl : opcodeLongjmp ex fuel th = .ok th') :
    ∃ pre e post id buf, es = pre ++ e :: post ∧ longjmpId ex th = .ok id ∧
      searchFrames ex th id fuel th.currentFrame = .ok (some (e.addr, buf)) ∧
      ThreadInv ex th' ({ e with bufs := [] } :: post) ∧ BufsSame th th' (bufsOf post) ∧
      th'.numSetjmps = th.numSetjmps ∧ th'.dead = th.dead := by
  unfold opcodeLongjmp at hl
  obtain ⟨_, hl⟩ := pnCheck_bind_eq_ok.mp hl
  obtain ⟨_, hl⟩ := pnCheck_bind_eq_ok.mp hl
  obtain ⟨id, hid, hl⟩ := bind_eq_ok.mp hl
  obtain ⟨found, hf, hl⟩ := bind_eq_ok.mp hl
  cases found with
  | none => cases hl
  | some x =>
    obtain ⟨f, buf⟩ := x
    obtain ⟨h0, hm⟩ := hsafe id f buf hid hf
    have hf' := hf
    rw [h.current] at hf'
    obtain ⟨pre, e, post, rfl, rfl, hmem, _⟩ := searchFrames_some h.chain hf'
    obtain ⟨hinv, hb, hn, hd⟩ := jumpTo_inv h hmem h0 hm hl
    exact ⟨pre, e, post, id, buf, rfl, hid, hf, hinv, hb, hn, hd⟩

/-! ## Phi assigns -/

section Phi

variable {destInst : Nat}

theorem phiAssignsInPlace_quiet : ∀ {as : List PNRuntimePhiAssign} {th : PNThread}, ThreadInv ex th (e :: es) →
    (∀ a ∈ as, a.destValueId < ex.numValues + (ex.functions e.functionId).numValues) →
    phiAssignsInPlace ex destInst th as = .ok th' → Quiet ex th th' (e :: es)
  | [], th, _, _, hs => by cases hs; exact .refl _ _
  | a :: as, th, h, hr, hs => by
    have hrest : ∀ a ∈ as, a.destValueId < ex.numValues + (ex.functions e.functionId).numValues :=
      fun a ha => hr a (List.mem_cons_of_mem _ ha)
    rw [phiAssignsInPlace] at hs
    split at hs
    · obtain ⟨th₁, h1, hs⟩ := bind_eq_ok.mp hs
      have q := h.setValue (hr a (List.mem_cons_self ..)) h1
      exact q.trans (phiAssignsInPlace_quiet (h.quiet q) hrest hs)
    · exact phiAssignsInPlace_quiet h hrest hs

theorem phiAssignsWrite_quiet : ∀ {as : List PNRuntimePhiAssign} {temp : Nat} {th : PNThread},
    ThreadInv ex th (e :: es) →
    (∀ a ∈ as, a.destValueId < ex.numValues + (ex.functions e.functionId).numValues) →
    phiAssignsWrite ex destInst th temp as = .ok th' → Quiet ex th th' (e :: es)
  | [], _, th, _, _, hs => by cases hs; exact .refl _ _
  | a :: as, temp, th, h, hr, hs => by
    have hrest : ∀ a ∈ as, a.destValueId < ex.numValues + (ex.functions e.functionId).numValues :=
      fun a ha => hr a (List.mem_cons_of_mem _ ha)
    rw [phiAssignsWrite] at hs
    split at hs
    · obtain ⟨th₁, h1, hs⟩ := bind_eq_ok.mp hs
      have q := h.setValue (hr a (List.mem_cons_self ..)) h1
      exact q.trans (phiAssignsWrite_quiet (h.quiet q) hrest hs)
    · exact phiAssignsWrite_quiet h hrest hs

/-- The first pass writes the array only. -/
theorem phiAssignsRead_eq (ex : PNExecutor) : ∀ (as : List PNRuntimePhiAssign) (temp : Nat) (th : PNThread),
    phiAssignsRead ex th temp as = { th with mem := (phiAssignsRead ex th temp as).mem } ∧
      ∀ p, p < temp ∨ temp + 8 * as.length ≤ p → (phiAssignsRead ex th temp as).mem p = th.mem p
  | [], _, _ => ⟨rfl, fun _ _ => rfl⟩
  | a :: as, temp, th => by
    obtain ⟨h1, h2⟩ := phiAssignsRead_eq ex as (temp + 8) (th.store temp (pnThreadGetValue ex th a.sourceValueId))
    refine ⟨h1, fun p hp => ?_⟩
    rw [List.length_cons] at hp
    rw [phiAssignsRead, h2 p (by omega)]
    exact Function.update_of_ne (by omega) _ _

/-- Phi assigns keep the entries. -/
theorem phiAssigns_inv (h : ThreadInv ex th (e :: es)) {malloc : Malloc} (hm : MallocFresh ex malloc) {fast : Bool}
    {as : List PNRuntimePhiAssign} (hlen : as.length < 2 ^ 16)
    (hr : ∀ a ∈ as, a.destValueId < ex.numValues + (ex.functions e.functionId).numValues)
    (hsafe : fast = false → MarkFound th.allocator (pnAllocatorMark th.allocator))
    (hs : pnThreadDoPhiAssigns ex malloc fast as destInst th = .ok th') :
    ThreadInv ex th' (e :: es) ∧ BufsSame th th' (bufsOf (e :: es)) ∧ SameRest th th' := by
  unfold pnThreadDoPhiAssigns at hs
  cases fast with
  | true =>
    have q := phiAssignsInPlace_quiet h hr hs
    exact ⟨h.quiet q, q.bufs, q.rest⟩
  | false =>
    rw [if_neg (by decide)] at hs
    obtain ⟨⟨temp, a⟩, hal, hs⟩ := bind_eq_ok.mp hs
    obtain ⟨th₂, hw, hs⟩ := bind_eq_ok.mp hs
    cases hs
    obtain ⟨h1, hx, hin, hd⟩ := h.alloc hm (by unfold PNRuntimeValue.sizeof; omega) hal
    obtain ⟨heq, hout⟩ := phiAssignsRead_eq ex as temp { th with allocator := a }
    have q1 := h1.writeBlock _ hin (fun b hb => hd b (h.levels.allocated b hb)) hout
    rw [← heq] at q1
    have h2 := h1.quiet q1
    have q2 := phiAssignsWrite_quiet h2 hr hw
    have h3 := h2.quiet q2
    have q := q1.trans q2
    have hal2 : th₂.allocator = a := by rw [q.eq]
    have hres : pnAllocatorResetToMark th₂.allocator (pnAllocatorMark th.allocator) = th.allocator := by
      rw [hal2]
      exact resetToMark_restores h.inv ((hsafe rfl).safe h.inv (.refl _)) h1.inv hx
    refine ⟨?_, q.bufs, ⟨q.rest.memory, q.rest.numSetjmps, q.rest.dead⟩⟩
    unfold PNThread.resetTo
    rw [hres]
    exact ⟨h.inv, h.away, h3.sentinel, h3.current, h3.chain, h.levels, h.disjoint, h3.calls, h3.running⟩

end Phi

/-- Any other instruction keeps the entries. -/
theorem other_inv (h : ThreadInv ex th (e :: es)) {inst locationInst stackTop : Nat} {values : List (Nat × Nat)}
    {memory : PNMemory} (hr : ∀ v ∈ values, v.1 < ex.numValues + (ex.functions e.functionId).numValues)
    (hs : (PNThreadOp.other inst locationInst values stackTop memory).exec ex th = .ok th') :
    ThreadInv ex th' (e :: es) ∧ BufsSame th th' (bufsOf (e :: es)) ∧ th'.numSetjmps = th.numSetjmps ∧
      th'.dead = th.dead := by
  obtain ⟨th₁, hset, hs⟩ := bind_eq_ok.mp hs
  cases hs
  have hfix := h.chain.1.fixed
  have h1 := h.modifyFrame (f := fun f => { f with
    memoryStackTop := stackTop, location := ⟨f.location.functionId, locationInst⟩ })
    ⟨hfix.functionId, hfix.mark, hfix.values, hfix.parent⟩ rfl
  have hb1 : BufsSame _ _ (bufsOf (e :: es)) := h.modifyFrame_bufs fun f => { f with
    memoryStackTop := stackTop, location := ⟨f.location.functionId, locationInst⟩ }
  have q := setValues_inRange h1 hr hset
  exact ⟨(h1.quiet q).fields rfl rfl rfl rfl, hb1.trans q.bufs, q.rest.numSetjmps, q.rest.dead⟩

/-! ## The first frame -/

theorem init_inv {malloc : Malloc} (hm : MallocFresh ex malloc) {mem : PNWords} {memory : PNMemory}
    {mark : PNAllocatorMark} (h : pnExecutorInit ex malloc mem memory mark = .ok th) :
    ∃ e, e.bufs = [] ∧ ThreadInv ex th [e] ∧ th.numSetjmps = 0 ∧ th.dead = false := by
  unfold pnExecutorInit at h
  obtain ⟨a, ha, h⟩ := bind_eq_ok.mp h
  obtain ⟨hfid, h⟩ := pnCheck_bind_eq_ok.mp h
  obtain ⟨_, h⟩ := pnCheck_bind_eq_ok.mp h
  obtain ⟨th₁, hp, h⟩ := bind_eq_ok.mp h
  obtain ⟨_, hset⟩ := pnCheck_bind_eq_ok.mp h
  have hinv := pnAllocatorInit_inv (by decide) ha
  have hnil : a.chunks = [] := by
    obtain ⟨_, ha⟩ := cAssert_bind_eq_ok.mp ha
    obtain ⟨_, ha⟩ := cAssert_bind_eq_ok.mp ha
    cases ha
    rfl
  have h0 : ThreadInv ex ⟨a, writeFrame mem ex.sentinel ⟨⟨PN_INVALID_FUNCTION_ID, 0⟩, mark, 0, 0, 0, ex.stackEnd⟩,
      ex.sentinel, 0, PN_INVALID_FUNCTION_ID, memory, 0, false⟩ [] := by
    refine ⟨hinv, ?_, if_pos rfl, rfl, trivial, trivial, .nil, fun _ he => (List.not_mem_nil he).elim,
      fun _ he => by cases he⟩
    intro c hc
    rw [hnil] at hc
    cases hc
  obtain ⟨e, hbufs, _, h1, hvl, _, hrest⟩ := push_inv h0 hm hfid (fun _ he => (List.not_mem_nil he).elim) hp
  have q := h1.setValue_last hvl hset
  exact ⟨e, hbufs, h1.quiet q, q.rest.numSetjmps.trans hrest.numSetjmps, q.rest.dead.trans hrest.dead⟩

end Pnacl
