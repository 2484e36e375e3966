import Pnacl.ThreadOps

/-!
# Frame storage stays allocated

Runs of a thread from `pn_executor_init`. The mark of a frame is taken when the frame is pushed, but its jump buffers come
later; RET and LONGJMP reset the allocator to the mark of the frame they land in and so release the buffers that the
frame still lists. In a run in which this never happens (`PNThreadOp.Safe`) all storage stays allocated
(`frame_storage_allocated`).
-/

namespace Pnacl

open Lib

variable (ex : PNExecutor)

/-- The thread operation is one that an accepted module can give: results go to values of the running function, and
`malloc` answers fresh ranges. -/
def PNThreadOp.Promised (th : PNThread) : PNThreadOp → Prop
  | .call malloc _ | .setjmp malloc => MallocFresh ex malloc ∧ ResultInRange ex th.functionId (ex.callAt th.inst)
  | .phiAssigns malloc _ assigns _ => MallocFresh ex malloc ∧ assigns.length < 2 ^ 16 ∧
      ∀ a ∈ assigns, a.destValueId < ex.numValues + (ex.functions th.functionId).numValues
  | .other _ _ values _ _ => ∀ v ∈ values, v.1 < ex.numValues + (ex.functions th.functionId).numValues
  | .ret | .retValue _ | .longjmp _ | .elsewhere _ _ => True

/-- RET lands in a frame that lists no jump buffer, and the reset to its mark stops at the right chunk. -/
def ReturnSafe (th : PNThread) : Prop :=
  (readFrame th.mem th.currentFrame).parent ≠ ex.sentinel →
    (readFrame th.mem (readFrame th.mem th.currentFrame).parent).jmpbufHead = 0 ∧
    MarkFound th.allocator (readFrame th.mem (readFrame th.mem th.currentFrame).parent).mark

/-- No reset of the step releases jump buffers that stay listed, or frees the wrong chunks. -/
def PNThreadOp.Safe (th : PNThread) : PNThreadOp → Prop
  | .ret | .retValue _ => ReturnSafe ex th
  | .longjmp fuel => LongjmpSafe ex fuel th
  | .phiAssigns _ fast _ _ => fast = false → MarkFound th.allocator (pnAllocatorMark th.allocator)
  | .call _ _ | .setjmp _ | .other _ _ _ _ _ | .elsewhere _ _ => True

/-- The states of the runs from `pn_executor_init` in which every step meets `S`. -/
inductive ThreadRun (S : PNThread → PNThreadOp → Prop) : PNThread → Prop where
  | init (malloc : Malloc) (mem : PNWords) (memory : PNMemory) (mark : PNAllocatorMark) {th : PNThread}
      (hm : MallocFresh ex malloc) (h : pnExecutorInit ex malloc mem memory mark = .ok th) : ThreadRun S th
  | step {th th' : PNThread} (op : PNThreadOp) (h : ThreadRun S th) (alive : th.dead = false)
      (hp : op.Promised ex th) (hs : S th op) (he : op.exec ex th = .ok th') : ThreadRun S th'

/-- The states of the runs whose steps are all safe. -/
def SafeRun : PNThread → Prop := ThreadRun ex fun th op => op.Safe ex th

/-- The operations that go back to an older frame, or jump in the current one. -/
def PNThreadOp.Lands : PNThreadOp → Prop
  | .ret | .retValue _ | .longjmp _ => True
  | .call _ _ | .setjmp _ | .phiAssigns _ _ _ _ | .other _ _ _ _ _ | .elsewhere _ _ => False

/-- How a step changes the entries. -/
inductive StorageStep (op : PNThreadOp) (th th' : PNThread) : List Entry → List Entry → Prop where
  | same {es : List Entry} (hn : th.numSetjmps ≤ th'.numSetjmps) (hb : BufsSame th th' (bufsOf es)) :
      StorageStep op th th' es es
  | push {e : Entry} {es : List Entry} (hn : th.numSetjmps ≤ th'.numSetjmps) (hb : BufsSame th th' (bufsOf es))
      (he : e.bufs = []) : StorageStep op th th' es (e :: es)
  | pop {e : Entry} {es : List Entry} (hn : th.numSetjmps ≤ th'.numSetjmps) (hb : BufsSame th th' (bufsOf es))
      (hop : op.Lands) : StorageStep op th th' (e :: es) es
  | buf {e : Entry} {es : List Entry} {buf : Nat} (hn : th'.numSetjmps = th.numSetjmps + 1)
      (hb : BufsSame th th' (bufsOf (e :: es))) (hnew : readJmpBuf th'.mem buf = th.newJmpBuf) :
      StorageStep op th th' (e :: es) ({ e with bufs := buf :: e.bufs } :: es)
  | jump {pre : List Entry} {e : Entry} {post : List Entry} (hn : th.numSetjmps ≤ th'.numSetjmps)
      (hb : BufsSame th th' (bufsOf post)) (hop : op.Lands) :
      StorageStep op th th' (pre ++ e :: post) ({ e with bufs := [] } :: post)

variable {ex} {th th' : PNThread} {e : Entry} {es : List Entry}

theorem ReturnSafe.landing (hs : ReturnSafe ex th) (h : ThreadInv ex th (e :: es)) : LandingSafe th es := by
  intro e' he'
  unfold ReturnSafe at hs
  rw [h.parent_eq] at hs
  cases es with
  | nil => cases he'
  | cons e₁ es =>
    cases he'
    exact hs h.chain.2.1.addr_ne

/-- Every safe step keeps the invariant. -/
theorem ThreadInv.step (h : ThreadInv ex th (e :: es)) {op : PNThreadOp}
    (hp : op.Promised ex th) (hs : op.Safe ex th) (he : op.exec ex th = .ok th') :
    ∃ es', ThreadInv ex th' es' ∧ StorageStep op th th' (e :: es) es' ∧ (th'.dead = false → es' ≠ []) := by
  have hrun : th.functionId = e.functionId := h.running e rfl
  cases op with
  | call malloc functionId =>
    obtain ⟨hm, hr⟩ := hp
    obtain ⟨e', hbufs, hi, hb, hrest⟩ := call_inv h hm (hrun ▸ hr) he
    exact ⟨_, hi, .push (Nat.le_of_eq hrest.numSetjmps.symm) hb hbufs, fun _ => List.cons_ne_nil _ _⟩
  | ret =>
    obtain ⟨hi, hb, hn, _, hdead⟩ := ret_inv h (ReturnSafe.landing hs h) he
    refine ⟨es, hi, .pop (Nat.le_of_eq hn.symm) hb trivial, fun hd hnil => ?_⟩
    rw [hdead hnil] at hd
    cases hd
  | retValue valueId =>
    obtain ⟨hi, hb, hn, _, hdead⟩ := retValue_inv h (ReturnSafe.landing hs h) he
    refine ⟨es, hi, .pop (Nat.le_of_eq hn.symm) hb trivial, fun hd hnil => ?_⟩
    rw [hdead hnil] at hd
    cases hd
  | setjmp malloc =>
    obtain ⟨hm, hr⟩ := hp
    obtain ⟨buf, hi, hb, hnew, hn, _⟩ := setjmp_inv h hm (hrun ▸ hr) he
    exact ⟨_, hi, .buf hn hb hnew, fun _ => List.cons_ne_nil _ _⟩
  | longjmp fuel =>
    obtain ⟨pre, e', post, id, buf, heq, _, _, hi, hb, hn, _⟩ := longjmp_inv h hs he
    rw [heq]
    exact ⟨_, hi, .jump (Nat.le_of_eq hn.symm) hb trivial, fun _ => List.cons_ne_nil _ _⟩
  | phiAssigns malloc fast assigns destInst =>
    obtain ⟨hm, hlen, hr⟩ := hp
    obtain ⟨th₁, hd, he⟩ := bind_eq_ok.mp he
    cases he
    obtain ⟨hi, hb, hrest⟩ := phiAssigns_inv h hm hlen (hrun ▸ hr) hs hd
    exact ⟨_, hi.fields rfl rfl rfl rfl, .same (Nat.le_of_eq hrest.numSetjmps.symm) hb, fun _ => List.cons_ne_nil _ _⟩
  | other inst locationInst values stackTop memory =>
    obtain ⟨hi, hb, hn, _⟩ := other_inv h (hrun ▸ hp) he
    exact ⟨_, hi, .same (Nat.le_of_eq hn.symm) hb, fun _ => List.cons_ne_nil _ _⟩
  | elsewhere setjmps memory =>
    cases he
    exact ⟨_, h.fields rfl rfl rfl rfl, .same (Nat.le_add_right _ _) fun _ _ => rfl, fun _ => List.cons_ne_nil _ _⟩

/-- The invariant holds in every state of a safe run. -/
theorem SafeRun.inv (h : SafeRun ex th) : ∃ es, ThreadInv ex th es ∧ (th.dead = false → es ≠ []) := by
  induction h with
  | init malloc mem memory mark hm h =>
    obtain ⟨e, _, hi, _⟩ := init_inv hm h
    exact ⟨[e], hi, fun _ => List.cons_ne_nil _ _⟩
  | step op _ alive hp hs he ih =>
    obtain ⟨es, hi, hne⟩ := ih
    cases es with
    | nil => exact absurd rfl (hne alive)
    | cons e es =>
      obtain ⟨es', hi', _, hne'⟩ := hi.step hp hs he
      exact ⟨es', hi', hne'⟩

/-! ## The property -/

/-- The parent chain from `f` up to the sentinel. -/
inductive FrameChain (ex : PNExecutor) (mem : PNWords) : Nat → List Nat → Prop where
  | nil : FrameChain ex mem ex.sentinel []
  | cons {f : Nat} {fs : List Nat} (h : f ≠ ex.sentinel) (ht : FrameChain ex mem (readFrame mem f).parent fs) :
      FrameChain ex mem f (f :: fs)

/-- The blocks of the frame at `f` with the jump buffers `bufs`. -/
def frameBlocks (ex : PNExecutor) (mem : PNWords) (f : Nat) (bufs : List Nat) : List PNBlock :=
  bufs.map (fun b => ⟨b, PNJmpBuf.sizeof⟩) ++
    [⟨f, PNCallFrame.sizeof⟩, ⟨(readFrame mem f).functionValues,
      PNRuntimeValue.sizeof * (ex.functions (readFrame mem f).location.functionId).numValues⟩]

/-- All frames up to the sentinel, their values and their jump buffers are allocated and disjoint, and no further
allocation overlaps them. -/
def StorageAllocated (ex : PNExecutor) (th : PNThread) : Prop :=
  ∃ fs : List (Nat × List Nat), FrameChain ex th.mem th.currentFrame (fs.map Prod.fst) ∧
    (∀ x ∈ fs, BufChain th.mem (readFrame th.mem x.1).jmpbufHead x.2) ∧
    (∀ b ∈ fs.flatMap fun x => frameBlocks ex th.mem x.1 x.2, b.AllocatedIn th.allocator) ∧
    (fs.flatMap fun x => frameBlocks ex th.mem x.1 x.2).Pairwise PNBlock.Disjoint ∧
    ∀ malloc size align ret a, MallocOk malloc th.allocator.chunks → IsAlign align → size < 2 ^ 64 →
      pnAllocatorAlloc malloc th.allocator size align = .ok (ret, a) →
      ∀ b ∈ fs.flatMap fun x => frameBlocks ex th.mem x.1 x.2, PNBlock.Disjoint ⟨ret, size⟩ b

theorem Chain.frameChain {mem : PNWords} : ∀ {es : List Entry}, Chain ex mem es →
    FrameChain ex mem (top ex es) (es.map Entry.addr)
  | [], _ => .nil
  | e :: es, h => by
    have hp : (readFrame mem e.addr).parent = top ex es := h.1.fixed.parent
    exact .cons h.1.addr_ne (hp ▸ Chain.frameChain h.2)

theorem Chain.entryOk {mem : PNWords} : ∀ {es : List Entry}, Chain ex mem es → ∀ e ∈ es, ∃ p, EntryOk ex mem p e
  | [], _, e, he => by cases he
  | e₀ :: es, h, e, he => by
    rcases List.mem_cons.mp he with rfl | he
    · exact ⟨_, h.1⟩
    · exact Chain.entryOk h.2 e he

/-- The blocks of the entries are the blocks that the property is about. -/
theorem ThreadInv.blocks_eq (h : ThreadInv ex th es) :
    (es.map fun e => (e.addr, e.bufs)).flatMap (fun x => frameBlocks ex th.mem x.1 x.2) = allBlocks ex es := by
  rw [List.flatMap_map, allBlocks, List.flatMap, List.flatMap]
  refine congrArg List.flatten (List.map_congr_left fun e he => ?_)
  obtain ⟨p, hok⟩ := h.chain.entryOk e he
  rw [frameBlocks, hok.fixed.values, hok.fixed.functionId]
  rfl

/-- **Frame storage stays allocated** in every state of a run all of whose steps are safe. -/
theorem frame_storage_allocated (ex : PNExecutor) (th : PNThread) (h : SafeRun ex th) : StorageAllocated ex th := by
  obtain ⟨es, hi, _⟩ := h.inv
  refine ⟨es.map fun e => (e.addr, e.bufs), ?_, ?_, ?_, ?_, ?_⟩
  · rw [hi.current, List.map_map]
    exact hi.chain.frameChain
  · intro x hx
    obtain ⟨e, he, rfl⟩ := List.mem_map.mp hx
    obtain ⟨p, hok⟩ := hi.chain.entryOk e he
    exact hok.bufs
  · rw [hi.blocks_eq]
    exact hi.levels.allocated
  · rw [hi.blocks_eq]
    exact hi.disjoint
  · rw [hi.blocks_eq]
    intro malloc size align ret a hm ha hz hal b hb
    obtain ⟨_, _, _, _, hd⟩ := alloc_block hi.inv hm ha hz hal
    exact hd b (hi.levels.allocated b hb)

/-! ## A small program

The start function calls SETJMP and then, at the next instruction, either the other function or LONGJMP. -/

def demoCalls (inst : Nat) : PNRuntimeInstructionCall :=
  if inst = 4096 then ⟨1, [0]⟩ else ⟨PN_INVALID_VALUE_ID, [0, 0]⟩

def demoFunctions (functionId : Nat) : PNRuntimeFunction :=
  if functionId = 0 then ⟨1, 3, [], 4096⟩ else ⟨2, 2, [], 8192⟩

def demoExecutor : PNExecutor where
  numValues := 0
  moduleValues _ := 0
  numFunctions := 2
  functions := demoFunctions
  callAt := demoCalls
  sentinel := 64
  stackEnd := 65536
  startFunctionId := 0
  startinfoStart := 2048
  numFunctions_lt := by decide
  numValues_lt functionId := by unfold demoFunctions; split <;> decide

/-- One chunk at `131072`. -/
def demoMalloc : Malloc := fun chunks size => if chunks = [] ∧ size = 65536 then 131072 else 0

theorem demoMalloc_ok (chunks : List PNAllocatorChunk) : MallocOk (demoMalloc chunks) chunks := by
  unfold demoMalloc
  by_cases hc : chunks = []
  · refine ⟨fun size => ?_, fun size h => ?_, fun size h d hd => ?_⟩
    · split <;> rfl
    · split at h
      next hs => rw [if_pos hs, hs.2]; decide
      next => exact absurd rfl h
    · rw [hc] at hd
      cases hd
  · simp only [hc, false_and, if_false]
    exact malloc_none_ok chunks

theorem demoMalloc_eq {chunks : List PNAllocatorChunk} {size : Nat} (h : demoMalloc chunks size ≠ 0) :
    demoMalloc chunks size = 131072 := by
  unfold demoMalloc at h ⊢
  split at h
  next hc => rw [if_pos hc]
  next => exact absurd rfl h

theorem demoMalloc_fresh_of {ex : PNExecutor} (hs : ex.sentinel = 64) : MallocFresh ex demoMalloc where
  ok := demoMalloc_ok
  away chunks size h := by
    rw [demoMalloc_eq h, hs]
    exact .inr (by decide)

theorem demoMalloc_fresh : MallocFresh demoExecutor demoMalloc := demoMalloc_fresh_of rfl

/-- Guest memory of 64 KiB. -/
def demoMemory : PNMemory := ⟨fun _ => 0, 65536⟩

/-- After SETJMP and a call, two frames and a jump buffer are allocated. -/
theorem frame_storage_allocated_setjmp_call :
    ∃ th, th.currentFrame = 131296 ∧ (readFrame th.mem 131296).parent = 131096 ∧
      (readFrame th.mem 131096).jmpbufHead = 131200 ∧ StorageAllocated demoExecutor th :=
  ⟨_, rfl, rfl, rfl, frame_storage_allocated demoExecutor _
    (.step (.call demoMalloc 1)
      (.step (.setjmp demoMalloc) (.init demoMalloc (fun _ => 0) demoMemory ⟨0, 0, 0, 0⟩ demoMalloc_fresh rfl)
        rfl ⟨demoMalloc_fresh, .inr (by decide)⟩ trivial rfl)
      rfl ⟨demoMalloc_fresh, .inl rfl⟩ trivial rfl)⟩

/-- A current frame whose jump buffer is not allocated. -/
theorem not_storageAllocated {f buf : Nat} (hf : th.currentFrame = f) (hs : f ≠ ex.sentinel)
    (hb : (readFrame th.mem f).jmpbufHead = buf) (h0 : buf ≠ 0)
    (hn : ¬PNBlock.AllocatedIn ⟨buf, PNJmpBuf.sizeof⟩ th.allocator) : ¬StorageAllocated ex th := by
  rintro ⟨fs, hchain, hbufs, hal, _⟩
  rw [hf] at hchain
  cases fs with
  | nil =>
    cases hchain
    exact hs rfl
  | cons x fs =>
    obtain ⟨f', bufs⟩ := x
    cases hchain with
    | cons _ _ =>
      have hc := hbufs (f', bufs) (List.mem_cons_self ..)
      simp only [hb] at hc
      cases hc with
      | nil => exact h0 rfl
      | cons _ _ =>
        refine hn (hal _ ?_)
        rw [List.flatMap_cons]
        exact List.mem_append_left _ (List.mem_append_left _ (List.mem_cons_self ..))

/-- SETJMP, a call, and its return: the reset to the mark of the frame released the jump buffer that it still lists. -/
theorem setjmp_call_ret_releases :
    ∃ th, ThreadRun demoExecutor (fun _ _ => True) th ∧ (readFrame th.mem th.currentFrame).jmpbufHead = 131200 ∧
      th.allocator.chunks = [⟨131072, 131200, 196608⟩] ∧ ¬StorageAllocated demoExecutor th := by
  obtain ⟨th, hrun, hcur, hbuf, hch⟩ : ∃ th, ThreadRun demoExecutor (fun _ _ => True) th ∧ th.currentFrame = 131096 ∧
      (readFrame th.mem 131096).jmpbufHead = 131200 ∧ th.allocator.chunks = [⟨131072, 131200, 196608⟩] :=
    ⟨_, .step .ret
      (.step (.call demoMalloc 1)
        (.step (.setjmp demoMalloc) (.init demoMalloc (fun _ => 0) demoMemory ⟨0, 0, 0, 0⟩ demoMalloc_fresh rfl)
          rfl ⟨demoMalloc_fresh, .inr (by decide)⟩ trivial rfl)
        rfl ⟨demoMalloc_fresh, .inl rfl⟩ trivial rfl)
      rfl trivial trivial rfl, rfl, rfl, rfl⟩
  refine ⟨th, hrun, hcur ▸ hbuf, hch, not_storageAllocated hcur (by decide) hbuf (by decide) ?_⟩
  rintro ⟨c, hc, _, hhi⟩
  rw [hch] at hc
  rw [List.mem_singleton.mp hc] at hhi
  exact absurd hhi (by decide)

end Pnacl
