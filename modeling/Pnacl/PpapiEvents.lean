import Pnacl.PpapiRing

/-!
# Events

Every event that was ever allocated is in the queue, is being handled or is free, and in one of these places only.

- `EventsInv`: the ring of the queue, the list of free events and what the code has in hand (`held`), with one lemma for each of
  the four operations;
- `Handling`: what holds between two operations while an event is handled;
- `LoopInv.step`: every step of a run keeps `LoopInv`, and `ppapi_events_conserved` reads the result off it.
-/

namespace Pnacl

open Lib

variable {env : PNPpapiEnv} {p p' : PNPpapi} {e y : Nat} {queue held free : List Nat} {malloc : Malloc}

/-- The events that were put into the queue, those that were taken out, and the handlers of DID_CREATE events that were called. -/
def PNEventLog.enqueued : PNEventLog → Option Nat
  | .enqueue e => some e
  | _ => none

def PNEventLog.dequeued : PNEventLog → Option Nat
  | .dequeue e => some e
  | _ => none

def PNEventLog.started : PNEventLog → Option (Nat × Nat × Nat)
  | .start e i v => some (e, i, v)
  | _ => none

/-! ## The operations -/

@[simp] theorem PNPpapi.setNext_next (p : PNPpapi) (e q y : Nat) :
    ((p.setNext e q).events y).next = if y = e then q else (p.events y).next := by
  simp only [PNPpapi.setNext, PNPpapi.setEvent, Function.update_apply]
  split
  · rfl
  · rfl

@[simp] theorem PNPpapi.setNext_prev (p : PNPpapi) (e q y : Nat) : ((p.setNext e q).events y).prev = (p.events y).prev := by
  simp only [PNPpapi.setNext, PNPpapi.setEvent, Function.update_apply]
  split
  next h => rw [h]
  · rfl

@[simp] theorem PNPpapi.setNext_type (p : PNPpapi) (e q y : Nat) : ((p.setNext e q).events y).type = (p.events y).type := by
  simp only [PNPpapi.setNext, PNPpapi.setEvent, Function.update_apply]
  split
  next h => rw [h]
  · rfl

@[simp] theorem PNPpapi.setPrev_prev (p : PNPpapi) (e q y : Nat) :
    ((p.setPrev e q).events y).prev = if y = e then q else (p.events y).prev := by
  simp only [PNPpapi.setPrev, PNPpapi.setEvent, Function.update_apply]
  split
  · rfl
  · rfl

@[simp] theorem PNPpapi.setPrev_next (p : PNPpapi) (e q y : Nat) : ((p.setPrev e q).events y).next = (p.events y).next := by
  simp only [PNPpapi.setPrev, PNPpapi.setEvent, Function.update_apply]
  split
  next h => rw [h]
  · rfl

@[simp] theorem PNPpapi.setPrev_type (p : PNPpapi) (e q y : Nat) : ((p.setPrev e q).events y).type = (p.events y).type := by
  simp only [PNPpapi.setPrev, PNPpapi.setEvent, Function.update_apply]
  split
  next h => rw [h]
  · rfl

@[simp] theorem PNPpapi.record_events (p : PNPpapi) (l : PNEventLog) : (p.record l).events = p.events := rfl

/-- The events in the queue, those in hand and the free ones. -/
structure EventsInv (env : PNPpapiEnv) (p : PNPpapi) (queue held free : List Nat) : Prop where
  ring : Ring (fun e => (p.events e).next) (fun e => (p.events e).prev) ↑(env.sentinelEvent :: queue)
  list : Nexts (fun e => (p.events e).next) 0 p.freeEvents free
  nodup : (queue ++ (held ++ free)).Nodup
  mem : ∀ e, e ∈ p.allocated ↔ e ∈ queue ++ (held ++ free)
  fifo : p.log.filterMap PNEventLog.enqueued = p.log.filterMap PNEventLog.dequeued ++ queue
  allocator : p.allocator.Inv
  apart : ChunksApart env.sentinelEvent PNEventRecord.sizeof p.allocator
  blocks : ∀ e ∈ p.allocated, PNBlock.AllocatedIn ⟨e, PNEventRecord.sizeof⟩ p.allocator

/-- A block of the allocator is neither NULL nor `sentinel_event`. -/
theorem EventsInv.ne (h : EventsInv env p queue held free) (he : e ∈ queue ++ (held ++ free)) :
    e ≠ 0 ∧ e ≠ env.sentinelEvent := by
  obtain ⟨c, hc, hlo, hhi⟩ := h.blocks e ((h.mem e).mpr he)
  have hcur := (h.allocator.wf c hc).current_le
  have hap := h.apart c hc
  simp only [PNEventRecord.sizeof, PNAllocatorChunk.sizeof] at hlo hhi hap
  omega

theorem EventsInv.held_ne (h : EventsInv env p queue (e :: held) free) : e ≠ 0 ∧ e ≠ env.sentinelEvent := h.ne (by simp)

theorem EventsInv.queue_ne (h : EventsInv env p (e :: queue) held free) : e ≠ 0 ∧ e ≠ env.sentinelEvent := h.ne (by simp)

/-- An event in hand is in no list. -/
theorem EventsInv.held_not_mem (h : EventsInv env p queue (e :: held) free) : e ∉ queue ∧ e ∉ held ∧ e ∉ free := by
  have := h.nodup
  rw [List.nodup_append, List.cons_append, List.nodup_cons] at this
  obtain ⟨-, ⟨hnot, -⟩, hdis⟩ := this
  rw [List.mem_append, not_or] at hnot
  exact ⟨fun hq => hdis e hq e (by simp) rfl, hnot.1, hnot.2⟩

/-- `pn_event_allocate` takes a free event or a new one. -/
theorem EventsInv.allocate (h : EventsInv env p queue held free) (hm : MallocApart env.sentinelEvent PNEventRecord.sizeof malloc)
    (ha : pnEventAllocate malloc p = .ok (e, p')) :
    ∃ free', EventsInv env p' queue (e :: held) free' ∧ p'.events = p.events ∧ p'.log = p.log ∧
      p'.currentEvent = p.currentEvent := by
  unfold pnEventAllocate at ha
  split at ha
  next h0 =>
    cases ha
    cases free with
    | nil => exact absurd h.list h0
    | cons d free =>
      obtain ⟨hd, hlist⟩ := h.list
      have hperm : (queue ++ (d :: held ++ free)).Perm (queue ++ (held ++ d :: free)) :=
        (List.perm_middle : (held ++ d :: free).Perm (d :: (held ++ free))).symm.append_left queue
      rw [hd]
      refine ⟨free, ⟨h.ring, hlist, hperm.nodup_iff.mpr h.nodup, fun y => ?_, h.fifo, h.allocator, h.apart, h.blocks⟩,
        rfl, rfl, rfl⟩
      rw [hperm.mem_iff]
      exact h.mem y
  next h0 =>
    obtain ⟨⟨d, a⟩, hal, ha⟩ := bind_eq_ok.mp ha
    cases ha
    obtain ⟨hi, hx, hin, -, hdis⟩ := alloc_block h.allocator (hm.ok _) isAlign_eight (by decide) hal
    have hnew : e ∉ p.allocated := by
      intro hmem
      have := hdis _ (h.blocks e hmem)
      simp only [PNBlock.Disjoint, PNEventRecord.sizeof] at this
      omega
    have hperm : (queue ++ (e :: held ++ free)).Perm (e :: (queue ++ (held ++ free))) := List.perm_middle
    refine ⟨free, ⟨h.ring, h.list, ?_, fun y => ?_, h.fifo, hi, alloc_apart hm h.apart hal, fun y hy => ?_⟩, rfl, rfl, rfl⟩
    · rw [hperm.nodup_iff, List.nodup_cons, ← h.mem]
      exact ⟨hnew, h.nodup⟩
    · rw [hperm.mem_iff, List.mem_cons, List.mem_cons, h.mem]
    · rcases List.mem_cons.mp hy with rfl | hy
      · exact hin
      · exact (h.blocks y hy).mono hx

/-- Fields of an event in hand other than its links may change. -/
theorem EventsInv.setEvent (h : EventsInv env p queue (e :: held) free) {f : PNEventRecord → PNEventRecord}
    (hn : ∀ r, (f r).next = r.next) (hp : ∀ r, (f r).prev = r.prev) : EventsInv env (p.setEvent e f) queue (e :: held) free := by
  have hnext (y : Nat) : ((p.setEvent e f).events y).next = (p.events y).next := by
    simp only [PNPpapi.setEvent, Function.update_apply]
    split
    next h => rw [hn, h]
    · rfl
  have hprev (y : Nat) : ((p.setEvent e f).events y).prev = (p.events y).prev := by
    simp only [PNPpapi.setEvent, Function.update_apply]
    split
    next h => rw [hp, h]
    · rfl
  exact ⟨h.ring.congr (fun y _ => hnext y) (fun y _ => hprev y), h.list.congr fun y _ => hnext y, h.nodup, h.mem, h.fifo,
    h.allocator, h.apart, h.blocks⟩

theorem pnEventEnqueue_events (p : PNPpapi) (h : e ≠ env.sentinelEvent) (y : Nat) :
    ((pnEventEnqueue env p e).events y).next = (if y = (p.events env.sentinelEvent).prev then e
      else if y = e then env.sentinelEvent else (p.events y).next) ∧
    ((pnEventEnqueue env p e).events y).prev = (if y = env.sentinelEvent then e
      else if y = e then (p.events env.sentinelEvent).prev else (p.events y).prev) ∧
    ((pnEventEnqueue env p e).events y).type = (p.events y).type := by
  simp [pnEventEnqueue, h.symm]

/-- `pn_event_enqueue` puts an event in hand at the end of the queue. -/
theorem EventsInv.enqueue (h : EventsInv env p queue (e :: held) free) :
    EventsInv env (pnEventEnqueue env p e) (queue ++ [e]) held free := by
  obtain ⟨-, hes⟩ := h.held_ne
  obtain ⟨hq, -, hf⟩ := h.held_not_mem
  have hev := fun y => pnEventEnqueue_events p hes y
  have hmem : e ∉ env.sentinelEvent :: queue := by
    simp only [List.mem_cons, not_or]
    exact ⟨hes, hq⟩
  have hprev : (p.events env.sentinelEvent).prev ∈ env.sentinelEvent :: queue :=
    h.ring.prev_mem (Cycle.mem_coe_iff.mpr (List.mem_cons_self ..))
  have hez : e ≠ (p.events env.sentinelEvent).prev := fun he => hmem (he ▸ hprev)
  refine ⟨h.ring.pushBack hmem ?_ ?_ ?_ ?_ ?_ ?_, ?_, ?_, fun y => ?_, ?_, h.allocator, h.apart, h.blocks⟩
  · rw [(hev _).1, if_pos rfl]
  · rw [(hev _).1, if_neg hez, if_pos rfl]
  · intro y hyz hye
    rw [(hev _).1, if_neg hyz, if_neg hye]
  · rw [(hev _).2.1, if_neg hes, if_pos rfl]
  · rw [(hev _).2.1, if_pos rfl]
  · intro y hye hys
    rw [(hev _).2.1, if_neg hys, if_neg hye]
  · -- the free events are not on the ring
    refine h.list.congr fun y hy => ?_
    have hyz : y ≠ (p.events env.sentinelEvent).prev := by
      intro he
      rcases List.mem_cons.mp (he ▸ hprev) with hs | hmq
      · exact (h.ne (by simp [hy])).2 hs
      · exact (List.nodup_append.mp h.nodup).2.2 y hmq y (by simp [hy]) rfl
    have hye : y ≠ e := fun he => hf (he ▸ hy)
    rw [(hev _).1, if_neg hyz, if_neg hye]
  · have := h.nodup
    rwa [List.cons_append, List.append_cons] at this
  · have := h.mem y
    rwa [List.cons_append, List.append_cons] at this
  · have := h.fifo
    simp only [pnEventEnqueue, PNPpapi.record, List.filterMap_append]
    change List.filterMap _ p.log ++ [e] = (List.filterMap _ p.log ++ []) ++ (queue ++ [e])
    rw [this, List.append_nil, List.append_assoc]

theorem pnEventDequeue_events (p : PNPpapi) (h : (p.events env.sentinelEvent).next = e) (hes : e ≠ env.sentinelEvent)
    (hpe : (p.events e).prev ≠ e) (y : Nat) :
    (pnEventDequeue env p).1 = e ∧
    ((pnEventDequeue env p).2.events y).next = (if y = e then 0
      else if y = (p.events e).prev then (p.events e).next else (p.events y).next) ∧
    ((pnEventDequeue env p).2.events y).prev = (if y = e then 0
      else if y = (p.events e).next then (p.events e).prev else (p.events y).prev) ∧
    ((pnEventDequeue env p).2.events y).type = (p.events y).type := by
  unfold pnEventDequeue
  simp only [h, if_neg hes]
  simp [hpe.symm]

theorem pnEventDequeue_fields (h : (p.events env.sentinelEvent).next = e) (hes : e ≠ env.sentinelEvent) :
    (pnEventDequeue env p).2.allocator = p.allocator ∧ (pnEventDequeue env p).2.allocated = p.allocated ∧
      (pnEventDequeue env p).2.freeEvents = p.freeEvents ∧ (pnEventDequeue env p).2.log = p.log ++ [.dequeue e] ∧
      (pnEventDequeue env p).2.currentEvent = p.currentEvent := by
  unfold pnEventDequeue
  simp only [h, if_neg hes]
  exact ⟨rfl, rfl, rfl, rfl, rfl⟩

/-- `pn_event_dequeue` of an empty queue. -/
theorem EventsInv.dequeue_nil (h : EventsInv env p [] held free) : pnEventDequeue env p = (0, p) := by
  obtain ⟨-, hc⟩ := ring_cons_iff.mp h.ring
  exact if_pos (List.isChain_cons_cons.mp hc).1.1

/-- `pn_event_dequeue` takes the event that has waited longest. -/
theorem EventsInv.dequeue (h : EventsInv env p (e :: queue) held free) :
    (pnEventDequeue env p).1 = e ∧ EventsInv env (pnEventDequeue env p).2 queue (e :: held) free ∧
      ∀ y, ((pnEventDequeue env p).2.events y).type = (p.events y).type := by
  obtain ⟨hnd, hc⟩ := ring_cons_iff.mp h.ring
  obtain ⟨⟨hn, hp⟩, -⟩ := List.isChain_cons_cons.mp hc
  obtain ⟨-, hes⟩ := h.queue_ne
  have hpe : (p.events e).prev ≠ e := hp ▸ hes.symm
  have hev := fun y => pnEventDequeue_events p hn hes hpe y
  rw [hp] at hev
  have hfree : ∀ y ∈ free, y ≠ e ∧ y ≠ env.sentinelEvent := by
    intro y hy
    refine ⟨?_, (h.ne (by simp [hy])).2⟩
    rintro rfl
    exact (List.nodup_append.mp h.nodup).2.2 y (by simp) y (by simp [hy]) rfl
  have hnext : (p.events e).next ≠ e :=
    h.ring.next_ne (n := env.sentinelEvent) (by simp [Cycle.mem_coe_iff]) (by simp [Cycle.mem_coe_iff]) hes.symm
  obtain ⟨hal, hall, hfr, hlog, -⟩ := pnEventDequeue_fields hn hes
  have hperm : (queue ++ (e :: held ++ free)).Perm (e :: queue ++ (held ++ free)) := List.perm_middle
  refine ⟨(hev 0).1, ⟨h.ring.popFront ?_ ?_ ?_ ?_, ?_, ?_, fun y => ?_, ?_, ?_, ?_, ?_⟩, fun y => (hev y).2.2.2⟩
  · rw [(hev _).2.1, if_neg hes.symm, if_pos rfl]
  · intro y hye hys
    rw [(hev _).2.1, if_neg hye, if_neg hys]
  · rw [(hev _).2.2.1, if_neg hnext, if_pos rfl]
  · intro y hye hyn
    rw [(hev _).2.2.1, if_neg hye, if_neg hyn]
  · rw [hfr]
    refine h.list.congr fun y hy => ?_
    rw [(hev _).2.1, if_neg (hfree y hy).1, if_neg (hfree y hy).2]
  · exact hperm.nodup_iff.mpr h.nodup
  · rw [hperm.mem_iff, hall]
    exact h.mem y
  · rw [hlog, List.filterMap_append, List.filterMap_append]
    change List.filterMap _ p.log ++ [] = (List.filterMap _ p.log ++ [e]) ++ queue
    rw [List.append_nil, h.fifo, List.append_assoc]
    rfl
  · exact hal ▸ h.allocator
  · exact hal ▸ h.apart
  · rw [hall, hal]
    exact h.blocks

/-- `pn_event_free` puts an event in hand in front of the free ones. -/
theorem EventsInv.release (h : EventsInv env p queue (e :: held) free) : EventsInv env (pnEventFree p e) queue held (e :: free) := by
  obtain ⟨-, hes⟩ := h.held_ne
  obtain ⟨hq, -, hf⟩ := h.held_not_mem
  have hperm : (queue ++ (e :: held ++ free)).Perm (queue ++ (held ++ e :: free)) :=
    (List.perm_middle : (held ++ e :: free).Perm (e :: (held ++ free))).symm.append_left queue
  refine ⟨h.ring.congr (fun y hy => ?_) (fun y _ => ?_), ⟨rfl, ?_⟩, hperm.nodup_iff.mp h.nodup, fun y => ?_, h.fifo, h.allocator,
    h.apart, h.blocks⟩
  · have hye : y ≠ e := by
      rintro rfl
      rcases List.mem_cons.mp (Cycle.mem_coe_iff.mp hy) with hs | hy
      · exact hes hs
      · exact hq hy
    simp [pnEventFree, hye]
  · simp [pnEventFree]
  · have hnext : ((pnEventFree p e).events e).next = p.freeEvents := by simp [pnEventFree]
    change Nexts _ 0 ((pnEventFree p e).events e).next free
    rw [hnext]
    refine h.list.congr fun y hy => ?_
    have hye : y ≠ e := fun he => hf (he ▸ hy)
    simp [pnEventFree, hye]
  · rw [← hperm.mem_iff]
    exact h.mem y

/-! ## Handling an event -/

variable {x x' : PNPpapiExecutor} {t func interface : Nat} {args : List PNRuntimeValue} {n k : Nat}

/-- The handlers of DID_CREATE events that were called. -/
def PNPpapi.starts (p : PNPpapi) : List (Nat × Nat × Nat) := p.log.filterMap PNEventLog.started

/-- How many DID_CREATE events are in the list. -/
def PNPpapi.didCreates (p : PNPpapi) (queue : List Nat) : Nat := queue.countP fun e => (p.events e).type = .didCreate

/-- What holds between two operations on the events: there are no other events than GET_INTERFACE and DID_CREATE in the queue, the
calls of handlers and the DID_CREATE events of the queue are at most `n`, an interface that has a value got it from a completed
GET_INTERFACE event, and a handler was called through one that had. -/
structure Handling (env : PNPpapiEnv) (x : PNPpapiExecutor) (queue held free : List Nat) (n : Nat) : Prop where
  events : EventsInv env x.ppapi queue held free
  types : ∀ e ∈ queue, (x.ppapi.events e).type = .getInterface ∨ (x.ppapi.events e).type = .didCreate
  created : x.ppapi.starts.length + x.ppapi.didCreates queue ≤ n
  resolved : ∀ i, x.pppInterfaces i ≠ PN_INVALID_INTERFACE_TABLE → .complete i (x.pppInterfaces i) ∈ x.ppapi.log
  startsAfter : ∀ before e i v rest, x.ppapi.log = before ++ .start e i v :: rest →
    .complete i v ∈ before ∧ v ≠ 0 ∧ v ≠ PN_INVALID_INTERFACE_TABLE

/-- What concerns the events stays as it is. -/
structure SameEvents (x x' : PNPpapiExecutor) : Prop where
  ppapi : x'.ppapi = x.ppapi
  pppInterfaces : x'.pppInterfaces = x.pppInterfaces
  mainThread : x'.mainThread = x.mainThread

theorem SameEvents.refl (x : PNPpapiExecutor) : SameEvents x x := ⟨rfl, rfl, rfl⟩

theorem SameEvents.trans {x'' : PNPpapiExecutor} (h : SameEvents x x') (h' : SameEvents x' x'') : SameEvents x x'' :=
  ⟨h'.ppapi.trans h.ppapi, h'.pppInterfaces.trans h.pppInterfaces, h'.mainThread.trans h.mainThread⟩

theorem update_sameEvents (x : PNPpapiExecutor) (t : Nat) (f : PNPpapiThread → PNPpapiThread) : SameEvents x (x.update t f) :=
  ⟨rfl, rfl, rfl⟩

theorem Handling.congr (h : Handling env x queue held free n) (hs : SameEvents x x') : Handling env x' queue held free n := by
  obtain ⟨hp, hi, -⟩ := hs
  exact ⟨hp ▸ h.events, hp ▸ h.types, hp ▸ h.created, hp ▸ hi ▸ h.resolved, hp ▸ h.startsAfter⟩

theorem pushFunction_sameEvents {functionId : Nat} (h : pnPpapiPushFunction env x t functionId = .ok x') : SameEvents x x' := by
  unfold pnPpapiPushFunction at h
  simp only at h
  split at h
  · cases h
  · cases h
    exact update_sameEvents ..

theorem pushFunctionPointer_sameEvents {function : PNRuntimeFunction}
    (h : pnThreadPushFunctionPointer env x t func = .ok (function, x')) : SameEvents x x' := by
  obtain ⟨-, h⟩ := pnCheck_bind_eq_ok.mp h
  obtain ⟨x₁, hp, h⟩ := bind_eq_ok.mp h
  cases h
  exact pushFunction_sameEvents hp

/-- The log of an enqueue. -/
theorem pnEventEnqueue_log (p : PNPpapi) (e : Nat) : (pnEventEnqueue env p e).log = p.log ++ [.enqueue e] := rfl

/-- An entry that is no call of a handler says nothing about one. -/
theorem startsAfter_snoc {log : List PNEventLog} {l : PNEventLog} (hl : l.started = none)
    (h : ∀ before e i v rest, log = before ++ .start e i v :: rest →
      .complete i v ∈ before ∧ v ≠ 0 ∧ v ≠ PN_INVALID_INTERFACE_TABLE) :
    ∀ before e i v rest, log ++ [l] = before ++ .start e i v :: rest →
      .complete i v ∈ before ∧ v ≠ 0 ∧ v ≠ PN_INVALID_INTERFACE_TABLE := by
  intro before e i v rest heq
  rcases List.eq_nil_or_concat rest with rfl | ⟨rest, l', rfl⟩
  · obtain ⟨-, heq⟩ := List.append_inj' heq rfl
    obtain rfl := List.singleton_inj.mp heq
    cases hl
  · rw [List.concat_eq_append, ← List.cons_append, ← List.append_assoc] at heq
    exact h before e i v rest (List.append_inj' heq rfl).1

theorem didCreates_append (p : PNPpapi) (queue queue' : List Nat) :
    p.didCreates (queue ++ queue') = p.didCreates queue + p.didCreates queue' :=
  List.countP_append

theorem didCreates_congr (h : ∀ e ∈ queue, (p'.events e).type = (p.events e).type) : p'.didCreates queue = p.didCreates queue :=
  List.countP_congr fun e he => by rw [h e he]

/-- An event in hand goes into the queue. -/
theorem Handling.enqueue (h : Handling env x queue (e :: held) free n)
    (ht : (x.ppapi.events e).type = .getInterface ∨ (x.ppapi.events e).type = .didCreate)
    (hn : n + x.ppapi.didCreates [e] ≤ k) :
    Handling env { x with ppapi := pnEventEnqueue env x.ppapi e } (queue ++ [e]) held free k := by
  have htype (y : Nat) : ((pnEventEnqueue env x.ppapi e).events y).type = (x.ppapi.events y).type :=
    (pnEventEnqueue_events x.ppapi h.events.held_ne.2 y).2.2
  refine ⟨h.events.enqueue, fun y hy => ?_, ?_, fun i hi => ?_, ?_⟩
  · rw [htype]
    rcases List.mem_append.mp hy with hy | hy
    · exact h.types y hy
    · rw [List.mem_singleton.mp hy]
      exact ht
  · have hs : (pnEventEnqueue env x.ppapi e).starts = x.ppapi.starts := by
      simp [PNPpapi.starts, pnEventEnqueue_log, PNEventLog.started]
    have := h.created
    rw [hs, didCreates_congr fun y _ => htype y, didCreates_append]
    omega
  · exact List.mem_append_left _ (h.resolved i hi)
  · exact startsAfter_snoc rfl h.startsAfter

/-- A new event in hand, of the given type. -/
theorem Handling.allocate (h : Handling env x queue held free n) (hm : MallocApart env.sentinelEvent PNEventRecord.sizeof malloc)
    (ha : pnEventAllocate malloc x.ppapi = .ok (e, p)) {f : PNEventRecord → PNEventRecord} (hn : ∀ r, (f r).next = r.next)
    (hp : ∀ r, (f r).prev = r.prev) :
    ∃ free', Handling env { x with ppapi := p.setEvent e f } queue (e :: held) free' n ∧
      ((p.setEvent e f).events e) = f (x.ppapi.events e) ∧
      (∀ y, y ≠ e → ((p.setEvent e f).events y) = x.ppapi.events y) ∧
      (p.setEvent e f).currentEvent = x.ppapi.currentEvent := by
  obtain ⟨free', hev, hevents, hlog, hcur⟩ := h.events.allocate hm ha
  have hself : (p.setEvent e f).events e = f (x.ppapi.events e) := by
    simp [PNPpapi.setEvent, hevents]
  have hother (y : Nat) (hy : y ≠ e) : (p.setEvent e f).events y = x.ppapi.events y := by
    simp [PNPpapi.setEvent, Function.update_of_ne hy, hevents]
  have hqueue (y : Nat) (hy : y ∈ queue) : (p.setEvent e f).events y = x.ppapi.events y := by
    refine hother y ?_
    rintro rfl
    exact hev.held_not_mem.1 hy
  have hlog' : (p.setEvent e f).log = x.ppapi.log := hlog
  refine ⟨free', ⟨hev.setEvent hn hp, fun y hy => ?_, ?_, ?_, ?_⟩, hself, hother, hcur⟩
  · rw [hqueue y hy]
    exact h.types y hy
  · have hs : (p.setEvent e f).starts = x.ppapi.starts := by simp only [PNPpapi.starts, hlog']
    have hd : (p.setEvent e f).didCreates queue = x.ppapi.didCreates queue := didCreates_congr fun y hy => by rw [hqueue y hy]
    rw [hs, hd]
    exact h.created
  · simp only [hlog']
    exact h.resolved
  · simp only [hlog']
    exact h.startsAfter

/-- `pn_ppapi_get_interface` enqueues a GET_INTERFACE event if the interface has no value yet. -/
theorem Handling.getInterface {iface : Nat} (h : Handling env x queue (e :: held) free n)
    (hm : MallocApart env.sentinelEvent PNEventRecord.sizeof malloc)
    (hg : pnPpapiGetInterface env malloc x interface = .ok (iface, x')) :
    iface = x.pppInterfaces interface ∧ ∃ queue' free', Handling env x' queue' (e :: held) free' n ∧
      x'.pppInterfaces = x.pppInterfaces ∧ x'.mainThread = x.mainThread ∧
      (x'.ppapi.events e).type = (x.ppapi.events e).type ∧ x'.ppapi.currentEvent = x.ppapi.currentEvent := by
  unfold pnPpapiGetInterface at hg
  simp only at hg
  split at hg
  next hinv =>
    obtain ⟨⟨d, p⟩, ha, hg⟩ := bind_eq_ok.mp hg
    cases hg
    obtain ⟨free', hd, hself, hother, hcur⟩ := h.allocate hm ha
      (f := fun r => { r with type := .getInterface, interface := interface, outIface := interface }) (fun _ => rfl) fun _ => rfl
    have hed : e ≠ d := by
      rintro rfl
      exact hd.events.held_not_mem.2.1 (by simp)
    generalize (p.setEvent d fun r => { r with type := .getInterface, interface := interface, outIface := interface }) = p₁
      at hd hself hother hcur ⊢
    have htype : (p₁.events d).type = .getInterface := by rw [hself]
    have henq := hd.enqueue (k := n) (.inl htype) (by simp [PNPpapi.didCreates, htype])
    refine ⟨rfl, queue ++ [d], free', henq, rfl, rfl, ?_, ?_⟩
    · rw [← hother e hed]
      exact (pnEventEnqueue_events p₁ hd.events.held_ne.2 e).2.2
    · exact hcur
  next hinv =>
    cases hg
    exact ⟨rfl, queue, free, h, rfl, rfl, rfl, rfl⟩

/-- `current_event`, if there is one. -/
def PNPpapi.heldEvents (p : PNPpapi) : List Nat := if p.currentEvent = 0 then [] else [p.currentEvent]

theorem heldEvents_of_ne (h : p.currentEvent ≠ 0) : p.heldEvents = [p.currentEvent] := if_neg h

/-- `current_event` is in no list. -/
theorem Handling.setCurrent (h : Handling env x queue held free n) (e : Nat) :
    Handling env { x with ppapi := { x.ppapi with currentEvent := e } } queue held free n :=
  ⟨⟨h.events.ring, h.events.list, h.events.nodup, h.events.mem, h.events.fifo, h.events.allocator, h.events.apart, h.events.blocks⟩,
    h.types, h.created, h.resolved, h.startsAfter⟩

/-- An entry of the log that is about no queue. -/
theorem EventsInv.record (h : EventsInv env p queue held free) {l : PNEventLog} (h₁ : l.enqueued = none) (h₂ : l.dequeued = none) :
    EventsInv env (p.record l) queue held free := by
  refine ⟨h.ring, h.list, h.nodup, h.mem, ?_, h.allocator, h.apart, h.blocks⟩
  simpa [PNPpapi.record, List.filterMap_append, h₁, h₂] using h.fifo

theorem handleGetInterface_handling (h : Handling env x queue [e] free n) (hh : handleGetInterface env x t e = .ok x') :
    Handling env x' queue x'.ppapi.heldEvents free n ∧ x'.mainThread = x.mainThread := by
  obtain ⟨⟨function, x₁⟩, hp, hh⟩ := bind_eq_ok.mp hh
  cases hh
  have hs := pushFunctionPointer_sameEvents hp
  have h₁ := (h.congr hs).setCurrent e
  have he : e ≠ 0 := h.events.held_ne.1
  refine ⟨?_, hs.mainThread⟩
  rw [heldEvents_of_ne he]
  exact h₁.congr ⟨rfl, rfl, rfl⟩

/-- A handler of DID_CREATE is called through an interface that has a value. -/
theorem startDidCreate_handling {v : Nat} (h : Handling env x queue [e] free 0) (hv : .complete interface v ∈ x.ppapi.log)
    (hv0 : v ≠ 0) (hvi : v ≠ PN_INVALID_INTERFACE_TABLE) (hh : startDidCreate env x t e interface v = .ok x') :
    Handling env x' queue x'.ppapi.heldEvents free 1 ∧ x'.mainThread = x.mainThread := by
  obtain ⟨didCreateFunc, -, hh⟩ := bind_eq_ok.mp hh
  obtain ⟨⟨function, x₁⟩, hp, hh⟩ := bind_eq_ok.mp hh
  obtain ⟨-, hh⟩ := pnCheck_bind_eq_ok.mp hh
  cases hh
  have hs := pushFunctionPointer_sameEvents hp
  have h₁ := h.congr hs
  have he : e ≠ 0 := h.events.held_ne.1
  refine ⟨?_, hs.mainThread⟩
  rw [heldEvents_of_ne he]
  have hrec : Handling env { x₁ with ppapi := x₁.ppapi.record (.start e interface v) } queue [e] free 1 := by
    refine ⟨h₁.events.record rfl rfl, h₁.types, ?_, fun i hi => List.mem_append_left _ (h₁.resolved i hi), ?_⟩
    · have hstarts : (x₁.ppapi.record (.start e interface v)).starts = x₁.ppapi.starts ++ [(e, interface, v)] := by
        simp [PNPpapi.starts, PNPpapi.record, PNEventLog.started]
      have := h₁.created
      rw [hstarts, List.length_append, List.length_singleton]
      change _ + x₁.ppapi.didCreates queue ≤ 1
      omega
    · intro before e' i v' rest heq
      rcases List.eq_nil_or_concat rest with rfl | ⟨rest, l', rfl⟩
      · obtain ⟨hb, heq⟩ := List.append_inj' heq rfl
        obtain heq := List.singleton_inj.mp heq
        injection heq with _ hi hv'
        subst hi hv'
        rw [← hb, hs.ppapi]
        exact ⟨hv, hv0, hvi⟩
      · rw [List.concat_eq_append, ← List.cons_append, ← List.append_assoc] at heq
        exact h₁.startsAfter before e' i v' rest (List.append_inj' heq rfl).1
  exact (hrec.setCurrent e).congr ⟨rfl, rfl, rfl⟩

/-- The event goes back into the queue. -/
theorem Handling.requeue (h : Handling env x queue [e] free 0) (ht : (x.ppapi.events e).type = .didCreate)
    (hc : x.ppapi.currentEvent = 0) :
    ∃ queue', Handling env { x with ppapi := pnEventEnqueue env x.ppapi e } queue'
      (pnEventEnqueue env x.ppapi e).heldEvents free 1 := by
  have hheld : (pnEventEnqueue env x.ppapi e).heldEvents = [] := if_pos hc
  rw [hheld]
  exact ⟨_, h.enqueue (.inr ht) (by simp [PNPpapi.didCreates, ht])⟩

theorem handleDidCreate_handling (h : Handling env x queue [e] free 0) (ht : (x.ppapi.events e).type = .didCreate)
    (hc : x.ppapi.currentEvent = 0) (hm : MallocApart env.sentinelEvent PNEventRecord.sizeof malloc)
    (hh : handleDidCreate env malloc x t e = .ok x') :
    ∃ queue' free', Handling env x' queue' x'.ppapi.heldEvents free' 1 ∧ x'.mainThread = x.mainThread := by
  obtain ⟨⟨iface, x₁⟩, hg, hh⟩ := bind_eq_ok.mp hh
  obtain ⟨rfl, queue₁, free₁, h₁, hi₁, hmain₁, ht₁, hc₁⟩ := h.getInterface hm hg
  rw [← hi₁] at hh
  dsimp only at hh
  split at hh
  · cases hh
    obtain ⟨queue', hq⟩ := h₁.requeue (ht₁.trans ht) (hc₁.trans hc)
    exact ⟨queue', free₁, hq, hmain₁⟩
  next hinv₁ =>
    split at hh
    next h0 =>
      obtain ⟨⟨iface, x₂⟩, hg₂, hh⟩ := bind_eq_ok.mp hh
      obtain ⟨rfl, queue₂, free₂, h₂, hi₂, hmain₂, ht₂, hc₂⟩ := h₁.getInterface hm hg₂
      rw [← hi₂] at hh
      dsimp only at hh
      split at hh
      · cases hh
        obtain ⟨queue', hq⟩ := h₂.requeue (ht₂.trans (ht₁.trans ht)) (hc₂.trans (hc₁.trans hc))
        exact ⟨queue', free₂, hq, hmain₂.trans hmain₁⟩
      next hinv₂ =>
        split at hh
        · cases hh
        next hne =>
          obtain ⟨hs, hmain⟩ := startDidCreate_handling h₂ (h₂.resolved _ hinv₂) hne hinv₂ hh
          exact ⟨queue₂, free₂, hs, hmain.trans (hmain₂.trans hmain₁)⟩
    next hne =>
      obtain ⟨hs, hmain⟩ := startDidCreate_handling h₁ (h₁.resolved _ hinv₁) hne hinv₁ hh
      exact ⟨queue₁, free₁, hs, hmain.trans hmain₁⟩

/-- `pn_event_handle_next`. -/
theorem handleNext_handling (h : Handling env x queue [] free 1) (hm : MallocApart env.sentinelEvent PNEventRecord.sizeof malloc)
    (hh : pnEventHandleNext env malloc x t = .ok x') :
    ∃ queue' free', Handling env x' queue' x'.ppapi.heldEvents free' 1 ∧ x'.mainThread = x.mainThread := by
  unfold pnEventHandleNext at hh
  cases queue with
  | nil =>
    rw [h.events.dequeue_nil] at hh
    simp only [if_true] at hh
    cases hh
    exact ⟨[], free, h.setCurrent 0, rfl⟩
  | cons e queue =>
    obtain ⟨he, hev, htype⟩ := h.events.dequeue
    obtain ⟨hn, hc⟩ := List.isChain_cons_cons.mp (ring_cons_iff.mp h.events.ring).2
    obtain ⟨-, -, -, hlog, -⟩ := pnEventDequeue_fields hn.1 h.events.queue_ne.2
    generalize pnEventDequeue env x.ppapi = r at he hev htype hlog hh
    obtain ⟨d, p⟩ := r
    dsimp only at he hev htype hlog hh
    subst he
    rw [if_neg hev.held_ne.1] at hh
    have hcount : p.didCreates (d :: queue) = x.ppapi.didCreates (d :: queue) := didCreates_congr fun y _ => by rw [htype y]
    have hstarts : p.starts = x.ppapi.starts := by simp [PNPpapi.starts, hlog, PNEventLog.started]
    have hcreated := h.created
    rw [← hcount, ← hstarts] at hcreated
    have hp : ∀ n, p.starts.length + p.didCreates queue ≤ n → Handling env { x with ppapi := { p with currentEvent := 0 } }
        queue [d] free n := by
      intro n hn
      refine Handling.setCurrent (x := { x with ppapi := p }) ⟨hev, fun y hy => ?_, hn, fun i hi => ?_, ?_⟩ 0
      · rw [htype y]
        exact h.types y (List.mem_cons_of_mem _ hy)
      · rw [hlog]
        exact List.mem_append_left _ (h.resolved i hi)
      · rw [hlog]
        exact startsAfter_snoc rfl h.startsAfter
    have hd := h.types d (by simp)
    rw [← htype d] at hd
    rcases hd with hd | hd
    · simp only [hd] at hh
      have hle : p.starts.length + p.didCreates queue ≤ 1 := by
        simpa [PNPpapi.didCreates, List.countP_cons, hd] using hcreated
      obtain ⟨hr, hmain⟩ := handleGetInterface_handling (hp 1 hle) hh
      exact ⟨queue, free, hr, hmain⟩
    · simp only [hd] at hh
      have hle : p.starts.length + p.didCreates queue ≤ 0 := by
        have : p.didCreates (d :: queue) = p.didCreates queue + 1 := by simp [PNPpapi.didCreates, hd]
        omega
      obtain ⟨queue', free', hr, hmain⟩ := handleDidCreate_handling (hp 0 hle) hd rfl hm hh
      exact ⟨queue', free', hr, hmain⟩

/-- `pn_event_finish` frees the current event. -/
theorem eventFinish_handling (h : Handling env x queue x.ppapi.heldEvents free n) (t : Nat) :
    ∃ free', Handling env (pnEventFinish x t) queue [] free' n ∧ (pnEventFinish x t).mainThread = x.mainThread := by
  unfold pnEventFinish
  dsimp only
  by_cases h0 : x.ppapi.currentEvent = 0
  · rw [if_pos h0]
    have hheld : x.ppapi.heldEvents = [] := if_pos h0
    exact ⟨free, hheld ▸ h, rfl⟩
  · rw [if_neg h0]
    rw [heldEvents_of_ne h0] at h
    -- freeing changes no type
    have hfree : ∀ {x : PNPpapiExecutor} {e : Nat}, Handling env x queue [e] free n →
        Handling env { x with ppapi := pnEventFree x.ppapi e } queue [] (e :: free) n := by
      intro x e h
      have htype (y : Nat) : ((pnEventFree x.ppapi e).events y).type = (x.ppapi.events y).type := by simp [pnEventFree]
      refine ⟨h.events.release, fun y hy => ?_, ?_, h.resolved, h.startsAfter⟩
      · rw [htype]
        exact h.types y hy
      · have hd : (pnEventFree x.ppapi e).didCreates queue = x.ppapi.didCreates queue := didCreates_congr fun y _ => htype y
        rw [hd]
        exact h.created
    split
    · refine ⟨_, hfree ?_, rfl⟩
      refine ⟨h.events.record rfl rfl, h.types, ?_, fun i hi => ?_, startsAfter_snoc rfl h.startsAfter⟩
      · have hs : (x.ppapi.record (.complete (x.ppapi.events x.ppapi.currentEvent).outIface
            ((x.threads t).exitValue % 2 ^ 32))).starts = x.ppapi.starts := by
          simp [PNPpapi.starts, PNPpapi.record, PNEventLog.started]
        rw [hs]
        exact h.created
      · dsimp only at hi ⊢
        rw [Function.update_apply] at hi ⊢
        split
        next heq => simp [PNPpapi.record, heq]
        next hne =>
          rw [if_neg hne] at hi
          exact List.mem_append_left _ (h.resolved i hi)
    · exact ⟨_, hfree h, rfl⟩

/-! ## Runs -/

/-- The invariant of the event loop: with `current_event` in hand, and nothing before PPAPI_START. -/
structure LoopInv (env : PNPpapiEnv) (x : PNPpapiExecutor) (queue free : List Nat) : Prop where
  handling : Handling env x queue x.ppapi.heldEvents free 1
  main : x.mainThread = env.startThread ∨ x.mainThread = env.eventThread
  before : x.mainThread = env.startThread → queue = [] ∧ x.ppapi.currentEvent = 0 ∧ x.ppapi.starts = []

theorem LoopInv.congr (h : LoopInv env x queue free) (hs : SameEvents x x') : LoopInv env x' queue free := by
  refine ⟨?_, ?_, ?_⟩
  · rw [hs.ppapi]
    exact h.handling.congr hs
  · rw [hs.mainThread]
    exact h.main
  · rw [hs.mainThread, hs.ppapi]
    exact h.before

theorem wakeThreads_sameEvents : ∀ {x : PNPpapiExecutor} (woken : List Nat), SameEvents x (wakeThreads x woken)
  | x, [] => .refl x
  | x, i :: rest => by
    unfold wakeThreads
    split
    · exact (update_sameEvents x i _).trans (wakeThreads_sameEvents rest)
    · exact wakeThreads_sameEvents rest

theorem returnFrame_sameEvents (x : PNPpapiExecutor) (t : Nat) (value : Option Nat) : SameEvents x (returnFrame env x t value) := by
  unfold returnFrame
  dsimp only
  split
  · exact update_sameEvents ..
  · split
    · exact ⟨rfl, rfl, rfl⟩
    · exact ⟨rfl, rfl, rfl⟩

/-- Only PPAPI_START touches the events. -/
theorem exec_sameEvents {inst : PNPpapiInst} (hne : ∀ malloc args, inst ≠ .ppapiStart malloc args)
    (h : inst.exec env x t = .ok x') : SameEvents x x' := by
  cases inst with
  | other values memory heapEnd =>
    cases h
    exact ⟨rfl, rfl, rfl⟩
  | call functionId values =>
    obtain ⟨x₁, hp, h⟩ := bind_eq_ok.mp h
    cases h
    exact (pushFunction_sameEvents hp).trans (update_sameEvents ..)
  | ret =>
    cases h
    exact returnFrame_sameEvents x t none
  | retValue value =>
    cases h
    exact returnFrame_sameEvents x t _
  | alloca size alignment =>
    simp only [PNPpapiInst.exec] at h
    split at h
    · cases h
    · cases h
      exact ⟨rfl, rfl, rfl⟩
  | stacksave =>
    cases h
    exact ⟨rfl, rfl, rfl⟩
  | stackrestore value =>
    cases h
    exact ⟨rfl, rfl, rfl⟩
  | setjmp =>
    cases h
    exact ⟨rfl, rfl, rfl⟩
  | longjmp id =>
    simp only [PNPpapiInst.exec] at h
    split at h
    · cases h
      exact update_sameEvents ..
    · cases h
  | ppapiStart malloc args => exact absurd rfl (hne malloc args)
  | threadCreate n functionId stackTop tls =>
    obtain ⟨x₁, hp, h⟩ := bind_eq_ok.mp h
    cases h
    have hl : SameEvents x (linkPpapiThread x t n tls) := ⟨rfl, rfl, rfl⟩
    have ht : SameEvents x₁ (x₁.setTop n stackTop) := ⟨rfl, rfl, rfl⟩
    exact (hl.trans (pushFunction_sameEvents hp)).trans ht
  | threadExit =>
    obtain ⟨-, h⟩ := pnCheck_bind_eq_ok.mp h
    cases h
    exact update_sameEvents ..
  | futexWait =>
    cases h
    exact update_sameEvents ..
  | futexWake woken =>
    cases h
    exact wakeThreads_sameEvents woken
  | exit =>
    cases h
    exact ⟨rfl, rfl, rfl⟩

/-- PPAPI_START enqueues the one DID_CREATE event. -/
theorem LoopInv.start (h : LoopInv env x queue free) (hm : MallocApart env.sentinelEvent PNEventRecord.sizeof malloc)
    (hs : pnBuiltinPpapiStart env malloc x t args = .ok x') : ∃ queue' free', LoopInv env x' queue' free' := by
  obtain ⟨-, hs⟩ := pnCheck_bind_eq_ok.mp hs
  obtain ⟨initializeFunc, -, hs⟩ := bind_eq_ok.mp hs
  obtain ⟨shutdownFunc, -, hs⟩ := bind_eq_ok.mp hs
  obtain ⟨getInterfaceFunc, -, hs⟩ := bind_eq_ok.mp hs
  obtain ⟨rfl, hs⟩ := pnCheck_bind_eq_ok.mp hs
  obtain ⟨hmain, hs⟩ := pnCheck_bind_eq_ok.mp hs
  obtain ⟨⟨function, x₁⟩, hp, hs⟩ := bind_eq_ok.mp hs
  obtain ⟨-, hs⟩ := pnCheck_bind_eq_ok.mp hs
  obtain ⟨⟨event, p⟩, ha, hs⟩ := bind_eq_ok.mp hs
  cases hs
  obtain ⟨rfl, hcur, hstarts⟩ := h.before hmain.symm
  have hse := pushFunctionPointer_sameEvents hp
  have hheld : x.ppapi.heldEvents = [] := if_pos hcur
  have h₀ := h.handling
  rw [hheld] at h₀
  -- the functions of the plugin are stored, and the event thread is linked
  have h₁ : Handling env x₁ [] [] free 0 := by
    have hle : x.ppapi.starts.length + x.ppapi.didCreates [] ≤ 0 := by simp [hstarts, PNPpapi.didCreates]
    refine Handling.congr (x := replaceThread env { x with
      ppapi := { x.ppapi with shutdownFunc := shutdownFunc, getInterfaceFunc := getInterfaceFunc } } env.startThread) ?_ hse
    exact ⟨⟨h₀.events.ring, h₀.events.list, h₀.events.nodup, h₀.events.mem, h₀.events.fifo, h₀.events.allocator, h₀.events.apart,
      h₀.events.blocks⟩, h₀.types, hle, h₀.resolved, h₀.startsAfter⟩
  have hcur₁ : x₁.ppapi.currentEvent = 0 := by
    rw [hse.ppapi]
    exact hcur
  obtain ⟨free', hd, hself, -, hcur'⟩ := h₁.allocate hm ha (f := fun r => { r with type := .didCreate })
    (fun _ => rfl) fun _ => rfl
  generalize (p.setEvent event fun r => { r with type := .didCreate }) = p₁ at hd hself hcur' ⊢
  have htype : (p₁.events event).type = .didCreate := by rw [hself]
  have henq := hd.enqueue (k := 1) (.inr htype) (by simp [PNPpapi.didCreates, htype])
  refine ⟨[event], free', ?_, .inr hse.mainThread, fun hm => ?_⟩
  · have hheld : (pnEventEnqueue env p₁ event).heldEvents = [] := if_pos (hcur'.trans hcur₁)
    rw [hheld]
    exact henq.congr ⟨rfl, rfl, rfl⟩
  · exact absurd ((hse.mainThread.symm.trans hm : env.eventThread = env.startThread)) env.threads_ne

/-- Behind a quantum of the event thread. -/
theorem LoopInv.turn (h : LoopInv env x queue free) (hm : MallocApart env.sentinelEvent PNEventRecord.sizeof malloc)
    (hs : eventTurn env malloc x x.mainThread = .ok x') : ∃ queue' free', LoopInv env x' queue' free' := by
  obtain ⟨hne, hs⟩ := cAssert_bind_eq_ok.mp hs
  obtain ⟨-, hs⟩ := cAssert_bind_eq_ok.mp hs
  obtain ⟨x₁, hn, hs⟩ := bind_eq_ok.mp hs
  obtain ⟨free₁, h₁, hmain₁⟩ := eventFinish_handling h.handling x.mainThread
  obtain ⟨queue₂, free₂, h₂, hmain₂⟩ := handleNext_handling h₁ hm hn
  have hmain : x₁.mainThread = x.mainThread := hmain₂.trans hmain₁
  have hinv : LoopInv env x₁ queue₂ free₂ := by
    refine ⟨h₂, ?_, fun he => ?_⟩
    · rw [hmain]
      exact h.main
    · exact absurd (hmain.symm.trans he) hne
  split at hs
  · cases hs
    exact ⟨queue₂, free₂, hinv.congr (update_sameEvents ..)⟩
  · cases hs
    exact ⟨queue₂, free₂, hinv⟩

/-- **Step.** -/
theorem LoopInv.step (h : LoopInv env x queue free) {op : PNPpapiOp} (hp : op.Promised env) (hx : op.exec env x = .ok x') :
    ∃ queue' free', LoopInv env x' queue' free' := by
  cases op with
  | execute t inst =>
    by_cases hi : ∃ malloc args, inst = .ppapiStart malloc args
    · obtain ⟨malloc, args, rfl⟩ := hi
      exact h.start hp hx
    · exact ⟨queue, free, h.congr (exec_sameEvents (fun malloc args he => hi ⟨malloc, args, he⟩) hx)⟩
  | turn malloc => exact h.turn hp hx
  | unlink t =>
    cases hx
    exact ⟨queue, free, h.congr ⟨rfl, rfl, rfl⟩⟩
  | timeOut t =>
    cases hx
    exact ⟨queue, free, h.congr (update_sameEvents ..)⟩

/-- The events behind `pn_executor_init`. -/
theorem LoopInv.init {events : Nat → PNEventRecord} {memory : PNMemory} {heapStart : Nat}
    (h : pnExecutorInitPpapi env events memory heapStart = .ok x) : LoopInv env x [] [] := by
  obtain ⟨a, ha, h⟩ := bind_eq_ok.mp h
  obtain ⟨x₁, hp, h⟩ := bind_eq_ok.mp h
  cases h
  have hs : SameEvents x₁ (pnThreadSetParamValue x₁ env.startThread 0 env.ex.startinfoStart) := ⟨rfl, rfl, rfl⟩
  refine LoopInv.congr ?_ ((pushFunction_sameEvents hp).trans hs)
  have hchunks : a.chunks = [] := by
    cases ha
    rfl
  refine ⟨⟨⟨ring_cons_iff.mpr ⟨by simp, ?_⟩, rfl, by simp [PNPpapi.heldEvents], fun e => by simp [PNPpapi.heldEvents], rfl,
    pnAllocatorInit_inv (by decide) ha, fun c hc => ?_, fun e he => ?_⟩, fun e he => ?_, ?_, fun i hi => absurd rfl hi, ?_⟩, .inl rfl,
    fun _ => ⟨rfl, rfl, rfl⟩⟩
  · exact List.isChain_cons_cons.mpr ⟨⟨by simp, by simp⟩, .singleton _⟩
  · rw [hchunks] at hc
    cases hc
  · cases he
  · cases he
  · simp [PNPpapi.starts, PNPpapi.didCreates]
  · intro before e i v rest heq
    simp at heq

/-- What is promised of the events in a state: each event ever allocated is in one of the queue, `current_event` and the free list;
the queue's links run through the sentinel in both directions; events were dequeued in the order in which they were enqueued; one
handler of a DID_CREATE event was called at most, and only through an interface whose value a GET_INTERFACE event had brought. -/
structure EventsConserved (env : PNPpapiEnv) (x : PNPpapiExecutor) (queue free : List Nat) : Prop where
  ring : Ring (fun e => (x.ppapi.events e).next) (fun e => (x.ppapi.events e).prev) ↑(env.sentinelEvent :: queue)
  list : Nexts (fun e => (x.ppapi.events e).next) 0 x.ppapi.freeEvents free
  once : (queue ++ (x.ppapi.heldEvents ++ free)).Nodup
  conserved : ∀ e, e ∈ x.ppapi.allocated ↔ e ∈ queue ∨ e ∈ x.ppapi.heldEvents ∨ e ∈ free
  fifo : x.ppapi.log.filterMap PNEventLog.enqueued = x.ppapi.log.filterMap PNEventLog.dequeued ++ queue
  startsOnce : x.ppapi.starts.length ≤ 1
  startsAfter : ∀ before e i v rest, x.ppapi.log = before ++ .start e i v :: rest →
    .complete i v ∈ before ∧ v ≠ 0 ∧ v ≠ PN_INVALID_INTERFACE_TABLE

theorem PpapiRun.loopInv {S : PNPpapiExecutor → PNPpapiOp → Prop} (h : PpapiRun env S x) :
    ∃ queue free, LoopInv env x queue free := by
  induction h with
  | init h => exact ⟨[], [], .init h⟩
  | step op _ _ _ hp _ hx ih =>
    obtain ⟨queue, free, ih⟩ := ih
    exact ih.step hp hx

/-- **Events are conserved.** In every state of every run. -/
theorem ppapi_events_conserved (h : PpapiRun env (fun _ _ => True) x) : ∃ queue free, EventsConserved env x queue free := by
  obtain ⟨queue, free, h⟩ := h.loopInv
  have hev := h.handling.events
  refine ⟨queue, free, hev.ring, hev.list, hev.nodup, fun e => ?_, hev.fifo, ?_, h.handling.startsAfter⟩
  · rw [hev.mem, List.mem_append, List.mem_append]
  · have := h.handling.created
    omega

/-! ## A plugin that creates an instance -/

/-- The step can come now, on a ring of at most three threads. -/
def PNPpapiOp.enabled (x : PNPpapiExecutor) (op : PNPpapiOp) : Bool :=
  let onRing := fun t => (List.range 3).any fun k => (fun t => (x.threads t).next)^[k] x.mainThread = t
  match op with
  | .execute t _ => onRing t && (x.threads t).state = .running
  | .turn _ => (x.threads x.mainThread).state = .dead || (x.threads x.mainThread).state = .idle
  | .unlink t => onRing t && t ≠ x.mainThread && (x.threads t).state = .dead
  | .timeOut t => onRing t && (x.threads t).state = .blocked

theorem PNPpapiOp.enabled_sound {op : PNPpapiOp} (h : op.enabled x = true) : op.Enabled x := by
  have hring (t : Nat) (h : ((List.range 3).any fun k => (fun t => (x.threads t).next)^[k] x.mainThread = t) = true) :
      x.OnRing t := by
    obtain ⟨k, -, hk⟩ := List.any_eq_true.mp h
    exact ⟨k, by simpa using hk⟩
  cases op with
  | execute t inst =>
    simp only [enabled, Bool.and_eq_true, decide_eq_true_eq] at h
    exact ⟨hring t h.1, h.2⟩
  | turn malloc =>
    simp only [enabled, Bool.or_eq_true, decide_eq_true_eq] at h
    exact h
  | unlink t =>
    simp only [enabled, Bool.and_eq_true, decide_eq_true_eq] at h
    exact ⟨hring t h.1.1, h.1.2, h.2⟩
  | timeOut t =>
    simp only [enabled, Bool.and_eq_true, decide_eq_true_eq] at h
    exact ⟨hring t h.1, h.2⟩

/-- Steps that can come and meet `S`, one after the other. -/
def runOps (env : PNPpapiEnv) (S : PNPpapiExecutor → PNPpapiOp → Bool) :
    List PNPpapiOp → PNPpapiExecutor → Except Stop PNPpapiExecutor
  | [], x => .ok x
  | op :: ops, x =>
    if !x.exiting && op.enabled x && S x op then do
      let x ← op.exec env x
      runOps env S ops x
    else .error (.undefined "not enabled")

theorem PpapiRun.runOps {S : PNPpapiExecutor → PNPpapiOp → Prop} {S' : PNPpapiExecutor → PNPpapiOp → Bool}
    (hS : ∀ x op, S' x op = true → S x op) {ops : List PNPpapiOp} (h : PpapiRun env S x) (hp : ∀ op ∈ ops, op.Promised env)
    (hr : Pnacl.runOps env S' ops x = .ok x') : PpapiRun env S x' := by
  induction ops generalizing x with
  | nil =>
    cases hr
    exact h
  | cons op ops ih =>
    unfold Pnacl.runOps at hr
    split at hr
    next hc =>
      simp only [Bool.and_eq_true, Bool.not_eq_true'] at hc
      obtain ⟨x₁, hx, hr⟩ := bind_eq_ok.mp hr
      refine ih (.step op h hc.1.1 (PNPpapiOp.enabled_sound hc.1.2) (hp op (by simp)) (hS _ _ hc.2) hx) (fun op ho => ?_) hr
      exact hp op (List.mem_cons_of_mem _ ho)
    next => cases hr

theorem demoMalloc_events : MallocApart demoPpapiEnv.sentinelEvent PNEventRecord.sizeof demoMalloc where
  ok := demoMalloc_ok
  away chunks size h := by
    rw [demoMalloc_eq h]
    exact .inr (by decide)

/-- The plugin is started and initialised, the first DID_CREATE waits for the interface, GET_INTERFACE is handled and returns. -/
def demoEventOps : List PNPpapiOp := [
  .execute 4096 (.ppapiStart demoMalloc [1024]), .execute 8192 .ret, .turn demoMalloc, .turn demoMalloc,
  .execute 8192 (.retValue 1040), .turn demoMalloc]

def demoEvents (S : PNPpapiExecutor → PNPpapiOp → Bool) (ops : List PNPpapiOp) : Except Stop PNPpapiExecutor := do
  let x ← demoStart []
  runOps demoPpapiEnv S ops x

theorem demoEvents_run {S : PNPpapiExecutor → PNPpapiOp → Prop} {S' : PNPpapiExecutor → PNPpapiOp → Bool}
    (hS : ∀ x op, S' x op = true → S x op) {ops : List PNPpapiOp} (hp : ∀ op ∈ ops, op.Promised demoPpapiEnv)
    (h : demoEvents S' ops = .ok x) : PpapiRun demoPpapiEnv S x := by
  obtain ⟨x₀, h₀, h⟩ := bind_eq_ok.mp h
  obtain ⟨x₁, hi, hx⟩ := bind_eq_ok.mp h₀
  cases hx
  exact (PpapiRun.init hi).runOps hS hp h

theorem demoEventOps_promised : ∀ op ∈ demoEventOps, op.Promised demoPpapiEnv := by
  intro op hop
  simp only [demoEventOps, List.mem_cons, List.not_mem_nil, or_false] at hop
  rcases hop with rfl | rfl | rfl | rfl | rfl | rfl <;> first | exact demoMalloc_events | trivial

theorem ppapi_events_conserved_instance : ∃ x, PpapiRun demoPpapiEnv (fun _ _ => True) x ∧ x.ppapi.starts.length = 1 ∧
    x.ppapi.allocated.length = 2 ∧ ∃ queue free, EventsConserved demoPpapiEnv x queue free := by
  obtain ⟨x, hx, hobs⟩ := eq_ok_of_toOption (x := demoEvents (fun _ _ => true) demoEventOps)
    (g := fun x => (x.ppapi.starts.length, x.ppapi.allocated.length)) (b := (1, 2)) (by decide +kernel)
  simp only [Prod.mk.injEq] at hobs
  have hrun : PpapiRun demoPpapiEnv (fun _ _ => True) x := demoEvents_run (fun _ _ _ => trivial) demoEventOps_promised hx
  exact ⟨x, hrun, hobs.1, hobs.2, ppapi_events_conserved hrun⟩

end Pnacl
