import Pnacl.Scheduler
import Pnacl.FrameStorage

/-!
# The ring of threads

What the instructions do to the links of the threads: only THREAD_CREATE changes them (`execute_cases`), it inserts a
thread into the ring (`SchedInv.create`), and the end of a quantum takes a dead one out (`SchedInv.unlink`).

- `SchedInv`: the ring, the list of dead threads and what both have to do with the threads ever created;
- `SchedStep`: any thread of the ring that runs executes an instruction, or times out, or is unlinked when it is dead;
  every step keeps the invariant (`SchedInv.step`), and every turn of `pn_executor_run_step` is such a step or none
  (`PNRunState.step_refines`);
- `scheduler_ring`: the invariant in every state of every run of the executor.
-/

namespace Pnacl

open Lib

variable {env : PNSchedEnv} {s s' : PNSched} {t n x : Nat} {e : PNEvent} {o : PNOracle}

@[simp] theorem PNSched.update_threads (s : PNSched) (t x : Nat) (f : PNSchedThread → PNSchedThread) :
    (s.update t f).threads x = if x = t then f (s.threads t) else s.threads x := by
  simp [PNSched.update, Function.update_apply]

@[simp] theorem PNSched.update_deadThreads (s : PNSched) (t : Nat) (f : PNSchedThread → PNSchedThread) :
    (s.update t f).deadThreads = s.deadThreads := rfl

@[simp] theorem PNSched.update_created (s : PNSched) (t : Nat) (f : PNSchedThread → PNSchedThread) :
    (s.update t f).created = s.created := rfl

@[simp] theorem PNSched.update_allocator (s : PNSched) (t : Nat) (f : PNSchedThread → PNSchedThread) :
    (s.update t f).allocator = s.allocator := rfl

@[simp] theorem PNSched.setNext_next (s : PNSched) (t p x : Nat) :
    ((s.setNext t p).threads x).next = if x = t then p else (s.threads x).next := by
  simp only [PNSched.setNext, PNSched.update_threads]
  split
  · rfl
  · rfl

@[simp] theorem PNSched.setNext_prev (s : PNSched) (t p x : Nat) :
    ((s.setNext t p).threads x).prev = (s.threads x).prev := by
  simp only [PNSched.setNext, PNSched.update_threads]
  split
  next h => rw [h]
  · rfl

@[simp] theorem PNSched.setNext_state (s : PNSched) (t p x : Nat) :
    ((s.setNext t p).threads x).state = (s.threads x).state := by
  simp only [PNSched.setNext, PNSched.update_threads]
  split
  next h => rw [h]
  · rfl

@[simp] theorem PNSched.setNext_deadThreads (s : PNSched) (t p : Nat) : (s.setNext t p).deadThreads = s.deadThreads := rfl

@[simp] theorem PNSched.setPrev_deadThreads (s : PNSched) (t p : Nat) : (s.setPrev t p).deadThreads = s.deadThreads := rfl

@[simp] theorem PNSched.setPrev_prev (s : PNSched) (t p x : Nat) :
    ((s.setPrev t p).threads x).prev = if x = t then p else (s.threads x).prev := by
  simp only [PNSched.setPrev, PNSched.update_threads]
  split
  · rfl
  · rfl

@[simp] theorem PNSched.setPrev_next (s : PNSched) (t p x : Nat) :
    ((s.setPrev t p).threads x).next = (s.threads x).next := by
  simp only [PNSched.setPrev, PNSched.update_threads]
  split
  next h => rw [h]
  · rfl

@[simp] theorem PNSched.setPrev_state (s : PNSched) (t p x : Nat) :
    ((s.setPrev t p).threads x).state = (s.threads x).state := by
  simp only [PNSched.setPrev, PNSched.update_threads]
  split
  next h => rw [h]
  · rfl

/-- The links of all threads are the same, and no thread but `t` died or came to life. -/
structure Keeps (t : Nat) (s s' : PNSched) : Prop where
  next : ∀ x, (s'.threads x).next = (s.threads x).next
  prev : ∀ x, (s'.threads x).prev = (s.threads x).prev
  dead : ∀ x, x ≠ t → ((s'.threads x).state = .dead ↔ (s.threads x).state = .dead)
  deadThreads : s'.deadThreads = s.deadThreads
  created : s'.created = s.created
  allocator : s'.allocator = s.allocator

theorem Keeps.refl (t : Nat) (s : PNSched) : Keeps t s s :=
  ⟨fun _ => rfl, fun _ => rfl, fun _ _ => .rfl, rfl, rfl, rfl⟩

theorem Keeps.trans {s'' : PNSched} (h : Keeps t s s') (h' : Keeps t s' s'') : Keeps t s s'' :=
  ⟨fun x => (h'.next x).trans (h.next x), fun x => (h'.prev x).trans (h.prev x),
    fun x hx => (h'.dead x hx).trans (h.dead x hx), h'.deadThreads.trans h.deadThreads, h'.created.trans h.created,
    h'.allocator.trans h.allocator⟩

theorem Keeps.memory (t : Nat) (s : PNSched) (memory : PNMemory) : Keeps t s { s with memory := memory } :=
  ⟨fun _ => rfl, fun _ => rfl, fun _ _ => .rfl, rfl, rfl, rfl⟩

theorem Keeps.exiting (t : Nat) (s : PNSched) (exiting : Bool) : Keeps t s { s with exiting := exiting } :=
  ⟨fun _ => rfl, fun _ => rfl, fun _ _ => .rfl, rfl, rfl, rfl⟩

/-- A change of a thread that leaves its links alone, and its life unless it is `t`. -/
theorem Keeps.update (t : Nat) (s : PNSched) (x : Nat) {f : PNSchedThread → PNSchedThread}
    (hn : (f (s.threads x)).next = (s.threads x).next) (hp : (f (s.threads x)).prev = (s.threads x).prev)
    (hd : x = t ∨ ((f (s.threads x)).state = .dead ↔ (s.threads x).state = .dead)) : Keeps t s (s.update x f) := by
  refine ⟨fun y => ?_, fun y => ?_, fun y hy => ?_, rfl, rfl, rfl⟩
  · by_cases h : y = x
    · simp [h, hn]
    · simp [h]
  · by_cases h : y = x
    · simp [h, hp]
    · simp [h]
  · by_cases h : y = x
    · subst h
      simpa using hd.resolve_left hy
    · simp [h]

theorem Keeps.kill (t : Nat) (s : PNSched) : Keeps t s (s.kill t) := .update t s t rfl rfl (.inl rfl)

theorem futexWait_keeps {addrP value abstimeP r : Nat} (h : futexWait s t addrP value abstimeP = .ok (r, e, s')) :
    Keeps t s s' := by
  obtain ⟨read, -, h⟩ := bind_eq_ok.mp h
  split at h
  · cases h
    exact .refl t s
  · obtain ⟨⟨has, sec, usec⟩, -, h⟩ := bind_eq_ok.mp h
    cases h
    exact .update t s t rfl rfl (.inl rfl)

theorem futexWaitAbs_keeps {args : List PNRuntimeValue} {r : Nat}
    (h : pnBuiltinNaclIrtFutexWaitAbs s t args = .ok (r, e, s')) : Keeps t s s' := by
  obtain ⟨-, h⟩ := pnCheck_bind_eq_ok.mp h
  split at h
  · exact futexWait_keeps h
  · cases h
    exact .update t s t rfl rfl (.inl rfl)
  · cases h
    exact .update t s t rfl rfl (.inl rfl)

theorem wakeLoop_keeps {addrP nwake : Nat} {woken' : List Nat} : ∀ {fuel : Nat} {s : PNSched} {i : Nat} {woken : List Nat},
    wakeLoop t addrP nwake fuel s i woken = .ok (woken', s') → Keeps t s s'
  | 0, _, _, _, h => by cases h
  | fuel + 1, s, i, woken, h => by
    unfold wakeLoop at h
    split at h
    · split at h
      next hb =>
        have hk : Keeps t s (s.update i .wake) := by
          refine .update t s i rfl rfl (.inr ?_)
          simp [hb.1, PNSchedThread.wake]
        exact hk.trans (wakeLoop_keeps h)
      next => exact wakeLoop_keeps h
    · cases h
      exact .refl t _

theorem futexWake_keeps {args : List PNRuntimeValue} {r : Nat}
    (h : pnBuiltinNaclIrtFutexWake s t args = .ok (r, e, s')) : Keeps t s s' := by
  obtain ⟨-, h⟩ := pnCheck_bind_eq_ok.mp h
  obtain ⟨⟨woken, s₁⟩, hl, h⟩ := bind_eq_ok.mp h
  obtain ⟨memory, -, h⟩ := bind_eq_ok.mp h
  cases h
  exact (wakeLoop_keeps hl).trans (.memory t s₁ memory)

theorem threadExit_keeps {args : List PNRuntimeValue} {r : Nat}
    (h : pnBuiltinNaclIrtThreadExit env s t args = .ok (r, e, s')) : Keeps t s s' := by
  obtain ⟨-, h⟩ := pnCheck_bind_eq_ok.mp h
  obtain ⟨-, h⟩ := pnCheck_bind_eq_ok.mp h
  by_cases hf : pnArg args 0 4 ≠ 0
  · rw [if_pos hf] at h
    obtain ⟨memory, -, h⟩ := bind_eq_ok.mp h
    cases h
    exact (Keeps.kill t s).trans (.memory t _ memory)
  · rw [if_neg hf] at h
    cases h
    exact .kill t s

theorem basicExit_keeps {args : List PNRuntimeValue} {r : Nat}
    (h : pnBuiltinNaclIrtBasicExit s t args = .ok (r, e, s')) : Keeps t s s' := by
  obtain ⟨-, h⟩ := pnCheck_bind_eq_ok.mp h
  cases h
  exact (Keeps.kill t s).trans (.exiting t _ true)

theorem setResult_keeps {id r : Nat} (h : setResult env s t id r = .ok s') : Keeps t s s' := by
  unfold setResult at h
  split at h
  · obtain ⟨-, h⟩ := cAssert_bind_eq_ok.mp h
    cases h
    exact .update t s t rfl rfl (.inl rfl)
  · cases h
    exact .refl t s

theorem advance_keeps (env : PNSchedEnv) (t : Nat) (s : PNSched) : Keeps t s (s.advance env t) := by
  unfold PNSched.advance
  split
  · exact .update t s t rfl rfl (.inl rfl)
  · exact .refl t s

theorem otherInst_keeps (env : PNSchedEnv) (o : PNOracle) (t : Nat) (s : PNSched) : Keeps t s (otherInst env o s t) := by
  unfold otherInst
  split
  next inst values memory _ =>
    exact (Keeps.update t s t rfl rfl (.inl rfl)).trans (.memory t _ memory)
  next => exact (Keeps.kill t s).trans (.exiting t _ _)
  next => exact (Keeps.kill t s).trans (.exiting t _ _)

/-- The new thread gets the values of its first frame and starts with the function's first instruction. -/
theorem startThread_eq {startFuncP : Nat} (h : startThread env o s n startFuncP = .ok s') :
    ∃ inst, s' = s.update n fun th => { th with inst := inst, values := o.startValues } := by
  obtain ⟨-, h⟩ := pnCheck_bind_eq_ok.mp h
  obtain ⟨-, h⟩ := pnCheck_bind_eq_ok.mp h
  by_cases hi : (env.ex.functions (startFuncP >>> 2 - PN_MAX_BUILTINS)).instructions = 0
  · rw [if_pos hi] at h
    cases h
  · rw [if_neg hi] at h
    exact ⟨_, (Except.ok.inj h).symm⟩

theorem startThread_keeps {startFuncP : Nat} (h : startThread env o s n startFuncP = .ok s') : Keeps t s s' := by
  obtain ⟨inst, rfl⟩ := startThread_eq h
  exact .update t s n rfl rfl (.inr .rfl)

/-- A builtin keeps the links, or it is THREAD_CREATE. -/
theorem callBuiltin_cases {functionId r : Nat} {args : List PNRuntimeValue}
    (h : callBuiltin env o s t functionId args = .ok (r, e, s')) :
    Keeps t s s' ∨ e = .quiet ∧ ∃ n s₁, takeThread o.malloc s = .ok (n, s₁) ∧ Keeps t (linkThread s₁ t n) s' := by
  unfold callBuiltin at h
  split at h
  · cases h
  split at h
  · exact .inl (basicExit_keeps h)
  split at h
  · obtain ⟨-, h⟩ := pnCheck_bind_eq_ok.mp h
    obtain ⟨⟨n, s₁⟩, ht, h⟩ := bind_eq_ok.mp h
    obtain ⟨s₂, hs, h⟩ := bind_eq_ok.mp h
    cases h
    exact .inr ⟨rfl, n, s₁, ht, startThread_keeps hs⟩
  split at h
  · exact .inl (threadExit_keeps h)
  split at h
  · exact .inl (futexWaitAbs_keeps h)
  split at h
  · exact .inl (futexWake_keeps h)
  · cases h
    exact .inl (.memory t s _)

/-- An instruction keeps the links, or it calls THREAD_CREATE. -/
theorem execute_cases (h : pnThreadExecuteInstruction env o s t = .ok (e, s')) :
    Keeps t s s' ∨ e = .quiet ∧ ∃ n s₁, takeThread o.malloc s = .ok (n, s₁) ∧ Keeps t (linkThread s₁ t n) s' := by
  unfold pnThreadExecuteInstruction at h
  split at h
  next functionId _ =>
    obtain ⟨⟨r, e', s₁⟩, hb, h⟩ := bind_eq_ok.mp h
    obtain ⟨s₂, hr, h⟩ := bind_eq_ok.mp h
    cases h
    have hk : Keeps t s₁ (s₂.advance env t) := (setResult_keeps hr).trans (advance_keeps env t s₂)
    rcases callBuiltin_cases hb with h | ⟨rfl, n, s₀, ht, h⟩
    · exact .inl (h.trans hk)
    · exact .inr ⟨rfl, n, s₀, ht, h.trans hk⟩
  next =>
    cases h
    exact .inl (otherInst_keeps env o t s)

/-! ## The invariant -/

/-- `malloc` answers ranges that overlap neither the chunks nor the `n` bytes at `p`. -/
structure MallocApart (p n : Nat) (malloc : Malloc) : Prop where
  ok : ∀ chunks, MallocOk (malloc chunks) chunks
  away : ∀ chunks size, malloc chunks size ≠ 0 → malloc chunks size + size ≤ p ∨ p + n ≤ malloc chunks size

/-- No chunk of the allocator overlaps the `n` bytes at `p`. -/
def ChunksApart (p n : Nat) (a : PNAllocator) : Prop := ∀ c ∈ a.chunks, c.endp ≤ p ∨ p + n ≤ c.addr

theorem alloc_apart {p n size align ret : Nat} {malloc : Malloc} {a a' : PNAllocator} (hm : MallocApart p n malloc)
    (ha : ChunksApart p n a) (h : pnAllocatorAlloc (malloc a.chunks) a size align = .ok (ret, a')) :
    ChunksApart p n a' := by
  intro c hc
  rcases alloc_chunks h hc with ⟨d, hd, haddr, hend⟩ | ⟨k, hne, haddr, hend⟩
  · rw [haddr, hend]
    exact ha d hd
  · have := (hm.ok a.chunks).range k hne
    have h64 : (malloc a.chunks k + k) % 2 ^ 64 = malloc a.chunks k + k := by
      unfold addressLimit at this
      omega
    rw [haddr, hend, h64]
    exact hm.away a.chunks k hne

/-- The threads but for the record `new`, if there is one that is taken: `ring` is the cycle of the live threads, `dead` the
list of dead ones. -/
structure Threads (env : PNSchedEnv) (s : PNSched) (ring : Cycle Nat) (dead new : List Nat) : Prop where
  links : Ring (fun x => (s.threads x).next) (fun x => (s.threads x).prev) ring
  start_mem : env.startThread ∈ ring
  list : Nexts (fun x => (s.threads x).next) 0 s.deadThreads dead
  list_nodup : dead.Nodup
  list_dead : ∀ x ∈ dead, (s.threads x).state = .dead
  disjoint : ∀ x ∈ dead, x ∉ ring
  created : ∀ x, x ∈ s.created ∨ x ∈ new ↔ x ∈ ring ∨ x ∈ dead ∨ x ∈ new
  allocator : s.allocator.Inv
  apart : ChunksApart env.startThread PNSchedThread.sizeof s.allocator
  allocated : ∀ x, x ∈ s.created ∨ x ∈ new →
    x = env.startThread ∨ PNBlock.AllocatedIn ⟨x, PNSchedThread.sizeof⟩ s.allocator

/-- The invariant of the threads between two instructions. -/
abbrev SchedInv (env : PNSchedEnv) (s : PNSched) (ring : Cycle Nat) (dead : List Nat) : Prop := Threads env s ring dead []

variable {ring : Cycle Nat} {dead : List Nat}

theorem SchedInv.mem_created (h : SchedInv env s ring dead) : x ∈ s.created ↔ x ∈ ring ∨ x ∈ dead := by
  simpa using h.created x

/-- Changes that keep the links keep the invariant, if the thread that died or came to life is on the ring. -/
theorem SchedInv.keeps (h : SchedInv env s ring dead) (ht : t ∈ ring) (hk : Keeps t s s') : SchedInv env s' ring dead where
  links := h.links.congr (fun x _ => hk.next x) (fun x _ => hk.prev x)
  start_mem := h.start_mem
  list := by
    rw [hk.deadThreads]
    exact h.list.congr fun x _ => hk.next x
  list_nodup := h.list_nodup
  list_dead := by
    intro x hx
    have hne : x ≠ t := fun e => h.disjoint x hx (e ▸ ht)
    exact (hk.dead x hne).mpr (h.list_dead x hx)
  disjoint := h.disjoint
  created := by
    rw [hk.created]
    exact h.created
  allocator := hk.allocator ▸ h.allocator
  apart := hk.allocator ▸ h.apart
  allocated := by
    rw [hk.created, hk.allocator]
    exact h.allocated

/-- The head of the dead threads is taken. -/
theorem SchedInv.takeDead {d : Nat} (h : SchedInv env s ring (d :: dead)) :
    d ∉ ring ∧ d ∉ dead ∧ Threads env { s with deadThreads := (s.threads d).next } ring dead [d] := by
  obtain ⟨hnd, hnd'⟩ := List.nodup_cons.mp h.list_nodup
  refine ⟨h.disjoint d (by simp), hnd, h.links, h.start_mem, h.list.2, hnd', fun x hx => ?_, fun x hx => ?_, fun x => ?_,
    h.allocator, h.apart, fun x hx => h.allocated x ?_⟩
  · exact h.list_dead x (List.mem_cons_of_mem _ hx)
  · exact h.disjoint x (List.mem_cons_of_mem _ hx)
  · simp only [h.mem_created, List.mem_cons, List.not_mem_nil, or_false]
    tauto
  · simp only [h.mem_created, List.mem_cons, List.not_mem_nil, or_false] at hx ⊢
    tauto

/-- A new record overlaps no other. -/
theorem SchedInv.allocThread {malloc : Malloc} {a : PNAllocator} (h : SchedInv env s ring dead)
    (hm : MallocApart env.startThread PNSchedThread.sizeof malloc)
    (hal : pnAllocatorAlloc (malloc s.allocator.chunks) s.allocator PNSchedThread.sizeof PN_DEFAULT_ALIGN = .ok (n, a)) :
    n ∉ ring ∧ n ∉ dead ∧ Threads env { s with allocator := a } ring dead [n] := by
  obtain ⟨hi, hx, hin, -, hdis⟩ := alloc_block h.allocator (hm.ok _) isAlign_eight (by decide) hal
  have hap := alloc_apart hm h.apart hal
  have hnew : n ∉ s.created := by
    intro hn
    rcases h.allocated n (.inl hn) with rfl | hb
    · obtain ⟨c, hc, hlo, hhi⟩ := hin
      have hcur := (hi.wf c hc).current_le
      simp only [PNSchedThread.sizeof, PNAllocatorChunk.sizeof] at hlo hhi
      rcases hap c hc with hap | hap
      · omega
      · simp only [PNSchedThread.sizeof] at hap
        omega
    · have hd := hdis _ hb
      simp only [PNBlock.Disjoint, PNSchedThread.sizeof] at hd
      omega
  rw [h.mem_created, not_or] at hnew
  refine ⟨hnew.1, hnew.2, h.links, h.start_mem, h.list, h.list_nodup, h.list_dead, h.disjoint, fun x => ?_, hi, hap,
    fun x hx' => ?_⟩
  · simp only [h.mem_created, or_assoc]
  · rcases hx' with hx' | hx'
    · exact (h.allocated x (.inl hx')).imp_right fun hb => hb.mono hx
    · rw [List.mem_singleton.mp hx']
      exact .inr hin

/-- A record for a new thread is on neither list. -/
theorem SchedInv.takeThread {malloc : Malloc} (h : SchedInv env s ring dead)
    (hm : MallocApart env.startThread PNSchedThread.sizeof malloc) (ht : takeThread malloc s = .ok (n, s')) :
    ∃ dead', s'.threads = s.threads ∧ n ∉ ring ∧ n ∉ dead' ∧ Threads env s' ring dead' [n] := by
  unfold Pnacl.takeThread at ht
  split at ht
  next h0 =>
    cases ht
    cases dead with
    | nil => exact absurd h.list h0
    | cons d dead' =>
      obtain rfl : s.deadThreads = d := h.list.1
      exact ⟨dead', rfl, h.takeDead⟩
  next h0 =>
    obtain ⟨⟨p, a⟩, hal, ht⟩ := bind_eq_ok.mp ht
    cases ht
    exact ⟨dead, rfl, h.allocThread hm hal⟩

theorem takeThread_created {malloc : Malloc} (ht : takeThread malloc s = .ok (n, s')) : s'.created = s.created := by
  unfold takeThread at ht
  split at ht
  · cases ht
    rfl
  · obtain ⟨⟨p, a⟩, -, ht⟩ := bind_eq_ok.mp ht
    cases ht
    rfl

/-- `new_thread` before it is linked: it runs and waits for nothing. -/
theorem freshThread_keeps (s : PNSched) (n id : Nat) :
    Keeps n s (s.update n fun th => { th with id := id, state := .running, futexState := .none }) :=
  .update n s n rfl rfl (.inl rfl)

/-- The links behind THREAD_CREATE. -/
theorem linkThread_links {s : PNSched} {t n : Nat} (hnt : n ≠ t) (x : Nat) :
    ((linkThread s t n).threads x).next = (if x = t then n else if x = n then (s.threads t).next else (s.threads x).next) ∧
    ((linkThread s t n).threads x).prev =
      (if x = (s.threads t).next then n else if x = n then t else (s.threads x).prev) := by
  have hk := freshThread_keeps s n s.nextThreadId
  unfold linkThread
  generalize (s.update n fun th => { th with id := s.nextThreadId, state := .running, futexState := .none }) = s₀ at hk ⊢
  simp [hk.next, hk.prev, hnt.symm]

/-- The states behind THREAD_CREATE. -/
theorem linkThread_state (s : PNSched) (t n x : Nat) :
    ((linkThread s t n).threads x).state = if x = n then .running else (s.threads x).state := by
  simp only [linkThread, PNSched.setNext_state, PNSched.setPrev_state, PNSched.update_threads]
  split
  · rfl
  · rfl

/-- The new thread is inserted behind the one that created it. -/
theorem Threads.link {l : List Nat} (h : Threads env s ↑(t :: l) dead [n]) (hn : n ∉ (↑(t :: l) : Cycle Nat))
    (hd : n ∉ dead) : SchedInv env (linkThread s t n) ↑(t :: n :: l) dead := by
  have hnl : n ∉ t :: l := hn
  have hnt : n ≠ t := List.ne_of_not_mem_cons hnl
  have hnext : (s.threads t).next ∈ (↑(t :: l) : Cycle Nat) := h.links.next_mem (t := t) (by simp [Cycle.mem_coe_iff])
  have hne : (s.threads t).next ≠ n := fun e => hn (e ▸ hnext)
  have hlk := linkThread_links (s := s) hnt
  have mem : ∀ x, x ∈ (↑(t :: n :: l) : Cycle Nat) ↔ x = n ∨ x ∈ (↑(t :: l) : Cycle Nat) := by
    intro x
    simp only [Cycle.mem_coe_iff, List.mem_cons]
    tauto
  refine ⟨?_, (mem _).mpr (.inr h.start_mem), ?_, h.list_nodup, fun x hx => ?_, fun x hx => ?_, fun x => ?_, h.allocator,
    h.apart, fun x hx => h.allocated x ?_⟩
  · refine h.links.insert hnl ?_ ?_ ?_ ?_ ?_ ?_
    · simp [hlk]
    · simp [hlk, hnt]
    · intro x hxt hxn
      simp [hlk, hxt, hxn]
    · simp [hlk, hne.symm]
    · simp [hlk]
    · intro x hxn hxt
      simp [hlk, hxn, hxt]
  · refine h.list.congr fun x hx => ?_
    have hxn : x ≠ n := fun e => hd (e ▸ hx)
    have hxt : x ≠ t := fun e => h.disjoint x hx (e ▸ by simp [Cycle.mem_coe_iff])
    simp [hlk, hxn, hxt]
  · have hxn : x ≠ n := fun e => hd (e ▸ hx)
    rw [linkThread_state, if_neg hxn]
    exact h.list_dead x hx
  · rw [mem, not_or]
    exact ⟨fun e => hd (e ▸ hx), h.disjoint x hx⟩
  · have hc := h.created x
    have : x ∈ (linkThread s t n).created ↔ x = n ∨ x ∈ s.created := List.mem_cons
    rw [this, mem]
    simp only [List.mem_singleton, List.not_mem_nil, or_false] at hc ⊢
    tauto
  · have : x ∈ (linkThread s t n).created ↔ x = n ∨ x ∈ s.created := List.mem_cons
    rw [this] at hx
    simp only [List.mem_singleton, List.not_mem_nil, or_false] at hx ⊢
    tauto

/-- The links behind the unlinking of a thread that is not alone. -/
theorem unlink_links {s : PNSched} {t : Nat} (hp : (s.threads t).prev ≠ t) (x : Nat) :
    ((s.unlink t).threads x).next =
      (if x = t then s.deadThreads else if x = (s.threads t).prev then (s.threads t).next else (s.threads x).next) ∧
    ((s.unlink t).threads x).prev =
      (if x = t then 0 else if x = (s.threads t).next then (s.threads t).prev else (s.threads x).prev) := by
  unfold PNSched.unlink
  simp [hp.symm]

@[simp] theorem unlink_state (s : PNSched) (t x : Nat) : ((s.unlink t).threads x).state = (s.threads x).state := by
  simp [PNSched.unlink]

theorem SchedInv.pos (h : SchedInv env s ring dead) (hx : x ∈ s.created) : 0 < x := by
  rcases h.allocated x (.inl hx) with rfl | ⟨c, -, hlo, -⟩
  · exact env.startThread_pos
  · simp only [PNAllocatorChunk.sizeof] at hlo
    omega

/-- A dead thread moves from the ring to the list of dead threads. -/
theorem SchedInv.unlink_cons {l : List Nat} (h : SchedInv env s ↑(t :: l) dead) (hs : t ≠ env.startThread)
    (hd : (s.threads t).state = .dead) : SchedInv env (s.unlink t) ↑l (t :: dead) := by
  have hstart : env.startThread ∈ l := by
    have := h.start_mem
    rw [Cycle.mem_coe_iff, List.mem_cons] at this
    exact this.resolve_left fun e => hs e.symm
  have hl : l ≠ [] := List.ne_nil_of_mem hstart
  obtain ⟨hnd, hc⟩ := ring_cons_iff.mp h.links
  have htl : t ∉ l := (List.nodup_cons.mp hnd).1
  obtain ⟨hn, hp⟩ := h.links.neighbours hl
  have hpt : (s.threads t).prev ≠ t := fun e => htl (e ▸ hp ▸ List.getLast_mem hl)
  have hnt : (s.threads t).next ≠ t := fun e => htl (e ▸ hn ▸ List.head_mem hl)
  have hlk := unlink_links hpt
  have mem : ∀ x, x ∈ (↑(t :: l) : Cycle Nat) ↔ x = t ∨ x ∈ (l : Cycle Nat) := fun x => List.mem_cons
  have hdead : ∀ x ∈ dead, x ≠ t ∧ x ∉ l := by
    intro x hx
    have := h.disjoint x hx
    rw [mem, not_or] at this
    exact this
  have hpl : (s.threads t).prev ∈ l := hp ▸ List.getLast_mem hl
  refine ⟨?_, hstart, ?_, ?_, ?_, ?_, ?_, h.allocator, h.apart, h.allocated⟩
  · refine h.links.remove hl ?_ ?_ ?_ ?_
    · simp [hlk, hpt]
    · intro x hxt hxp
      simp [hlk, hxt, hxp]
    · simp [hlk, hnt]
    · intro x hxt hxn
      simp [hlk, hxt, hxn]
  · refine ⟨rfl, ?_⟩
    simp only [(hlk _).1, if_true]
    refine h.list.congr fun x hx => ?_
    have hxp : x ≠ (s.threads t).prev := fun e => (hdead x hx).2 (e ▸ hpl)
    simp [(hdead x hx).1, hxp]
  · exact List.nodup_cons.mpr ⟨fun hx => (hdead t hx).1 rfl, h.list_nodup⟩
  · intro x hx
    rw [unlink_state]
    rcases List.mem_cons.mp hx with rfl | hx
    · exact hd
    · exact h.list_dead x hx
  · intro x hx
    rcases List.mem_cons.mp hx with rfl | hx
    · exact htl
    · exact (hdead x hx).2
  · intro x
    have hc := h.created x
    rw [mem] at hc
    have : (s.unlink t).created = s.created := rfl
    rw [this, List.mem_cons]
    tauto

theorem SchedInv.unlink (h : SchedInv env s ring dead) (ht : t ∈ ring) (hs : t ≠ env.startThread)
    (hd : (s.threads t).state = .dead) :
    ∃ ring', SchedInv env (s.unlink t) ring' (t :: dead) ∧ (s.threads t).next ∈ ring' ∧
      ∀ x, x ∈ ring ↔ x = t ∨ x ∈ ring' := by
  obtain ⟨l, rfl⟩ := exists_eq_cons_of_mem ht
  have hstart : env.startThread ∈ l := (List.mem_cons.mp h.start_mem).resolve_left hs.symm
  have hl : l ≠ [] := List.ne_nil_of_mem hstart
  refine ⟨l, h.unlink_cons hs hd, ?_, fun x => List.mem_cons⟩
  rw [(h.links.neighbours hl).1]
  exact List.head_mem hl

/-! ## Steps of any interleaving -/

/-- The thread is on the ring: `next` reaches it from the start thread. -/
def OnRing (env : PNSchedEnv) (s : PNSched) (t : Nat) : Prop :=
  ∃ k, (fun x => (s.threads x).next)^[k] env.startThread = t

theorem SchedInv.onRing_iff (h : SchedInv env s ring dead) : OnRing env s t ↔ t ∈ ring :=
  (h.links.mem_iff_iterate h.start_mem).symm

/-- `malloc` overlaps neither the executor's chunks nor its start thread. -/
abbrev SchedMalloc (env : PNSchedEnv) (malloc : Malloc) : Prop := MallocApart env.startThread PNSchedThread.sizeof malloc

/-- What can happen next when the threads of the ring are scheduled in any order: one that runs executes an instruction, a
blocked one times out, or a dead one is unlinked. -/
inductive SchedStep (env : PNSchedEnv) : PNSched → PNEvent → PNSched → Prop where
  | execute {s s' : PNSched} {t : Nat} {e : PNEvent} {o : PNOracle} : OnRing env s t → (s.threads t).state = .running →
      SchedMalloc env o.malloc → pnThreadExecuteInstruction env o s t = .ok (e, s') → SchedStep env s e s'
  | timeOut {s : PNSched} {t : Nat} {tv : PNTimeval} : OnRing env s t → (s.threads t).state = .blocked →
      (s.threads t).deadlinePassed tv = true → SchedStep env s (.timeout t) (s.timeOut t)
  | unlink {s : PNSched} {t : Nat} : OnRing env s t → (s.threads t).state = .dead → t ≠ env.startThread →
      SchedStep env s .quiet (s.unlink t)

/-- An instruction keeps the invariant; the threads that join the ring are those that it created, and they are alive. -/
theorem SchedInv.execute (h : SchedInv env s ring dead) (ht : t ∈ ring) (hm : SchedMalloc env o.malloc)
    (he : pnThreadExecuteInstruction env o s t = .ok (e, s')) :
    ∃ ring' dead' new, SchedInv env s' ring' dead' ∧ s'.created = new ++ s.created ∧
      (∀ x, x ∈ ring' ↔ x ∈ ring ∨ x ∈ new) ∧ (∀ x ∈ new, x ∉ ring) ∧
      ∀ x ∈ ring', x ≠ t → (s'.threads x).state = .dead → x ∈ ring ∧ (s.threads x).state = .dead := by
  rcases execute_cases he with hk | ⟨-, n, s₁, htake, hk⟩
  · exact ⟨ring, dead, [], h.keeps ht hk, hk.created, by simp, by simp,
      fun x hx hxt hxd => ⟨hx, (hk.dead x hxt).mp hxd⟩⟩
  · obtain ⟨dead', hthreads, hn, hd, h₁⟩ := h.takeThread hm htake
    obtain ⟨l, rfl⟩ := exists_eq_cons_of_mem ht
    have ht' : t ∈ (↑(t :: n :: l) : Cycle Nat) := by simp [Cycle.mem_coe_iff]
    have hmem : ∀ x, x ∈ (↑(t :: n :: l) : Cycle Nat) ↔ x ∈ (↑(t :: l) : Cycle Nat) ∨ x ∈ [n] := by
      intro x
      simp only [Cycle.mem_coe_iff, List.mem_cons, List.not_mem_nil, or_false]
      tauto
    have hcreated : s'.created = [n] ++ s.created := by
      rw [hk.created, ← takeThread_created htake]
      rfl
    refine ⟨_, dead', [n], (h₁.link hn hd).keeps ht' hk, hcreated, hmem, by simpa using hn, fun x hx hxt hxd => ?_⟩
    have hxd := (hk.dead x hxt).mp hxd
    rw [linkThread_state, hthreads] at hxd
    split at hxd
    next => cases hxd
    next hxn => exact ⟨((hmem x).mp hx).resolve_right (by simpa using hxn), hxd⟩

theorem timeOut_keeps (s : PNSched) (t : Nat) : Keeps t s (s.timeOut t) := .update t s t rfl rfl (.inl rfl)

/-- **Every step keeps the ring and the list of dead threads.** -/
theorem SchedInv.step (h : SchedInv env s ring dead) (hs : SchedStep env s e s') :
    ∃ ring' dead', SchedInv env s' ring' dead' := by
  cases hs with
  | execute ht _ hm he =>
    obtain ⟨ring', dead', -, h', -⟩ := h.execute (h.onRing_iff.mp ht) hm he
    exact ⟨ring', dead', h'⟩
  | timeOut ht _ _ => exact ⟨ring, dead, h.keeps (h.onRing_iff.mp ht) (timeOut_keeps _ _)⟩
  | unlink ht hd hs =>
    obtain ⟨ring', h', -⟩ := h.unlink (h.onRing_iff.mp ht) hs hd
    exact ⟨ring', _, h'⟩

/-! ## Runs of the executor -/

/-- The states of `pn_executor_run`, between any two turns of the loops of `pn_executor_run_step`. -/
inductive SchedReachable (env : PNSchedEnv) : PNRunState → Prop where
  | init {malloc : Malloc} {memory : PNMemory} {threads : Nat → PNSchedThread} {numWords : Nat}
      {values : Nat → PNRuntimeValue} {c : PNRunState} : SchedMalloc env malloc → numWords < 2 ^ 32 →
      pnExecutorInitSched env malloc memory threads numWords values = .ok c → SchedReachable env c
  | step {o : PNOracle} {tv : PNTimeval} {e : PNEvent} {c c' : PNRunState} : SchedReachable env c →
      SchedMalloc env o.malloc → c.step env o tv = .ok (e, c') → SchedReachable env c'

/-- The invariant of a run: the current thread is on the ring, no other one there is dead, and in the schedule loop it is
not dead either. -/
structure RunInv (env : PNSchedEnv) (c : PNRunState) (ring : Cycle Nat) (dead : List Nat) : Prop where
  sched : SchedInv env c.sched ring dead
  thread_mem : c.thread ∈ ring
  alive : ∀ x ∈ ring, (c.sched.threads x).state = .dead → x = c.thread ∧ c.phase ≠ .schedule

variable {c c' : PNRunState} {tv : PNTimeval}

theorem RunInv.endQuantum (h : RunInv env c ring dead) (he : endQuantum env c.sched c.thread = .ok c') :
    ∃ ring' dead', RunInv env c' ring' dead' := by
  unfold Pnacl.endQuantum at he
  split at he
  next =>
    cases he
    exact ⟨ring, dead, h.sched, h.thread_mem, fun x hx hd => ⟨(h.alive x hx hd).1, by simp⟩⟩
  next =>
    split at he
    next hd =>
      obtain ⟨hs, he⟩ := cAssert_bind_eq_ok.mp he
      cases he
      obtain ⟨ring', h', hnext, hmem⟩ := h.sched.unlink h.thread_mem hs hd
      refine ⟨ring', _, h', hnext, fun x hx hxd => ?_⟩
      rw [unlink_state] at hxd
      obtain rfl := (h.alive x ((hmem x).mpr (.inr hx)) hxd).1
      exact absurd hx (h'.disjoint _ (by simp))
    next hd =>
      cases he
      refine ⟨ring, dead, h.sched, h.sched.links.next_mem h.thread_mem, fun x hx hxd => ?_⟩
      obtain rfl := (h.alive x hx hxd).1
      exact absurd hxd hd

theorem RunInv.scheduleTurn (h : RunInv env c ring dead) (he : scheduleTurn tv c.sched c.thread = .ok (e, c')) :
    RunInv env c' ring dead := by
  obtain ⟨hnd, he⟩ := cAssert_bind_eq_ok.mp he
  have none_dead : ∀ x ∈ ring, (c.sched.threads x).state ≠ .dead := by
    intro x hx hxd
    obtain rfl := (h.alive x hx hxd).1
    exact hnd hxd
  split at he
  next =>
    cases he
    exact ⟨h.sched, h.thread_mem, fun x hx hxd => absurd hxd (none_dead x hx)⟩
  next =>
    split at he
    next =>
      cases he
      refine ⟨h.sched.keeps h.thread_mem (timeOut_keeps _ _), h.thread_mem, fun x hx hxd => ⟨?_, by simp⟩⟩
      by_contra hne
      exact none_dead x hx (((timeOut_keeps _ _).dead x hne).mp hxd)
    next =>
      cases he
      exact ⟨h.sched, h.sched.links.next_mem h.thread_mem, fun x hx hxd => absurd hxd (none_dead x hx)⟩

/-- One turn of the loops keeps the invariant. -/
theorem RunInv.step (h : RunInv env c ring dead) (hm : SchedMalloc env o.malloc) (hs : c.step env o tv = .ok (e, c')) :
    ∃ ring' dead', RunInv env c' ring' dead' := by
  unfold PNRunState.step at hs
  split at hs
  next i hi =>
    split at hs
    next hrun =>
      obtain ⟨⟨e', s'⟩, he, hs⟩ := bind_eq_ok.mp hs
      cases hs
      obtain ⟨ring', dead', new, h', -, hmem, -, halive⟩ := h.sched.execute h.thread_mem hm he
      refine ⟨ring', dead', h', (hmem _).mpr (.inl h.thread_mem), fun x hx hxd => ⟨?_, by simp⟩⟩
      by_contra hne
      obtain ⟨hx', hxd'⟩ := halive x hx hne hxd
      exact hne (h.alive x hx' hxd').1
    next =>
      obtain ⟨c₁, he, hs⟩ := bind_eq_ok.mp hs
      cases hs
      exact h.endQuantum he
  next => exact ⟨ring, dead, h.scheduleTurn hs⟩
  next =>
    cases hs
    exact ⟨ring, dead, h⟩

/-- `pn_executor_init` makes a ring of one thread. -/
theorem pnExecutorInitSched_inv {malloc : Malloc} {memory : PNMemory} {threads : Nat → PNSchedThread} {numWords : Nat}
    {values : Nat → PNRuntimeValue} (hm : SchedMalloc env malloc) (hw : numWords < 2 ^ 32)
    (hi : pnExecutorInitSched env malloc memory threads numWords values = .ok c) :
    RunInv env c ↑[env.startThread] [] := by
  obtain ⟨a₀, h₀, hi⟩ := bind_eq_ok.mp hi
  obtain ⟨⟨p₁, a₁⟩, h₁, hi⟩ := bind_eq_ok.mp hi
  obtain ⟨⟨p₂, a₂⟩, h₂, hi⟩ := bind_eq_ok.mp hi
  cases hi
  have i₀ := pnAllocatorInit_inv (by decide) h₀
  have n₀ : ChunksApart env.startThread PNSchedThread.sizeof a₀ := by
    obtain ⟨_, h₀⟩ := cAssert_bind_eq_ok.mp h₀
    obtain ⟨_, h₀⟩ := cAssert_bind_eq_ok.mp h₀
    cases h₀
    intro c hc
    cases hc
  obtain ⟨i₁, -⟩ := alloc_block i₀ (hm.ok _) ⟨⟨2, rfl⟩, by decide⟩ (by omega) h₁
  have hn := env.numValues_lt
  obtain ⟨i₂, -⟩ := alloc_block i₁ (hm.ok _) isAlign_eight (by unfold PNRuntimeValue.sizeof; omega) h₂
  have n₂ := alloc_apart hm (alloc_apart hm n₀ h₁) h₂
  have hstart : env.startThread ∈ (↑[env.startThread] : Cycle Nat) := by simp [Cycle.mem_coe_iff]
  refine ⟨⟨?_, hstart, rfl, .nil, by simp, by simp, ?_, i₂, n₂, ?_⟩, hstart, ?_⟩
  · rw [ring_cons_iff]
    simp
  · intro x
    simp [Cycle.mem_coe_iff]
  · intro x hx
    left
    simpa using hx
  · intro x hx hxd
    obtain rfl : x = env.startThread := by simpa [Cycle.mem_coe_iff] using hx
    simp at hxd

/-- Every reachable state has the invariant. -/
theorem SchedReachable.inv (h : SchedReachable env c) : ∃ ring dead, RunInv env c ring dead := by
  induction h with
  | init hm hw hi => exact ⟨_, _, pnExecutorInitSched_inv hm hw hi⟩
  | step _ hm hs ih =>
    obtain ⟨ring, dead, ih⟩ := ih
    exact ih.step hm hs

/-- Every turn of the executor's loops is a step of the threads in some order, or leaves them alone. -/
theorem PNRunState.step_refines (h : RunInv env c ring dead) (hm : SchedMalloc env o.malloc)
    (hs : c.step env o tv = .ok (e, c')) : (e = .quiet ∧ c'.sched = c.sched) ∨ SchedStep env c.sched e c'.sched := by
  have hon := h.sched.onRing_iff.mpr h.thread_mem
  unfold PNRunState.step at hs
  split at hs
  next i hi =>
    split at hs
    next hrun =>
      obtain ⟨⟨e', s'⟩, he, hs⟩ := bind_eq_ok.mp hs
      cases hs
      exact .inr (.execute hon hrun.2 hm he)
    next =>
      obtain ⟨c₁, he, hs⟩ := bind_eq_ok.mp hs
      cases hs
      unfold Pnacl.endQuantum at he
      split at he
      · cases he
        exact .inl ⟨rfl, rfl⟩
      split at he
      next hd =>
        obtain ⟨hne, he⟩ := cAssert_bind_eq_ok.mp he
        cases he
        exact .inr (.unlink hon hd hne)
      next =>
        cases he
        exact .inl ⟨rfl, rfl⟩
  next =>
    obtain ⟨hnd, hs⟩ := cAssert_bind_eq_ok.mp hs
    split at hs
    next =>
      cases hs
      exact .inl ⟨rfl, rfl⟩
    next hnr =>
      have hb : (c.sched.threads c.thread).state = .blocked := by
        cases hst : (c.sched.threads c.thread).state with
        | running => exact absurd hst hnr
        | blocked => rfl
        | dead => exact absurd hst hnd
      split at hs
      next htv =>
        cases hs
        exact .inr (.timeOut hon hb htv)
      next =>
        cases hs
        exact .inl ⟨rfl, rfl⟩
  next =>
    cases hs
    exact .inl ⟨rfl, rfl⟩

/-- The ring and the list of dead threads are what they should be: `l` lists the threads of the ring behind the start
thread, `dead` the dead ones. -/
def RingConsistent (env : PNSchedEnv) (c : PNRunState) : Prop :=
  ∃ l dead : List Nat,
    -- `next` visits every thread of the ring once and returns, and `prev` is its inverse
    (env.startThread :: l).Nodup ∧
    List.IsChain (fun x y => (c.sched.threads x).next = y ∧ (c.sched.threads y).prev = x)
      (env.startThread :: (l ++ [env.startThread])) ∧
    -- only the thread that is being stepped may be dead
    c.thread ∈ env.startThread :: l ∧
    (∀ x ∈ env.startThread :: l, (c.sched.threads x).state = .dead → x = c.thread) ∧
    -- the dead threads
    Nexts (fun x => (c.sched.threads x).next) 0 c.sched.deadThreads dead ∧ dead.Nodup ∧ 0 ∉ dead ∧
    (∀ x ∈ dead, x ∉ env.startThread :: l ∧ (c.sched.threads x).state = .dead) ∧
    -- both together are the threads ever created
    ∀ x, x ∈ c.sched.created ↔ x ∈ env.startThread :: l ∨ x ∈ dead

/-- **The scheduler's ring.** Between any two turns of the scheduler's loops, in every run, the threads form a consistent
ring and a disjoint list of dead threads. -/
theorem scheduler_ring (h : SchedReachable env c) : RingConsistent env c := by
  obtain ⟨ring, dead, hinv⟩ := h.inv
  obtain ⟨l, rfl⟩ := exists_eq_cons_of_mem hinv.sched.start_mem
  obtain ⟨hnd, hchain⟩ := ring_cons_iff.mp hinv.sched.links
  refine ⟨l, dead, hnd, hchain, hinv.thread_mem, fun x hx hd => (hinv.alive x hx hd).1, hinv.sched.list,
    hinv.sched.list_nodup, fun h0 => ?_, fun x hx => ⟨hinv.sched.disjoint x hx, hinv.sched.list_dead x hx⟩,
    fun x => hinv.sched.mem_created⟩
  exact absurd (hinv.sched.pos (hinv.sched.mem_created.mpr (.inr h0))) (by decide)

/-! ## A run with two threads -/

/-- Turns of the executor's loops. -/
def PNRunState.run (env : PNSchedEnv) : List (PNOracle × PNTimeval) → PNRunState → Except Stop PNRunState
  | [], c => .ok c
  | (o, tv) :: rest, c => do
    let (_, c) ← c.step env o tv
    PNRunState.run env rest c

theorem SchedReachable.run {os : List (PNOracle × PNTimeval)} (h : SchedReachable env c)
    (hm : ∀ o ∈ os, SchedMalloc env o.1.malloc) (hr : c.run env os = .ok c') : SchedReachable env c' := by
  induction os generalizing c with
  | nil =>
    cases hr
    exact h
  | cons o os ih =>
    obtain ⟨⟨e, c₁⟩, hs, hr⟩ := bind_eq_ok.mp hr
    have h₁ : SchedReachable env c₁ := .step h (hm o (by simp)) hs
    exact ih h₁ (fun o ho => hm o (List.mem_cons_of_mem _ ho)) hr

theorem schedFunctions_numValues (functionId : Nat) :
    (if functionId = 0 then (⟨1, 4, [], 8⟩ : PNRuntimeFunction) else ⟨1, 4, [], 100⟩).numValues < 2 ^ 32 := by
  split <;> decide

/-- The start thread creates a thread at `8` and waits at `36`; the new thread starts at `100`, where it exits. -/
def schedEnv : PNSchedEnv where
  ex := {
    numValues := 0
    moduleValues _ := 0
    numFunctions := 2
    functions functionId := if functionId = 0 then ⟨1, 4, [], 8⟩ else ⟨1, 4, [], 100⟩
    callAt inst := if inst = 100 then ⟨PN_INVALID_VALUE_ID, [1]⟩
      else if inst = 36 then ⟨PN_INVALID_VALUE_ID, [5, 2, 2]⟩ else ⟨PN_INVALID_VALUE_ID, [1, 2, 3]⟩
    sentinel := 64
    stackEnd := 65536
    startFunctionId := 0
    startinfoStart := 2048
    numFunctions_lt := demoExecutor.numFunctions_lt
    numValues_lt := schedFunctions_numValues }
  calleeAt inst := if inst = 36 then some 4 else some 0
  startThread := 4096
  numValues_lt := by decide
  startThread_pos := by decide

theorem demoMalloc_sched : SchedMalloc schedEnv demoMalloc where
  ok := demoMalloc_ok
  away chunks size h := by
    rw [demoMalloc_eq h]
    exact .inr (by decide)

/-- The values of the start thread: the callees THREAD_CREATE and FUTEX_WAIT_ABS, the new thread's function, and the address
of the futex. -/
def schedValues (valueId : Nat) : PNRuntimeValue :=
  if valueId = 0 then 172 else if valueId = 1 then 196 else if valueId = 4 then 184 else if valueId = 5 then 2048 else 0

/-- The new thread calls THREAD_EXIT without a stack flag. -/
def schedOracle : PNOracle where
  inst := .trap
  malloc := demoMalloc
  startValues valueId := if valueId = 0 then 176 else 0
  result := 0
  memory := demoMemory

/-- The start thread creates the other and blocks, the other exits and is unlinked. -/
def schedRun : Except Stop PNRunState := do
  let c ← pnExecutorInitSched schedEnv demoMalloc demoMemory (fun _ => ⟨0, 0, .dead, .none, 0, 0, false, 0, 0, 0, fun _ => 0⟩)
    1 schedValues
  c.run schedEnv (List.replicate 6 (schedOracle, ⟨0, 0⟩))

theorem scheduler_ring_two_threads : ∃ c, SchedReachable schedEnv c ∧ c.sched.created.length = 2 ∧
    c.sched.deadThreads ≠ 0 ∧ (c.sched.threads 4096).state = .blocked ∧ RingConsistent schedEnv c := by
  obtain ⟨c, hr, hobs⟩ := eq_ok_of_toOption (x := schedRun)
    (g := fun c => (c.sched.created.length, decide (c.sched.deadThreads ≠ 0), (c.sched.threads 4096).state))
    (b := (2, true, .blocked)) (by decide +kernel)
  obtain ⟨c₀, hi, hr⟩ := bind_eq_ok.mp hr
  simp only [Prod.mk.injEq, decide_eq_true_eq] at hobs
  have hreach : SchedReachable schedEnv c := by
    refine (SchedReachable.init demoMalloc_sched (by decide) hi).run ?_ hr
    intro o ho
    rw [List.eq_of_mem_replicate ho]
    exact demoMalloc_sched
  exact ⟨c, hreach, hobs.1, hobs.2.1, hobs.2.2, scheduler_ring hreach⟩

end Pnacl
