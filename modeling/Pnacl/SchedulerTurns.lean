import Pnacl.SchedulerRing

/-!
# Every thread has its turn

The ring is a queue: the thread at its front gives way to the one behind it at the end of its quantum, and a new thread is
put right behind the one that creates it. `waitTurns` counts the turns of the loops of `pn_executor_run_step` that the
threads in front of a thread can take before it is the current one.

- `Waits.step`: every turn makes that number smaller, except that a new thread adds its own turns;
- `Waits.run`: so does a run, by as much as it has turns;
- `thread_not_passed_over`: the turns that a run can pass over a thread of the ring are bounded by the number of threads.
-/

namespace Pnacl

open Lib

variable {env : PNSchedEnv} {s s' : PNSched} {c c' : PNRunState} {o : PNOracle} {tv : PNTimeval} {e : PNEvent}
  {t x y n : Nat} {a b l dead : List Nat}

/-- An instruction leaves the ring as it is, or puts the thread that it creates right behind its own. -/
theorem SchedInv.execute_cons (h : SchedInv env s ↑(t :: l) dead) (hm : SchedMalloc env o.malloc)
    (he : pnThreadExecuteInstruction env o s t = .ok (e, s')) :
    ∃ new dead', SchedInv env s' ↑(t :: (new ++ l)) dead' ∧ s'.created = new ++ s.created := by
  rcases execute_cases he with hk | ⟨-, n, s₁, htake, hk⟩
  · exact ⟨[], dead, h.keeps (by simp [Cycle.mem_coe_iff]) hk, hk.created⟩
  · obtain ⟨dead', -, hn, hd, h₁⟩ := h.takeThread hm htake
    refine ⟨[n], dead', (h₁.link hn hd).keeps (by simp [Cycle.mem_coe_iff]) hk, ?_⟩
    rw [hk.created, ← takeThread_created htake]
    rfl

/-- Seen from the next thread, the current one is the last of the ring. -/
theorem SchedInv.next_cons (h : SchedInv env s ↑(t :: y :: l) dead) :
    (s.threads t).next = y ∧ SchedInv env s ↑(y :: (l ++ [t])) dead := by
  refine ⟨(h.links.neighbours (List.cons_ne_nil y l)).1, ?_⟩
  have : (↑(y :: (l ++ [t])) : Cycle Nat) = ↑(t :: y :: l) := (Cycle.coe_cons_eq_coe_append (y :: l) t).symm
  rwa [this]

/-- No ring has more threads than were created. -/
theorem SchedInv.length_le (h : SchedInv env s ↑l dead) : l.length ≤ s.created.length := by
  have hnd : l.Nodup := h.links.nodup
  exact (List.subperm_of_subset hnd fun x hx => h.mem_created.mpr (.inl hx)).length_le

/-- No turn leads behind the end of the quantum. -/
theorem PNRunState.step_quantum_le {i : Nat} (hs : c.step env o tv = .ok (e, c')) (hi : c'.phase = .quantum i) :
    i ≤ PN_INSTRUCTIONS_QUANTUM := by
  unfold PNRunState.step at hs
  split at hs
  next j hj =>
    split at hs
    next hrun =>
      obtain ⟨⟨e', s'⟩, -, hs⟩ := bind_eq_ok.mp hs
      cases hs
      cases hi
      exact hrun.1
    next =>
      obtain ⟨c₁, he, hs⟩ := bind_eq_ok.mp hs
      cases hs
      unfold endQuantum at he
      split at he
      · cases he
        cases hi
      split at he
      · obtain ⟨-, he⟩ := cAssert_bind_eq_ok.mp he
        cases he
        cases hi
      · cases he
        cases hi
  next =>
    obtain ⟨-, hs⟩ := cAssert_bind_eq_ok.mp hs
    split at hs
    · cases hs
      cases hi
      exact Nat.zero_le _
    split at hs
    · cases hs
      cases hi
      exact Nat.zero_le _
    · cases hs
      cases hi
  next hc =>
    cases hs
    rw [hc] at hi
    cases hi

theorem SchedReachable.quantum_le (h : SchedReachable env c) {i : Nat} (hi : c.phase = .quantum i) :
    i ≤ PN_INSTRUCTIONS_QUANTUM := by
  cases h with
  | init _ _ h =>
    obtain ⟨_, -, h⟩ := bind_eq_ok.mp h
    obtain ⟨_, -, h⟩ := bind_eq_ok.mp h
    obtain ⟨_, -, h⟩ := bind_eq_ok.mp h
    cases h
    cases hi
    exact Nat.zero_le _
  | step _ _ hs => exact PNRunState.step_quantum_le hs hi

/-! ## The turns in front of a thread -/

/-- The turns of a thread: the schedule loop looks at it, the instructions of a quantum, and its end. -/
def turnsOfThread : Nat := PN_INSTRUCTIONS_QUANTUM + 2

/-- The turns that the current thread has left. -/
def PNPhase.turns : PNPhase → Nat
  | .quantum i => PN_INSTRUCTIONS_QUANTUM + 1 - i
  | .schedule => turnsOfThread
  | .exited => 0

@[simp] theorem PNPhase.turns_quantum (i : Nat) : (PNPhase.quantum i).turns = PN_INSTRUCTIONS_QUANTUM + 1 - i := rfl

@[simp] theorem PNPhase.turns_schedule : PNPhase.schedule.turns = turnsOfThread := rfl

/-- The turns left to the current thread and the threads `a` behind it. -/
def waitTurns (c : PNRunState) (a : List Nat) : Nat := c.phase.turns + turnsOfThread * a.length

/-- The thread waits on the ring: behind the current thread come the threads `a`, then `x`, then the threads `b`. -/
structure Waits (env : PNSchedEnv) (x : Nat) (c : PNRunState) (a b dead : List Nat) : Prop where
  sched : SchedInv env c.sched ↑(c.thread :: (a ++ x :: b)) dead
  quantum_le : ∀ i, c.phase = .quantum i → i ≤ PN_INSTRUCTIONS_QUANTUM

theorem SchedReachable.waits (h : SchedReachable env c) (hx : OnRing env c.sched x) (hc : c.thread ≠ x) :
    ∃ a b dead, Waits env x c a b dead := by
  obtain ⟨ring, dead, hinv⟩ := h.inv
  have hx := hinv.sched.onRing_iff.mp hx
  obtain ⟨l, rfl⟩ := exists_eq_cons_of_mem hinv.thread_mem
  have hxl : x ∈ l := (List.mem_cons.mp hx).resolve_left hc.symm
  obtain ⟨a, b, rfl⟩ := List.append_of_mem hxl
  exact ⟨a, b, dead, hinv.sched, fun i => h.quantum_le⟩

theorem Waits.onRing (h : Waits env x c a b dead) : OnRing env c.sched x := by
  rw [h.sched.onRing_iff]
  simp [Cycle.mem_coe_iff]

theorem Waits.turns_pos (h : Waits env x c a b dead) (hc : c.phase ≠ .exited) : 0 < c.phase.turns := by
  cases hp : c.phase with
  | quantum i =>
    have := h.quantum_le i hp
    simp only [PNPhase.turns_quantum]
    omega
  | schedule => exact Nat.succ_pos _
  | exited => exact absurd hp hc

/-- The current thread gives way, to another thread than `x`. It goes to the end of the ring, or leaves it when it is dead. -/
theorem Waits.giveWay (h : Waits env x c a b dead) (hx : (c.sched.threads c.thread).next ≠ x) :
    ∃ a', a.length = a'.length + 1 ∧
      Waits env x ⟨c.sched, (c.sched.threads c.thread).next, .schedule⟩ a' (b ++ [c.thread]) dead ∧
      (c.thread ≠ env.startThread → (c.sched.threads c.thread).state = .dead →
        Waits env x ⟨c.sched.unlink c.thread, (c.sched.threads c.thread).next, .schedule⟩ a' b (c.thread :: dead)) := by
  cases a with
  | nil => exact absurd h.sched.next_cons.1 hx
  | cons y a' =>
    obtain ⟨hy, hs⟩ := h.sched.next_cons
    rw [hy]
    refine ⟨a', rfl, ⟨?_, fun i hi => ?_⟩, fun ht hd => ⟨h.sched.unlink_cons ht hd, fun i hi => ?_⟩⟩
    · simpa using hs
    · cases hi
    · cases hi

/-- **One turn.** It makes the turns in front of the thread less, but for those of the threads that it creates. -/
theorem Waits.step (h : Waits env x c a b dead) (hm : SchedMalloc env o.malloc) (hs : c.step env o tv = .ok (e, c'))
    (hx : c'.thread ≠ x) (hc : c'.phase ≠ .exited) :
    ∃ a' b' dead', Waits env x c' a' b' dead' ∧
      waitTurns c' a' + 1 + turnsOfThread * c.sched.created.length ≤
        waitTurns c a + turnsOfThread * c'.sched.created.length := by
  have hq : ∀ i, c'.phase = .quantum i → i ≤ PN_INSTRUCTIONS_QUANTUM := fun i => PNRunState.step_quantum_le hs
  unfold PNRunState.step at hs
  split at hs
  next i hi =>
    split at hs
    next hrun =>
      obtain ⟨⟨e', s'⟩, he, hs⟩ := bind_eq_ok.mp hs
      cases hs
      obtain ⟨new, dead', h', hnew⟩ := h.sched.execute_cons hm he
      refine ⟨new ++ a, b, dead', ⟨by simpa using h', hq⟩, ?_⟩
      have := hrun.1
      simp only [waitTurns, hi, PNPhase.turns_quantum, hnew, List.length_append, Nat.mul_add]
      omega
    next =>
      obtain ⟨c₁, he, hs⟩ := bind_eq_ok.mp hs
      cases hs
      have hpos := h.turns_pos (by simp [hi])
      unfold endQuantum at he
      split at he
      · cases he
        exact absurd rfl hc
      split at he
      next hd =>
        obtain ⟨ht, he⟩ := cAssert_bind_eq_ok.mp he
        cases he
        obtain ⟨a', ha, -, h'⟩ := h.giveWay hx
        refine ⟨a', b, _, h' ht hd, ?_⟩
        have hcreated : (c.sched.unlink c.thread).created = c.sched.created := rfl
        simp only [waitTurns, PNPhase.turns_schedule, ha, Nat.mul_add, hcreated]
        omega
      next =>
        cases he
        obtain ⟨a', ha, h', -⟩ := h.giveWay hx
        refine ⟨a', _, dead, h', ?_⟩
        simp only [waitTurns, PNPhase.turns_schedule, ha, Nat.mul_add]
        omega
  next hi =>
    obtain ⟨-, hs⟩ := cAssert_bind_eq_ok.mp hs
    split at hs
    · cases hs
      refine ⟨a, b, dead, ⟨h.sched, hq⟩, ?_⟩
      simp only [waitTurns, hi, PNPhase.turns_schedule, PNPhase.turns_quantum, turnsOfThread]
      omega
    split at hs
    · cases hs
      refine ⟨a, b, dead, ⟨h.sched.keeps (by simp [Cycle.mem_coe_iff]) (timeOut_keeps _ _), hq⟩, ?_⟩
      have hcreated : (c.sched.timeOut c.thread).created = c.sched.created := rfl
      simp only [waitTurns, hi, PNPhase.turns_schedule, PNPhase.turns_quantum, turnsOfThread, hcreated]
      omega
    · cases hs
      obtain ⟨a', ha, h', -⟩ := h.giveWay hx
      refine ⟨a', _, dead, h', ?_⟩
      simp only [waitTurns, hi, PNPhase.turns_schedule, ha, Nat.mul_add, turnsOfThread]
      omega
  next hi =>
    cases hs
    exact absurd hi hc

/-- A run of so many turns in which the thread is never the current one and the executor does not exit. -/
inductive PassedOver (env : PNSchedEnv) (x : Nat) : PNRunState → Nat → PNRunState → Prop where
  | start {c : PNRunState} : c.thread ≠ x → c.phase ≠ .exited → PassedOver env x c 0 c
  | turn {c c' c'' : PNRunState} {n : Nat} {o : PNOracle} {tv : PNTimeval} {e : PNEvent} : PassedOver env x c n c' →
      SchedMalloc env o.malloc → c'.step env o tv = .ok (e, c'') → c''.thread ≠ x → c''.phase ≠ .exited →
      PassedOver env x c (n + 1) c''

theorem PassedOver.thread_ne (h : PassedOver env x c n c') : c.thread ≠ x := by
  induction h with
  | start hx _ => exact hx
  | turn _ _ _ _ _ ih => exact ih

theorem PassedOver.phase_ne (h : PassedOver env x c n c') : c'.phase ≠ .exited := by
  cases h with
  | start _ hc => exact hc
  | turn _ _ _ _ hc => exact hc

/-- A run of `n` turns makes the turns in front of the thread less by `n`, but for those of the threads that it creates. -/
theorem Waits.run (h : Waits env x c a b dead) (hr : PassedOver env x c n c') :
    ∃ a' b' dead', Waits env x c' a' b' dead' ∧
      waitTurns c' a' + n + turnsOfThread * c.sched.created.length ≤
        waitTurns c a + turnsOfThread * c'.sched.created.length := by
  induction hr with
  | start _ _ => exact ⟨a, b, dead, h, Nat.le_refl _⟩
  | turn _ hm hs hx hc ih =>
    obtain ⟨a₁, b₁, dead₁, h₁, hle₁⟩ := ih
    obtain ⟨a₂, b₂, dead₂, h₂, hle₂⟩ := h₁.step hm hs hx hc
    exact ⟨a₂, b₂, dead₂, h₂, by omega⟩

/-- The threads in front of one that waits have no more turns than one turn of each of the other threads. -/
theorem Waits.waitTurns_le (h : Waits env x c a b dead) :
    waitTurns c a + turnsOfThread ≤ turnsOfThread * c.sched.created.length := by
  have hlen : a.length + 2 ≤ c.sched.created.length := by
    have := h.sched.length_le
    simp only [List.length_cons, List.length_append] at this
    omega
  have hturns : c.phase.turns ≤ turnsOfThread := by
    cases c.phase with
    | quantum i =>
      simp only [PNPhase.turns_quantum, turnsOfThread]
      omega
    | schedule => exact Nat.le_refl _
    | exited => exact Nat.zero_le _
  calc waitTurns c a + turnsOfThread
      ≤ turnsOfThread + turnsOfThread * a.length + turnsOfThread :=
        Nat.add_le_add_right (Nat.add_le_add_right hturns _) _
    _ = turnsOfThread * (a.length + 2) := by ring
    _ ≤ turnsOfThread * c.sched.created.length := Nat.mul_le_mul_left _ hlen

/-- **No thread is passed over.** As long as a thread of the ring is not the current one it stays on the ring, and it is the
current one after less turns than a quantum, its end and one look of the schedule loop for each other thread that was
created until then. -/
theorem thread_not_passed_over (h : SchedReachable env c) (hx : OnRing env c.sched x) (hr : PassedOver env x c n c') :
    OnRing env c'.sched x ∧ n < (PN_INSTRUCTIONS_QUANTUM + 2) * (c'.sched.created.length - 1) := by
  obtain ⟨a, b, dead, hw⟩ := h.waits hx hr.thread_ne
  obtain ⟨a', b', dead', hw', hle⟩ := hw.run hr
  have hpos := hw'.turns_pos hr.phase_ne
  have hbound := hw.waitTurns_le
  refine ⟨hw'.onRing, ?_⟩
  have : waitTurns c' a' + n + turnsOfThread ≤ turnsOfThread * c'.sched.created.length := by omega
  rw [Nat.mul_sub, Nat.mul_one]
  simp only [waitTurns, turnsOfThread] at this hpos
  omega

/-- Two turns behind the hand-over to the thread that the start thread created, before that thread exits. -/
def turnsRun : Except Stop (PNRunState × PNRunState × PNRunState) := do
  let c ← pnExecutorInitSched schedEnv demoMalloc demoMemory (fun _ => ⟨0, 0, .dead, .none, 0, 0, false, 0, 0, 0, fun _ => 0⟩)
    1 schedValues
  let c ← c.run schedEnv (List.replicate 3 (schedOracle, ⟨0, 0⟩))
  let (_, c₁) ← c.step schedEnv schedOracle ⟨0, 0⟩
  let (_, c₂) ← c₁.step schedEnv schedOracle ⟨0, 0⟩
  .ok (c, c₁, c₂)

theorem thread_not_passed_over_start : ∃ c c', SchedReachable schedEnv c ∧ PassedOver schedEnv 4096 c 2 c' ∧
    OnRing schedEnv c'.sched 4096 ∧ 2 < (PN_INSTRUCTIONS_QUANTUM + 2) * (c'.sched.created.length - 1) := by
  obtain ⟨⟨c, c₁, c₂⟩, hr, hobs⟩ := eq_ok_of_toOption (x := turnsRun)
    (g := fun r => (r.1.thread, r.1.phase, r.2.1.thread, r.2.1.phase, r.2.2.thread, r.2.2.phase))
    (b := (131104, .schedule, 131104, .quantum 0, 131104, .quantum 1)) (by decide +kernel)
  obtain ⟨c₀, hi, hr⟩ := bind_eq_ok.mp hr
  obtain ⟨c', hrun, hr⟩ := bind_eq_ok.mp hr
  obtain ⟨⟨e₁, d₁⟩, h₁, hr⟩ := bind_eq_ok.mp hr
  obtain ⟨⟨e₂, d₂⟩, h₂, hr⟩ := bind_eq_ok.mp hr
  cases hr
  simp only [Prod.mk.injEq] at hobs
  obtain ⟨ht, hp, ht₁, hp₁, ht₂, hp₂⟩ := hobs
  have hreach : SchedReachable schedEnv c := by
    refine (SchedReachable.init demoMalloc_sched (by decide) hi).run ?_ hrun
    intro o ho
    rw [List.eq_of_mem_replicate ho]
    exact demoMalloc_sched
  have hpass : PassedOver schedEnv 4096 c 2 c₂ := by
    refine .turn (.turn (.start ?_ ?_) demoMalloc_sched h₁ ?_ ?_) demoMalloc_sched h₂ ?_ ?_
    · simp [ht]
    · simp [hp]
    · simp [ht₁]
    · simp [hp₁]
    · simp [ht₂]
    · simp [hp₂]
  exact ⟨c, c₂, hreach, hpass, thread_not_passed_over hreach ⟨0, rfl⟩ hpass⟩

end Pnacl
