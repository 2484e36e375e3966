import Pnacl.SchedulerRing

/-!
# Deadlock

The schedule loop of `pn_executor_run_step` goes round the ring until it finds a thread that it can run, and nothing else ends it.

- `RunInv.step_schedule`: one turn of the loop, which stops at the thread or goes on to the next one;
- `RunInv.deadlock_run`: when no thread can be scheduled, the loop goes round forever and changes nothing;
- `schedule_ends_iff`: the loop can end exactly when a thread of the ring runs or waits with a deadline.
-/

namespace Pnacl

open Lib

/-- The schedule loop can stop at the thread: it runs, or it waits with a deadline. -/
def Schedulable (s : PNSched) (x : Nat) : Prop := (s.threads x).state = .running ∨ (s.threads x).hasTimeout = true

/-- A clock behind the deadline of the thread. -/
def PNSchedThread.late (th : PNSchedThread) : PNTimeval := ⟨th.timeoutSec + 1, 0⟩

/-- No instruction is executed in the schedule loop, so that the answers of the machine do not matter. -/
def idleOracle : PNOracle := ⟨.trap, fun _ _ => 0, fun _ => 0, 0, ⟨fun _ => 0, 0⟩⟩

/-- The state when the schedule loop has passed the thread. -/
def PNRunState.pass (c : PNRunState) : PNRunState := ⟨c.sched, (c.sched.threads c.thread).next, .schedule⟩

variable {env : PNSchedEnv} {c c' : PNRunState} {ring : Cycle Nat} {dead : List Nat}

theorem PNSchedThread.deadlinePassed_late {th : PNSchedThread} (h : th.hasTimeout = true) : th.deadlinePassed th.late = true := by
  simp [PNSchedThread.deadlinePassed, PNSchedThread.late, h]

theorem PNSchedThread.deadlinePassed_of_not {th : PNSchedThread} (h : ¬th.hasTimeout = true) (tv : PNTimeval) :
    ¬th.deadlinePassed tv = true := by
  simp [PNSchedThread.deadlinePassed, h]

theorem RunInv.pass (h : RunInv env c ring dead) (hp : c.phase = .schedule) : RunInv env c.pass ring dead :=
  ⟨h.sched, h.sched.links.next_mem h.thread_mem, fun x hx hd => absurd hp (h.alive x hx hd).2⟩

/-- One turn of the schedule loop. -/
theorem RunInv.step_schedule (h : RunInv env c ring dead) (hp : c.phase = .schedule) (o : PNOracle) (tv : PNTimeval) :
    c.step env o tv =
      if (c.sched.threads c.thread).state = .running then .ok (.quiet, ⟨c.sched, c.thread, .quantum 0⟩)
      else if (c.sched.threads c.thread).deadlinePassed tv then
        .ok (.timeout c.thread, ⟨c.sched.timeOut c.thread, c.thread, .quantum 0⟩)
      else .ok (.quiet, c.pass) := by
  have hnd : (c.sched.threads c.thread).state ≠ .dead := fun hd => (h.alive _ h.thread_mem hd).2 hp
  rw [PNRunState.step, hp]
  dsimp only
  rw [Pnacl.scheduleTurn, cAssert_bind hnd]
  rfl

/-- **Deadlock.** When no thread of the ring can be scheduled, every run goes on in the schedule loop and changes nothing. -/
theorem RunInv.deadlock_run (hnone : ∀ x ∈ ring, ¬Schedulable c.sched x) (h : RunInv env c ring dead) (hp : c.phase = .schedule)
    (os : List (PNOracle × PNTimeval)) : ∃ c', c.run env os = .ok c' ∧ c'.sched = c.sched ∧ c'.phase = .schedule := by
  induction os generalizing c with
  | nil => exact ⟨c, rfl, rfl, hp⟩
  | cons o os ih =>
    obtain ⟨hrun, htimeout⟩ := not_or.mp (hnone _ h.thread_mem)
    have hpass : c.step env o.1 o.2 = .ok (.quiet, c.pass) := by
      rw [h.step_schedule hp, if_neg hrun, if_neg (PNSchedThread.deadlinePassed_of_not htimeout o.2)]
    obtain ⟨c', hr, hsched, hphase⟩ := ih (c := c.pass) hnone (h.pass hp) rfl
    refine ⟨c', ?_, hsched, hphase⟩
    rw [PNRunState.run, hpass, ok_bind]
    exact hr

/-- With a late clock the loop ends at a thread that can be scheduled, `k` places behind the current one, or before it. -/
theorem RunInv.schedule_ends : ∀ (k : Nat) {c : PNRunState}, RunInv env c ring dead → c.phase = .schedule →
    Schedulable c.sched ((fun x => (c.sched.threads x).next)^[k] c.thread) →
    ∃ os c', c.run env os = .ok c' ∧ c'.phase ≠ .schedule
  | k, c, h, hp, hx => by
    have hstep := h.step_schedule hp idleOracle (c.sched.threads ((fun x => (c.sched.threads x).next)^[k] c.thread)).late
    generalize htv : (c.sched.threads ((fun x => (c.sched.threads x).next)^[k] c.thread)).late = tv at hstep
    by_cases hrun : (c.sched.threads c.thread).state = .running
    · rw [if_pos hrun] at hstep
      refine ⟨[(idleOracle, tv)], ⟨c.sched, c.thread, .quantum 0⟩, ?_, by simp⟩
      rw [PNRunState.run, hstep]
      rfl
    rw [if_neg hrun] at hstep
    by_cases hlate : (c.sched.threads c.thread).deadlinePassed tv = true
    · rw [if_pos hlate] at hstep
      refine ⟨[(idleOracle, tv)], ⟨c.sched.timeOut c.thread, c.thread, .quantum 0⟩, ?_, by simp⟩
      rw [PNRunState.run, hstep]
      rfl
    rw [if_neg hlate] at hstep
    cases k with
    | zero =>
      rcases hx with hx | hx
      · exact absurd hx hrun
      · exact absurd (htv ▸ PNSchedThread.deadlinePassed_late hx) hlate
    | succ k =>
      obtain ⟨os, c', hr, hc⟩ := RunInv.schedule_ends k (h.pass hp) rfl hx
      refine ⟨(idleOracle, tv) :: os, c', ?_, hc⟩
      rw [PNRunState.run, hstep]
      exact hr

/-- **The schedule loop ends** for some answers of the clock if and only if a thread of the ring runs or waits with a deadline. -/
theorem schedule_ends_iff (h : SchedReachable env c) (hp : c.phase = .schedule) :
    (∃ os c', c.run env os = .ok c' ∧ c'.phase ≠ .schedule) ↔ ∃ x, OnRing env c.sched x ∧ Schedulable c.sched x := by
  obtain ⟨ring, dead, hinv⟩ := h.inv
  constructor
  · rintro ⟨os, c', hr, hc⟩
    by_contra hnone
    have hring : ∀ x ∈ ring, ¬Schedulable c.sched x := fun x hx hs => hnone ⟨x, hinv.sched.onRing_iff.mpr hx, hs⟩
    obtain ⟨c'', hr', -, hp'⟩ := RunInv.deadlock_run hring hinv hp os
    obtain rfl := Except.ok.inj (hr.symm.trans hr')
    exact hc hp'
  · rintro ⟨x, hx, hs⟩
    obtain ⟨k, rfl⟩ := (hinv.sched.links.mem_iff_iterate hinv.thread_mem).mp (hinv.sched.onRing_iff.mp hx)
    exact hinv.schedule_ends k hp hs

/-- The start thread waits without a deadline, and the other thread has exited. -/
theorem schedule_never_ends : ∃ c, SchedReachable schedEnv c ∧ c.phase = .schedule ∧
    ¬∃ os c', c.run schedEnv os = .ok c' ∧ c'.phase ≠ .schedule := by
  obtain ⟨c, hr, hobs⟩ := eq_ok_of_toOption (x := schedRun)
    (g := fun c => (c.phase, (c.sched.threads 4096).next, (c.sched.threads 4096).state, (c.sched.threads 4096).hasTimeout))
    (b := (.schedule, 4096, .blocked, false)) (by decide +kernel)
  obtain ⟨c₀, hi, hr⟩ := bind_eq_ok.mp hr
  simp only [Prod.mk.injEq] at hobs
  obtain ⟨hp, hnext, hstate, htimeout⟩ := hobs
  have hreach : SchedReachable schedEnv c := by
    refine (SchedReachable.init demoMalloc_sched (by decide) hi).run ?_ hr
    intro o ho
    rw [List.eq_of_mem_replicate ho]
    exact demoMalloc_sched
  refine ⟨c, hreach, hp, fun hends => ?_⟩
  obtain ⟨x, ⟨k, hk⟩, hs⟩ := (schedule_ends_iff hreach hp).mp hends
  rw [Function.iterate_fixed hnext] at hk
  subst hk
  rcases hs with hs | hs
  · rw [show schedEnv.startThread = 4096 from rfl, hstate] at hs
    cases hs
  · rw [show schedEnv.startThread = 4096 from rfl, htimeout] at hs
    cases hs

end Pnacl
