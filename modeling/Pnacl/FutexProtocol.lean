import Pnacl.Scheduler

/-!
# The protocol of a futex wait

What a thread may do around a wait, as an automaton over the events of the futex builtins (`WaitPhase.after`), and what the
phase that a list of events leads to says about these events (`waitPhase_history`).
-/

namespace Pnacl

variable {t : Nat} {e : PNEvent}

/-- Where a thread is in a wait: in none, or blocked by the call at `inst` on an address, or allowed to run again by a wake or
by a timeout. -/
inductive WaitPhase where
  | idle
  | blocked (inst addr : Nat)
  | woken (inst addr : Nat)
  | timedOut (inst addr : Nat)
deriving Repr, DecidableEq

/-- What a wake of thread `u` on `addr` does to a thread `t` that it selects. -/
def WaitPhase.wake (t u addr : Nat) : WaitPhase → Option WaitPhase
  | .blocked inst a => if a = addr ∧ u ≠ t then some (.woken inst a) else none
  | _ => none

/-- What a timeout does. -/
def WaitPhase.timeout : WaitPhase → Option WaitPhase
  | .blocked inst addr => some (.timedOut inst addr)
  | _ => none

/-- How a wait at `inst` returns. -/
def WaitPhase.ret (inst result : Nat) : WaitPhase → Option WaitPhase
  | .woken i _ => if i = inst ∧ result = 0 then some .idle else none
  | .timedOut i _ => if i = inst ∧ result = PN_ETIMEDOUT then some .idle else none
  | _ => none

/-- Only a thread that waits for nothing starts a wait. -/
def WaitPhase.start : WaitPhase → WaitPhase → Option WaitPhase
  | .idle, p => some p
  | _, _ => none

/-- The protocol of thread `t`, as an automaton over events; `none` is a violation. -/
def WaitPhase.after (t : Nat) (p : WaitPhase) : PNEvent → Option WaitPhase
  | .quiet => some p
  | .waitAgain t' _ _ _ => if t' = t then p.start .idle else some p
  | .waitBlock t' inst addr _ => if t' = t then p.start (.blocked inst addr) else some p
  | .waitReturn t' inst result => if t' = t then p.ret inst result else some p
  | .wake u addr _ _ sel => if t ∈ sel then p.wake t u addr else some p
  | .timeout t' => if t' = t then p.timeout else some p

/-- The phase of thread `t` after the events, oldest first. -/
def waitPhase (t : Nat) (es : List PNEvent) : Option WaitPhase := es.foldlM (fun p e => p.after t e) .idle

theorem waitPhase_snoc (t : Nat) (es : List PNEvent) (e : PNEvent) :
    waitPhase t (es ++ [e]) = (waitPhase t es).bind fun p => p.after t e := by
  simp [waitPhase, List.foldlM_append]

/-- The events by which `t` starts or ends a wait. -/
def PNEvent.IsWaitOf (t : Nat) : PNEvent → Prop
  | .waitAgain t' _ _ _ | .waitBlock t' _ _ _ | .waitReturn t' _ _ => t' = t
  | _ => False

/-- A wake on `addr` by another thread selected `t`. -/
def PNEvent.Wakes (t addr : Nat) : PNEvent → Prop
  | .wake u a _ _ woken => u ≠ t ∧ a = addr ∧ t ∈ woken
  | _ => False

/-- A wake selected `t`, whoever called it. -/
def PNEvent.Selects (t : Nat) : PNEvent → Prop
  | .wake _ _ _ _ woken => t ∈ woken
  | _ => False

/-- The last wait of `t` blocked at `inst` on `addr`, and `mid` are the events since. -/
def Pending (t inst addr : Nat) (es mid : List PNEvent) : Prop :=
  (∃ pre value, es = pre ++ .waitBlock t inst addr value :: mid) ∧ ∀ e ∈ mid, ¬e.IsWaitOf t

/-- Every wait of `t` that blocked has returned. -/
def Settled (t : Nat) (es : List PNEvent) : Prop :=
  ∀ pre inst addr value mid, es = pre ++ .waitBlock t inst addr value :: mid → ∃ inst r, .waitReturn t inst r ∈ mid

/-- What a phase says about the events that led to it. -/
def WaitPhase.History (t : Nat) (es : List PNEvent) : WaitPhase → Prop
  | .idle => Settled t es
  | .blocked inst addr => ∃ mid, Pending t inst addr es mid ∧ .timeout t ∉ mid ∧ ∀ e ∈ mid, ¬e.Selects t
  | .woken inst addr => ∃ mid, Pending t inst addr es mid ∧ .timeout t ∉ mid ∧ ∃ e ∈ mid, e.Wakes t addr
  | .timedOut inst addr => ∃ mid, Pending t inst addr es mid ∧ .timeout t ∈ mid ∧ ∀ e ∈ mid, ¬e.Selects t

theorem Pending.snoc {inst addr : Nat} {es mid : List PNEvent} (h : Pending t inst addr es mid) (he : ¬e.IsWaitOf t) :
    Pending t inst addr (es ++ [e]) (mid ++ [e]) := by
  obtain ⟨⟨pre, value, rfl⟩, hmid⟩ := h
  refine ⟨⟨pre, value, by simp⟩, fun e' he' => ?_⟩
  rcases List.mem_append.mp he' with he' | he'
  · exact hmid e' he'
  · rw [List.mem_singleton.mp he']
    exact he

/-- A block in front of one more event is that event, or a block in front. -/
theorem block_snoc {es pre mid : List PNEvent} {b : PNEvent} (h : es ++ [e] = pre ++ b :: mid) :
    e = b ∨ ∃ mid', mid = mid' ++ [e] ∧ es = pre ++ b :: mid' := by
  rcases List.eq_nil_or_concat mid with rfl | ⟨mid', e', rfl⟩
  · exact .inl (List.singleton_inj.mp (List.append_inj_right' h (by simp)))
  · have h : es ++ [e] = (pre ++ b :: mid') ++ [e'] := by simpa using h
    obtain ⟨hes, he⟩ := List.append_inj' h rfl
    rw [List.singleton_inj.mp he]
    exact .inr ⟨mid', by simp, hes⟩

theorem Settled.snoc {es : List PNEvent} (h : Settled t es) (he : ∀ inst addr value, e ≠ .waitBlock t inst addr value) :
    Settled t (es ++ [e]) := by
  intro pre inst addr value mid heq
  rcases block_snoc heq with h' | ⟨mid', rfl, rfl⟩
  · exact absurd h' (he inst addr value)
  · obtain ⟨i, r, hr⟩ := h pre inst addr value mid' rfl
    exact ⟨i, r, List.mem_append_left _ hr⟩

/-- A return settles its thread. -/
theorem settled_return (t i r : Nat) (es : List PNEvent) : Settled t (es ++ [.waitReturn t i r]) := by
  intro pre inst addr value mid heq
  rcases block_snoc heq with h' | ⟨mid', rfl, -⟩
  · cases h'
  · exact ⟨i, r, by simp⟩

/-- Events that do not concern `t` keep what its phase says. -/
theorem WaitPhase.History.snoc {p : WaitPhase} {es : List PNEvent} (h : p.History t es) (hw : ¬e.IsWaitOf t)
    (hs : ¬e.Selects t) (ht : e ≠ .timeout t) : p.History t (es ++ [e]) := by
  have hsel : ∀ {mid : List PNEvent}, (∀ e ∈ mid, ¬e.Selects t) → ∀ e' ∈ mid ++ [e], ¬e'.Selects t := by
    intro mid hm e' he'
    rcases List.mem_append.mp he' with he' | he'
    · exact hm e' he'
    · rw [List.mem_singleton.mp he']
      exact hs
  have hto : ∀ {mid : List PNEvent}, .timeout t ∉ mid → .timeout t ∉ mid ++ [e] := by
    intro mid hm he'
    rcases List.mem_append.mp he' with he' | he'
    · exact hm he'
    · exact ht (List.mem_singleton.mp he').symm
  cases p with
  | idle => exact Settled.snoc h fun inst addr value he => hw (he ▸ rfl)
  | blocked inst addr =>
    obtain ⟨mid, hp, h₁, h₂⟩ := h
    exact ⟨mid ++ [e], hp.snoc hw, hto h₁, hsel h₂⟩
  | woken inst addr =>
    obtain ⟨mid, hp, h₁, e', he', hwk⟩ := h
    exact ⟨mid ++ [e], hp.snoc hw, hto h₁, e', List.mem_append_left _ he', hwk⟩
  | timedOut inst addr =>
    obtain ⟨mid, hp, h₁, h₂⟩ := h
    exact ⟨mid ++ [e], hp.snoc hw, List.mem_append_left _ h₁, hsel h₂⟩

/-- The automaton reads off what the events say. -/
theorem WaitPhase.history_after {p p' : WaitPhase} {es : List PNEvent} (h : p.History t es) (ha : p.after t e = some p') :
    p'.History t (es ++ [e]) := by
  cases e with
  | quiet =>
    obtain rfl : p = p' := by simpa [WaitPhase.after] using ha
    exact h.snoc (by simp [PNEvent.IsWaitOf]) (by simp [PNEvent.Selects]) (by simp)
  | waitAgain t' inst addr value =>
    simp only [WaitPhase.after] at ha
    split at ha
    next ht =>
      subst ht
      cases p with
      | idle =>
        obtain rfl := Option.some.inj ha
        exact Settled.snoc h (by simp)
      | _ => cases ha
    next ht =>
      obtain rfl := Option.some.inj ha
      exact h.snoc ht (by simp [PNEvent.Selects]) (by simp)
  | waitBlock t' inst addr value =>
    simp only [WaitPhase.after] at ha
    split at ha
    next ht =>
      subst ht
      cases p with
      | idle =>
        obtain rfl := Option.some.inj ha
        exact ⟨[], ⟨⟨es, value, rfl⟩, by simp⟩, by simp, by simp⟩
      | _ => cases ha
    next ht =>
      obtain rfl := Option.some.inj ha
      exact h.snoc ht (by simp [PNEvent.Selects]) (by simp)
  | waitReturn t' inst result =>
    simp only [WaitPhase.after] at ha
    split at ha
    next ht =>
      subst ht
      have hidle : p' = .idle := by
        cases p <;> simp [WaitPhase.ret] at ha <;> exact ha.2.symm
      rw [hidle]
      exact settled_return t' inst result es
    next ht =>
      obtain rfl := Option.some.inj ha
      exact h.snoc ht (by simp [PNEvent.Selects]) (by simp)
  | wake u addr nwake countP sel =>
    simp only [WaitPhase.after] at ha
    split at ha
    next ht =>
      cases p with
      | blocked inst a =>
        simp only [WaitPhase.wake] at ha
        split at ha
        next hu =>
          obtain rfl := Option.some.inj ha
          obtain ⟨mid, hp, h₁, -⟩ := h
          refine ⟨mid ++ [.wake u addr nwake countP sel], hp.snoc (by simp [PNEvent.IsWaitOf]), by simpa using h₁,
            .wake u addr nwake countP sel, by simp, ?_⟩
          exact ⟨hu.2, hu.1.symm, ht⟩
        next => cases ha
      | _ => cases ha
    next ht =>
      obtain rfl := Option.some.inj ha
      exact h.snoc (by simp [PNEvent.IsWaitOf]) ht (by simp)
  | timeout t' =>
    simp only [WaitPhase.after] at ha
    split at ha
    next ht =>
      subst ht
      cases p with
      | blocked inst a =>
        obtain rfl := Option.some.inj ha
        obtain ⟨mid, hp, -, h₂⟩ := h
        refine ⟨mid ++ [.timeout t'], hp.snoc (by simp [PNEvent.IsWaitOf]), by simp, fun e' he' => ?_⟩
        rcases List.mem_append.mp he' with he' | he'
        · exact h₂ e' he'
        · rw [List.mem_singleton.mp he']
          simp [PNEvent.Selects]
      | _ => cases ha
    next ht =>
      obtain rfl := Option.some.inj ha
      exact h.snoc (by simp [PNEvent.IsWaitOf]) (by simp [PNEvent.Selects]) (by simpa using ht)

/-- The phase of a run and its events. -/
theorem waitPhase_history {es : List PNEvent} {p : WaitPhase} (h : waitPhase t es = some p) : p.History t es := by
  induction es using List.reverseRecOn generalizing p with
  | nil =>
    obtain rfl : WaitPhase.idle = p := by simpa [waitPhase] using h
    intro pre inst addr value mid heq
    simp at heq
  | append_singleton es e ih =>
    rw [waitPhase_snoc, Option.bind_eq_some_iff] at h
    obtain ⟨q, hq, ha⟩ := h
    exact WaitPhase.history_after (ih hq) ha

end Pnacl
