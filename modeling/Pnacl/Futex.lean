import Pnacl.SchedulerRing
import Pnacl.FutexProtocol
import Pnacl.PageMap

/-!
# Futex waits and wakes

FUTEX_WAIT_ABS blocks its thread and is called again when the thread runs again; FUTEX_WAKE and the scheduler's timeout
say by `futex_state` how the second call returns.

- `wakeLoop_spec`: the loop of FUTEX_WAKE unblocks the first `nwake` threads behind its own that wait for the address;
- `FutexInv`: the thread records are in the phase of the protocol that the events so far led to; every step keeps this
  (`FutexInv.step`);
- `futex_wait_wake`: what the events of a run say about waits and wakes.
-/

namespace Pnacl

open Lib

variable {env : PNSchedEnv} {s s' : PNSched} {t n x : Nat} {e : PNEvent} {o : PNOracle} {ring : Cycle Nat} {dead : List Nat}

/-! ## What the instructions do to the waits -/

/-- A value is stored at `id`, if that is one. -/
def storeResult (values : Nat → PNRuntimeValue) (id result : Nat) : Nat → PNRuntimeValue :=
  if id ≠ PN_INVALID_VALUE_ID then Function.update values id (.ofNat result) else values

theorem setResult_spec {id r : Nat} (h : setResult env s t id r = .ok s') :
    s'.threads t = { s.threads t with values := storeResult (s.threads t).values id r } ∧
      (∀ x, x ≠ t → s'.threads x = s.threads x) ∧ s'.memory = s.memory := by
  unfold setResult at h
  unfold storeResult
  split at h
  next hid =>
    obtain ⟨-, h⟩ := cAssert_bind_eq_ok.mp h
    cases h
    rw [if_pos hid]
    exact ⟨by simp, fun x hx => by simp [hx], rfl⟩
  next hid =>
    cases h
    rw [if_neg hid]
    exact ⟨rfl, fun _ _ => rfl, rfl⟩

theorem advance_spec (env : PNSchedEnv) (s : PNSched) (t : Nat) :
    (s.advance env t).threads t = { s.threads t with
      inst := (s.threads t).inst + if (s.threads t).state = .running then (env.ex.callAt (s.threads t).inst).size else 0 } ∧
      (∀ x, x ≠ t → (s.advance env t).threads x = s.threads x) ∧ (s.advance env t).memory = s.memory := by
  unfold PNSched.advance
  split
  next => exact ⟨by simp, fun x hx => by simp [hx], rfl⟩
  next => exact ⟨rfl, fun _ _ => rfl, rfl⟩

/-- The record of a thread behind its call of a builtin that returned `r` and left it as `th`. -/
def behindCall (env : PNSchedEnv) (i : PNRuntimeInstructionCall) (th : PNSchedThread) (r : Nat) : PNSchedThread :=
  { th with
    inst := th.inst + if th.state = .running then (env.ex.callAt th.inst).size else 0
    values := storeResult th.values i.resultValueId r }

/-- The arguments of the call that the thread executes. -/
def callArgs (env : PNSchedEnv) (s : PNSched) (t : Nat) : List PNRuntimeValue :=
  (env.ex.callAt (s.threads t).inst).argIds.map (s.threads t).values

/-- `PN_OPCODE_CALL` of a builtin: the builtin, then the result is stored, and a thread that runs goes on. -/
theorem opcodeCallBuiltin_spec {f : Nat} (h : opcodeCallBuiltin env o s t f = .ok (e, s')) :
    ∃ r s₁, callBuiltin env o s t f (callArgs env s t) = .ok (r, e, s₁) ∧
      s'.threads t = behindCall env (env.ex.callAt (s.threads t).inst) (s₁.threads t) r ∧
      (∀ x, x ≠ t → s'.threads x = s₁.threads x) ∧ s'.memory = s₁.memory ∧ s'.created = s₁.created := by
  obtain ⟨⟨r, e', s₁⟩, hb, h⟩ := bind_eq_ok.mp h
  obtain ⟨s₂, hr, h⟩ := bind_eq_ok.mp h
  cases h
  obtain ⟨ht, hx, hm⟩ := setResult_spec hr
  obtain ⟨ht', hx', hm'⟩ := advance_spec env s₂ t
  have hcreated := ((setResult_keeps hr).trans (advance_keeps env t s₂)).created
  refine ⟨r, s₁, hb, ?_, fun x hne => (hx' x hne).trans (hx x hne), hm'.trans hm, hcreated⟩
  rw [ht', ht]
  rfl

/-- Only the links of a record changed. -/
def LinksOnly (th th' : PNSchedThread) : Prop := th' = { th with next := th'.next, prev := th'.prev }

theorem LinksOnly.refl (th : PNSchedThread) : LinksOnly th th := rfl

theorem LinksOnly.trans {a b c : PNSchedThread} (h : LinksOnly a b) (h' : LinksOnly b c) : LinksOnly a c := by
  unfold LinksOnly at h h' ⊢
  rw [h] at h'
  exact h'

theorem setNext_linksOnly (s : PNSched) (t p x : Nat) : LinksOnly (s.threads x) ((s.setNext t p).threads x) := by
  unfold LinksOnly PNSched.setNext
  by_cases h : x = t
  · subst h
    simp
  · simp [h]

theorem setPrev_linksOnly (s : PNSched) (t p x : Nat) : LinksOnly (s.threads x) ((s.setPrev t p).threads x) := by
  unfold LinksOnly PNSched.setPrev
  by_cases h : x = t
  · subst h
    simp
  · simp [h]

theorem linkThread_fresh (s : PNSched) (t n x : Nat) :
    LinksOnly ((s.update n fun th => { th with id := s.nextThreadId, state := .running, futexState := .none }).threads x)
      ((linkThread s t n).threads x) := by
  unfold linkThread
  exact (((setNext_linksOnly _ _ _ _).trans (setPrev_linksOnly _ _ _ _)).trans (setPrev_linksOnly _ _ _ _)).trans
    (setNext_linksOnly _ _ _ _)

theorem linkThread_linksOnly (s : PNSched) (t : Nat) (hx : x ≠ n) :
    LinksOnly (s.threads x) ((linkThread s t n).threads x) := by
  have h := linkThread_fresh s t n x
  rw [PNSched.update_threads, if_neg hx] at h
  exact h

/-- The new thread itself runs and waits for nothing. -/
theorem linkThread_new (s : PNSched) (t n : Nat) :
    ((linkThread s t n).threads n).state = .running ∧ ((linkThread s t n).threads n).futexState = .none := by
  have h := linkThread_fresh s t n n
  rw [PNSched.update_threads, if_pos rfl] at h
  rw [h]
  exact ⟨rfl, rfl⟩

theorem unlink_linksOnly (s : PNSched) (t x : Nat) : LinksOnly (s.threads x) ((s.unlink t).threads x) := by
  unfold PNSched.unlink
  exact (((setNext_linksOnly _ _ _ _).trans (setPrev_linksOnly _ _ _ _)).trans (setNext_linksOnly _ _ _ _)).trans
    (setPrev_linksOnly _ _ _ _)

/-- What an instruction of `t` that is no wait and no wake does to the thread records: its own thread does not block, another
one changes its links only, and the threads `new` that it created wait for nothing. -/
structure Bystander (t : Nat) (new : List Nat) (ths ths' : Nat → PNSchedThread) : Prop where
  futexState : (ths' t).futexState = (ths t).futexState
  state : (ths t).state ≠ .blocked → (ths' t).state ≠ .blocked
  others : ∀ x, x ≠ t → x ∉ new → LinksOnly (ths x) (ths' x)
  joined : ∀ x ∈ new, (ths' x).state = .running ∧ (ths' x).futexState = .none

theorem Bystander.refl (t : Nat) (ths : Nat → PNSchedThread) : Bystander t [] ths ths :=
  ⟨rfl, id, fun _ _ _ => rfl, fun _ h => by cases h⟩

theorem Bystander.kill (s : PNSched) (t : Nat) : Bystander t [] s.threads (s.kill t).threads :=
  ⟨by simp [PNSched.kill], fun _ => by simp [PNSched.kill], fun x hx _ => by simp [PNSched.kill, hx, LinksOnly],
    fun _ h => by cases h⟩

theorem otherInst_bystander (env : PNSchedEnv) (o : PNOracle) (s : PNSched) (t : Nat) :
    Bystander t [] s.threads (otherInst env o s t).threads := by
  unfold otherInst
  split
  · exact ⟨by simp, fun h => by simpa using h, fun x hx _ => by simp [hx, LinksOnly], fun _ h => by cases h⟩
  · exact .kill s t
  · exact .kill s t

theorem threadExit_bystander {args : List PNRuntimeValue} {r : Nat}
    (h : pnBuiltinNaclIrtThreadExit env s t args = .ok (r, e, s')) :
    e = .quiet ∧ Bystander t [] s.threads s'.threads := by
  obtain ⟨-, h⟩ := pnCheck_bind_eq_ok.mp h
  obtain ⟨-, h⟩ := pnCheck_bind_eq_ok.mp h
  by_cases hf : pnArg args 0 4 ≠ 0
  · rw [if_pos hf] at h
    obtain ⟨memory, -, h⟩ := bind_eq_ok.mp h
    cases h
    exact ⟨rfl, .kill s t⟩
  · rw [if_neg hf] at h
    cases h
    exact ⟨rfl, .kill s t⟩

theorem basicExit_bystander {args : List PNRuntimeValue} {r : Nat}
    (h : pnBuiltinNaclIrtBasicExit s t args = .ok (r, e, s')) : e = .quiet ∧ Bystander t [] s.threads s'.threads := by
  obtain ⟨-, h⟩ := pnCheck_bind_eq_ok.mp h
  cases h
  exact ⟨rfl, .kill s t⟩

theorem threadCreate_bystander {args : List PNRuntimeValue} {r : Nat}
    (h : pnBuiltinNaclIrtThreadCreate env o s t args = .ok (r, e, s')) :
    e = .quiet ∧ ∃ n s₁, takeThread o.malloc s = .ok (n, s₁) ∧ s'.created = n :: s.created ∧
      (n ≠ t → s₁.threads = s.threads → Bystander t [n] s.threads s'.threads) := by
  obtain ⟨-, h⟩ := pnCheck_bind_eq_ok.mp h
  obtain ⟨⟨n, s₁⟩, htake, h⟩ := bind_eq_ok.mp h
  obtain ⟨s₂, hs, h⟩ := bind_eq_ok.mp h
  cases h
  obtain ⟨inst, rfl⟩ := startThread_eq hs
  refine ⟨rfl, n, s₁, htake, takeThread_created htake ▸ rfl, fun hnt hth => ?_⟩
  have hl : ∀ x, x ≠ n → LinksOnly (s.threads x) ((linkThread s₁ t n).threads x) :=
    fun x hx => hth ▸ linkThread_linksOnly s₁ t hx
  obtain ⟨hn₁, hn₂⟩ := linkThread_new s₁ t n
  refine ⟨?_, fun hb => ?_, fun x hxt hxn => ?_, fun x hx => ?_⟩
  · rw [PNSched.update_threads, if_neg hnt.symm, hl t hnt.symm]
  · rw [PNSched.update_threads, if_neg hnt.symm, hl t hnt.symm]
    exact hb
  · have hxn : x ≠ n := by simpa using hxn
    rw [PNSched.update_threads, if_neg hxn]
    exact hl x hxn
  · obtain rfl := List.mem_singleton.mp hx
    simp [hn₁, hn₂]

/-! ## FUTEX_WAKE -/

/-- The thread is blocked on the address. -/
def PNSchedThread.blockedOn (th : PNSchedThread) (addr : Nat) : Bool := decide (th.state = .blocked ∧ th.waitAddr = addr)

theorem update_wake_next (s : PNSched) (y x : Nat) : ((s.update y .wake).threads x).next = (s.threads x).next := by
  rw [PNSched.update_threads]
  split
  next h =>
    rw [h]
    rfl
  next => rfl

/-- The loop of FUTEX_WAKE over the threads `rest` up to its own thread `t`: the first ones that are blocked on the address
are woken, until `nwake` are. -/
theorem wakeLoop_spec (addrP nwake : Nat) {rest : List Nat} : ∀ {fuel : Nat} {s : PNSched} {i : Nat} (woken : List Nat),
    List.IsChain (fun x y => (s.threads x).next = y) (rest ++ [t]) → (rest ++ [t]).head? = some i → t ∉ rest → rest.Nodup →
    rest.length < fuel →
    ∃ sel s', sel = (rest.filter fun x => (s.threads x).blockedOn addrP).take (nwake - woken.length) ∧
      wakeLoop t addrP nwake fuel s i woken = .ok (woken ++ sel, s') ∧ s'.memory = s.memory ∧
      ∀ x, s'.threads x = if x ∈ sel then (s.threads x).wake else s.threads x := by
  induction rest with
  | nil =>
    intro fuel s i woken _ hi _ _ hf
    obtain ⟨fuel, rfl⟩ := Nat.exists_eq_add_one.mpr hf
    obtain rfl : t = i := by simpa using hi
    refine ⟨[], s, by simp, ?_, rfl, fun x => by simp⟩
    simp [wakeLoop]
  | cons y rest ih =>
    intro fuel s i woken hc hi ht hnd hf
    obtain rfl : y = i := by simpa using hi
    obtain ⟨fuel, rfl⟩ := Nat.exists_eq_add_one.mpr (Nat.zero_lt_of_lt hf)
    have hyt : y ≠ t := fun h => ht (h ▸ List.mem_cons_self ..)
    have ht' : t ∉ rest := List.not_mem_of_not_mem_cons ht
    obtain ⟨hyr, hnd⟩ := List.nodup_cons.mp hnd
    have hf' : rest.length < fuel := by simpa using hf
    rw [List.cons_append] at hc
    have hnext : (rest ++ [t]).head? = some (s.threads y).next := by
      obtain ⟨z, zs, hz⟩ := List.exists_cons_of_ne_nil (show rest ++ [t] ≠ [] by simp)
      rw [hz] at hc ⊢
      rw [(List.isChain_cons_cons.mp hc).1]
      rfl
    have hc' : List.IsChain (fun x y => (s.threads x).next = y) (rest ++ [t]) := hc.tail
    unfold wakeLoop
    by_cases hlt : woken.length < nwake
    · rw [if_pos ⟨hyt, hlt⟩]
      by_cases hb : (s.threads y).state = .blocked ∧ (s.threads y).waitAddr = addrP
      · rw [if_pos hb]
        have hchain : List.IsChain (fun x y' => ((s.update y .wake).threads x).next = y') (rest ++ [t]) :=
          hc'.imp fun x z h => (update_wake_next s y x).trans h
        obtain ⟨sel, s', hsel, hl, hm, hx⟩ := ih (woken ++ [y]) hchain hnext ht' hnd hf'
        -- the rest of the loop does not look at `y` again
        have hfilter : rest.filter (fun x => ((s.update y .wake).threads x).blockedOn addrP) =
            rest.filter fun x => (s.threads x).blockedOn addrP := by
          refine List.filter_congr fun x hx => ?_
          have hxy : x ≠ y := fun h => hyr (h ▸ hx)
          rw [PNSched.update_threads, if_neg hxy]
        rw [hfilter, List.length_append, List.length_singleton] at hsel
        have hysel : y ∉ sel := by
          rw [hsel]
          exact fun h => hyr (List.mem_of_mem_filter (List.mem_of_mem_take h))
        refine ⟨y :: sel, s', ?_, ?_, hm, fun x => ?_⟩
        · have hby : (s.threads y).blockedOn addrP = true := decide_eq_true hb
          rw [List.filter_cons, if_pos hby, show nwake - woken.length = (nwake - (woken.length + 1)) + 1 by omega,
            List.take_succ_cons, hsel]
        · rw [hl, List.append_assoc]
          rfl
        · rw [hx x, PNSched.update_threads]
          by_cases hxy : x = y
          · subst hxy
            simp [hysel]
          · simp [hxy]
      · rw [if_neg hb]
        obtain ⟨sel, s', hsel, hl, hm, hx⟩ := ih woken hc' hnext ht' hnd hf'
        refine ⟨sel, s', ?_, hl, hm, hx⟩
        have hby : ¬(s.threads y).blockedOn addrP = true := by simpa [PNSchedThread.blockedOn] using hb
        rw [List.filter_cons, if_neg hby]
        exact hsel
    · rw [if_neg fun h => hlt h.2]
      have h0 : nwake - woken.length = 0 := by omega
      refine ⟨[], s, by simp [h0], by simp, rfl, fun x => by simp⟩

/-- The other threads that are blocked on the address. -/
def blockedOthers (s : PNSched) (t addr : Nat) : Finset Nat :=
  s.created.toFinset.filter fun x => x ≠ t ∧ (s.threads x).blockedOn addr

/-- What FUTEX_WAKE does, from the event it leaves. -/
structure WakeOk (s s' : PNSched) (t addrP nwake countP : Nat) (woken : List Nat) : Prop where
  nodup : woken.Nodup
  blocked : ∀ x ∈ woken, x ≠ t ∧ x ∈ s.created ∧ (s.threads x).state = .blocked ∧ (s.threads x).waitAddr = addrP
  threads : ∀ x, s'.threads x = if x ∈ woken then (s.threads x).wake else s.threads x
  length : woken.length = min nwake (blockedOthers s t addrP).card
  count : loadBytes s'.memory.data countP 4 = woken.length

theorem futexWake_spec {args : List PNRuntimeValue} {r : Nat} (h : SchedInv env s ring dead) (ht : t ∈ ring)
    (hw : pnBuiltinNaclIrtFutexWake s t args = .ok (r, e, s')) :
    ∃ woken, e = .wake t (pnArg args 0 4) (pnArg args 1 4) (pnArg args 2 4) woken ∧
      WakeOk s s' t (pnArg args 0 4) (pnArg args 1 4) (pnArg args 2 4) woken := by
  obtain ⟨l, rfl⟩ := exists_eq_cons_of_mem ht
  obtain ⟨hnd, hc⟩ := ring_cons_iff.mp h.links
  obtain ⟨htl, hndl⟩ := List.nodup_cons.mp hnd
  obtain ⟨-, hw⟩ := pnCheck_bind_eq_ok.mp hw
  have hhead : (l ++ [t]).head? = some (s.threads t).next := by
    obtain ⟨z, zs, hz⟩ := List.exists_cons_of_ne_nil (show l ++ [t] ≠ [] by simp)
    rw [hz] at hc ⊢
    rw [(List.isChain_cons_cons.mp hc).1.1]
    rfl
  have hlen : l.length < s.created.length + 1 := by
    have hsub : l ⊆ s.created := fun x hx => h.mem_created.mpr (.inl (List.mem_cons_of_mem _ hx))
    have := (hndl.subperm hsub).length_le
    omega
  obtain ⟨sel, s₁, hsel, hl, hm, hx⟩ := wakeLoop_spec (pnArg args 0 4) (pnArg args 1 4) []
    (hc.tail.imp fun _ _ h => h.1) hhead htl hndl hlen
  obtain ⟨p, hloop, hw⟩ := bind_eq_ok.mp hw
  obtain rfl := Except.ok.inj (hl.symm.trans hloop)
  obtain ⟨memory, hwr, hw⟩ := bind_eq_ok.mp hw
  cases hw
  simp only [List.nil_append, List.length_nil, Nat.sub_zero] at hsel hwr ⊢
  have hmem : ∀ x ∈ sel, x ∈ l ∧ (s.threads x).blockedOn (pnArg args 0 4) = true := by
    intro x hx
    rw [hsel] at hx
    exact List.mem_filter.mp (List.mem_of_mem_take hx)
  -- a thread that is blocked is not dead, so it is on the ring
  have hothers : blockedOthers s t (pnArg args 0 4) =
      (l.filter fun x => (s.threads x).blockedOn (pnArg args 0 4)).toFinset := by
    ext x
    simp only [blockedOthers, Finset.mem_filter, List.mem_toFinset, List.mem_filter, h.mem_created]
    constructor
    · rintro ⟨hr | hd, hxt, hb⟩
      · exact ⟨(List.mem_cons.mp hr).resolve_left hxt, hb⟩
      · have := (of_decide_eq_true hb).1
        rw [h.list_dead x hd] at this
        cases this
    · rintro ⟨hl, hb⟩
      exact ⟨.inl (List.mem_cons_of_mem _ hl), fun e => htl (e ▸ hl), hb⟩
  have hlength : sel.length = min (pnArg args 1 4) (blockedOthers s t (pnArg args 0 4)).card := by
    rw [hothers, List.toFinset_card_of_nodup (hndl.filter _), hsel, List.length_take]
  refine ⟨sel, rfl, ?_, fun x hx => ?_, hx, hlength, ?_⟩
  · rw [hsel]
    exact (List.take_sublist _ _).nodup (hndl.filter _)
  · obtain ⟨hxl, hb⟩ := hmem x hx
    have hxt : x ≠ t := fun e => htl (e ▸ hxl)
    exact ⟨hxt, h.mem_created.mpr (.inl (List.mem_cons_of_mem _ hxl)), of_decide_eq_true hb⟩
  · obtain ⟨_, -, hwr⟩ := bind_eq_ok.mp hwr
    cases hwr
    have := pnArg_lt args 1
    rw [loadBytes_storeBytes, Nat.mod_eq_of_lt (by omega)]

/-! ## The thread records follow the protocol -/

/-- The next instruction calls FUTEX_WAIT_ABS again; where the result of the call is stored over its callee, the call fails. -/
def AtWait (env : PNSchedEnv) (th : PNSchedThread) : Prop :=
  calleeBuiltin env th = some PN_BUILTIN_NACL_IRT_FUTEX_WAIT_ABS ∨ calleeBuiltin env th = some PN_BUILTIN_NULL

/-- The record of a thread in a phase. -/
def WaitPhase.Record (env : PNSchedEnv) (th : PNSchedThread) : WaitPhase → Prop
  | .idle => th.state ≠ .blocked ∧ th.futexState = .none
  | .blocked inst addr => th.state = .blocked ∧ th.futexState = .none ∧ th.inst = inst ∧ th.waitAddr = addr ∧ AtWait env th
  | .woken inst _ => th.state = .running ∧ th.futexState = .woken ∧ th.inst = inst ∧ AtWait env th
  | .timedOut inst _ => th.state = .running ∧ th.futexState = .timedout ∧ th.inst = inst ∧ AtWait env th

theorem WaitPhase.Record.linksOnly {p : WaitPhase} {th th' : PNSchedThread} (h : p.Record env th) (hl : LinksOnly th th') :
    p.Record env th' := by
  have hcallee : calleeBuiltin env th' = calleeBuiltin env th := by
    unfold calleeBuiltin
    rw [hl]
  unfold LinksOnly at hl
  cases p <;> simp only [WaitPhase.Record, AtWait, hcallee] at h ⊢ <;> rw [hl] <;> exact h

/-- What an instruction that creates the threads `new` does: it is none of the futex builtins, or it is FUTEX_WAIT_ABS, or
FUTEX_WAKE. -/
inductive Executed (env : PNSchedEnv) (s : PNSched) (t : Nat) (e : PNEvent) (s' : PNSched) : List Nat → Prop where
  | bystander {new : List Nat} : e = .quiet → ¬AtWait env (s.threads t) →
      calleeBuiltin env (s.threads t) ≠ some PN_BUILTIN_NACL_IRT_FUTEX_WAKE → Bystander t new s.threads s'.threads →
      Executed env s t e s' new
  | wait {r : Nat} {s₁ : PNSched} :
      calleeBuiltin env (s.threads t) = some PN_BUILTIN_NACL_IRT_FUTEX_WAIT_ABS →
      pnBuiltinNaclIrtFutexWaitAbs s t (callArgs env s t) = .ok (r, e, s₁) →
      s'.threads t = behindCall env (env.ex.callAt (s.threads t).inst) (s₁.threads t) r →
      (∀ x, x ≠ t → s'.threads x = s₁.threads x) → Executed env s t e s' []
  | wake {r addrP nwake countP : Nat} {woken : List Nat} {s₁ : PNSched} : ¬AtWait env (s.threads t) →
      addrP = pnArg (callArgs env s t) 0 4 → nwake = pnArg (callArgs env s t) 1 4 →
      countP = pnArg (callArgs env s t) 2 4 → e = .wake t addrP nwake countP woken →
      WakeOk s s₁ t addrP nwake countP woken →
      s'.threads t = behindCall env (env.ex.callAt (s.threads t).inst) (s₁.threads t) r →
      (∀ x, x ≠ t → s'.threads x = s₁.threads x) → s'.memory = s₁.memory → Executed env s t e s' []

theorem Bystander.behindCall {new : List Nat} {ths : Nat → PNSchedThread} {i : PNRuntimeInstructionCall} {r : Nat}
    (h : Bystander t new ths s.threads) (hnew : t ∉ new) (ht : s'.threads t = behindCall env i (s.threads t) r)
    (hx : ∀ x, x ≠ t → s'.threads x = s.threads x) : Bystander t new ths s'.threads := by
  refine ⟨?_, fun hb => ?_, fun x hxt hxn => ?_, fun x hxn => ?_⟩
  · rw [ht]
    exact h.futexState
  · rw [ht]
    exact h.state hb
  · rw [hx x hxt]
    exact h.others x hxt hxn
  · rw [hx x fun e => hnew (e ▸ hxn)]
    exact h.joined x hxn

/-- Every instruction of a thread of the ring is one of the three kinds. -/
theorem execute_executed (h : SchedInv env s ring dead) (ht : t ∈ ring) (hm : SchedMalloc env o.malloc)
    (he : pnThreadExecuteInstruction env o s t = .ok (e, s')) :
    ∃ new, s'.created = new ++ s.created ∧ Executed env s t e s' new := by
  unfold pnThreadExecuteInstruction at he
  split at he
  next f hf =>
    obtain ⟨r, s₁, hb, ht', hx', hmem, hcreated⟩ := opcodeCallBuiltin_spec he
    have notAt : f ≠ PN_BUILTIN_NACL_IRT_FUTEX_WAIT_ABS → f ≠ PN_BUILTIN_NULL → ¬AtWait env (s.threads t) := by
      rintro h₁ h₂ (hat | hat)
      · exact h₁ (Option.some.inj (hf.symm.trans hat))
      · exact h₂ (Option.some.inj (hf.symm.trans hat))
    have quiet : ∀ {new : List Nat}, e = .quiet ∧ Bystander t new s.threads s₁.threads →
        f ≠ PN_BUILTIN_NACL_IRT_FUTEX_WAIT_ABS → f ≠ PN_BUILTIN_NULL → f ≠ PN_BUILTIN_NACL_IRT_FUTEX_WAKE →
        t ∉ new → Executed env s t e s' new := by
      rintro new ⟨hq, hby⟩ h₁ h₂ h₃ hnew
      refine .bystander hq (notAt h₁ h₂) ?_ (hby.behindCall hnew ht' hx')
      rw [hf]
      exact fun h => h₃ (Option.some.inj h)
    unfold callBuiltin at hb
    split at hb
    · cases hb
    split at hb
    next hg =>
      exact ⟨[], hcreated.trans (basicExit_keeps hb).created,
        quiet (basicExit_bystander hb) (hg ▸ by decide) (hg ▸ by decide) (hg ▸ by decide) (by simp)⟩
    split at hb
    next hg =>
      obtain ⟨hq, n, s₀, htake, hc, hby⟩ := threadCreate_bystander hb
      obtain ⟨dead', hth, hn, -⟩ := h.takeThread hm htake
      have hnt : n ≠ t := fun e => hn (e ▸ ht)
      exact ⟨[n], hcreated.trans hc, quiet ⟨hq, hby hnt hth⟩ (hg ▸ by decide) (hg ▸ by decide) (hg ▸ by decide)
        (by simpa using hnt.symm)⟩
    split at hb
    next hg =>
      exact ⟨[], hcreated.trans (threadExit_keeps hb).created,
        quiet (threadExit_bystander hb) (hg ▸ by decide) (hg ▸ by decide) (hg ▸ by decide) (by simp)⟩
    split at hb
    next hg => exact ⟨[], hcreated.trans (futexWaitAbs_keeps hb).created, .wait (hg ▸ hf) hb ht' hx'⟩
    split at hb
    next hg =>
      obtain ⟨woken, hev, hok⟩ := futexWake_spec h ht hb
      exact ⟨[], hcreated.trans (futexWake_keeps hb).created,
        .wake (notAt (hg ▸ by decide) (hg ▸ by decide)) rfl rfl rfl hev hok ht' hx' hmem⟩
    next h0 _ _ _ hw hk =>
      cases hb
      exact ⟨[], hcreated, quiet ⟨rfl, .refl t _⟩ hw h0 hk (by simp)⟩
  next hf =>
    cases he
    refine ⟨[], (otherInst_keeps env o t s).created, .bystander rfl ?_ (by simp [hf]) (otherInst_bystander env o s t)⟩
    simp [AtWait, hf]

/-- What a call of FUTEX_WAIT_ABS answers in each futex state. -/
theorem futexWaitAbs_cases {args : List PNRuntimeValue} {r : Nat}
    (h : pnBuiltinNaclIrtFutexWaitAbs s t args = .ok (r, e, s')) :
    ((s.threads t).futexState = .none ∧ loadBytes s.memory.data (pnArg args 0 4) 4 ≠ pnArg args 1 4 ∧ r = PN_EAGAIN ∧
      e = .waitAgain t (s.threads t).inst (pnArg args 0 4) (pnArg args 1 4) ∧ s' = s) ∨
    ((s.threads t).futexState = .none ∧ loadBytes s.memory.data (pnArg args 0 4) 4 = pnArg args 1 4 ∧ r = 0 ∧
      e = .waitBlock t (s.threads t).inst (pnArg args 0 4) (pnArg args 1 4) ∧ ∃ has sec usec, s' = s.update t fun th =>
        { th with waitAddr := pnArg args 0 4, hasTimeout := has, timeoutSec := sec, timeoutUsec := usec, state := .blocked }) ∨
    (((s.threads t).futexState = .woken ∧ r = 0 ∨ (s.threads t).futexState = .timedout ∧ r = PN_ETIMEDOUT) ∧
      e = .waitReturn t (s.threads t).inst r ∧ s' = s.update t fun th => { th with futexState := .none }) := by
  obtain ⟨-, h⟩ := pnCheck_bind_eq_ok.mp h
  split at h
  next hf =>
    obtain ⟨read, hread, h⟩ := bind_eq_ok.mp h
    obtain ⟨_, -, hread⟩ := bind_eq_ok.mp hread
    cases hread
    split at h
    next hne =>
      cases h
      exact .inl ⟨hf, hne, rfl, rfl, rfl⟩
    next heq =>
      obtain ⟨⟨has, sec, usec⟩, -, h⟩ := bind_eq_ok.mp h
      cases h
      exact .inr (.inl ⟨hf, not_not.mp heq, rfl, rfl, has, sec, usec, rfl⟩)
  next hf =>
    cases h
    exact .inr (.inr ⟨.inr ⟨hf, rfl⟩, rfl, rfl⟩)
  next hf =>
    cases h
    exact .inr (.inr ⟨.inl ⟨hf, rfl⟩, rfl, rfl⟩)

/-- A call that stores 0 over its callee calls `PN_BUILTIN_NULL` next. -/
theorem calleeBuiltin_storeResult {th th' : PNSchedThread} {id : Nat} (hinst : th'.inst = th.inst)
    (hvalues : th'.values = storeResult th.values id 0)
    (h : calleeBuiltin env th = some PN_BUILTIN_NACL_IRT_FUTEX_WAIT_ABS) : AtWait env th' := by
  unfold AtWait calleeBuiltin at *
  rw [hinst, hvalues]
  split at h
  next calleeId hc =>
    unfold storeResult
    split
    next =>
      by_cases hid : calleeId = id
      · right
        subst hid
        simp only [Function.update_self]
        rfl
      · left
        simp only [Function.update_of_ne hid]
        exact h
    next =>
      left
      exact h
  next => cases h

/-- The records of the threads on the ring are in the phases that the events led to; the others wait for nothing. -/
structure FutexInv (env : PNSchedEnv) (es : List PNEvent) (s : PNSched) (ring : Cycle Nat) (dead : List Nat) : Prop where
  sched : SchedInv env s ring dead
  phase : ∀ x, ∃ p, waitPhase x es = some p ∧ (x ∈ ring → p.Record env (s.threads x)) ∧ (x ∉ ring → p = .idle)

/-- What one step does to the phase of one thread. -/
def PhaseStep (env : PNSchedEnv) (e : PNEvent) (x : Nat) (p : WaitPhase) (th' : PNSchedThread) : Prop :=
  ∃ p', p.after x e = some p' ∧ p'.Record env th'

/-- A thread that waits cannot be one that runs elsewhere. -/
theorem WaitPhase.Record.eq_idle {p : WaitPhase} {th : PNSchedThread} (h : p.Record env th) (hs : th.state ≠ .blocked)
    (hf : th.futexState = .none) : p = .idle := by
  cases p with
  | idle => rfl
  | blocked => exact absurd h.1 hs
  | woken => exact absurd (h.2.1.symm.trans hf) (by decide)
  | timedOut => exact absurd (h.2.1.symm.trans hf) (by decide)

theorem WaitPhase.Record.idle_of_not_at {p : WaitPhase} {th : PNSchedThread} (h : p.Record env th) (hs : th.state = .running)
    (hat : ¬AtWait env th) : p = .idle := by
  cases p with
  | idle => rfl
  | blocked => exact absurd (h.1.symm.trans hs) (by decide)
  | woken => exact absurd h.2.2.2 hat
  | timedOut => exact absurd h.2.2.2 hat

/-- The thread that executes an instruction. -/
theorem Executed.own {new : List Nat} {p : WaitPhase} (h : Executed env s t e s' new) (hs : (s.threads t).state = .running)
    (hp : p.Record env (s.threads t)) : PhaseStep env e t p (s'.threads t) := by
  cases h with
  | bystander he hat _ hby =>
    subst he
    obtain rfl := hp.idle_of_not_at hs hat
    refine ⟨.idle, rfl, hby.state hp.1, hby.futexState.trans hp.2⟩
  | @wait r s₁ hcall hw ht hx =>
    rcases futexWaitAbs_cases hw with ⟨hf, -, rfl, rfl, rfl⟩ | ⟨hf, -, rfl, rfl, has, sec, usec, rfl⟩ | ⟨hf, rfl, rfl⟩
    · obtain rfl := hp.eq_idle (by simp [hs]) hf
      refine ⟨.idle, by simp [WaitPhase.after, WaitPhase.start], ?_⟩
      rw [ht]
      exact hp
    · obtain rfl := hp.eq_idle (by simp [hs]) hf
      refine ⟨_, by simp only [WaitPhase.after, WaitPhase.start, if_true]; rfl, ?_⟩
      rw [ht]
      simp only [PNSched.update_threads, if_true]
      refine ⟨rfl, hf, ?_, rfl, calleeBuiltin_storeResult ?_ rfl hcall⟩
      · simp [behindCall]
      · simp [behindCall]
    · have hret : p.ret (s.threads t).inst r = some .idle := by
        cases p with
        | idle => rcases hf with ⟨hf, -⟩ | ⟨hf, -⟩ <;> exact absurd (hp.2.symm.trans hf) (by decide)
        | blocked inst addr => exact absurd (hp.1.symm.trans hs) (by decide)
        | woken inst addr =>
          rcases hf with ⟨-, rfl⟩ | ⟨hf, -⟩
          · simp [WaitPhase.ret, hp.2.2.1]
          · exact absurd (hp.2.1.symm.trans hf) (by decide)
        | timedOut inst addr =>
          rcases hf with ⟨hf, -⟩ | ⟨-, rfl⟩
          · exact absurd (hp.2.1.symm.trans hf) (by decide)
          · simp [WaitPhase.ret, hp.2.2.1]
      refine ⟨.idle, by simp only [WaitPhase.after, if_true]; exact hret, ?_⟩
      rw [ht]
      simp [WaitPhase.Record, behindCall, hs]
  | @wake _ _ _ _ woken _ hat _ _ _ he hok ht hx hm =>
    subst he
    obtain rfl := hp.idle_of_not_at hs hat
    have hnot : t ∉ woken := fun hmem => (hok.blocked t hmem).1 rfl
    refine ⟨.idle, by simp [WaitPhase.after, hnot], ?_⟩
    rw [ht, hok.threads t, if_neg hnot]
    exact hp

/-- Another thread of the ring. -/
theorem Executed.other {new : List Nat} {p : WaitPhase} (h : Executed env s t e s' new) (hxt : x ≠ t) (hxn : x ∉ new)
    (hp : p.Record env (s.threads x)) : PhaseStep env e x p (s'.threads x) := by
  cases h with
  | bystander he hat _ hby =>
    subst he
    exact ⟨p, rfl, hp.linksOnly (hby.others x hxt hxn)⟩
  | wait hcall hw ht hx =>
    have hkeep := hx x hxt
    rcases futexWaitAbs_cases hw with ⟨-, -, rfl, rfl, rfl⟩ | ⟨-, -, rfl, rfl, has, sec, usec, rfl⟩ | ⟨-, rfl, rfl⟩
    · exact ⟨p, by simp [WaitPhase.after, hxt.symm], hkeep ▸ hp⟩
    · rw [PNSched.update_threads, if_neg hxt] at hkeep
      exact ⟨p, by simp [WaitPhase.after, hxt.symm], hkeep ▸ hp⟩
    · rw [PNSched.update_threads, if_neg hxt] at hkeep
      exact ⟨p, by simp [WaitPhase.after, hxt.symm], hkeep ▸ hp⟩
  | @wake _ addrP _ _ woken _ hat _ _ _ he hok ht hx hm =>
    subst he
    have hkeep := (hx x hxt).trans (hok.threads x)
    by_cases hsel : x ∈ woken
    · rw [if_pos hsel] at hkeep
      obtain ⟨-, -, hb, ha⟩ := hok.blocked x hsel
      cases p with
      | blocked inst addr =>
        obtain ⟨-, -, hinst, haddr, hat⟩ := hp
        have ha : addr = addrP := haddr.symm.trans ha
        refine ⟨.woken inst addr, by simp [WaitPhase.after, WaitPhase.wake, hsel, ha, hxt.symm], ?_⟩
        rw [hkeep]
        exact ⟨rfl, rfl, hinst, hat⟩
      | idle => exact absurd hb hp.1
      | woken => exact absurd (hp.1.symm.trans hb) (by decide)
      | timedOut => exact absurd (hp.1.symm.trans hb) (by decide)
    · rw [if_neg hsel] at hkeep
      exact ⟨p, by simp [WaitPhase.after, hsel], hkeep ▸ hp⟩

/-- A thread that is not on the ring waits for nothing, whatever the others do. -/
theorem Executed.idle {new : List Nat} (h : Executed env s t e s' new) (hxt : x ≠ t)
    (hb : x ∈ s.created → (s.threads x).state ≠ .blocked) : WaitPhase.idle.after x e = some .idle := by
  cases h with
  | bystander he _ _ _ =>
    subst he
    rfl
  | wait hcall hw ht hx =>
    rcases futexWaitAbs_cases hw with ⟨-, -, rfl, rfl, rfl⟩ | ⟨-, -, rfl, rfl, has, sec, usec, rfl⟩ | ⟨-, rfl, rfl⟩
    · simp [WaitPhase.after, hxt.symm]
    · simp [WaitPhase.after, hxt.symm]
    · simp [WaitPhase.after, hxt.symm]
  | @wake _ _ _ _ woken _ _ _ _ _ he hok _ _ _ =>
    subst he
    have hnot : x ∉ woken := by
      intro hmem
      obtain ⟨-, hc, hbl, -⟩ := hok.blocked x hmem
      exact hb hc hbl
    simp [WaitPhase.after, hnot]

/-- A thread that joins the ring. -/
theorem Executed.joined {new : List Nat} (h : Executed env s t e s' new) (hx : x ∈ new) :
    WaitPhase.idle.Record env (s'.threads x) := by
  cases h with
  | bystander _ _ _ hby =>
    obtain ⟨hs, hf⟩ := hby.joined x hx
    exact ⟨by simp [hs], hf⟩
  | wait => cases hx
  | wake => cases hx

/-- An instruction keeps the invariant. -/
theorem FutexInv.execute {es : List PNEvent} (h : FutexInv env es s ring dead) (ht : t ∈ ring)
    (hs : (s.threads t).state = .running) (hm : SchedMalloc env o.malloc)
    (he : pnThreadExecuteInstruction env o s t = .ok (e, s')) :
    ∃ ring' dead', FutexInv env (es ++ [e]) s' ring' dead' := by
  obtain ⟨ring', dead', new, hinv, hc, hmem, hnew, -⟩ := h.sched.execute ht hm he
  obtain ⟨new', hc', hex⟩ := execute_executed h.sched ht hm he
  obtain rfl : new' = new := List.append_cancel_right (hc'.symm.trans hc)
  refine ⟨ring', dead', hinv, fun x => ?_⟩
  obtain ⟨p, hp, hon, hoff⟩ := h.phase x
  by_cases hx : x ∈ ring
  · have hstep : PhaseStep env e x p (s'.threads x) := by
      by_cases hxt : x = t
      · subst hxt
        exact hex.own hs (hon hx)
      · exact hex.other hxt (fun hxn => hnew x hxn hx) (hon hx)
    obtain ⟨p', hafter, hrec⟩ := hstep
    refine ⟨p', ?_, fun _ => hrec, fun hx' => absurd ((hmem x).mpr (.inl hx)) hx'⟩
    rw [waitPhase_snoc, hp]
    exact hafter
  · have hxt : x ≠ t := fun e => hx (e ▸ ht)
    have hb : x ∈ s.created → (s.threads x).state ≠ .blocked := by
      intro hc
      rw [h.sched.list_dead x ((h.sched.mem_created.mp hc).resolve_left hx)]
      decide
    obtain rfl := hoff hx
    refine ⟨.idle, ?_, fun hx' => ?_, fun _ => rfl⟩
    · rw [waitPhase_snoc, hp]
      exact hex.idle hxt hb
    · exact hex.joined (((hmem x).mp hx').resolve_left hx)

/-- **Every step keeps the protocol.** -/
theorem FutexInv.step {es : List PNEvent} (h : FutexInv env es s ring dead) (hs : SchedStep env s e s') :
    ∃ ring' dead', FutexInv env (es ++ [e]) s' ring' dead' := by
  cases hs with
  | execute ht hrun hm he => exact h.execute (h.sched.onRing_iff.mp ht) hrun hm he
  | @timeOut t tv ht hb hd =>
    have ht := h.sched.onRing_iff.mp ht
    refine ⟨ring, dead, h.sched.keeps ht (timeOut_keeps _ _), fun x => ?_⟩
    obtain ⟨p, hp, hon, hoff⟩ := h.phase x
    by_cases hxt : x = t
    · subst hxt
      have hp' := hon ht
      cases p with
      | blocked inst addr =>
        refine ⟨.timedOut inst addr, ?_, fun _ => ?_, fun hx => absurd ht hx⟩
        · simp [waitPhase_snoc, hp, WaitPhase.after, WaitPhase.timeout]
        · obtain ⟨-, -, hinst, -, hat⟩ := hp'
          simp only [PNSched.timeOut, PNSched.update_threads, if_true]
          exact ⟨rfl, rfl, hinst, hat⟩
      | idle => exact absurd hb hp'.1
      | woken => exact absurd (hp'.1.symm.trans hb) (by decide)
      | timedOut => exact absurd (hp'.1.symm.trans hb) (by decide)
    · refine ⟨p, ?_, fun hx => ?_, hoff⟩
      · rw [waitPhase_snoc, hp]
        simp [WaitPhase.after, Ne.symm hxt]
      · rw [PNSched.timeOut, PNSched.update_threads, if_neg hxt]
        exact hon hx
  | @unlink t ht hd hne =>
    have ht := h.sched.onRing_iff.mp ht
    obtain ⟨ring', hinv, -, hmem⟩ := h.sched.unlink ht hne hd
    refine ⟨ring', _, hinv, fun x => ?_⟩
    obtain ⟨p, hp, hon, hoff⟩ := h.phase x
    refine ⟨p, ?_, fun hx => ?_, fun hx => ?_⟩
    · rw [waitPhase_snoc, hp]
      rfl
    · exact (hon ((hmem x).mpr (.inr hx))).linksOnly (unlink_linksOnly s t x)
    · by_cases hxt : x = t
      · -- a dead thread is not in a wait
        subst hxt
        have hp' := hon ht
        cases p with
        | idle => rfl
        | _ => exact absurd (hp'.1.symm.trans hd) (by decide)
      · refine hoff fun hx' => ?_
        exact ((hmem x).mp hx').elim hxt hx

/-! ## Runs -/

/-- The threads after the events of a run, oldest first, in any interleaving. -/
inductive SchedRun (env : PNSchedEnv) : List PNEvent → PNSched → Prop where
  | init {malloc : Malloc} {memory : PNMemory} {threads : Nat → PNSchedThread} {numWords : Nat}
      {values : Nat → PNRuntimeValue} {c : PNRunState} : SchedMalloc env malloc → numWords < 2 ^ 32 →
      pnExecutorInitSched env malloc memory threads numWords values = .ok c → SchedRun env [] c.sched
  | step {es : List PNEvent} {e : PNEvent} {s s' : PNSched} : SchedRun env es s → SchedStep env s e s' →
      SchedRun env (es ++ [e]) s'

variable {es : List PNEvent}

/-- The start thread waits for nothing. -/
theorem pnExecutorInitSched_start {malloc : Malloc} {memory : PNMemory} {threads : Nat → PNSchedThread} {numWords : Nat}
    {values : Nat → PNRuntimeValue} {c : PNRunState}
    (hi : pnExecutorInitSched env malloc memory threads numWords values = .ok c) :
    WaitPhase.idle.Record env (c.sched.threads env.startThread) := by
  obtain ⟨a₀, -, hi⟩ := bind_eq_ok.mp hi
  obtain ⟨p₁, -, hi⟩ := bind_eq_ok.mp hi
  obtain ⟨p₂, -, hi⟩ := bind_eq_ok.mp hi
  cases hi
  simp [WaitPhase.Record]

theorem SchedRun.inv (h : SchedRun env es s) : ∃ ring dead, FutexInv env es s ring dead := by
  induction h with
  | init hm hw hi =>
    refine ⟨_, _, (pnExecutorInitSched_inv hm hw hi).sched, fun x => ⟨.idle, rfl, fun hx => ?_, fun _ => rfl⟩⟩
    obtain rfl : x = env.startThread := by simpa [Cycle.mem_coe_iff] using hx
    exact pnExecutorInitSched_start hi
  | step _ hs ih =>
    obtain ⟨ring, dead, ih⟩ := ih
    exact ih.step hs

/-- Every state of `pn_executor_run` is one of such a run. -/
theorem SchedReachable.schedRun {c : PNRunState} (h : SchedReachable env c) : ∃ es, SchedRun env es c.sched := by
  induction h with
  | init hm hw hi => exact ⟨[], .init hm hw hi⟩
  | step hc hm hs ih =>
    obtain ⟨es, ih⟩ := ih
    obtain ⟨ring, dead, hinv⟩ := hc.inv
    rcases PNRunState.step_refines hinv hm hs with ⟨-, heq⟩ | hs
    · exact ⟨es, heq ▸ ih⟩
    · exact ⟨es ++ [_], ih.step hs⟩

/-- A thread of the ring that runs executes an instruction. -/
structure Executes (env : PNSchedEnv) (s : PNSched) (t : Nat) (e : PNEvent) (s' : PNSched) (o : PNOracle) : Prop where
  onRing : OnRing env s t
  running : (s.threads t).state = .running
  malloc : SchedMalloc env o.malloc
  eq : pnThreadExecuteInstruction env o s t = .ok (e, s')

/-- The call of thread `t` is over: its result is `r`, and the thread goes on behind it. -/
def Returned (env : PNSchedEnv) (s : PNSched) (t r : Nat) (s' : PNSched) : Prop :=
  (s'.threads t).state = .running ∧
    (s'.threads t).inst = (s.threads t).inst + (env.ex.callAt (s.threads t).inst).size ∧
    (s'.threads t).values = storeResult (s.threads t).values (env.ex.callAt (s.threads t).inst).resultValueId r

/-- What a call of FUTEX_WAIT_ABS by thread `t` may do behind the events `es`. -/
inductive WaitOk (env : PNSchedEnv) (es : List PNEvent) (s : PNSched) (t : Nat) (e : PNEvent) (s' : PNSched) : Prop where
  /-- A new wait returns EAGAIN at once, because the value differs. -/
  | again {addr value : Nat} : addr = pnArg (callArgs env s t) 0 4 → value = pnArg (callArgs env s t) 1 4 →
      e = .waitAgain t (s.threads t).inst addr value → Settled t es → loadBytes s.memory.data addr 4 ≠ value →
      Returned env s t PN_EAGAIN s' → WaitOk env es s t e s'
  /-- A new wait blocks its thread. -/
  | block {addr value : Nat} : addr = pnArg (callArgs env s t) 0 4 → value = pnArg (callArgs env s t) 1 4 →
      e = .waitBlock t (s.threads t).inst addr value → Settled t es → loadBytes s.memory.data addr 4 = value →
      (s'.threads t).state = .blocked → (s'.threads t).waitAddr = addr → (s'.threads t).inst = (s.threads t).inst →
      WaitOk env es s t e s'
  /-- The wait that blocked last returns: 0 if another thread's wake on its address selected it since, ETIMEDOUT if the
  scheduler found its deadline passed. -/
  | ret {addr r : Nat} {mid : List PNEvent} : e = .waitReturn t (s.threads t).inst r →
      Pending t (s.threads t).inst addr es mid → (r = 0 ∨ r = PN_ETIMEDOUT) → (r = 0 ↔ ∃ e ∈ mid, e.Wakes t addr) →
      (r = PN_ETIMEDOUT ↔ .timeout t ∈ mid) → Returned env s t r s' → WaitOk env es s t e s'

/-- The wait of a blocked thread is still pending: nothing woke it and it did not time out. -/
def StillBlocked (es : List PNEvent) (s : PNSched) (t addr : Nat) : Prop :=
  (s.threads t).state = .blocked ∧ (s.threads t).waitAddr = addr ∧
    ∃ mid, Pending t (s.threads t).inst addr es mid ∧ .timeout t ∉ mid ∧ ∀ e ∈ mid, ¬e.Selects t

/-- What a call of FUTEX_WAKE by thread `t` does. -/
def WakesExactly (env : PNSchedEnv) (es : List PNEvent) (s : PNSched) (t : Nat) (e : PNEvent) (s' : PNSched) : Prop :=
  ∃ addr nwake countP woken, addr = pnArg (callArgs env s t) 0 4 ∧ nwake = pnArg (callArgs env s t) 1 4 ∧
    countP = pnArg (callArgs env s t) 2 4 ∧ e = .wake t addr nwake countP woken ∧
    woken.Nodup ∧ (∀ x ∈ woken, x ≠ t ∧ StillBlocked es s x addr) ∧
    woken.length = min nwake (blockedOthers s t addr).card ∧
    (∀ x, x ≠ t → s'.threads x = if x ∈ woken then (s.threads x).wake else s.threads x) ∧
    loadBytes s'.memory.data countP 4 = woken.length

/-- Waits and wakes behind the events `es` of a run. -/
structure FutexOk (env : PNSchedEnv) (es : List PNEvent) (s : PNSched) : Prop where
  wait : ∀ t e s' o, Executes env s t e s' o →
    calleeBuiltin env (s.threads t) = some PN_BUILTIN_NACL_IRT_FUTEX_WAIT_ABS → WaitOk env es s t e s'
  wake : ∀ t e s' o, Executes env s t e s' o →
    calleeBuiltin env (s.threads t) = some PN_BUILTIN_NACL_IRT_FUTEX_WAKE → WakesExactly env es s t e s'
  /-- A thread with a pending wait executes nothing else. -/
  other : ∀ t e s' o, Executes env s t e s' o →
    calleeBuiltin env (s.threads t) ≠ some PN_BUILTIN_NACL_IRT_FUTEX_WAIT_ABS → Settled t es ∧ ¬e.IsWaitOf t
  /-- A deadline that passed ends a wait that is still pending. -/
  timeout : ∀ t tv, OnRing env s t → (s.threads t).state = .blocked → (s.threads t).deadlinePassed tv = true →
    ∃ addr, StillBlocked es s t addr

theorem PNEvent.Wakes.selects {addr : Nat} (h : e.Wakes t addr) : e.Selects t := by
  cases e with
  | wake u a nwake countP woken => exact h.2.2
  | _ => cases h

/-- A thread in no wait has settled all of its waits. -/
theorem FutexInv.settled (h : FutexInv env es s ring dead) (ht : t ∈ ring)
    (hp : ∀ p : WaitPhase, p.Record env (s.threads t) → p = .idle) : Settled t es := by
  obtain ⟨p, hph, hon, -⟩ := h.phase t
  obtain rfl := hp p (hon ht)
  exact waitPhase_history hph

theorem FutexInv.stillBlocked (h : FutexInv env es s ring dead) (ht : t ∈ ring) (hb : (s.threads t).state = .blocked) :
    StillBlocked es s t (s.threads t).waitAddr := by
  obtain ⟨p, hph, hon, -⟩ := h.phase t
  have hrec := hon ht
  cases p with
  | blocked inst addr =>
    obtain ⟨-, -, rfl, rfl, -⟩ := hrec
    exact ⟨hb, rfl, waitPhase_history hph⟩
  | idle => exact absurd hb hrec.1
  | woken => exact absurd (hrec.1.symm.trans hb) (by decide)
  | timedOut => exact absurd (hrec.1.symm.trans hb) (by decide)

/-- A second call of FUTEX_WAIT_ABS returns what its phase says. -/
theorem FutexInv.returns (h : FutexInv env es s ring dead) (ht : t ∈ ring) (hs : (s.threads t).state = .running) {r : Nat}
    (hr : (s.threads t).futexState = .woken ∧ r = 0 ∨ (s.threads t).futexState = .timedout ∧ r = PN_ETIMEDOUT) :
    ∃ addr mid, Pending t (s.threads t).inst addr es mid ∧ (r = 0 ↔ ∃ e ∈ mid, e.Wakes t addr) ∧
      (r = PN_ETIMEDOUT ↔ .timeout t ∈ mid) := by
  obtain ⟨p, hph, hon, -⟩ := h.phase t
  have hrec := hon ht
  have hist := waitPhase_history hph
  cases p with
  | idle => rcases hr with ⟨hf, -⟩ | ⟨hf, -⟩ <;> exact absurd (hrec.2.symm.trans hf) (by decide)
  | blocked => exact absurd (hrec.1.symm.trans hs) (by decide)
  | woken inst addr =>
    obtain ⟨-, hf, rfl, -⟩ := hrec
    obtain ⟨mid, hpend, hto, hwk⟩ := hist
    rcases hr with ⟨-, rfl⟩ | ⟨hf', -⟩
    · exact ⟨addr, mid, hpend, by simpa using hwk, by simpa [PN_ETIMEDOUT] using hto⟩
    · exact absurd (hf.symm.trans hf') (by decide)
  | timedOut inst addr =>
    obtain ⟨-, hf, rfl, -⟩ := hrec
    obtain ⟨mid, hpend, hto, hsel⟩ := hist
    rcases hr with ⟨hf', -⟩ | ⟨-, rfl⟩
    · exact absurd (hf.symm.trans hf') (by decide)
    · refine ⟨addr, mid, hpend, ?_, by simpa using hto⟩
      constructor
      · exact fun h0 => absurd h0 (by decide)
      · rintro ⟨e', he', hwk⟩
        exact absurd hwk.selects (hsel e' he')

theorem FutexInv.waitOk (h : FutexInv env es s ring dead) (hx : Executes env s t e s' o)
    (hc : calleeBuiltin env (s.threads t) = some PN_BUILTIN_NACL_IRT_FUTEX_WAIT_ABS) : WaitOk env es s t e s' := by
  have ht := h.sched.onRing_iff.mp hx.onRing
  have hs := hx.running
  obtain ⟨new, -, hex⟩ := execute_executed h.sched ht hx.malloc hx.eq
  cases hex with
  | bystander _ hat _ _ => exact absurd (.inl hc) hat
  | wake hat _ _ _ _ _ _ _ _ => exact absurd (.inl hc) hat
  | wait _ hw hown _ =>
    have settled : (s.threads t).futexState = .none → Settled t es :=
      fun hf => h.settled ht fun p hp => hp.eq_idle (by simp [hs]) hf
    rcases futexWaitAbs_cases hw with ⟨hf, hne, rfl, he, rfl⟩ | ⟨hf, heq, rfl, he, has, sec, usec, rfl⟩ | ⟨hf, he, rfl⟩
    · refine .again rfl rfl he (settled hf) hne ?_
      simp [Returned, hown, behindCall, hs]
    · refine .block rfl rfl he (settled hf) heq ?_ ?_ ?_
      · simp [hown, behindCall]
      · simp [hown, behindCall]
      · simp [hown, behindCall]
    · obtain ⟨addr, mid, hp, h₀, h₁⟩ := h.returns ht hs hf
      refine .ret he hp (hf.imp And.right And.right) h₀ h₁ ?_
      simp [Returned, hown, behindCall, hs]

theorem FutexInv.wakesExactly (h : FutexInv env es s ring dead) (hx : Executes env s t e s' o)
    (hc : calleeBuiltin env (s.threads t) = some PN_BUILTIN_NACL_IRT_FUTEX_WAKE) : WakesExactly env es s t e s' := by
  have ht := h.sched.onRing_iff.mp hx.onRing
  obtain ⟨new, -, hex⟩ := execute_executed h.sched ht hx.malloc hx.eq
  cases hex with
  | bystander _ _ hk _ => exact absurd hc hk
  | wait hw _ _ _ => exact absurd (Option.some.inj (hc.symm.trans hw)) (by decide)
  | @wake _ addrP nwake countP woken _ _ ha hn hcp he hok _ hothers hmem =>
    refine ⟨addrP, nwake, countP, woken, ha, hn, hcp, he, hok.nodup, fun x hxw => ?_, hok.length, fun x hxt => ?_, ?_⟩
    · obtain ⟨hxt, hcr, hb, haddr⟩ := hok.blocked x hxw
      have hring : x ∈ ring := by
        refine (h.sched.mem_created.mp hcr).resolve_right fun hd => ?_
        rw [h.sched.list_dead x hd] at hb
        cases hb
      exact ⟨hxt, haddr ▸ h.stillBlocked hring hb⟩
    · rw [hothers x hxt]
      exact hok.threads x
    · rw [hmem]
      exact hok.count

theorem FutexInv.other (h : FutexInv env es s ring dead) (hx : Executes env s t e s' o)
    (hc : calleeBuiltin env (s.threads t) ≠ some PN_BUILTIN_NACL_IRT_FUTEX_WAIT_ABS) :
    Settled t es ∧ ¬e.IsWaitOf t := by
  have ht := h.sched.onRing_iff.mp hx.onRing
  obtain ⟨new, -, hex⟩ := execute_executed h.sched ht hx.malloc hx.eq
  cases hex with
  | bystander he hat _ _ =>
    subst he
    exact ⟨h.settled ht fun p hp => hp.idle_of_not_at hx.running hat, id⟩
  | wait hw _ _ _ => exact absurd hw hc
  | wake hat _ _ _ he _ _ _ _ =>
    subst he
    exact ⟨h.settled ht fun p hp => hp.idle_of_not_at hx.running hat, id⟩

/-- **Futex waits and wakes.** In every run of any number of threads in any interleaving, each call of FUTEX_WAIT_ABS returns
EAGAIN at once or blocks, and a wait that blocked returns once, as the wake or the timeout that ended it says; each
FUTEX_WAKE unblocks and counts as many waiting threads as there are, up to `nwake`. -/
theorem futex_wait_wake (h : SchedRun env es s) : FutexOk env es s := by
  obtain ⟨ring, dead, hinv⟩ := h.inv
  refine ⟨fun t e s' o hx hc => hinv.waitOk hx hc, fun t e s' o hx hc => hinv.wakesExactly hx hc,
    fun t e s' o hx hc => hinv.other hx hc, fun t tv ht hb _ => ?_⟩
  exact ⟨_, hinv.stillBlocked (hinv.sched.onRing_iff.mp ht) hb⟩

/-! ## A wait that is woken -/

/-- Instructions of the threads that `next` reaches in the given numbers of steps from the start thread. -/
def PNSched.interleave (env : PNSchedEnv) : List (Nat × PNOracle) → List PNEvent → PNSched →
    Except Stop (List PNEvent × PNSched)
  | [], es, s => .ok (es, s)
  | (k, o) :: rest, es, s => do
    cAssert ((s.threads ((fun x => (s.threads x).next)^[k] env.startThread)).state = .running) "thread->state"
    let (e, s') ← pnThreadExecuteInstruction env o s ((fun x => (s.threads x).next)^[k] env.startThread)
    PNSched.interleave env rest (es ++ [e]) s'

theorem SchedRun.interleave {os : List (Nat × PNOracle)} {es' : List PNEvent} (h : SchedRun env es s)
    (hm : ∀ o ∈ os, SchedMalloc env o.2.malloc) (hr : s.interleave env os es = .ok (es', s')) : SchedRun env es' s' := by
  induction os generalizing es s with
  | nil =>
    cases hr
    exact h
  | cons o os ih =>
    obtain ⟨hrun, hr⟩ := cAssert_bind_eq_ok.mp hr
    obtain ⟨⟨e, s₁⟩, he, hr⟩ := bind_eq_ok.mp hr
    have h₁ : SchedRun env (es ++ [e]) s₁ := h.step (.execute ⟨o.1, rfl⟩ hrun (hm o (by simp)) he)
    exact ih h₁ (fun o ho => hm o (List.mem_cons_of_mem _ ho)) hr

/-- As `schedEnv`, with three arguments for every call. -/
def futexEnv : PNSchedEnv :=
  { schedEnv with
    ex := { schedEnv.ex with
      callAt := fun inst => if inst = 36 then ⟨PN_INVALID_VALUE_ID, [5, 2, 2]⟩ else ⟨PN_INVALID_VALUE_ID, [1, 2, 3]⟩ } }

/-- The new thread calls FUTEX_WAKE. -/
def futexOracle : PNOracle :=
  { schedOracle with
    startValues := fun valueId =>
      if valueId = 0 then 188 else if valueId = 1 then 2048 else if valueId = 2 then 1 else 3072 }

theorem futexOracle_malloc : SchedMalloc futexEnv futexOracle.malloc := demoMalloc_sched

/-- The start thread creates a thread and waits, the new thread wakes it, and its wait returns. -/
def futexRun : Except Stop (List PNEvent × PNSched) := do
  let c ← pnExecutorInitSched futexEnv demoMalloc demoMemory (fun _ => ⟨0, 0, .dead, .none, 0, 0, false, 0, 0, 0, fun _ => 0⟩)
    1 schedValues
  c.sched.interleave futexEnv [(0, futexOracle), (0, futexOracle), (1, futexOracle), (0, futexOracle)] []

theorem futex_wait_wake_woken : ∃ es s, SchedRun futexEnv es s ∧
    es = [.quiet, .waitBlock 4096 36 2048 0, .wake 131104 2048 1 3072 [4096], .waitReturn 4096 36 0] ∧
    (s.threads 4096).inst = 64 ∧ FutexOk futexEnv es s := by
  obtain ⟨⟨es, s⟩, hr, hobs⟩ := eq_ok_of_toOption (x := futexRun) (g := fun p => (p.1, (p.2.threads 4096).inst))
    (b := ([.quiet, .waitBlock 4096 36 2048 0, .wake 131104 2048 1 3072 [4096], .waitReturn 4096 36 0], 64))
    (by decide +kernel)
  obtain ⟨c₀, hi, hr⟩ := bind_eq_ok.mp hr
  simp only [Prod.mk.injEq] at hobs
  have hrun : SchedRun futexEnv es s := by
    refine (SchedRun.init futexOracle_malloc (by decide) hi).interleave ?_ hr
    intro o ho
    have : o.2 = futexOracle := by
      simp only [List.mem_cons, List.not_mem_nil, or_false] at ho
      rcases ho with rfl | rfl | rfl | rfl <;> rfl
    rw [this]
    exact futexOracle_malloc
  exact ⟨es, s, hrun, hobs.1, hobs.2, futex_wait_wake hrun⟩

end Pnacl
