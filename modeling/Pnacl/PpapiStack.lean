import Pnacl.HeapStack
import Pnacl.PpapiEvents

/-!
# The stack of the event thread

The event thread and the suspended start thread share one stack in guest memory. PPAPI_START gives the frame of the initialisation
the start thread's stack top; a handler that runs later is pushed on `sentinel_frame` and starts at the end of the stack, above
what the start thread has allocated (`turn_stackTop`). The event thread stays below the start thread's stack top in the runs in
which a handler is called only when the start thread has no allocas (`handler_stack_below`).
-/

namespace Pnacl

open Lib

variable {env : PNPpapiEnv} {x x' : PNPpapiExecutor} {t y b func : Nat} {malloc : Malloc} {args : List PNRuntimeValue}
  {inst : PNPpapiInst}

/-! ## What a thread leaves of another -/

/-- The thread has its frames; it runs again at most. -/
structure KeepsFrames (x x' : PNPpapiExecutor) (y : Nat) : Prop where
  frames : (x'.threads y).frames = (x.threads y).frames
  state : (x'.threads y).state = (x.threads y).state ∨
    (x.threads y).state = .blocked ∧ (x'.threads y).state = .running

theorem KeepsFrames.refl (x : PNPpapiExecutor) (y : Nat) : KeepsFrames x x y := ⟨rfl, .inl rfl⟩

theorem KeepsFrames.trans {x'' : PNPpapiExecutor} (h : KeepsFrames x x' y) (h' : KeepsFrames x' x'' y) : KeepsFrames x x'' y := by
  refine ⟨h'.frames.trans h.frames, ?_⟩
  rcases h'.state with h₂ | ⟨h₂, h₃⟩
  · rcases h.state with h₁ | ⟨h₀, h₁⟩
    · exact .inl (h₂.trans h₁)
    · exact .inr ⟨h₀, h₂.trans h₁⟩
  · rcases h.state with h₁ | ⟨h₀, -⟩
    · exact .inr ⟨h₁.symm.trans h₂, h₃⟩
    · exact .inr ⟨h₀, h₃⟩

theorem KeepsFrames.of_eq (h : x'.threads y = x.threads y) : KeepsFrames x x' y := ⟨by rw [h], .inl (by rw [h])⟩

theorem KeepsFrames.update (x : PNPpapiExecutor) (t : Nat) (f : PNPpapiThread → PNPpapiThread) (hy : y ≠ t) :
    KeepsFrames x (x.update t f) y :=
  .of_eq (by simp [hy])

/-- What is no thread does not matter. -/
theorem KeepsFrames.congr {x'' : PNPpapiExecutor} (h : KeepsFrames x x' y) (he : x''.threads = x'.threads) : KeepsFrames x x'' y :=
  h.trans (.of_eq (by rw [he]))

theorem KeepsFrames.modifyFrame (x : PNPpapiExecutor) (t : Nat) (f : PNPpapiFrame → PNPpapiFrame) (hy : y ≠ t) :
    KeepsFrames x (x.modifyFrame t f) y :=
  .update x t _ hy

theorem KeepsFrames.setTop (x : PNPpapiExecutor) (t top : Nat) (hy : y ≠ t) : KeepsFrames x (x.setTop t top) y :=
  .modifyFrame x t _ hy

theorem KeepsFrames.setState (x : PNPpapiExecutor) (t : Nat) (state : PNPpapiThreadState) (hy : y ≠ t) :
    KeepsFrames x (x.setState t state) y :=
  .update x t _ hy

/-- Links are no frames. -/
theorem KeepsFrames.link (x : PNPpapiExecutor) (t : Nat) {f : PNPpapiThread → PNPpapiThread}
    (hf : ∀ th, (f th).frames = th.frames) (hs : ∀ th, (f th).state = th.state) : KeepsFrames x (x.update t f) y := by
  by_cases hy : y = t
  · subst hy
    exact ⟨by simp [hf], .inl (by simp [hs])⟩
  · exact .update x t f hy

theorem KeepsFrames.setNext (x : PNPpapiExecutor) (t p : Nat) : KeepsFrames x (x.setNext t p) y :=
  .link x t (fun _ => rfl) fun _ => rfl

theorem KeepsFrames.setPrev (x : PNPpapiExecutor) (t p : Nat) : KeepsFrames x (x.setPrev t p) y :=
  .link x t (fun _ => rfl) fun _ => rfl

theorem unlinkThread_keepsFrames (x : PNPpapiExecutor) (t : Nat) : KeepsFrames x (unlinkThread x t) y :=
  (KeepsFrames.setNext ..).trans (.setPrev ..)

theorem linkPpapiThread_keepsFrames (x : PNPpapiExecutor) (t : Nat) {n : Nat} (tls : Nat) (hy : y ≠ n) :
    KeepsFrames x (linkPpapiThread x t n tls) y := by
  have h₀ : KeepsFrames x (x.update n fun th => { th with frames := [], tls := tls, state := .running, futexState := .none }) y :=
    .update x n _ hy
  unfold linkPpapiThread
  dsimp only
  generalize (x.update n fun th => { th with frames := [], tls := tls, state := .running, futexState := .none }) = x₀ at h₀ ⊢
  exact h₀.trans <| (KeepsFrames.setNext ..).trans <| (KeepsFrames.setPrev ..).trans <| (KeepsFrames.setPrev ..).trans (.setNext ..)

theorem pushFunction_eq {functionId : Nat} (h : pnPpapiPushFunction env x t functionId = .ok x') :
    x' = x.update t fun th =>
      { th with frames := ⟨functionId, frameValues (env.ex.functions functionId), x.stackTop env t, []⟩ :: th.frames } := by
  unfold pnPpapiPushFunction at h
  simp only at h
  split at h
  · cases h
  · cases h
    rfl

theorem wakeThreads_keepsFrames : ∀ {x : PNPpapiExecutor} (woken : List Nat), KeepsFrames x (wakeThreads x woken) y
  | x, [] => .refl x y
  | x, i :: rest => by
    unfold wakeThreads
    split
    next hi =>
      refine KeepsFrames.trans ?_ (wakeThreads_keepsFrames rest)
      by_cases hy : y = i
      · subst hy
        exact ⟨by simp, .inr ⟨hi, by simp⟩⟩
      · exact .update x i _ hy
    next => exact wakeThreads_keepsFrames rest

theorem returnFrame_keepsFrames (x : PNPpapiExecutor) (value : Option Nat) (hy : y ≠ t) :
    KeepsFrames x (returnFrame env x t value) y := by
  have h₁ : KeepsFrames x (x.update t fun th => { th with frames := th.frames.tail }) y := .update x t _ hy
  unfold returnFrame
  dsimp only
  generalize (x.update t fun th => { th with frames := th.frames.tail }) = x₁ at h₁ ⊢
  split
  · exact h₁
  · have h₂ : KeepsFrames x (x₁.setState t .dead) y := h₁.trans (.update x₁ t _ hy)
    split
    · exact h₂.trans (.of_eq rfl)
    · exact h₂.trans (.update _ t _ hy)

theorem threadCreate_keepsFrames {n functionId : Nat} (stackTop tls : Nat) (hy : y ≠ n)
    (h : pnPpapiPushFunction env (linkPpapiThread x t n tls) n functionId = .ok x') : KeepsFrames x (x'.setTop n stackTop) y := by
  rw [pushFunction_eq h]
  exact ((linkPpapiThread_keepsFrames x t tls hy).trans (.update _ n _ hy)).trans (.setTop _ n _ hy)

/-- An instruction concerns its own thread, a thread that it creates, and with PPAPI_START the event thread. -/
theorem exec_keepsFrames (hne : ∀ malloc args, inst ≠ .ppapiStart malloc args) (hy : y ≠ t)
    (hn : ∀ n functionId stackTop tls, inst = .threadCreate n functionId stackTop tls → y ≠ n)
    (h : inst.exec env x t = .ok x') : KeepsFrames x x' y := by
  cases inst with
  | other values memory heapEnd =>
    cases h
    exact (KeepsFrames.modifyFrame x t _ hy).congr rfl
  | call functionId values =>
    obtain ⟨x₁, hp, h⟩ := bind_eq_ok.mp h
    cases h
    rw [pushFunction_eq hp]
    exact (KeepsFrames.update x t _ hy).trans (.modifyFrame _ t _ hy)
  | ret =>
    cases h
    exact returnFrame_keepsFrames x none hy
  | retValue value =>
    cases h
    exact returnFrame_keepsFrames x _ hy
  | alloca size alignment =>
    simp only [PNPpapiInst.exec] at h
    split at h
    · cases h
    · cases h
      exact .setTop x t _ hy
  | stacksave =>
    cases h
    exact .of_eq rfl
  | stackrestore value =>
    cases h
    exact .setTop x t _ hy
  | setjmp =>
    cases h
    exact (KeepsFrames.modifyFrame x t _ hy).congr rfl
  | longjmp id =>
    simp only [PNPpapiInst.exec] at h
    split at h
    · cases h
      exact .update x t _ hy
    · cases h
  | ppapiStart malloc args => exact absurd rfl (hne malloc args)
  | threadCreate n functionId stackTop tls =>
    obtain ⟨x₁, hp, h⟩ := bind_eq_ok.mp h
    cases h
    exact threadCreate_keepsFrames stackTop tls (hn n functionId stackTop tls rfl) hp
  | threadExit =>
    obtain ⟨-, h⟩ := pnCheck_bind_eq_ok.mp h
    cases h
    exact .setState x t _ hy
  | futexWait =>
    cases h
    exact .setState x t _ hy
  | futexWake woken =>
    cases h
    exact wakeThreads_keepsFrames woken
  | exit =>
    cases h
    exact (KeepsFrames.setState x t _ hy).congr rfl

/-! ## The frames of the event thread -/

/-- The stack top of the frame and those in its jump buffers are at most `b`. -/
structure PNPpapiFrame.Below (f : PNPpapiFrame) (b : Nat) : Prop where
  top : f.memoryStackTop ≤ b
  jmpbufs : ∀ j ∈ f.jmpbufs, j.2 ≤ b

/-- All frames of the thread are; while it can run it has one. -/
structure PNPpapiThread.Below (th : PNPpapiThread) (b : Nat) : Prop where
  frames : ∀ f ∈ th.frames, f.Below b
  active : th.state = .running ∨ th.state = .blocked → th.frames ≠ []

theorem PNPpapiThread.Below.modifyHead {th : PNPpapiThread} (h : th.Below b) {f : PNPpapiFrame → PNPpapiFrame}
    (hf : ∀ fr ∈ th.frames, fr.Below b → (f fr).Below b) : { th with frames := th.frames.modifyHead f }.Below b := by
  refine ⟨fun fr hfr => ?_, fun ha => ?_⟩
  · have hin := h.frames
    cases hfs : th.frames with
    | nil => simp [hfs] at hfr
    | cons top rest =>
      simp only [hfs, List.modifyHead_cons, List.mem_cons] at hfr hf hin
      rcases hfr with rfl | hfr
      · exact hf top (.inl rfl) (hin top (.inl rfl))
      · exact hin fr (.inr hfr)
  · simpa using h.active ha

theorem PNPpapiThread.Below.tail {th : PNPpapiThread} (h : ∀ f ∈ th.frames, f.Below b) : ∀ f ∈ th.frames.tail, f.Below b :=
  fun f hf => h f (List.mem_of_mem_tail hf)

theorem PNPpapiThread.Below.push {th : PNPpapiThread} (h : th.Below b) {f : PNPpapiFrame} (hf : f.Below b) :
    { th with frames := f :: th.frames }.Below b := by
  refine ⟨fun g hg => ?_, fun _ => List.cons_ne_nil _ _⟩
  rcases List.mem_cons.mp hg with rfl | hg
  · exact hf
  · exact h.frames g hg

theorem stackTop_of_ne_nil (env : PNPpapiEnv) (h : (x.threads t).frames ≠ []) :
    ∃ f ∈ (x.threads t).frames, x.stackTop env t = f.memoryStackTop := by
  unfold PNPpapiExecutor.stackTop
  cases hfs : (x.threads t).frames with
  | nil => exact absurd hfs h
  | cons f fs => exact ⟨f, List.mem_cons_self, rfl⟩

theorem findBuf_below {id top : Nat} : ∀ {bufs rest : List (Nat × Nat)}, findBuf id bufs = some (top, rest) →
    (∀ j ∈ bufs, j.2 ≤ b) → top ≤ b ∧ ∀ j ∈ rest, j.2 ≤ b
  | [], _, h, _ => by cases h
  | (bufId, v) :: bufs, rest, h, hb => by
    unfold findBuf at h
    have hb' := fun j hj => hb j (List.mem_cons_of_mem _ hj)
    split at h
    · cases h
      exact ⟨hb _ List.mem_cons_self, hb'⟩
    · exact findBuf_below h hb'

theorem longjmpFrames_below {id : Nat} : ∀ {fs fs' : List PNPpapiFrame}, longjmpFrames id fs = some fs' →
    (∀ f ∈ fs, f.Below b) → fs' ≠ [] ∧ ∀ f ∈ fs', f.Below b
  | [], _, h, _ => by cases h
  | f :: fs, fs', h, hb => by
    unfold longjmpFrames at h
    have hb' := fun g hg => hb g (List.mem_cons_of_mem _ hg)
    split at h
    next top rest hfind =>
      cases h
      refine ⟨List.cons_ne_nil _ _, fun g hg => ?_⟩
      rcases List.mem_cons.mp hg with rfl | hg
      · obtain ⟨htop, hrest⟩ := findBuf_below hfind (hb f List.mem_cons_self).jmpbufs
        exact ⟨htop, hrest⟩
      · exact hb' g hg
    next => exact longjmpFrames_below h hb'

/-- ALLOCA takes its block from below the stack top. -/
theorem alloca_le {size top : Nat} (alignment : Nat) (h : size ≤ top) :
    pnAlignDown ((top + 2 ^ 32 - size) % 2 ^ 32) alignment + size ≤ top := by
  have hd := pnAlignDown_le ((top + 2 ^ 32 - size) % 2 ^ 32) alignment
  have hm : (top + 2 ^ 32 - size) % 2 ^ 32 ≤ top - size := by
    have : top + 2 ^ 32 - size = top - size + 2 ^ 32 := by omega
    rw [this, Nat.add_mod_right]
    exact Nat.mod_le ..
  omega

/-! ## Instructions of the event thread -/

/-- The event that comes next calls a function: GET_INTERFACE does, and DID_CREATE when one of the instance interfaces is known; 0
stands for an interface that the plugin does not have. -/
def PNPpapiExecutor.CallsHandler (env : PNPpapiEnv) (x : PNPpapiExecutor) : Prop :=
  let x := pnEventFinish x x.mainThread
  let event := (x.ppapi.events env.sentinelEvent).next
  event ≠ env.sentinelEvent ∧
    match (x.ppapi.events event).type with
    | .getInterface => True
    | .didCreate => x.pppInterfaces PN_PPP_INTERFACE_INSTANCE_1_1 ≠ PN_INVALID_INTERFACE_TABLE ∧
      (x.pppInterfaces PN_PPP_INTERFACE_INSTANCE_1_1 = 0 →
        x.pppInterfaces PN_PPP_INTERFACE_INSTANCE_1_0 ≠ PN_INVALID_INTERFACE_TABLE)
    | .none | .didChangeView => False

instance (x : PNPpapiExecutor) (type : PNEventType) : Decidable (match type with
    | .getInterface => True
    | .didCreate => x.pppInterfaces PN_PPP_INTERFACE_INSTANCE_1_1 ≠ PN_INVALID_INTERFACE_TABLE ∧
      (x.pppInterfaces PN_PPP_INTERFACE_INSTANCE_1_1 = 0 →
        x.pppInterfaces PN_PPP_INTERFACE_INSTANCE_1_0 ≠ PN_INVALID_INTERFACE_TABLE)
    | .none | .didChangeView => False) :=
  match type with
  | .getInterface => inferInstanceAs (Decidable True)
  | .didCreate => inferInstanceAs (Decidable (_ ∧ (_ → _)))
  | .none | .didChangeView => inferInstanceAs (Decidable False)

instance (x : PNPpapiExecutor) : Decidable (x.CallsHandler env) := inferInstanceAs (Decidable (_ ∧ _))

/-- The event thread restores stack tops that it saved. -/
def RestoresSaved (env : PNPpapiEnv) (x : PNPpapiExecutor) : PNPpapiOp → Prop
  | .execute t (.stackrestore value) => t = env.eventThread → value ∈ x.saved
  | _ => True

/-- The event thread allocates no more than its stack has, and a handler is called only when the start thread's stack top is at
the end of the stack. -/
def StackFits (env : PNPpapiEnv) (x : PNPpapiExecutor) : PNPpapiOp → Prop
  | .execute t (.alloca size _) => t = env.eventThread → size ≤ x.stackTop env t
  | .turn _ => x.CallsHandler env → env.ex.stackEnd ≤ x.stackTop env env.startThread
  | _ => True

instance (x : PNPpapiExecutor) : ∀ op, Decidable (RestoresSaved env x op)
  | .execute _ inst =>
    match inst with
    | .stackrestore _ => inferInstanceAs (Decidable (_ → _))
    | .other .. | .call .. | .ret | .retValue _ | .alloca .. | .stacksave | .setjmp | .longjmp _ | .ppapiStart .. | .threadCreate .. |
      .threadExit | .futexWait | .futexWake _ | .exit => inferInstanceAs (Decidable True)
  | .turn _ | .unlink _ | .timeOut _ => inferInstanceAs (Decidable True)

instance (x : PNPpapiExecutor) : ∀ op, Decidable (StackFits env x op)
  | .execute _ inst =>
    match inst with
    | .alloca .. => inferInstanceAs (Decidable (_ → _))
    | .other .. | .call .. | .ret | .retValue _ | .stacksave | .stackrestore _ | .setjmp | .longjmp _ | .ppapiStart .. |
      .threadCreate .. | .threadExit | .futexWait | .futexWake _ | .exit => inferInstanceAs (Decidable True)
  | .turn _ => inferInstanceAs (Decidable (_ → _))
  | .unlink _ | .timeOut _ => inferInstanceAs (Decidable True)

theorem update_below {f : PNPpapiThread → PNPpapiThread} (h : (f (x.threads t)).Below b) :
    ((x.update t f).threads t).Below b := by
  simpa using h

theorem modifyFrame_below {f : PNPpapiFrame → PNPpapiFrame} (h : (x.threads t).Below b)
    (hf : ∀ fr ∈ (x.threads t).frames, fr.Below b → (f fr).Below b) : ((x.modifyFrame t f).threads t).Below b :=
  update_below (h.modifyHead hf)

theorem setTop_below {top : Nat} (h : (x.threads t).Below b) (ht : top ≤ b) : ((x.setTop t top).threads t).Below b :=
  modifyFrame_below h fun _ _ hf => ⟨ht, hf.jmpbufs⟩

/-- A thread that stops keeps its frames. -/
theorem setState_below {state : PNPpapiThreadState} (h : (x.threads t).Below b)
    (ha : state = .running ∨ state = .blocked → (x.threads t).frames ≠ []) : ((x.setState t state).threads t).Below b :=
  update_below ⟨h.frames, ha⟩

theorem pushFunction_below {functionId : Nat} (h : (x.threads t).Below b) (htop : x.stackTop env t ≤ b)
    (hp : pnPpapiPushFunction env x t functionId = .ok x') : (x'.threads t).Below b := by
  rw [pushFunction_eq hp]
  exact update_below (h.push ⟨htop, by simp⟩)

theorem PNPpapiThread.Below.congr (h : (x.threads y).Below b) (hu : KeepsFrames x x' y) : (x'.threads y).Below b := by
  refine ⟨hu.frames ▸ h.frames, fun ha => ?_⟩
  rw [hu.frames]
  rcases hu.state with hs | ⟨hs, -⟩
  · exact h.active (hs ▸ ha)
  · exact h.active (.inr hs)

theorem returnFrame_below (value : Option Nat) (h : (x.threads t).Below b) : ((returnFrame env x t value).threads t).Below b := by
  have ht := PNPpapiThread.Below.tail h.frames
  have hth : ((x.update t fun th => { th with frames := th.frames.tail }).threads t).frames = (x.threads t).frames.tail := by simp
  unfold returnFrame
  dsimp only
  generalize (x.update t fun th => { th with frames := th.frames.tail }) = x₁ at hth ⊢
  split
  next f fs hfs => exact ⟨hth ▸ ht, fun _ => hfs ▸ List.cons_ne_nil _ _⟩
  next hfs =>
    have hd : ((x₁.setState t .dead).threads t).frames = [] := by simpa [PNPpapiExecutor.setState] using hfs
    have hs : ((x₁.setState t .dead).threads t).state = .dead := by simp [PNPpapiExecutor.setState]
    have hb : ((x₁.setState t .dead).threads t).Below b := ⟨by simp [hd], by simp [hs]⟩
    split
    · exact hb
    · exact update_below ⟨hb.frames, hb.active⟩

/-- An instruction of a thread whose frames are below a bound. -/
theorem exec_below (hne : ∀ malloc args, inst ≠ .ppapiStart malloc args)
    (hn : ∀ n functionId stackTop tls, inst = .threadCreate n functionId stackTop tls → t ≠ n)
    (h : (x.threads t).Below b) (hr : (x.threads t).state = .running)
    (halloca : ∀ size alignment, inst = .alloca size alignment → size ≤ x.stackTop env t)
    (hrestore : ∀ value, inst = .stackrestore value → value ≤ b) (hx : inst.exec env x t = .ok x') :
    (x'.threads t).Below b := by
  have hfs := h.active (.inl hr)
  have htop : x.stackTop env t ≤ b := by
    obtain ⟨f, hf, he⟩ := stackTop_of_ne_nil env hfs
    exact he ▸ (h.frames f hf).top
  cases inst with
  | other values memory heapEnd =>
    cases hx
    exact modifyFrame_below h fun _ _ hf => ⟨hf.top, hf.jmpbufs⟩
  | call functionId values =>
    obtain ⟨x₁, hp, hx⟩ := bind_eq_ok.mp hx
    cases hx
    exact modifyFrame_below (pushFunction_below h htop hp) fun _ _ hf => ⟨hf.top, hf.jmpbufs⟩
  | ret =>
    cases hx
    exact returnFrame_below none h
  | retValue value =>
    cases hx
    exact returnFrame_below _ h
  | alloca size alignment =>
    simp only [PNPpapiInst.exec] at hx
    split at hx
    · cases hx
    · cases hx
      have := alloca_le alignment (halloca size alignment rfl)
      exact setTop_below h (by omega)
  | stacksave =>
    cases hx
    exact h
  | stackrestore value =>
    cases hx
    exact setTop_below h (hrestore value rfl)
  | setjmp =>
    cases hx
    refine modifyFrame_below h fun _ _ hf => ⟨hf.top, fun j hj => ?_⟩
    rcases List.mem_cons.mp hj with rfl | hj
    · exact hf.top
    · exact hf.jmpbufs j hj
  | longjmp id =>
    simp only [PNPpapiInst.exec] at hx
    split at hx
    next frames hl =>
      cases hx
      obtain ⟨hne, hb⟩ := longjmpFrames_below hl h.frames
      exact update_below ⟨hb, fun _ => hne⟩
    next => cases hx
  | ppapiStart malloc args => exact absurd rfl (hne malloc args)
  | threadCreate n functionId stackTop tls =>
    obtain ⟨x₁, hp, hx⟩ := bind_eq_ok.mp hx
    cases hx
    exact h.congr (threadCreate_keepsFrames stackTop tls (hn n functionId stackTop tls rfl) hp)
  | threadExit =>
    obtain ⟨-, hx⟩ := pnCheck_bind_eq_ok.mp hx
    cases hx
    exact setState_below h (by simp)
  | futexWait =>
    cases hx
    exact setState_below h fun _ => hfs
  | futexWake woken =>
    cases hx
    exact h.congr (wakeThreads_keepsFrames woken)
  | exit =>
    cases hx
    exact setState_below h (by simp)

theorem wakeThreads_saved : ∀ {x : PNPpapiExecutor} (woken : List Nat), (wakeThreads x woken).saved = x.saved
  | _, [] => rfl
  | x, i :: rest => by
    unfold wakeThreads
    split
    · exact wakeThreads_saved rest
    · exact wakeThreads_saved rest

/-- Only STACKSAVE adds to what was saved. -/
theorem exec_saved (hne : ∀ malloc args, inst ≠ .ppapiStart malloc args) (hx : inst.exec env x t = .ok x') :
    x'.saved = x.saved ∨ t = env.eventThread ∧ x'.saved = x.stackTop env t :: x.saved := by
  cases inst with
  | stacksave =>
    cases hx
    dsimp only
    split
    next ht => exact .inr ⟨ht, rfl⟩
    next => exact .inl rfl
  | call functionId values =>
    obtain ⟨x₁, hp, hx⟩ := bind_eq_ok.mp hx
    cases hx
    rw [pushFunction_eq hp]
    exact .inl rfl
  | ret | retValue value =>
    cases hx
    refine .inl ?_
    unfold returnFrame
    dsimp only
    split
    · rfl
    · split
      · rfl
      · rfl
  | alloca size alignment =>
    simp only [PNPpapiInst.exec] at hx
    split at hx
    · cases hx
    · cases hx
      exact .inl rfl
  | longjmp id =>
    simp only [PNPpapiInst.exec] at hx
    split at hx
    · cases hx
      exact .inl rfl
    · cases hx
  | ppapiStart malloc args => exact absurd rfl (hne malloc args)
  | threadCreate n functionId stackTop tls =>
    obtain ⟨x₁, hp, hx⟩ := bind_eq_ok.mp hx
    cases hx
    rw [pushFunction_eq hp]
    exact .inl rfl
  | threadExit =>
    obtain ⟨-, hx⟩ := pnCheck_bind_eq_ok.mp hx
    cases hx
    exact .inl rfl
  | futexWake woken =>
    cases hx
    exact .inl (wakeThreads_saved woken)
  | other values memory heapEnd | stackrestore value | setjmp | futexWait | exit =>
    cases hx
    exact .inl rfl

/-! ## The turn of the event thread -/

@[simp] theorem pnEventFinish_threads (x : PNPpapiExecutor) (t : Nat) : (pnEventFinish x t).threads = x.threads := by
  unfold pnEventFinish
  dsimp only
  split
  · rfl
  · split
    · rfl
    · rfl

@[simp] theorem pnEventFinish_saved (x : PNPpapiExecutor) (t : Nat) : (pnEventFinish x t).saved = x.saved := by
  unfold pnEventFinish
  dsimp only
  split
  · rfl
  · split
    · rfl
    · rfl

theorem pnPpapiGetInterface_eq {interface iface : Nat} (h : pnPpapiGetInterface env malloc x interface = .ok (iface, x')) :
    iface = x.pppInterfaces interface ∧ ∃ p, x' = { x with ppapi := p } := by
  unfold pnPpapiGetInterface at h
  simp only at h
  split at h
  · obtain ⟨⟨d, p⟩, -, h⟩ := bind_eq_ok.mp h
    cases h
    exact ⟨rfl, _, rfl⟩
  · cases h
    exact ⟨rfl, x.ppapi, rfl⟩

/-- The thread goes on with a new frame, the stack top of which is the one that the thread had. -/
def NewFrame (env : PNPpapiEnv) (x x' : PNPpapiExecutor) (t : Nat) : Prop :=
  ∃ f, (x'.threads t).frames = f :: (x.threads t).frames ∧ f.memoryStackTop = x.stackTop env t ∧ f.jmpbufs = []

theorem pushFunction_newFrame {functionId : Nat} (h : pnPpapiPushFunction env x t functionId = .ok x') :
    x'.saved = x.saved ∧ (∀ y, y ≠ t → x'.threads y = x.threads y) ∧ NewFrame env x x' t := by
  rw [pushFunction_eq h]
  refine ⟨rfl, fun y hy => by simp [hy], ?_⟩
  exact ⟨⟨functionId, frameValues (env.ex.functions functionId), x.stackTop env t, []⟩, by simp, rfl, rfl⟩

theorem pushFunctionPointer_newFrame {function : PNRuntimeFunction}
    (h : pnThreadPushFunctionPointer env x t func = .ok (function, x')) :
    x'.saved = x.saved ∧ (∀ y, y ≠ t → x'.threads y = x.threads y) ∧ NewFrame env x x' t := by
  obtain ⟨-, h⟩ := pnCheck_bind_eq_ok.mp h
  obtain ⟨x₁, hp, h⟩ := bind_eq_ok.mp h
  cases h
  exact pushFunction_newFrame hp

/-- Arguments go into the new frame. -/
theorem NewFrame.setParam (h : NewFrame env x x' t) (index value : Nat) :
    NewFrame env x (pnThreadSetParamValue x' t index value) t := by
  obtain ⟨f, hf, htop, hj⟩ := h
  exact ⟨{ f with values := Function.update f.values index value },
    by simp [pnThreadSetParamValue, PNPpapiExecutor.modifyFrame, hf], htop, hj⟩

theorem NewFrame.setState (h : NewFrame env x x' t) (state : PNPpapiThreadState) : NewFrame env x (x'.setState t state) t := by
  obtain ⟨f, hf, htop, hj⟩ := h
  exact ⟨f, by simp [PNPpapiExecutor.setState, hf], htop, hj⟩

theorem pnThreadSetParamValue_threads (x : PNPpapiExecutor) {t y : Nat} (index value : Nat) (hy : y ≠ t) :
    (pnThreadSetParamValue x t index value).threads y = x.threads y := by
  simp [pnThreadSetParamValue, PNPpapiExecutor.modifyFrame, hy]

/-- What handling an event does to the threads: the event thread goes on with a function, or nothing happens. -/
structure Handled (env : PNPpapiEnv) (x x' : PNPpapiExecutor) (t : Nat) (calls : Prop) : Prop where
  saved : x'.saved = x.saved
  others : ∀ y, y ≠ t → x'.threads y = x.threads y
  called : calls → NewFrame env x x' t ∧ (x'.threads t).state = .running
  idle : ¬calls → x'.threads t = x.threads t

theorem handleGetInterface_handled {e : Nat} (h : handleGetInterface env x t e = .ok x') : Handled env x x' t True := by
  obtain ⟨⟨function, x₁⟩, hp, h⟩ := bind_eq_ok.mp h
  cases h
  obtain ⟨hs, ho, hf⟩ := pushFunctionPointer_newFrame hp
  refine ⟨hs, fun y hy => ?_, fun _ => ⟨?_, ?_⟩, fun hc => absurd trivial hc⟩
  · simp [PNPpapiExecutor.setState, hy, pnThreadSetParamValue_threads, ho]
  · exact (hf.setParam 0 (env.interfaceNames (x.ppapi.events e).interface)).setState .running
  · simp [PNPpapiExecutor.setState]

theorem startDidCreate_handled {e interface iface : Nat} (h : startDidCreate env x t e interface iface = .ok x') :
    Handled env x x' t True := by
  obtain ⟨didCreateFunc, -, h⟩ := bind_eq_ok.mp h
  obtain ⟨⟨function, x₁⟩, hp, h⟩ := bind_eq_ok.mp h
  obtain ⟨-, h⟩ := pnCheck_bind_eq_ok.mp h
  cases h
  obtain ⟨hs, ho, hf⟩ := pushFunctionPointer_newFrame hp
  refine ⟨hs, fun y hy => ?_, fun _ => ⟨?_, ?_⟩, fun hc => absurd trivial hc⟩
  · simp [PNPpapiExecutor.setState, hy, pnThreadSetParamValue_threads, ho]
  · exact ((((hf.setParam 0 _).setParam 1 0).setParam 2 0).setParam 3 0).setState .running
  · simp [PNPpapiExecutor.setState]

/-- The case that a DID_CREATE event runs in. -/
theorem handleDidCreate_handled {e : Nat} (h : handleDidCreate env malloc x t e = .ok x') :
    Handled env x x' t (x.pppInterfaces PN_PPP_INTERFACE_INSTANCE_1_1 ≠ PN_INVALID_INTERFACE_TABLE ∧
      (x.pppInterfaces PN_PPP_INTERFACE_INSTANCE_1_1 = 0 →
        x.pppInterfaces PN_PPP_INTERFACE_INSTANCE_1_0 ≠ PN_INVALID_INTERFACE_TABLE)) := by
  -- what comes behind the interfaces has the threads of `x`
  have hstart {p : PNPpapi} {interface iface : Nat} {calls : Prop} (hc : calls)
      (h : startDidCreate env { x with ppapi := p } t e interface iface = .ok x') : Handled env x x' t calls := by
    have hh := startDidCreate_handled h
    exact ⟨hh.saved, hh.others, fun _ => hh.called trivial, fun hn => absurd hc hn⟩
  obtain ⟨⟨iface, x₁⟩, hg, h⟩ := bind_eq_ok.mp h
  obtain ⟨rfl, p, rfl⟩ := pnPpapiGetInterface_eq hg
  dsimp only at h
  split at h
  next h₁ =>
    cases h
    exact ⟨rfl, fun _ _ => rfl, fun hc => absurd h₁ hc.1, fun _ => rfl⟩
  next h₁ =>
    split at h
    next h0 =>
      obtain ⟨⟨iface, x₂⟩, hg, h⟩ := bind_eq_ok.mp h
      obtain ⟨rfl, p, rfl⟩ := pnPpapiGetInterface_eq hg
      dsimp only at h
      split at h
      next h₂ =>
        cases h
        exact ⟨rfl, fun _ _ => rfl, fun hc => absurd h₂ (hc.2 h0), fun _ => rfl⟩
      next h₂ =>
        split at h
        · cases h
        · exact hstart ⟨h₁, fun _ => h₂⟩ h
    next h0 => exact hstart ⟨h₁, fun hc => absurd hc h0⟩ h

@[simp] theorem pnEventDequeue_type (env : PNPpapiEnv) (p : PNPpapi) (y : Nat) :
    ((pnEventDequeue env p).2.events y).type = (p.events y).type := by
  unfold pnEventDequeue
  dsimp only
  split
  · rfl
  · simp

/-- Whether the event at the front of the queue calls a function. -/
theorem handleNext_handled (h : pnEventHandleNext env malloc x t = .ok x') (h0 : (x.ppapi.events env.sentinelEvent).next ≠ 0) :
    Handled env x x' t ((x.ppapi.events env.sentinelEvent).next ≠ env.sentinelEvent ∧
      match (x.ppapi.events (x.ppapi.events env.sentinelEvent).next).type with
      | .getInterface => True
      | .didCreate => x.pppInterfaces PN_PPP_INTERFACE_INSTANCE_1_1 ≠ PN_INVALID_INTERFACE_TABLE ∧
        (x.pppInterfaces PN_PPP_INTERFACE_INSTANCE_1_1 = 0 →
          x.pppInterfaces PN_PPP_INTERFACE_INSTANCE_1_0 ≠ PN_INVALID_INTERFACE_TABLE)
      | .none | .didChangeView => False) := by
  have htype := pnEventDequeue_type env x.ppapi
  have hfst : (pnEventDequeue env x.ppapi).1 =
      if (x.ppapi.events env.sentinelEvent).next = env.sentinelEvent then 0 else (x.ppapi.events env.sentinelEvent).next := by
    unfold pnEventDequeue
    dsimp only
    split
    · rfl
    · rfl
  unfold pnEventHandleNext at h
  generalize pnEventDequeue env x.ppapi = r at htype hfst h
  obtain ⟨e, p⟩ := r
  dsimp only at htype hfst h
  generalize (x.ppapi.events env.sentinelEvent).next = d at h0 hfst ⊢
  -- what is queued and current is none of the threads
  have hback {c c' : Prop} (hc : c ↔ c') (hh : Handled env { x with ppapi := { p with currentEvent := 0 } } x' t c') :
      Handled env x x' t c :=
    ⟨hh.saved, hh.others, fun hp => hh.called (hc.mp hp), fun hn => hh.idle (mt hc.mpr hn)⟩
  by_cases hd : d = env.sentinelEvent
  · rw [if_pos hd] at hfst
    rw [if_pos hfst] at h
    cases h
    exact ⟨rfl, fun _ _ => rfl, fun hc => absurd hd hc.1, fun _ => rfl⟩
  · rw [if_neg hd] at hfst
    subst hfst
    rw [if_neg h0, htype e] at h
    cases ht : (x.ppapi.events e).type with
    | none =>
      rw [ht] at h
      cases h
    | getInterface =>
      rw [ht] at h
      exact hback (by simp [hd]) (handleGetInterface_handled h)
    | didCreate =>
      rw [ht] at h
      exact hback (by simp [hd]) (handleDidCreate_handled h)
    | didChangeView =>
      rw [ht] at h
      cases h
      exact ⟨rfl, fun _ _ => rfl, fun hc => hc.2.elim, fun _ => rfl⟩

/-- A turn of the event thread calls a function when the next event does. -/
theorem eventTurn_handled (h : eventTurn env malloc x x.mainThread = .ok x')
    (h0 : ((pnEventFinish x x.mainThread).ppapi.events env.sentinelEvent).next ≠ 0)
    (hs : (x.threads x.mainThread).state = .dead ∨ (x.threads x.mainThread).state = .idle) :
    x'.saved = x.saved ∧ (∀ y, y ≠ x.mainThread → x'.threads y = x.threads y) ∧
      (x.CallsHandler env → NewFrame env x x' x.mainThread ∧ (x'.threads x.mainThread).state = .running) ∧
      (¬x.CallsHandler env → (x'.threads x.mainThread).frames = (x.threads x.mainThread).frames ∧
        (x'.threads x.mainThread).state = .idle) := by
  obtain ⟨-, h⟩ := cAssert_bind_eq_ok.mp h
  obtain ⟨-, h⟩ := cAssert_bind_eq_ok.mp h
  obtain ⟨x₁, hn, h⟩ := bind_eq_ok.mp h
  have hh : Handled env (pnEventFinish x x.mainThread) x₁ x.mainThread (x.CallsHandler env) := handleNext_handled hn h0
  obtain ⟨hsaved, hothers, hcalled, hidle⟩ := hh
  rw [pnEventFinish_saved] at hsaved
  simp only [pnEventFinish_threads] at hothers hidle
  have hnew : NewFrame env (pnEventFinish x x.mainThread) x₁ x.mainThread → NewFrame env x x₁ x.mainThread := by
    simp [NewFrame, PNPpapiExecutor.stackTop]
  split at h
  next hdead =>
    cases h
    refine ⟨hsaved, fun y hy => ?_, fun hc => ?_, fun hc => ⟨?_, ?_⟩⟩
    · simp [PNPpapiExecutor.setState, hy, hothers]
    · rw [(hcalled hc).2] at hdead
      cases hdead
    · simp [PNPpapiExecutor.setState, hidle hc]
    · simp [PNPpapiExecutor.setState]
  next hlive =>
    cases h
    refine ⟨hsaved, hothers, fun hc => ⟨hnew (hcalled hc).1, (hcalled hc).2⟩, fun hc => ⟨by rw [hidle hc], ?_⟩⟩
    rw [hidle hc] at hlive ⊢
    exact hs.resolve_left hlive

/-! ## PPAPI_START -/

theorem stackTop_congr (h : (x'.threads t).frames = (x.threads t).frames) : x'.stackTop env t = x.stackTop env t := by
  unfold PNPpapiExecutor.stackTop
  rw [h]

@[simp] theorem PNPpapiExecutor.setNext_frames (x : PNPpapiExecutor) (t p y : Nat) :
    ((x.setNext t p).threads y).frames = (x.threads y).frames := by
  simp only [PNPpapiExecutor.setNext, PNPpapiExecutor.update_threads]
  split
  next h => rw [h]
  · rfl

@[simp] theorem PNPpapiExecutor.setPrev_frames (x : PNPpapiExecutor) (t p y : Nat) :
    ((x.setPrev t p).threads y).frames = (x.threads y).frames := by
  simp only [PNPpapiExecutor.setPrev, PNPpapiExecutor.update_threads]
  split
  next h => rw [h]
  · rfl

/-- The exchange leaves the start thread its frames; the event thread has none yet. -/
theorem replaceThread_frames (x : PNPpapiExecutor) (h : t ≠ env.eventThread) :
    ((replaceThread env x t).threads env.eventThread).frames = [] ∧
      ((replaceThread env x t).threads t).frames = (x.threads t).frames := by
  simp [replaceThread, PNPpapiExecutor.setState, h.symm, h]

theorem replaceThread_state (env : PNPpapiEnv) (x : PNPpapiExecutor) :
    ((replaceThread env x t).threads t).state = .eventLoop := by
  simp [replaceThread, PNPpapiExecutor.setState]

/-- PPAPI_START gives the frame of the initialisation the stack top of the start thread. -/
theorem ppapiStart_stack (h : pnBuiltinPpapiStart env malloc x t args = .ok x') :
    x.mainThread = env.startThread ∧ x'.mainThread = env.eventThread ∧ x'.saved = x.saved ∧
      (x'.threads env.startThread).state = .eventLoop ∧ x'.stackTop env env.startThread = x.stackTop env env.startThread ∧
      ∃ f, (x'.threads env.eventThread).frames = [f] ∧ f.memoryStackTop = x.stackTop env env.startThread ∧ f.jmpbufs = [] := by
  have hne : env.startThread ≠ env.eventThread := env.threads_ne.symm
  obtain ⟨-, h⟩ := pnCheck_bind_eq_ok.mp h
  obtain ⟨initializeFunc, -, h⟩ := bind_eq_ok.mp h
  obtain ⟨shutdownFunc, -, h⟩ := bind_eq_ok.mp h
  obtain ⟨getInterfaceFunc, -, h⟩ := bind_eq_ok.mp h
  obtain ⟨rfl, h⟩ := pnCheck_bind_eq_ok.mp h
  obtain ⟨hmain, h⟩ := pnCheck_bind_eq_ok.mp h
  obtain ⟨⟨function, x₂⟩, hp, h⟩ := bind_eq_ok.mp h
  obtain ⟨-, h⟩ := pnCheck_bind_eq_ok.mp h
  obtain ⟨⟨event, p⟩, -, h⟩ := bind_eq_ok.mp h
  cases h
  have hse := pushFunctionPointer_sameEvents hp
  obtain ⟨hsaved, hothers, hnew⟩ := pushFunctionPointer_newFrame hp
  obtain ⟨f, hf, -, hj⟩ := (hnew.setParam 0 PN_MODULE_ID).setParam 1 (PN_BUILTIN_PPB_GET_INTERFACE * 4)
  rw [(replaceThread_frames _ hne).1] at hf
  have hstart : (pnThreadSetParamValue (pnThreadSetParamValue x₂ env.eventThread 0 PN_MODULE_ID) env.eventThread 1
      (PN_BUILTIN_PPB_GET_INTERFACE * 4)).threads env.startThread = x₂.threads env.startThread := by
    rw [pnThreadSetParamValue_threads _ _ _ hne, pnThreadSetParamValue_threads _ _ _ hne]
  rw [hothers _ hne] at hstart
  have hmain₃ : (pnThreadSetParamValue (pnThreadSetParamValue x₂ env.eventThread 0 PN_MODULE_ID) env.eventThread 1
      (PN_BUILTIN_PPB_GET_INTERFACE * 4)).mainThread = env.eventThread := hse.mainThread
  have hsaved₃ : (pnThreadSetParamValue (pnThreadSetParamValue x₂ env.eventThread 0 PN_MODULE_ID) env.eventThread 1
      (PN_BUILTIN_PPB_GET_INTERFACE * 4)).saved = x.saved := hsaved
  generalize pnThreadSetParamValue (pnThreadSetParamValue x₂ env.eventThread 0 PN_MODULE_ID) env.eventThread 1
    (PN_BUILTIN_PPB_GET_INTERFACE * 4) = x₃ at hf hstart hmain₃ hsaved₃ ⊢
  have hframes : (x₃.threads env.startThread).frames = (x.threads env.startThread).frames := by
    rw [hstart]
    exact (replaceThread_frames _ hne).2
  have htop : x₃.stackTop env env.startThread = x.stackTop env env.startThread := stackTop_congr hframes
  have hkeep : ∀ top, (x₃.setTop env.eventThread top).threads env.startThread = x₃.threads env.startThread := by
    simp [PNPpapiExecutor.setTop, PNPpapiExecutor.modifyFrame, hne]
  refine ⟨hmain.symm, hmain₃, hsaved₃, ?_, ?_, { f with memoryStackTop := x₃.stackTop env env.startThread }, ?_, htop, hj⟩
  · rw [← replaceThread_state env, ← hstart]
    exact congrArg _ (hkeep _)
  · rw [← htop]
    exact stackTop_congr (congrArg _ (hkeep _))
  · simp [PNPpapiExecutor.setTop, PNPpapiExecutor.modifyFrame, hf]

/-! ## Runs -/

/-- Once PPAPI_START was called, the frames of the event thread and the stack tops that it saved are below the stack top of the
start thread, which no longer runs. -/
structure SharedStack (env : PNPpapiEnv) (x : PNPpapiExecutor) : Prop where
  before : x.mainThread = env.startThread →
    (x.threads env.eventThread).frames = [] ∧ (x.threads env.eventThread).state = .dead ∧ x.saved = []
  suspended : x.mainThread = env.eventThread → (x.threads env.startThread).state = .eventLoop
  below : (x.threads env.eventThread).Below (x.stackTop env env.startThread)
  saved : ∀ v ∈ x.saved, v ≤ x.stackTop env env.startThread

/-- The event loop has a first event, or the sentinel is alone. -/
theorem EventsInv.next_ne {p : PNPpapi} {queue held free : List Nat} (h : EventsInv env p queue held free) :
    (p.events env.sentinelEvent).next ≠ 0 := by
  have hmem := h.ring.next_mem (t := env.sentinelEvent) (by simp)
  rcases List.mem_cons.mp hmem with he | he
  · rw [he]
    exact env.sentinelEvent_pos.ne'
  · exact (h.ne (List.mem_append_left _ he)).1

theorem KeepsFrames.eventLoop (h : KeepsFrames x x' y) (hs : (x.threads y).state = .eventLoop) :
    (x'.threads y).state = .eventLoop := by
  rcases h.state with h | ⟨h, -⟩
  · exact h.trans hs
  · rw [hs] at h
    cases h

/-- What does not concern the two threads. -/
theorem SharedStack.congr (h : SharedStack env x) (hm : x.mainThread = env.startThread ∨ x.mainThread = env.eventThread)
    (hmain : x'.mainThread = x.mainThread) (hsaved : x'.saved = x.saved) (he : KeepsFrames x x' env.eventThread)
    (hs : x.mainThread = env.eventThread → KeepsFrames x x' env.startThread) : SharedStack env x' := by
  rcases hm with hm | hm
  · obtain ⟨hf, hd, hv⟩ := h.before hm
    have hd' : (x'.threads env.eventThread).state = .dead := by
      rcases he.state with hst | ⟨hst, -⟩
      · exact hst.trans hd
      · rw [hd] at hst
        cases hst
    have hf' := he.frames.trans hf
    have hv' := hsaved.trans hv
    refine ⟨fun _ => ⟨hf', hd', hv'⟩, fun hm' => ?_, ⟨by simp [hf'], by simp [hd']⟩, by simp [hv']⟩
    exact absurd (hm'.symm.trans (hmain.trans hm)) env.threads_ne
  · have hs := hs hm
    have htop : x'.stackTop env env.startThread = x.stackTop env env.startThread := stackTop_congr hs.frames
    refine ⟨fun hm' => ?_, fun _ => hs.eventLoop (h.suspended hm), ?_, ?_⟩
    · exact absurd ((hmain.trans hm).symm.trans hm') env.threads_ne
    · rw [htop]
      exact h.below.congr he
    · rw [htop, hsaved]
      exact h.saved

/-- An instruction of the event thread itself. -/
theorem SharedStack.own (h : SharedStack env x) (hm : x.mainThread = env.eventThread)
    (hne : ∀ malloc args, inst ≠ .ppapiStart malloc args)
    (hp : ∀ n functionId stackTop tls, inst = .threadCreate n functionId stackTop tls → n ≠ env.startThread ∧ n ≠ env.eventThread)
    (hr : (x.threads env.eventThread).state = .running) (hrestore : RestoresSaved env x (.execute env.eventThread inst))
    (hfits : StackFits env x (.execute env.eventThread inst)) (hx : inst.exec env x env.eventThread = .ok x') :
    SharedStack env x' := by
  have hmain : x'.mainThread = x.mainThread := (exec_sameEvents hne hx).mainThread
  have hs : KeepsFrames x x' env.startThread :=
    exec_keepsFrames hne env.threads_ne.symm (fun n functionId stackTop tls he => (hp n functionId stackTop tls he).1.symm) hx
  have htop : x'.stackTop env env.startThread = x.stackTop env env.startThread := stackTop_congr hs.frames
  refine ⟨fun hm' => ?_, fun _ => hs.eventLoop (h.suspended hm), ?_, ?_⟩
  · exact absurd ((hmain.trans hm).symm.trans hm') env.threads_ne
  · rw [htop]
    refine exec_below hne (fun n functionId stackTop tls he => (hp n functionId stackTop tls he).2.symm) h.below hr ?_ ?_ hx
    · rintro size alignment rfl
      exact hfits rfl
    · rintro value rfl
      exact h.saved value (hrestore rfl)
  · rw [htop]
    rcases exec_saved hne hx with hv | ⟨-, hv⟩
    · rw [hv]
      exact h.saved
    · rw [hv]
      intro v hmem
      rcases List.mem_cons.mp hmem with rfl | hmem
      · obtain ⟨f, hf, he⟩ := stackTop_of_ne_nil env (h.below.active (.inl hr))
        rw [he]
        exact (h.below.frames f hf).top
      · exact h.saved v hmem

/-- A handler that is called finds the start thread's stack top at the end of the stack. -/
theorem SharedStack.turn (h : SharedStack env x) (hm : x.mainThread = env.startThread ∨ x.mainThread = env.eventThread)
    (hmain : x'.mainThread = x.mainThread) (h0 : ((pnEventFinish x x.mainThread).ppapi.events env.sentinelEvent).next ≠ 0)
    (hs : (x.threads x.mainThread).state = .dead ∨ (x.threads x.mainThread).state = .idle)
    (hfits : x.CallsHandler env → env.ex.stackEnd ≤ x.stackTop env env.startThread)
    (hx : eventTurn env malloc x x.mainThread = .ok x') : SharedStack env x' := by
  obtain ⟨hsaved, hothers, hcalled, hidle⟩ := eventTurn_handled hx h0 hs
  obtain ⟨hne, -⟩ := cAssert_bind_eq_ok.mp hx
  have hm := hm.resolve_left hne
  rw [hm] at hothers hcalled hidle hmain
  have hstart := hothers env.startThread env.threads_ne.symm
  have htop : x'.stackTop env env.startThread = x.stackTop env env.startThread := stackTop_congr (by rw [hstart])
  refine ⟨fun hm' => absurd (hmain.symm.trans hm') env.threads_ne, fun _ => ?_, ?_, ?_⟩
  · rw [hstart]
    exact h.suspended hm
  · rw [htop]
    by_cases hc : x.CallsHandler env
    · obtain ⟨⟨f, hf, hft, hfj⟩, hrun⟩ := hcalled hc
      have hle : x.stackTop env env.eventThread ≤ x.stackTop env env.startThread := by
        by_cases hfs : (x.threads env.eventThread).frames = []
        · have he : x.stackTop env env.eventThread = env.ex.stackEnd := by
            unfold PNPpapiExecutor.stackTop
            rw [hfs]
          rw [he]
          exact hfits hc
        · obtain ⟨g, hg, he⟩ := stackTop_of_ne_nil env hfs
          rw [he]
          exact (h.below.frames g hg).top
      refine ⟨fun g hg => ?_, fun _ => hf ▸ List.cons_ne_nil _ _⟩
      rw [hf] at hg
      rcases List.mem_cons.mp hg with rfl | hg
      · exact ⟨hft.trans_le hle, by simp [hfj]⟩
      · exact h.below.frames g hg
    · obtain ⟨hf, hst⟩ := hidle hc
      exact ⟨hf ▸ h.below.frames, by simp [hst]⟩
  · rw [htop, hsaved]
    exact h.saved

/-- **Step.** -/
theorem SharedStack.step {queue free : List Nat} {op : PNPpapiOp} (h : SharedStack env x) (hl : LoopInv env x queue free)
    (he : op.Enabled x) (hp : op.Promised env) (hrestore : RestoresSaved env x op) (hfits : StackFits env x op)
    (hx : op.exec env x = .ok x') : SharedStack env x' := by
  cases op with
  | execute t inst =>
    by_cases hi : ∃ malloc args, inst = .ppapiStart malloc args
    · obtain ⟨malloc, args, rfl⟩ := hi
      obtain ⟨hm, hm', hsaved, hst, htop, f, hf, hft, hfj⟩ := ppapiStart_stack hx
      refine ⟨fun hc => absurd (hm'.symm.trans hc) env.threads_ne, fun _ => hst, ⟨?_, by simp [hf]⟩, ?_⟩
      · rw [hf, htop]
        simp only [List.mem_singleton, forall_eq]
        exact ⟨hft.le, by simp [hfj]⟩
      · simp [hsaved, (h.before hm).2.2]
    · have hne : ∀ malloc args, inst ≠ .ppapiStart malloc args := fun malloc args he => hi ⟨malloc, args, he⟩
      have hcreate : ∀ n functionId stackTop tls, inst = .threadCreate n functionId stackTop tls →
          n ≠ env.startThread ∧ n ≠ env.eventThread := by
        rintro n functionId stackTop tls rfl
        exact hp
      by_cases ht : t = env.eventThread
      · subst ht
        refine h.own (hl.main.resolve_left fun hm => ?_) hne hcreate he.2 hrestore hfits hx
        have := he.2
        rw [(h.before hm).2.1] at this
        cases this
      · have hsaved : x'.saved = x.saved := (exec_saved hne hx).resolve_right fun hc => ht hc.1
        refine h.congr hl.main (exec_sameEvents hne hx).mainThread hsaved
          (exec_keepsFrames hne (Ne.symm ht) (fun n functionId stackTop tls hc => (hcreate n functionId stackTop tls hc).2.symm) hx)
          fun hm => ?_
        refine exec_keepsFrames hne (fun hs => ?_)
          (fun n functionId stackTop tls hc => (hcreate n functionId stackTop tls hc).1.symm) hx
        have := he.2
        rw [← hs, h.suspended hm] at this
        cases this
  | turn malloc =>
    obtain ⟨free', hf, hmain⟩ := eventFinish_handling hl.handling x.mainThread
    obtain ⟨-, hn⟩ := cAssert_bind_eq_ok.mp hx
    obtain ⟨-, hn⟩ := cAssert_bind_eq_ok.mp hn
    obtain ⟨x₁, hn, ht⟩ := bind_eq_ok.mp hn
    obtain ⟨_, _, -, hmain₁⟩ := handleNext_handling hf hp hn
    refine h.turn hl.main ?_ hf.events.next_ne he hfits hx
    split at ht
    · cases ht
      exact hmain₁.trans hmain
    · cases ht
      exact hmain₁.trans hmain
  | unlink t =>
    cases hx
    exact h.congr hl.main rfl rfl (unlinkThread_keepsFrames x t) fun _ => unlinkThread_keepsFrames x t
  | timeOut t =>
    cases hx
    have hk (y : Nat) : KeepsFrames x (x.update t fun th => { th with state := .running, futexState := .timedout }) y := by
      by_cases hy : y = t
      · subst hy
        exact ⟨by simp, .inr ⟨he.2, by simp⟩⟩
      · exact .update x t _ hy
    exact h.congr hl.main rfl rfl (hk _) fun _ => hk _

theorem SharedStack.init {events : Nat → PNEventRecord} {memory : PNMemory} {heapStart : Nat}
    (h : pnExecutorInitPpapi env events memory heapStart = .ok x) : SharedStack env x := by
  obtain ⟨a, ha, h⟩ := bind_eq_ok.mp h
  obtain ⟨x₁, hp, h⟩ := bind_eq_ok.mp h
  cases h
  obtain ⟨hsaved, hothers, -⟩ := pushFunction_newFrame hp
  have hmain := (pushFunction_sameEvents hp).mainThread
  have he := hothers env.eventThread env.threads_ne
  dsimp only at he
  rw [Function.update_of_ne env.threads_ne] at he
  have hthread : (pnThreadSetParamValue x₁ env.startThread 0 env.ex.startinfoStart).threads env.eventThread = unusedThread := by
    rw [pnThreadSetParamValue_threads _ _ _ env.threads_ne, he]
  have hsaved' : (pnThreadSetParamValue x₁ env.startThread 0 env.ex.startinfoStart).saved = [] := hsaved
  refine ⟨fun _ => ⟨by rw [hthread]; rfl, by rw [hthread]; rfl, hsaved'⟩, fun hm => ?_, ?_, by simp [hsaved']⟩
  · exact absurd (hm.symm.trans hmain) env.threads_ne
  · rw [hthread]
    exact ⟨by simp [unusedThread], by simp [unusedThread]⟩

/-- The other way round: a handler that is called starts at the end of the stack, wherever the start thread's stack top is. -/
theorem turn_stackTop {queue free : List Nat} (hl : LoopInv env x queue free)
    (hs : (x.threads x.mainThread).state = .dead ∨ (x.threads x.mainThread).state = .idle)
    (hf : (x.threads x.mainThread).frames = []) (hc : x.CallsHandler env) (hx : eventTurn env malloc x x.mainThread = .ok x') :
    x'.stackTop env env.eventThread = env.ex.stackEnd ∧ x'.stackTop env env.startThread = x.stackTop env env.startThread := by
  obtain ⟨free', hfin, -⟩ := eventFinish_handling hl.handling x.mainThread
  obtain ⟨-, hothers, hcalled, -⟩ := eventTurn_handled hx hfin.events.next_ne hs
  obtain ⟨hne, -⟩ := cAssert_bind_eq_ok.mp hx
  have hm := hl.main.resolve_left hne
  rw [hm] at hothers hcalled hf
  obtain ⟨⟨f, hfs, htop, -⟩, -⟩ := hcalled hc
  refine ⟨?_, stackTop_congr (by rw [hothers _ env.threads_ne.symm])⟩
  unfold PNPpapiExecutor.stackTop at htop ⊢
  rw [hf] at htop
  rw [hfs]
  exact htop

end Pnacl
