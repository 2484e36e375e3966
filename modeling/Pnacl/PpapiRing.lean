import Pnacl.Ppapi

/-!
# The ring behind PPAPI_START

PPAPI_START writes the event thread into the links of the start thread's neighbours. On a ring of one thread the neighbour is the
start thread itself, and what it stored there is not what it copied before: the event thread keeps the start thread as its `prev`
(`replaceThread_links`). On any other ring the event thread stands where the start thread stood (`ppapiStart_ring_iff`).
-/

namespace Pnacl

open Lib

variable {env : PNPpapiEnv} {x x' : PNPpapiExecutor} {t n y func : Nat} {malloc : Malloc} {args : List PNRuntimeValue}

@[simp] theorem PNPpapiExecutor.update_threads (x : PNPpapiExecutor) (t y : Nat) (f : PNPpapiThread → PNPpapiThread) :
    (x.update t f).threads y = if y = t then f (x.threads t) else x.threads y := by
  simp [PNPpapiExecutor.update, Function.update_apply]

@[simp] theorem PNPpapiExecutor.setNext_next (x : PNPpapiExecutor) (t p y : Nat) :
    ((x.setNext t p).threads y).next = if y = t then p else (x.threads y).next := by
  simp only [PNPpapiExecutor.setNext, PNPpapiExecutor.update_threads]
  split
  · rfl
  · rfl

@[simp] theorem PNPpapiExecutor.setNext_prev (x : PNPpapiExecutor) (t p y : Nat) :
    ((x.setNext t p).threads y).prev = (x.threads y).prev := by
  simp only [PNPpapiExecutor.setNext, PNPpapiExecutor.update_threads]
  split
  next h => rw [h]
  · rfl

@[simp] theorem PNPpapiExecutor.setPrev_prev (x : PNPpapiExecutor) (t p y : Nat) :
    ((x.setPrev t p).threads y).prev = if y = t then p else (x.threads y).prev := by
  simp only [PNPpapiExecutor.setPrev, PNPpapiExecutor.update_threads]
  split
  · rfl
  · rfl

@[simp] theorem PNPpapiExecutor.setPrev_next (x : PNPpapiExecutor) (t p y : Nat) :
    ((x.setPrev t p).threads y).next = (x.threads y).next := by
  simp only [PNPpapiExecutor.setPrev, PNPpapiExecutor.update_threads]
  split
  next h => rw [h]
  · rfl

/-- The links of all threads are the same. -/
def SameLinks (x x' : PNPpapiExecutor) : Prop :=
  ∀ y, (x'.threads y).next = (x.threads y).next ∧ (x'.threads y).prev = (x.threads y).prev

theorem SameLinks.trans {x'' : PNPpapiExecutor} (h : SameLinks x x') (h' : SameLinks x' x'') : SameLinks x x'' :=
  fun y => ⟨(h' y).1.trans (h y).1, (h' y).2.trans (h y).2⟩

theorem SameLinks.update (x : PNPpapiExecutor) (t : Nat) {f : PNPpapiThread → PNPpapiThread}
    (hn : ∀ th, (f th).next = th.next) (hp : ∀ th, (f th).prev = th.prev) : SameLinks x (x.update t f) := by
  intro y
  rw [PNPpapiExecutor.update_threads]
  split
  next h => exact h ▸ ⟨hn _, hp _⟩
  · exact ⟨rfl, rfl⟩

theorem modifyFrame_sameLinks (x : PNPpapiExecutor) (t : Nat) (f : PNPpapiFrame → PNPpapiFrame) :
    SameLinks x (x.modifyFrame t f) :=
  .update x t (fun _ => rfl) fun _ => rfl

theorem pushFunctionPointer_sameLinks {function : PNRuntimeFunction}
    (h : pnThreadPushFunctionPointer env x t func = .ok (function, x')) : SameLinks x x' := by
  obtain ⟨-, h⟩ := pnCheck_bind_eq_ok.mp h
  obtain ⟨x₁, hp, h⟩ := bind_eq_ok.mp h
  cases h
  unfold pnPpapiPushFunction at hp
  simp only at hp
  split at hp
  · cases hp
  · cases hp
    exact .update x t (fun _ => rfl) fun _ => rfl

/-- The links behind the exchange. -/
theorem replaceThread_links (x : PNPpapiExecutor) (h : env.eventThread ≠ t) (y : Nat) :
    ((replaceThread env x t).threads y).next =
      (if y = t then env.eventThread
        else if y = (if t = (x.threads t).next then env.eventThread else (x.threads t).prev) then env.eventThread
        else if y = env.eventThread then (x.threads t).next else (x.threads y).next) ∧
    ((replaceThread env x t).threads y).prev =
      (if y = t then 0
        else if y = (x.threads t).next then env.eventThread
        else if y = env.eventThread then (x.threads t).prev else (x.threads y).prev) := by
  have hk : SameLinks x (x.update env.eventThread fun e =>
      { e with frames := [], tls := (x.threads t).tls, id := (x.threads t).id, state := .running, futexState := .none }) :=
    .update x _ (fun _ => rfl) fun _ => rfl
  have hs : ∀ x, SameLinks x (x.setState t .eventLoop) := fun x => .update x t (fun _ => rfl) fun _ => rfl
  unfold replaceThread
  simp only [hs _ _]
  generalize (x.update env.eventThread fun e =>
    { e with frames := [], tls := (x.threads t).tls, id := (x.threads t).id, state := .running, futexState := .none }) = x₀ at hk ⊢
  simp [(hk _).1, (hk _).2, h.symm]

/-- Behind PPAPI_START the links are those of the exchange. -/
theorem ppapiStart_links (h : pnBuiltinPpapiStart env malloc x t args = .ok x') :
    t = env.startThread ∧ SameLinks (replaceThread env x t) x' := by
  obtain ⟨-, h⟩ := pnCheck_bind_eq_ok.mp h
  obtain ⟨initializeFunc, -, h⟩ := bind_eq_ok.mp h
  obtain ⟨shutdownFunc, -, h⟩ := bind_eq_ok.mp h
  obtain ⟨getInterfaceFunc, -, h⟩ := bind_eq_ok.mp h
  obtain ⟨ht, h⟩ := pnCheck_bind_eq_ok.mp h
  obtain ⟨-, h⟩ := pnCheck_bind_eq_ok.mp h
  obtain ⟨⟨function, x₁⟩, hp, h⟩ := bind_eq_ok.mp h
  obtain ⟨-, h⟩ := pnCheck_bind_eq_ok.mp h
  obtain ⟨⟨event, p⟩, -, h⟩ := bind_eq_ok.mp h
  cases h
  refine ⟨ht, (pushFunctionPointer_sameLinks hp).trans ?_⟩
  exact ((modifyFrame_sameLinks x₁ _ _).trans (modifyFrame_sameLinks _ _ _)).trans (modifyFrame_sameLinks _ _ _)

/-- The event thread is on the ring where the start thread was, followed by the other threads, and no link of the ring leads to the
start thread. -/
structure Replaced (env : PNPpapiEnv) (x : PNPpapiExecutor) (others : List Nat) : Prop where
  ring : Ring (fun y => (x.threads y).next) (fun y => (x.threads y).prev) ↑(env.eventThread :: others)
  next_ne : ∀ y ∈ env.eventThread :: others, (x.threads y).next ≠ env.startThread
  prev_ne : ∀ y ∈ env.eventThread :: others, (x.threads y).prev ≠ env.startThread

/-- **The ring behind PPAPI_START.** For every ring with the start thread and `others`, the event thread stands in the place of the
start thread behind a PPAPI_START that returns, iff the start thread was not alone. -/
theorem ppapiStart_ring_iff {others : List Nat}
    (hring : Ring (fun y => (x.threads y).next) (fun y => (x.threads y).prev) ↑(env.startThread :: others))
    (hevent : env.eventThread ∉ env.startThread :: others) (h : pnBuiltinPpapiStart env malloc x t args = .ok x') :
    Replaced env x' others ↔ others ≠ [] := by
  obtain ⟨rfl, hsame⟩ := ppapiStart_links h
  have hne : env.eventThread ≠ env.startThread := env.threads_ne
  have hlinks := fun y => replaceThread_links x hne y
  constructor
  · rintro hr rfl
    -- the start thread was its own neighbour, and the event thread still has it as its `prev`
    obtain ⟨-, hc⟩ := ring_cons_iff.mp hring
    obtain ⟨hn, hp⟩ := (List.isChain_cons_cons.mp hc).1
    refine hr.prev_ne env.eventThread (by simp) ?_
    rw [(hsame _).2, (hlinks _).2, if_neg hne, hn, if_neg hne, if_pos rfl, hp]
  · intro hl
    obtain ⟨hnd, -⟩ := ring_cons_iff.mp hring
    obtain ⟨hstart, -⟩ := List.nodup_cons.mp hnd
    obtain ⟨hn, hp⟩ := hring.neighbours hl
    have hmem_next : (x.threads env.startThread).next ∈ others := hn ▸ List.head_mem hl
    have hmem_prev : (x.threads env.startThread).prev ∈ others := hp ▸ List.getLast_mem hl
    have hns : env.startThread ≠ (x.threads env.startThread).next := fun he => hstart (he ▸ hmem_next)
    have hevent' : ∀ y ∈ others, y ≠ env.eventThread := fun y hy he => hevent (he ▸ List.mem_cons_of_mem _ hy)
    have hstart' : ∀ y ∈ others, y ≠ env.startThread := fun y hy he => hstart (he ▸ hy)
    have hr : Ring (fun y => (x'.threads y).next) (fun y => (x'.threads y).prev) ↑(env.eventThread :: others) := by
      refine hring.replace hl hevent ?_ ?_ ?_ ?_ ?_ ?_
      · rw [(hsame _).1, (hlinks _).1, if_neg hne, if_neg hns, if_neg (hevent' _ hmem_prev).symm, if_pos rfl]
      · rw [(hsame _).1, (hlinks _).1, if_neg (hstart' _ hmem_prev), if_neg hns, if_pos rfl]
      · intro y hy hyp
        rw [(hsame _).1, (hlinks _).1, if_neg (hstart' y hy), if_neg hns, if_neg hyp, if_neg (hevent' y hy)]
      · rw [(hsame _).2, (hlinks _).2, if_neg hne, if_neg (hevent' _ hmem_next).symm, if_pos rfl]
      · rw [(hsame _).2, (hlinks _).2, if_neg (hstart' _ hmem_next), if_pos rfl]
      · intro y hy hyn
        rw [(hsame _).2, (hlinks _).2, if_neg (hstart' y hy), if_neg hyn, if_neg (hevent' y hy)]
    have hnot : env.startThread ∉ env.eventThread :: others := by
      simp only [List.mem_cons, not_or]
      exact ⟨hne.symm, hstart⟩
    refine ⟨hr, fun y hy he => hnot ?_, fun y hy he => hnot ?_⟩
    · have hmem := hr.next_mem (Cycle.mem_coe_iff.mpr hy)
      rw [he] at hmem
      exact hmem
    · have hmem := hr.prev_mem (Cycle.mem_coe_iff.mpr hy)
      rw [he] at hmem
      exact hmem

/-! ## Rings of one and two threads -/

/-- A module with a start function and the three functions of a plugin: to initialise it, to get an interface and to create an
instance. -/
def demoPpapiEnv : PNPpapiEnv where
  ex := {
    numValues := 0
    moduleValues _ := 0
    numFunctions := 4
    functions functionId := if functionId = 1 then ⟨2, 4, [], 16⟩ else if functionId = 3 then ⟨4, 4, [], 32⟩ else ⟨1, 4, [], 8⟩
    callAt _ := ⟨PN_INVALID_VALUE_ID, [0]⟩
    sentinel := 64
    stackEnd := 65536
    startFunctionId := 0
    startinfoStart := 2048
    numFunctions_lt := by decide
    numValues_lt functionId := by split <;> [decide; (split <;> decide)] }
  interfaceNames _ := 3072
  startThread := 4096
  eventThread := 8192
  sentinelEvent := 12288
  threads_ne := by decide
  sentinelEvent_pos := by decide

/-- The functions for PPAPI_START are at 1024, and the interface of instances is at 1040. -/
def demoPpapiMemory : PNMemory :=
  ⟨fun i => if i = 1024 then 232 else if i = 1032 then 236 else if i = 1040 then 240 else 0, 65536⟩

/-- The start thread executes instructions. -/
def demoStart (insts : List PNPpapiInst) : Except Stop PNPpapiExecutor := do
  let x ← pnExecutorInitPpapi demoPpapiEnv (fun _ => ⟨0, 0, .none, 0, 0⟩) demoPpapiMemory 4096
  insts.foldlM (fun x inst => inst.exec demoPpapiEnv x 4096) x

/-- A second thread waits on the ring. -/
theorem ppapiStart_ring_iff_two : ∃ x x', (x.threads 16384).next = 4096 ∧
    pnBuiltinPpapiStart demoPpapiEnv demoMalloc x 4096 [1024] = .ok x' ∧ (Replaced demoPpapiEnv x' [16384] ↔ [16384] ≠ []) := by
  obtain ⟨x, -, hobs⟩ := eq_ok_of_toOption (x := demoStart [.threadCreate 16384 1 32768 0])
    (g := fun x => ((x.threads 4096).next, (x.threads 4096).prev, (x.threads 16384).next, (x.threads 16384).prev,
      (pnBuiltinPpapiStart demoPpapiEnv demoMalloc x 4096 [1024]).toOption.isSome))
    (b := (16384, 16384, 4096, 4096, true)) (by decide +kernel)
  simp only [Prod.mk.injEq] at hobs
  obtain ⟨h₁, h₂, h₃, h₄, h₅⟩ := hobs
  obtain ⟨x', hx', -⟩ := eq_ok_of_toOption (g := fun _ => ()) (b := ())
    (x := pnBuiltinPpapiStart demoPpapiEnv demoMalloc x 4096 [1024]) (by simpa [Option.isSome_iff_exists] using h₅)
  refine ⟨x, x', h₃, hx', ppapiStart_ring_iff (ring_cons_iff.mpr ⟨by decide, ?_⟩) (by decide) hx'⟩
  exact List.isChain_cons_cons.mpr ⟨⟨h₁, h₄⟩, List.isChain_cons_cons.mpr ⟨⟨h₃, h₂⟩, .singleton _⟩⟩

/-- Alone on the ring, the start thread stays the `prev` of the event thread. -/
theorem lone_start_thread_stays : ∃ x x', Ring (fun y => (x.threads y).next) (fun y => (x.threads y).prev) ↑[4096] ∧
    pnBuiltinPpapiStart demoPpapiEnv demoMalloc x 4096 [1024] = .ok x' ∧ (x'.threads 8192).next = 8192 ∧
      (x'.threads 8192).prev = 4096 ∧ ¬Replaced demoPpapiEnv x' [] := by
  obtain ⟨x, -, hobs⟩ := eq_ok_of_toOption (x := demoStart [])
    (g := fun x => ((x.threads 4096).next, (x.threads 4096).prev,
      (pnBuiltinPpapiStart demoPpapiEnv demoMalloc x 4096 [1024]).toOption.map fun x' =>
        ((x'.threads 8192).next, (x'.threads 8192).prev)))
    (b := (4096, 4096, some (8192, 4096))) (by decide +kernel)
  simp only [Prod.mk.injEq] at hobs
  obtain ⟨h₁, h₂, h₃⟩ := hobs
  obtain ⟨x', hx', h₃⟩ := eq_ok_of_toOption h₃
  simp only [Prod.mk.injEq] at h₃
  refine ⟨x, x', ring_cons_iff.mpr ⟨by decide, ?_⟩, hx', h₃.1, h₃.2, fun h => h.prev_ne 8192 (List.mem_singleton.mpr rfl) h₃.2⟩
  exact List.isChain_cons_cons.mpr ⟨⟨h₁, h₂⟩, .singleton _⟩

end Pnacl
