import Pnacl.FrameStorage

/-!
# LONGJMP comes back to its SETJMP

SETJMP copies the frame before it links the new buffer, and LONGJMP writes the copy back: after the jump the frame no
longer lists the buffer, and a second jump to the same id is rejected (`second_longjmp_rejected`). As long as no RET or
LONGJMP has landed in the frame since its SETJMP, and the buffer is in the chunk that the reset keeps, LONGJMP finds it
and resumes the frame as SETJMP left it (`longjmp_resumes_setjmp`).
-/

namespace Pnacl

open Lib

variable {ex : PNExecutor} {th th' : PNThread} {e : Entry} {es : List Entry}

/-! ## Ids -/

/-- The ids of the listed buffers are different, and below the next one. -/
structure IdsOk (th : PNThread) (es : List Entry) : Prop where
  distinct : (bufsOf es).Pairwise fun b b' => (readJmpBuf th.mem b).id ≠ (readJmpBuf th.mem b').id
  lt : ∀ b ∈ bufsOf es, (readJmpBuf th.mem b).id < th.numSetjmps

/-- Fewer buffers with the same contents. -/
theorem IdsOk.sub {es' : List Entry} (h : IdsOk th es) (hsub : (bufsOf es').Sublist (bufsOf es))
    (hn : th.numSetjmps ≤ th'.numSetjmps) (hb : BufsSame th th' (bufsOf es')) : IdsOk th' es' := by
  constructor
  · refine (h.distinct.sublist hsub).imp_of_mem ?_
    intro b b' hmem hmem' hne
    rw [hb b hmem, hb b' hmem']
    exact hne
  · intro b hmem
    rw [hb b hmem]
    exact (h.lt b (hsub.subset hmem)).trans_le hn

theorem bufsOf_cons (e : Entry) (es : List Entry) : bufsOf (e :: es) = e.bufs ++ bufsOf es := List.flatMap_cons ..

theorem IdsOk.step {op : PNThreadOp} {es' : List Entry} (h : IdsOk th es) (hs : StorageStep op th th' es es')
    (hn : th'.numSetjmps ≤ 2 ^ 32) : IdsOk th' es' := by
  cases hs with
  | same hle hb => exact h.sub (List.Sublist.refl _) hle hb
  | push hle hb he =>
    refine h.sub ?_ hle ?_
    · rw [bufsOf_cons, he]
      exact List.Sublist.refl _
    · rw [bufsOf_cons, he]
      exact hb
  | pop hle hb =>
    refine h.sub ?_ hle hb
    rw [bufsOf_cons]
    exact List.sublist_append_right ..
  | @buf e es buf heq hb hnew =>
    have hid : (readJmpBuf th'.mem buf).id = th.numSetjmps := by
      rw [hnew]
      exact Nat.mod_eq_of_lt (by omega)
    have hold : IdsOk th' (e :: es) := h.sub (List.Sublist.refl _) (by omega) hb
    rw [bufsOf_cons] at hb
    constructor
    · rw [bufsOf_cons]
      refine List.pairwise_cons.mpr ⟨?_, hold.distinct⟩
      intro b hmem
      have := h.lt b hmem
      rw [hid, hb b hmem]
      omega
    · rw [bufsOf_cons]
      intro b hmem
      rcases List.mem_cons.mp hmem with rfl | hmem
      · omega
      · exact hold.lt b hmem
  | @jump pre e post hle hb =>
    refine h.sub ?_ hle ?_
    · rw [bufsOf_cons, bufsOf, bufsOf, List.flatMap_append, List.flatMap_cons]
      exact (List.sublist_append_right ..).trans (List.sublist_append_right ..)
    · rw [bufsOf_cons]
      exact hb

theorem StorageStep.mono {op : PNThreadOp} {es' : List Entry} (h : StorageStep op th th' es es') :
    th.numSetjmps ≤ th'.numSetjmps := by
  cases h with
  | same hle | push hle | pop hle | jump hle => exact hle
  | buf heq => omega

theorem SafeRun.mono (hr : SafeRun ex th) (alive : th.dead = false) {op : PNThreadOp} (hp : op.Promised ex th)
    (hs : op.Safe ex th) (he : op.exec ex th = .ok th') : th.numSetjmps ≤ th'.numSetjmps := by
  obtain ⟨es, hi, hne⟩ := hr.inv
  cases es with
  | nil => exact absurd rfl (hne alive)
  | cons e es =>
    obtain ⟨_, _, hst, _⟩ := hi.step hp hs he
    exact hst.mono

/-- In every state of a safe run with at most `2 ^ 32` SETJMPs the ids are different. -/
theorem SafeRun.ids (h : SafeRun ex th) : th.numSetjmps ≤ 2 ^ 32 →
    ∃ es, ThreadInv ex th es ∧ (th.dead = false → es ≠ []) ∧ IdsOk th es := by
  induction h with
  | init malloc mem memory mark hm h =>
    intro _
    obtain ⟨e, hbufs, hi, _⟩ := init_inv hm h
    refine ⟨[e], hi, fun _ => List.cons_ne_nil _ _, ?_, ?_⟩
    · rw [bufsOf_cons, hbufs]; exact .nil
    · rw [bufsOf_cons, hbufs]; exact fun b hb => (List.not_mem_nil hb).elim
  | @step th th' op hr alive hp hs he ih =>
    intro hn
    obtain ⟨es, hi, hne, hids⟩ := ih ((SafeRun.mono hr alive hp hs he).trans hn)
    cases es with
    | nil => exact absurd rfl (hne alive)
    | cons e es =>
      obtain ⟨es', hi', hst, hne'⟩ := hi.step hp hs he
      exact ⟨es', hi', hne', hids.step hst hn⟩

/-! ## The buffer stays -/

/-- The frame at `f` is on the chain. -/
def FrameLive (ex : PNExecutor) (th : PNThread) (f : Nat) : Prop :=
  ∃ fs, FrameChain ex th.mem th.currentFrame fs ∧ f ∈ fs

/-- Safe steps during which the frame at `f` stays live and nothing lands in it. -/
inductive Since (ex : PNExecutor) (f : Nat) (th₁ : PNThread) : PNThread → Prop where
  | refl : Since ex f th₁ th₁
  | step {th th' : PNThread} (op : PNThreadOp) (h : Since ex f th₁ th) (alive : th.dead = false)
      (hp : op.Promised ex th) (hs : op.Safe ex th) (he : op.exec ex th = .ok th') (hlive : FrameLive ex th' f)
      (hland : op.Lands → th'.currentFrame ≠ f) : Since ex f th₁ th'

theorem FrameChain.unique {mem : PNWords} {f : Nat} {fs fs' : List Nat} (h : FrameChain ex mem f fs)
    (h' : FrameChain ex mem f fs') : fs = fs' := by
  induction h generalizing fs' with
  | nil =>
    cases h' with
    | nil => rfl
    | cons hne _ => exact absurd rfl hne
  | cons hne _ ih =>
    cases h' with
    | nil => exact absurd rfl hne
    | cons _ ht' => rw [ih ht']

theorem FrameLive.entry {f : Nat} (h : FrameLive ex th f) (hi : ThreadInv ex th es) : ∃ e ∈ es, e.addr = f := by
  obtain ⟨fs, hc, hf⟩ := h
  rw [hi.current] at hc
  rw [hc.unique hi.chain.frameChain] at hf
  obtain ⟨e, he, rfl⟩ := List.mem_map.mp hf
  exact ⟨e, he, rfl⟩

/-- Frames are told apart by their address. -/
theorem ThreadInv.addr_inj (h : ThreadInv ex th es) {e e' : Entry} (he : e ∈ es) (he' : e' ∈ es)
    (ha : e.addr = e'.addr) : e = e' := by
  by_contra hne
  let R : Entry → Entry → Prop := fun x y => PNBlock.Disjoint x.frameBlock y.frameBlock
  have hsymm : Std.Symm R := ⟨fun _ _ h => PNBlock.Disjoint.symm h⟩
  have hpw : es.Pairwise R := by
    refine (List.pairwise_flatMap.mp h.disjoint).2.imp ?_
    intro x y hxy
    exact hxy _ (List.mem_append_right _ (List.mem_cons_self ..)) _ (List.mem_append_right _ (List.mem_cons_self ..))
  have hd : R e e' := hpw.forall he he' hne
  simp only [R, PNBlock.Disjoint, Entry.frameBlock, PNCallFrame.sizeof, ha] at hd
  omega

/-- The frame at `f` lists the buffer, with these contents. -/
structure Listed (ex : PNExecutor) (th : PNThread) (f buf : Nat) (b : PNJmpBuf) (es : List Entry) : Prop where
  inv : ThreadInv ex th es
  ids : IdsOk th es
  entry : ∃ e ∈ es, e.addr = f ∧ buf ∈ e.bufs
  contents : readJmpBuf th.mem buf = b

theorem mem_bufsOf {buf : Nat} (he : e ∈ es) (hb : buf ∈ e.bufs) : buf ∈ bufsOf es := List.mem_flatMap.mpr ⟨e, he, hb⟩

/-- A step that keeps the frame live and does not land in it keeps the buffer listed. -/
theorem Listed.step {f buf : Nat} {b : PNJmpBuf} {op : PNThreadOp} {es' : List Entry} (h : Listed ex th f buf b es)
    (hst : StorageStep op th th' es es') (hi' : ThreadInv ex th' es') (hids : IdsOk th' es')
    (hlive : FrameLive ex th' f) (hland : op.Lands → th'.currentFrame ≠ f) : Listed ex th' f buf b es' := by
  obtain ⟨e, he, ha, hbuf⟩ := h.entry
  have hmem := mem_bufsOf he hbuf
  cases hst with
  | same hle hb => exact ⟨hi', hids, ⟨e, he, ha, hbuf⟩, (hb buf hmem).trans h.contents⟩
  | push hle hb hnil =>
    exact ⟨hi', hids, ⟨e, List.mem_cons_of_mem _ he, ha, hbuf⟩, (hb buf hmem).trans h.contents⟩
  | @pop e₀ _ hle hb hop =>
    obtain ⟨e', he', ha'⟩ := hlive.entry hi'
    obtain rfl := h.inv.addr_inj he (List.mem_cons_of_mem _ he') (ha.trans ha'.symm)
    exact ⟨hi', hids, ⟨e, he', ha, hbuf⟩, (hb buf (mem_bufsOf he' hbuf)).trans h.contents⟩
  | @buf e₀ rest new heq hb hnew =>
    refine ⟨hi', hids, ?_, (hb buf hmem).trans h.contents⟩
    rcases List.mem_cons.mp he with rfl | he
    · exact ⟨_, List.mem_cons_self .., ha, List.mem_cons_of_mem _ hbuf⟩
    · exact ⟨e, List.mem_cons_of_mem _ he, ha, hbuf⟩
  | @jump pre e₀ post hle hb hop =>
    obtain ⟨e', he', ha'⟩ := hlive.entry hi'
    rcases List.mem_cons.mp he' with rfl | he'
    · exact absurd (hi'.current.trans ha') (hland hop)
    · have hin : e' ∈ pre ++ e₀ :: post := List.mem_append_right _ (List.mem_cons_of_mem _ he')
      obtain rfl := h.inv.addr_inj he hin (ha.trans ha'.symm)
      exact ⟨hi', hids, ⟨e, List.mem_cons_of_mem _ he', ha, hbuf⟩, (hb buf (mem_bufsOf he' hbuf)).trans h.contents⟩

theorem Since.safeRun {f : Nat} {th₁ : PNThread} (h : Since ex f th₁ th) (hr : SafeRun ex th₁) : SafeRun ex th := by
  induction h with
  | refl => exact hr
  | step op _ alive hp hs he _ _ ih => exact .step op ih alive hp hs he

theorem Since.mono {f : Nat} {th₁ : PNThread} (h : Since ex f th₁ th) (hr : SafeRun ex th₁) :
    th₁.numSetjmps ≤ th.numSetjmps := by
  induction h with
  | refl => exact Nat.le_refl _
  | step op h alive hp hs he _ _ ih => exact ih.trans (SafeRun.mono (h.safeRun hr) alive hp hs he)

/-- As long as nothing lands in the frame the buffer stays listed. -/
theorem Since.listed {f buf : Nat} {b : PNJmpBuf} {th₁ : PNThread} (h : Since ex f th₁ th) (hr : SafeRun ex th₁)
    (hl : ∃ es, Listed ex th₁ f buf b es) : th.numSetjmps ≤ 2 ^ 32 → ∃ es, Listed ex th f buf b es := by
  induction h with
  | refl => exact fun _ => hl
  | step op h alive hp hs he hlive hland ih =>
    intro hn
    obtain ⟨es, hes⟩ := ih ((SafeRun.mono (h.safeRun hr) alive hp hs he).trans hn)
    cases es with
    | nil =>
      obtain ⟨_, hmem, _⟩ := hes.entry
      cases hmem
    | cons e es =>
      obtain ⟨es', hi', hst, _⟩ := hes.inv.step hp hs he
      exact ⟨es', hes.step hst hi' (hes.ids.step hst hn) hlive hland⟩

/-! ## The search -/

/-- The inner loop looks through the whole list. -/
theorem searchBufs_find {id head : Nat} {bs : List Nat} (h : BufChain th.mem head bs) :
    ∀ {fuel : Nat}, (∀ b ∈ bs, th.live b PNJmpBuf.sizeof = true) → bs.length < fuel →
      searchBufs th id fuel head = .ok (bs.find? fun b => (readJmpBuf th.mem b).id = id) := by
  induction h with
  | nil =>
    intro fuel _ hf
    cases fuel with
    | zero => exact absurd hf (Nat.not_lt_zero _)
    | succ fuel => rw [searchBufs, if_pos rfl, List.find?_nil]
  | @cons b bs hne _ ih =>
    intro fuel hl hf
    cases fuel with
    | zero => exact absurd hf (Nat.not_lt_zero _)
    | succ fuel =>
      have hb : th.jmpbuf b = .ok (readJmpBuf th.mem b) := if_pos (hl b (List.mem_cons_self ..))
      rw [searchBufs, if_neg hne, hb, ok_bind, List.find?_cons]
      split
      next hid => simp [hid]
      next hid =>
        rw [ih (fun b hb => hl b (List.mem_cons_of_mem _ hb)) (Nat.lt_of_succ_lt_succ hf)]
        simp [hid]

/-- The outer loop finds the buffer: no other one has its id. -/
theorem searchFrames_finds {buf : Nat} : ∀ {es : List Entry} {fuel : Nat}, Chain ex th.mem es →
    (∀ b ∈ es.flatMap Entry.records, th.live b.addr b.size = true) →
    (bufsOf es).Pairwise (fun b b' => (readJmpBuf th.mem b).id ≠ (readJmpBuf th.mem b').id) →
    e ∈ es → buf ∈ e.bufs → es.length + (bufsOf es).length < fuel →
    searchFrames ex th (readJmpBuf th.mem buf).id fuel (top ex es) = .ok (some (e.addr, buf))
  | [], _, _, _, _, he, _, _ => by cases he
  | _ :: _, 0, _, _, _, _, _, hf => absurd hf (Nat.not_lt_zero _)
  | e₀ :: es, fuel + 1, hc, hl, hd, he, hb, hf => by
    obtain ⟨hok, hc⟩ := hc
    rw [List.flatMap_cons] at hl
    rw [bufsOf_cons] at hd
    rw [bufsOf_cons, List.length_append, List.length_cons] at hf
    obtain ⟨hd₀, hdrest, hdiff⟩ := List.pairwise_append.mp hd
    have hframe : th.frame ex e₀.addr = .ok (readFrame th.mem e₀.addr) :=
      if_pos (.inr (hl e₀.frameBlock (List.mem_append_left _ (List.mem_append_right _ (List.mem_singleton_self _)))))
    have hbufs : ∀ b ∈ e₀.bufs, th.live b PNJmpBuf.sizeof = true := fun b hb =>
      hl ⟨b, PNJmpBuf.sizeof⟩ (List.mem_append_left _ (List.mem_append_left _ (List.mem_map.mpr ⟨b, hb, rfl⟩)))
    rw [searchFrames, top, if_neg hok.addr_ne, hframe, ok_bind, searchBufs_find hok.bufs hbufs (by omega), ok_bind]
    rcases List.mem_cons.mp he with rfl | he
    · have hfind : (e.bufs.find? fun b => (readJmpBuf th.mem b).id = (readJmpBuf th.mem buf).id) = some buf := by
        cases hx : e.bufs.find? fun b => (readJmpBuf th.mem b).id = (readJmpBuf th.mem buf).id with
        | none => exact absurd (List.find?_eq_none.mp hx buf hb) (by simp)
        | some b =>
          have hid : (readJmpBuf th.mem b).id = (readJmpBuf th.mem buf).id := by simpa using List.find?_some hx
          by_contra hne
          have hsymm : Std.Symm fun b b' => (readJmpBuf th.mem b).id ≠ (readJmpBuf th.mem b').id := ⟨fun _ _ h => h.symm⟩
          exact hd₀.forall (List.mem_of_find?_eq_some hx) hb (fun h => hne (congrArg some h)) hid
      rw [hfind]
    · have hfind : (e₀.bufs.find? fun b => (readJmpBuf th.mem b).id = (readJmpBuf th.mem buf).id) = none := by
        refine List.find?_eq_none.mpr ?_
        intro b hmem
        simpa using hdiff b hmem buf (mem_bufsOf he hb)
      rw [hfind]
      dsimp only
      rw [hok.fixed.parent]
      exact searchFrames_finds hc (fun b hb => hl b (List.mem_append_right _ hb)) hdrest he hb (by omega)

/-! ## The jump -/

/-- The state after the jump. -/
structure Resumed (ex : PNExecutor) (th' : PNThread) (f : Nat) (b : PNJmpBuf) (value : Nat) : Prop where
  frame : th'.currentFrame = f
  contents : readFrame th'.mem f = b.frame
  inst : th'.inst = b.frame.location.inst + (ex.callAt b.frame.location.inst).size
  functionId : th'.functionId = b.frame.location.functionId
  result : pnThreadGetValue ex th' (ex.callAt b.frame.location.inst).resultValueId = value

/-- The jump, when every read in it goes through. -/
theorem jumpTo_eq {f buf value : Nat} {frame frame' : PNCallFrame} {b : PNJmpBuf} {t th₂ : PNThread}
    (hframe : th.frame ex f = .ok frame) (h₁ : PNThread.resetTo { th with currentFrame := f } frame.mark = t)
    (hb : t.jmpbuf buf = .ok b) (hframe' : t.frame ex f = .ok frame')
    (hset : pnThreadSetValue ex (t.modifyFrame fun _ => b.frame) (ex.callAt b.frame.location.inst).resultValueId value =
      .ok th₂) : jumpTo ex th f buf value = .ok (th₂.resume ex b.frame.location) := by
  subst h₁
  rw [jumpTo, hframe, ok_bind]
  dsimp only
  rw [hb, ok_bind, hframe', ok_bind, hset, ok_bind]

/-- Once the buffer is found and survives the reset, the jump goes through. -/
theorem jumpTo_resumes {pre post : List Entry} (h : ThreadInv ex th (pre ++ e :: post)) {buf : Nat} (value : Nat)
    (hb : buf ∈ e.bufs) (hm : MarkFound th.allocator (readFrame th.mem e.addr).mark)
    (hl : (th.resetTo (readFrame th.mem e.addr).mark).live buf PNJmpBuf.sizeof = true)
    (hne : (ex.callAt (readJmpBuf th.mem buf).frame.location.inst).resultValueId ≠ PN_INVALID_VALUE_ID) :
    ∃ th', jumpTo ex th e.addr buf value = .ok th' ∧ Resumed ex th' e.addr (readJmpBuf th.mem buf) value ∧
      FrameChain ex th'.mem e.addr (e.addr :: post.map Entry.addr) := by
  have hp := h.pop pre
  have hok := hp.chain.1
  obtain ⟨hi, hx, hbase, _, _⟩ := hp.levels
  obtain ⟨hfix, hr⟩ := hok.saved buf hb
  obtain ⟨hge, hlt⟩ := hr.resolve_left hne
  generalize hbv : readJmpBuf th.mem buf = b at *
  generalize hid : (ex.callAt b.frame.location.inst).resultValueId = id at *
  -- the reset gives the allocator at the mark, where frame and values are allocated
  have hreset : pnAllocatorResetToMark th.allocator (readFrame th.mem e.addr).mark = e.alloc := by
    have hmark : (readFrame th.mem e.addr).mark = pnAllocatorMark e.alloc := hok.fixed.mark
    rw [hmark] at hm ⊢
    exact reset_restores h.inv hi hx hm
  let th₁ : PNThread := { th with currentFrame := e.addr, allocator := e.alloc }
  have hframe₁ : th₁.live e.addr PNCallFrame.sizeof = true :=
    AllocatedIn.live (t := th₁) (hbase e.frameBlock (List.mem_cons_self ..)) hi
  have hframe : th.live e.addr PNCallFrame.sizeof = true :=
    AllocatedIn.live ((hbase e.frameBlock (List.mem_cons_self ..)).mono hx) h.inv
  have hbuf₁ : th₁.live buf PNJmpBuf.sizeof = true := by
    unfold PNThread.resetTo at hl
    rwa [hreset] at hl
  let th₂ : PNThread := { th₁ with mem := writeFrame th.mem e.addr b.frame }
  have hvals : th₂.live e.values (8 * (id - ex.numValues) + 8) = true := by
    obtain ⟨c, hc, hlo, hhi⟩ := hbase (e.valuesBlock ex) (by simp)
    have hend := (hi.wf c hc).current_le
    simp only [Entry.valuesBlock, PNRuntimeValue.sizeof] at hlo hhi
    exact live_iff.mpr ⟨c, hc, hlo, by omega⟩
  have hread₂ : readFrame th₂.mem th₂.currentFrame = b.frame := readFrame_writeFrame _
  have hset : pnThreadSetValue ex th₂ id value = .ok (th₂.store (e.values + 8 * (id - ex.numValues)) value) := by
    have := setValue_eq (w := value) hge hne (by rw [hread₂, hfix.values]; exact hvals)
    rwa [hread₂, hfix.values] at this
  have hjump : jumpTo ex th e.addr buf value =
      .ok ((th₂.store (e.values + 8 * (id - ex.numValues)) value).resume ex b.frame.location) := by
    refine jumpTo_eq (t := th₁) (if_pos (.inr hframe)) ?_ ((if_pos hbuf₁).trans (congrArg _ hbv))
      (if_pos (.inr hframe₁)) (hid.symm ▸ hset)
    unfold PNThread.resetTo
    rw [hreset]
  -- the frame and the older records are not touched by the result
  have hsame : SameOn th₂.mem (th₂.store (e.values + 8 * (id - ex.numValues)) value).mem
      ((e :: post).flatMap Entry.records) := by
    intro x hx
    have hd := hp.values_disjoint hx
    simp only [PNBlock.Disjoint, Entry.valuesBlock, PNRuntimeValue.sizeof] at hd
    exact update_sameWords (by omega)
  have hread : readFrame (th₂.store (e.values + 8 * (id - ex.numValues)) value).mem e.addr = b.frame := by
    have hframe := hsame e.frameBlock (List.mem_append_left _ (List.mem_append_right _ (List.mem_singleton_self _)))
    exact (readFrame_congr hframe).trans hread₂
  refine ⟨_, hjump, ⟨rfl, hread, rfl, rfl, ?_⟩, .cons hok.addr_ne ?_⟩
  · rw [hid]
    unfold pnThreadGetValue pnExecutorGetValueFromFrame
    rw [if_pos hge]
    simp only [PNThread.resume]
    change (th₂.store _ value).mem ((readFrame (th₂.store _ value).mem e.addr).functionValues + _) = value
    rw [hread, hfix.values]
    exact Function.update_self ..
  · change FrameChain ex _ (readFrame (th₂.store _ value).mem e.addr).parent _
    rw [hread, hfix.parent]
    refine Chain.frameChain (hp.chain.2.congr (SameOn.trans ?_ fun x hx => hsame x (List.mem_append_right _ hx)))
    exact fun x hx => hp.writeFrame_sameOn b.frame x (List.mem_append_right _ hx)

/-- SETJMP lists its buffer first in the frame. -/
theorem setjmp_listed {malloc : Malloc} {th₀ th₁ : PNThread} (hrun : SafeRun ex th₀) (alive : th₀.dead = false)
    (hp : (PNThreadOp.setjmp malloc).Promised ex th₀) (hs : opcodeSetjmp ex malloc th₀ = .ok th₁)
    (hn : th₁.numSetjmps ≤ 2 ^ 32) :
    ∃ es, Listed ex th₁ th₀.currentFrame (readFrame th₁.mem th₀.currentFrame).jmpbufHead th₀.newJmpBuf es := by
  obtain ⟨es, hi, hne, hids⟩ := hrun.ids (Nat.le_trans (SafeRun.mono hrun alive hp trivial hs) hn)
  cases es with
  | nil => exact absurd rfl (hne alive)
  | cons e es =>
    obtain ⟨hm, hr⟩ := hp
    have hcur : th₀.currentFrame = e.addr := hi.current
    obtain ⟨buf, hi', hb, hnew, hnum, _⟩ := setjmp_inv hi hm (hi.running e rfl ▸ hr) hs
    have hstep : StorageStep (.setjmp malloc) th₀ th₁ (e :: es) (_ :: es) := .buf hnum hb hnew
    have hids' := hids.step hstep hn
    have hhead : (readFrame th₁.mem e.addr).jmpbufHead = buf := by
      generalize hx : (readFrame th₁.mem e.addr).jmpbufHead = head
      have hch : BufChain th₁.mem head (buf :: e.bufs) := hx ▸ hi'.chain.1.bufs
      cases hch
      rfl
    rw [hcur, hhead]
    exact ⟨_, hi', hids', ⟨_, List.mem_cons_self .., rfl, List.mem_cons_self ..⟩, hnew⟩

theorem setjmp_result {malloc : Malloc} {th₀ th₁ : PNThread} (hs : opcodeSetjmp ex malloc th₀ = .ok th₁) :
    (ex.callAt th₀.inst).resultValueId ≠ PN_INVALID_VALUE_ID := by
  unfold opcodeSetjmp at hs
  obtain ⟨_, hs⟩ := pnCheck_bind_eq_ok.mp hs
  exact (pnCheck_bind_eq_ok.mp hs).1

/-- **LONGJMP resumes its SETJMP** if nothing has landed in the frame since, and the buffer survives the reset to the
frame's mark. -/
theorem longjmp_resumes_setjmp (ex : PNExecutor) (malloc : Malloc) (th₀ th₁ th : PNThread) (hrun : SafeRun ex th₀)
    (alive : th₀.dead = false) (hp : (PNThreadOp.setjmp malloc).Promised ex th₀)
    (hs : opcodeSetjmp ex malloc th₀ = .ok th₁) (hsince : Since ex th₀.currentFrame th₁ th)
    (hn : th.numSetjmps ≤ 2 ^ 32) (hargs : (ex.callAt th.inst).argIds.length = 2)
    (hres : (ex.callAt th.inst).resultValueId = PN_INVALID_VALUE_ID)
    (hid : longjmpId ex th = .ok (th₀.numSetjmps % 2 ^ 32))
    (hm : MarkFound th.allocator (readFrame th.mem th₀.currentFrame).mark)
    (hl : (th.resetTo (readFrame th.mem th₀.currentFrame).mark).live
      (readFrame th₁.mem th₀.currentFrame).jmpbufHead PNJmpBuf.sizeof = true) :
    ∃ n th' above fs, (∀ fuel, n ≤ fuel → opcodeLongjmp ex fuel th = .ok th') ∧
      Resumed ex th' th₀.currentFrame th₀.newJmpBuf (longjmpValue ex th) ∧
      FrameChain ex th.mem th.currentFrame (above ++ th₀.currentFrame :: fs) ∧
      FrameChain ex th'.mem th'.currentFrame (th₀.currentFrame :: fs) := by
  have hr₁ : SafeRun ex th₁ := .step (.setjmp malloc) hrun alive hp trivial hs
  have hle : th₁.numSetjmps ≤ th.numSetjmps := hsince.mono hr₁
  obtain ⟨es, hes⟩ := hsince.listed hr₁ (setjmp_listed hrun alive hp hs (hle.trans hn)) hn
  generalize (readFrame th₁.mem th₀.currentFrame).jmpbufHead = buf at *
  generalize hf : th₀.currentFrame = f at *
  obtain ⟨e, he, rfl, hb⟩ := hes.entry
  have hcontents := hes.contents
  have hlive : ∀ b ∈ es.flatMap Entry.records, th.live b.addr b.size = true := fun b hb =>
    AllocatedIn.live (hes.inv.levels.allocated b (records_subset hb)) hes.inv.inv
  obtain ⟨n, hfound⟩ : ∃ n, ∀ fuel, n ≤ fuel →
      searchFrames ex th (th₀.numSetjmps % 2 ^ 32) fuel th.currentFrame = .ok (some (e.addr, buf)) := by
    refine ⟨es.length + (bufsOf es).length + 1, fun fuel h => ?_⟩
    have := searchFrames_finds hes.inv.chain hlive hes.ids.distinct he hb (Nat.lt_of_succ_le h)
    rwa [hcontents, ← hes.inv.current] at this
  have hinv := hes.inv
  obtain ⟨pre, post, rfl⟩ := List.append_of_mem he
  obtain ⟨th', hj, hresumed, hchain⟩ := jumpTo_resumes hinv (longjmpValue ex th) hb hm hl
    (by rw [hcontents]; exact setjmp_result hs)
  refine ⟨n, th', pre.map Entry.addr, post.map Entry.addr, fun fuel hfuel => ?_, hcontents ▸ hresumed, ?_, ?_⟩
  · unfold opcodeLongjmp
    rw [pnCheck_bind hargs, pnCheck_bind hres, hid, ok_bind, hfound fuel hfuel, ok_bind]
    exact hj
  · have := hinv.chain.frameChain
    rwa [← hinv.current, List.map_append, List.map_cons] at this
  · rw [hresumed.frame]
    exact hchain

/-- SETJMP and LONGJMP right after it. -/
theorem longjmp_resumes_setjmp_once :
    ∃ th₀ th₁, opcodeSetjmp demoExecutor demoMalloc th₀ = .ok th₁ ∧ longjmpId demoExecutor th₁ = .ok 0 ∧
      ∃ n th' above fs, (∀ fuel, n ≤ fuel → opcodeLongjmp demoExecutor fuel th₁ = .ok th') ∧
        Resumed demoExecutor th' th₀.currentFrame th₀.newJmpBuf (longjmpValue demoExecutor th₁) ∧
        FrameChain demoExecutor th₁.mem th₁.currentFrame (above ++ th₀.currentFrame :: fs) ∧
        FrameChain demoExecutor th'.mem th'.currentFrame (th₀.currentFrame :: fs) :=
  ⟨_, _, rfl, rfl, longjmp_resumes_setjmp demoExecutor demoMalloc _ _ _
    (.init demoMalloc (fun _ => 0) demoMemory ⟨0, 0, 0, 0⟩ demoMalloc_fresh rfl) rfl
    ⟨demoMalloc_fresh, .inr (by decide)⟩ rfl .refl (by decide) rfl rfl rfl (by unfold MarkFound; decide) (by decide)⟩

/-- SETJMP, LONGJMP, LONGJMP: the first jump wrote back the copy of the frame, which does not list the buffer. -/
theorem second_longjmp_rejected :
    ∃ th₀ th₁ th₂, ThreadRun demoExecutor (fun _ _ => True) th₀ ∧ opcodeSetjmp demoExecutor demoMalloc th₀ = .ok th₁ ∧
      opcodeLongjmp demoExecutor 3 th₁ = .ok th₂ ∧ th₂.currentFrame = th₀.currentFrame ∧ th₂.dead = false ∧
      longjmpId demoExecutor th₂ = .ok (th₀.numSetjmps % 2 ^ 32) ∧
      ∀ fuel, opcodeLongjmp demoExecutor (fuel + 2) th₂ = .error (.fatal "Invalid jmpbuf target: %d\n" [0]) :=
  ⟨_, _, _, .init demoMalloc (fun _ => 0) demoMemory ⟨0, 0, 0, 0⟩ demoMalloc_fresh rfl, rfl, rfl, rfl, rfl, rfl,
    fun _ => rfl⟩

end Pnacl
