import Pnacl.ThreadOps

/-!
# Frames and their values

The frames of a thread without their jump buffers. RET and LONGJMP may release jump buffers that are still listed, but not
the frames and their values.

`FramesInv` says that the frames from the current one up, with their values, are allocated and disjoint. Here are the lemmas
on writing, allocating and going back to an older frame.
-/

namespace Pnacl

open Lib

variable {ex : PNExecutor} {th th' : PNThread} {e : Entry} {es : List Entry} {mem' : PNWords} {a a' : PNAllocator}

/-! ## The invariant -/

/-- A frame and its values. -/
def Entry.base (ex : PNExecutor) (e : Entry) : List PNBlock := [e.frameBlock, e.valuesBlock ex]

def baseBlocks (ex : PNExecutor) (es : List Entry) : List PNBlock := es.flatMap (Entry.base ex)

/-- Memory holds the frames of the entries, linked by their parents. -/
def Linked (ex : PNExecutor) (mem : PNWords) : List Entry → Prop
  | [] => True
  | e :: es => e.addr ≠ ex.sentinel ∧ e.functionId ≠ PN_INVALID_FUNCTION_ID ∧ e.Fixed (top ex es) (readFrame mem e.addr) ∧
      Linked ex mem es

/-- Frame and values were allocated at the mark, and the older frames before. -/
def FrameLevels (ex : PNExecutor) (a : PNAllocator) : List Entry → Prop
  | [] => True
  | e :: es => e.alloc.Inv ∧ Extends e.alloc a ∧ (∀ b ∈ e.base ex, b.AllocatedIn e.alloc) ∧ FrameLevels ex e.alloc es

/-- The frames from the current one up. -/
structure FramesInv (ex : PNExecutor) (th : PNThread) (es : List Entry) : Prop where
  inv : th.allocator.Inv
  away : Away ex th.allocator
  sentinel : (readFrame th.mem ex.sentinel).location.functionId = PN_INVALID_FUNCTION_ID ∧
    (readFrame th.mem ex.sentinel).memoryStackTop = ex.stackEnd
  current : th.currentFrame = top ex es
  links : Linked ex th.mem es
  levels : FrameLevels ex th.allocator es
  disjoint : (baseBlocks ex es).Pairwise PNBlock.Disjoint
  /-- The frames that wait for a call remember which. -/
  calls : ∀ e ∈ es.tail, ResultInRange ex e.functionId (ex.callAt (readFrame th.mem e.addr).location.inst)
  running : ∀ e ∈ es.head?, th.functionId = e.functionId

theorem baseBlocks_cons (e : Entry) (es : List Entry) : baseBlocks ex (e :: es) = e.base ex ++ baseBlocks ex es :=
  List.flatMap_cons ..

theorem frameBlock_mem (he : e ∈ es) : e.frameBlock ∈ baseBlocks ex es :=
  List.mem_flatMap.mpr ⟨e, he, by simp [Entry.base]⟩

theorem valuesBlock_mem (he : e ∈ es) : e.valuesBlock ex ∈ baseBlocks ex es :=
  List.mem_flatMap.mpr ⟨e, he, by simp [Entry.base]⟩

theorem mem_base {b : PNBlock} : b ∈ e.base ex ↔ b = e.frameBlock ∨ b = e.valuesBlock ex := by
  simp [Entry.base]

theorem SameOn.subset {mem : PNWords} {bs bs' : List PNBlock} (h : SameOn mem mem' bs) (hs : bs' ⊆ bs) : SameOn mem mem' bs' :=
  fun b hb => h b (hs hb)

theorem SameOn.refl (mem : PNWords) (bs : List PNBlock) : SameOn mem mem bs := fun _ _ _ _ _ => rfl

/-- The record of a frame, when its block is unchanged. -/
theorem SameOn.readFrame {mem : PNWords} {bs : List PNBlock} (h : SameOn mem mem' bs) (hb : e.frameBlock ∈ bs) :
    readFrame mem' e.addr = readFrame mem e.addr :=
  readFrame_congr (h e.frameBlock hb)

theorem Linked.congr {mem : PNWords} (h : Linked ex mem es) (hs : ∀ e ∈ es, readFrame mem' e.addr = readFrame mem e.addr) :
    Linked ex mem' es := by
  induction es with
  | nil => trivial
  | cons e es ih =>
    obtain ⟨h₁, h₂, h₃, h₄⟩ := h
    refine ⟨h₁, h₂, ?_, ih h₄ fun e he => hs e (List.mem_cons_of_mem _ he)⟩
    rw [hs e (List.mem_cons_self ..)]
    exact h₃

theorem Linked.split {mem : PNWords} {pre post : List Entry} (h : Linked ex mem (pre ++ e :: post)) :
    Linked ex mem (e :: post) := by
  induction pre with
  | nil => exact h
  | cons _ pre ih => exact ih h.2.2.2

theorem FrameLevels.mono (h : FrameLevels ex a es) (hx : Extends a a') : FrameLevels ex a' es := by
  cases es with
  | nil => trivial
  | cons e es =>
    obtain ⟨hi, he, hb, hl⟩ := h
    exact ⟨hi, he.trans hx, hb, hl⟩

theorem FrameLevels.allocated (h : FrameLevels ex a es) : ∀ b ∈ baseBlocks ex es, b.AllocatedIn a := by
  induction es generalizing a with
  | nil =>
    intro b hb
    cases hb
  | cons e es ih =>
    obtain ⟨_, he, hbase, hl⟩ := h
    intro b hb
    rw [baseBlocks_cons] at hb
    rcases List.mem_append.mp hb with hb | hb
    · exact (hbase b hb).mono he
    · exact (ih hl b hb).mono he

theorem FrameLevels.split {pre post : List Entry} (h : FrameLevels ex a (pre ++ e :: post)) :
    FrameLevels ex a (e :: post) := by
  induction pre generalizing a with
  | nil => exact h
  | cons _ pre ih => exact (ih h.2.2.2).mono h.2.1

theorem FramesInv.head (h : FramesInv ex th (e :: es)) : e.Fixed (top ex es) (readFrame th.mem e.addr) := h.links.2.2.1

/-- The invariant reads memory only in the frames and at the sentinel. -/
theorem FramesInv.withMem (h : FramesInv ex th es) (hs : ∀ e ∈ es, readFrame mem' e.addr = readFrame th.mem e.addr)
    (h0 : readFrame mem' ex.sentinel = readFrame th.mem ex.sentinel) : FramesInv ex { th with mem := mem' } es where
  inv := h.inv
  away := h.away
  sentinel := h0 ▸ h.sentinel
  current := h.current
  links := h.links.congr hs
  levels := h.levels
  disjoint := h.disjoint
  calls := by
    intro e he
    rw [hs e (List.mem_of_mem_tail he)]
    exact h.calls e he
  running := h.running

theorem FramesInv.fields (h : FramesInv ex th es) (ha : th'.allocator = th.allocator) (hm : th'.mem = th.mem)
    (hc : th'.currentFrame = th.currentFrame) (hf : th'.functionId = th.functionId) : FramesInv ex th' es where
  inv := ha ▸ h.inv
  away := ha ▸ h.away
  sentinel := hm ▸ h.sentinel
  current := hc.trans h.current
  links := hm ▸ h.links
  levels := ha ▸ h.levels
  disjoint := h.disjoint
  calls := hm ▸ h.calls
  running e he := hf.trans (h.running e he)

theorem FramesInv.withAlloc (h : FramesInv ex th es) (hi : a'.Inv) (hx : Extends th.allocator a') (haw : Away ex a') :
    FramesInv ex { th with allocator := a' } es :=
  { h with
    inv := hi
    away := haw
    levels := h.levels.mono hx }

/-- A block that is allocated does not touch the sentinel frame. -/
theorem FramesInv.block_apart (h : FramesInv ex th es) {b : PNBlock} (hb : b.AllocatedIn th.allocator) :
    ex.sentinel + PNCallFrame.sizeof ≤ b.addr ∨ b.addr + b.size ≤ ex.sentinel := by
  obtain ⟨c, hc, hlo, hhi⟩ := hb
  have hcur := (h.inv.wf c hc).current_le
  rcases h.away c hc with h | h
  · exact .inr (by omega)
  · exact .inl (by omega)

/-- Nor does a word in a chunk. -/
theorem FramesInv.update_sentinel (h : FramesInv ex th es) {c : PNAllocatorChunk} (hc : c ∈ th.allocator.chunks) {p w : Nat}
    (hlo : c.addr ≤ p) (hhi : p < c.endp) :
    readFrame (Function.update th.mem p w) ex.sentinel = readFrame th.mem ex.sentinel := by
  refine readFrame_congr (update_sameWords ?_)
  rcases h.away c hc with h | h
  · exact .inl (by omega)
  · exact .inr (by omega)

/-- The blocks of the current frame overlap none of the frames below. -/
theorem FramesInv.base_disjoint (h : FramesInv ex th (e :: es)) {b b' : PNBlock} (hb : b ∈ e.base ex)
    (hb' : b' ∈ baseBlocks ex es) : b.Disjoint b' := by
  have hd := h.disjoint
  rw [baseBlocks_cons] at hd
  exact (List.pairwise_append.mp hd).2.2 b hb b' hb'

theorem FramesInv.frame_values (h : FramesInv ex th (e :: es)) : PNBlock.Disjoint e.frameBlock (e.valuesBlock ex) := by
  have hd := h.disjoint
  rw [baseBlocks_cons] at hd
  exact (List.pairwise_cons.mp (List.pairwise_append.mp hd).1).1 _ (by simp)

/-- The frames below the current one have other addresses. -/
theorem FramesInv.below_ne (h : FramesInv ex th (e :: es)) : ∀ e' ∈ es, e'.addr ≠ e.addr := by
  intro e' he' heq
  have hd : PNBlock.Disjoint e.frameBlock e'.frameBlock := h.base_disjoint (by simp [Entry.base]) (frameBlock_mem he')
  simp only [PNBlock.Disjoint, Entry.frameBlock, PNCallFrame.sizeof] at hd
  omega

/-- A value of a function whose frame is current. -/
theorem FramesInv.getValue (h : FramesInv ex th (e :: es)) (id : Nat) : pnThreadGetValue ex th id =
    if id ≥ ex.numValues then th.mem (e.values + 8 * (id - ex.numValues)) else ex.moduleValues id := by
  unfold pnThreadGetValue pnExecutorGetValueFromFrame
  rw [h.current, show (readFrame th.mem (top ex (e :: es))).functionValues = e.values from h.head.values]

/-! ## Writing -/

/-- The thread wrote memory, but neither its frame, nor the blocks of the frames below, nor the sentinel. -/
structure Calm (ex : PNExecutor) (th th' : PNThread) (e : Entry) (es : List Entry) : Prop where
  eq : th' = { th with mem := th'.mem }
  same : SameOn th.mem th'.mem (e.frameBlock :: baseBlocks ex es)
  sentinel : readFrame th'.mem ex.sentinel = readFrame th.mem ex.sentinel

theorem Calm.refl (th : PNThread) (e : Entry) (es : List Entry) : Calm ex th th e es := ⟨rfl, .refl _ _, rfl⟩

theorem Calm.trans {th₂ : PNThread} (h : Calm ex th th' e es) (h' : Calm ex th' th₂ e es) : Calm ex th th₂ e es := by
  refine ⟨?_, h.same.trans h'.same, h'.sentinel.trans h.sentinel⟩
  have e₁ := h.eq
  have e₂ := h'.eq
  rw [e₁] at e₂
  exact e₂

theorem Calm.readFrame (c : Calm ex th th' e es) : ∀ x ∈ e :: es, readFrame th'.mem x.addr = readFrame th.mem x.addr := by
  intro x hx
  refine c.same.readFrame ?_
  rcases List.mem_cons.mp hx with rfl | hx
  · exact List.mem_cons_self ..
  · exact List.mem_cons_of_mem _ (frameBlock_mem hx)

theorem FramesInv.calm (h : FramesInv ex th (e :: es)) (c : Calm ex th th' e es) : FramesInv ex th' (e :: es) := by
  rw [c.eq]
  exact h.withMem c.readFrame c.sentinel

/-- Values set one after the other, at ids with `P`. -/
inductive Sets (ex : PNExecutor) (P : Nat → Prop) : PNThread → PNThread → Prop where
  | refl (th : PNThread) : Sets ex P th th
  | step {th th₁ th' : PNThread} {id w : Nat} (hid : P id) (h : pnThreadSetValue ex th id w = .ok th₁)
      (hs : Sets ex P th₁ th') : Sets ex P th th'

variable {P : Nat → Prop}

theorem setValues_sets {vs : List (Nat × Nat)} (hP : ∀ v ∈ vs, P v.1) (h : setValues ex th vs = .ok th') :
    Sets ex P th th' := by
  induction vs generalizing th with
  | nil =>
    cases h
    exact .refl _
  | cons v vs ih =>
    obtain ⟨th₁, h₁, h⟩ := bind_eq_ok.mp h
    exact .step (hP v (List.mem_cons_self ..)) h₁ (ih (fun v hv => hP v (List.mem_cons_of_mem _ hv)) h)

theorem copyArguments_sets {old n : Nat} {ids : List Nat} (h : copyArguments ex old th n ids = .ok th') :
    Sets ex (fun _ => True) th th' := by
  induction ids generalizing th n with
  | nil =>
    cases h
    exact .refl _
  | cons id ids ih =>
    obtain ⟨th₁, h₁, h⟩ := bind_eq_ok.mp h
    exact .step trivial h₁ (ih h)

theorem phiAssignsInPlace_sets {destInst : Nat} {as : List PNRuntimePhiAssign} (hP : ∀ a ∈ as, P a.destValueId)
    (h : phiAssignsInPlace ex destInst th as = .ok th') : Sets ex P th th' := by
  induction as generalizing th with
  | nil =>
    cases h
    exact .refl _
  | cons a as ih =>
    have hP' : ∀ a ∈ as, P a.destValueId := fun a ha => hP a (List.mem_cons_of_mem _ ha)
    unfold phiAssignsInPlace at h
    split at h
    · obtain ⟨th₁, h₁, h⟩ := bind_eq_ok.mp h
      exact .step (hP a (List.mem_cons_self ..)) h₁ (ih hP' h)
    · exact ih hP' h

theorem phiAssignsWrite_sets {destInst temp : Nat} {as : List PNRuntimePhiAssign} (hP : ∀ a ∈ as, P a.destValueId)
    (h : phiAssignsWrite ex destInst th temp as = .ok th') : Sets ex P th th' := by
  induction as generalizing th temp with
  | nil =>
    cases h
    exact .refl _
  | cons a as ih =>
    have hP' : ∀ a ∈ as, P a.destValueId := fun a ha => hP a (List.mem_cons_of_mem _ ha)
    unfold phiAssignsWrite at h
    split at h
    · obtain ⟨th₁, h₁, h⟩ := bind_eq_ok.mp h
      exact .step (hP a (List.mem_cons_self ..)) h₁ (ih hP' h)
    · exact ih hP' h

/-- The id is a value of the function of the frame. -/
def Entry.HasValue (ex : PNExecutor) (e : Entry) (id : Nat) : Prop := id < ex.numValues + (ex.functions e.functionId).numValues

/-- Setting a value of the function. -/
theorem FramesInv.setValue (h : FramesInv ex th (e :: es)) {id w : Nat} (hr : e.HasValue ex id)
    (hset : pnThreadSetValue ex th id w = .ok th') : Calm ex th th' e es := by
  obtain ⟨hid, _, ⟨c, hc, hlo, hhi⟩, rfl⟩ := setValue_ok hset
  have hfix : (readFrame th.mem th.currentFrame).functionValues = e.values := by
    rw [h.current]
    exact h.head.values
  rw [hfix] at hlo hhi ⊢
  unfold Entry.HasValue at hr
  refine ⟨rfl, ?_, ?_⟩
  · intro b hb
    have hd : (e.valuesBlock ex).Disjoint b := by
      rcases List.mem_cons.mp hb with rfl | hb
      · exact h.frame_values.symm
      · exact h.base_disjoint (by simp [Entry.base]) hb
    simp only [PNBlock.Disjoint, Entry.valuesBlock, PNRuntimeValue.sizeof] at hd
    exact update_sameWords (by omega)
  · exact h.update_sentinel hc (by unfold PNAllocatorChunk.sizeof at hlo; omega) (by omega)

theorem FramesInv.sets (h : FramesInv ex th (e :: es)) (hs : Sets ex (e.HasValue ex) th th') : Calm ex th th' e es := by
  induction hs with
  | refl => exact .refl _ _ _
  | step hid h₁ _ ih =>
    have c := h.setValue hid h₁
    exact c.trans (ih (h.calm c))

/-- Everything that is allocated lies in front of a block that was allocated last, or in another chunk. -/
theorem lastBlock_apart (hi : a.Inv) {b : PNBlock} {v n p : Nat} {c : PNAllocatorChunk} (hlast : a.lastAlloc = v)
    (hcur : ∀ d ds, a.chunks = d :: ds → d.current = v + n) (hc : c ∈ a.chunks)
    (hlo : c.addr + PNAllocatorChunk.sizeof ≤ v) (hp : v ≤ p) (hhi : p + 8 ≤ c.endp)
    (hb : b.AllocatedIn a) (hpos : 0 < b.size) (hd : PNBlock.Disjoint ⟨v, n⟩ b) : p + 8 ≤ b.addr ∨ b.addr + b.size ≤ p := by
  have hl := hi.last
  cases hcs : a.chunks with
  | nil =>
    rw [hcs] at hc
    cases hc
  | cons c₀ cs =>
    -- the chunk of the block is the head chunk
    have hc₀ : c₀ ∈ a.chunks := by
      rw [hcs]
      exact List.mem_cons_self ..
    rw [hcs, hlast] at hl
    have hcur := hcur c₀ cs hcs
    have hend := (hi.wf c₀ hc₀).current_le
    obtain ⟨hl₁, hl₂⟩ := hl
    simp only [PNAllocatorChunk.sizeof] at hl₁ hlo
    have hne : ∀ d ∈ a.chunks, d ≠ c → d.Disjoint c := fun d hd hdc => hi.disjoint.forall hd hc hdc
    have heq : c₀ = c := by
      by_contra hcon
      rcases hne c₀ hc₀ hcon with h | h <;> omega
    subst heq
    obtain ⟨d, hdm, hdlo, hdhi⟩ := hb
    have hdcur := (hi.wf d hdm).current_le
    simp only [PNBlock.Disjoint] at hd
    simp only [PNAllocatorChunk.sizeof] at hdlo
    by_cases hdc : d = c₀
    · subst hdc
      omega
    · rcases hne d hdm hdc with h | h <;> omega

/-- Setting any value right after the push: what is behind the array is free. -/
theorem FramesInv.setValue_last (h : FramesInv ex th (e :: es)) (hv : ValuesLast ex th.allocator e) {id w : Nat}
    (hset : pnThreadSetValue ex th id w = .ok th') : Calm ex th th' e es := by
  obtain ⟨hid, _, ⟨c, hc, hlo, hhi⟩, rfl⟩ := setValue_ok hset
  have hfix : (readFrame th.mem th.currentFrame).functionValues = e.values := by
    rw [h.current]
    exact h.head.values
  rw [hfix] at hlo hhi ⊢
  refine ⟨rfl, ?_, ?_⟩
  · intro b hb
    have hd : (e.valuesBlock ex).Disjoint b := by
      rcases List.mem_cons.mp hb with rfl | hb
      · exact h.frame_values.symm
      · exact h.base_disjoint (by simp [Entry.base]) hb
    have hal : b.AllocatedIn th.allocator := by
      refine h.levels.allocated b ?_
      rw [baseBlocks_cons]
      rcases List.mem_cons.mp hb with rfl | hb
      · simp [Entry.base]
      · exact List.mem_append_right _ hb
    rcases Nat.eq_zero_or_pos b.size with h0 | hpos
    · intro x hx hx'
      omega
    · have := lastBlock_apart h.inv hv.last hv.current hc hlo (p := e.values + 8 * (id - ex.numValues)) (by omega) hhi hal
        hpos hd
      exact update_sameWords (by omega)
  · exact h.update_sentinel hc (by unfold PNAllocatorChunk.sizeof at hlo; omega) (by omega)

theorem FramesInv.sets_last (h : FramesInv ex th (e :: es)) (hv : ValuesLast ex th.allocator e) (hs : Sets ex P th th') :
    Calm ex th th' e es := by
  induction hs with
  | refl => exact .refl _ _ _
  | step _ h₁ _ ih =>
    have c := h.setValue_last hv h₁
    refine c.trans (ih (h.calm c) ?_)
    rw [c.eq]
    exact ⟨hv.last, hv.current⟩

/-! ## Allocating -/

/-- The new block is free, allocated afterwards, and away from the sentinel. -/
theorem FramesInv.alloc (h : FramesInv ex th es) {malloc : Malloc} (hm : MallocFresh ex malloc) {size ret : Nat}
    (hz : size < 2 ^ 64) (hal : pnAllocatorAlloc (malloc th.allocator.chunks) th.allocator size 8 = .ok (ret, a')) :
    FramesInv ex { th with allocator := a' } es ∧ Extends th.allocator a' ∧
      PNBlock.AllocatedIn ⟨ret, size⟩ a' ∧ (∀ b, b.AllocatedIn th.allocator → PNBlock.Disjoint ⟨ret, size⟩ b) ∧
      (a'.lastAlloc = ret ∧ ∀ c cs, a'.chunks = c :: cs → c.current = ret + size) := by
  obtain ⟨hi, hx, hin, hlast, hd⟩ := alloc_block h.inv (hm.ok _) isAlign_eight hz hal
  exact ⟨h.withAlloc hi hx (alloc_away hm h.away hal), hx, hin, hd, hlast⟩

/-- Writes in a block that no entry lists. -/
theorem FramesInv.writeBlock (h : FramesInv ex th es) {b : PNBlock} (hb : b.AllocatedIn th.allocator)
    (hd : ∀ b' ∈ baseBlocks ex es, b.Disjoint b') (hw : ∀ x, x < b.addr ∨ b.addr + b.size ≤ x → mem' x = th.mem x) :
    SameOn th.mem mem' (baseBlocks ex es) ∧ readFrame mem' ex.sentinel = readFrame th.mem ex.sentinel := by
  constructor
  · intro b' hb' x hx hx'
    rcases hd b' hb' with hd | hd
    · exact hw x (.inr (by omega))
    · exact hw x (.inl (by omega))
  · refine readFrame_congr fun x hx hx' => hw x ?_
    have := h.block_apart hb
    omega

/-- A write of the whole memory that leaves all blocks alone. -/
theorem FramesInv.withBlocks (h : FramesInv ex th es) (hs : SameOn th.mem mem' (baseBlocks ex es))
    (h0 : readFrame mem' ex.sentinel = readFrame th.mem ex.sentinel) : FramesInv ex { th with mem := mem' } es :=
  h.withMem (fun _ he => hs.readFrame (frameBlock_mem he)) h0

/-! ## The current frame -/

/-- Writing the record of the current frame leaves its values and the frames below alone. -/
theorem FramesInv.writeFrame_sameOn (h : FramesInv ex th (e :: es)) (f : PNCallFrame) :
    SameOn th.mem (writeFrame th.mem e.addr f) (e.valuesBlock ex :: baseBlocks ex es) := by
  intro b hb x hx hx'
  have hd : e.frameBlock.Disjoint b := by
    rcases List.mem_cons.mp hb with rfl | hb
    · exact h.frame_values
    · exact h.base_disjoint (by simp [Entry.base]) hb
  simp only [PNBlock.Disjoint, Entry.frameBlock] at hd
  exact writeFrame_outside (by omega)

/-- The record of the current frame is written; its fixed fields stay. -/
theorem FramesInv.writeHead (h : FramesInv ex th (e :: es)) {f : PNCallFrame} (hfix : e.Fixed (top ex es) f) :
    FramesInv ex { th with mem := writeFrame th.mem e.addr f } (e :: es) := by
  have hsame := h.writeFrame_sameOn f
  have hbelow : ∀ e' ∈ es, readFrame (writeFrame th.mem e.addr f) e'.addr = readFrame th.mem e'.addr :=
    fun e' he' => hsame.readFrame (List.mem_cons_of_mem _ (frameBlock_mem he'))
  obtain ⟨h₁, h₂, -, h₄⟩ := h.links
  refine ⟨h.inv, h.away, ?_, h.current, ⟨h₁, h₂, ?_, h₄.congr hbelow⟩, h.levels, h.disjoint, ?_, h.running⟩
  · have hal := h.levels.allocated e.frameBlock (frameBlock_mem (List.mem_cons_self ..))
    have hs : readFrame (writeFrame th.mem e.addr f) ex.sentinel = readFrame th.mem ex.sentinel := by
      refine readFrame_congr fun x hx hx' => writeFrame_outside ?_
      have := h.block_apart hal
      simp only [Entry.frameBlock] at this
      omega
    rw [hs]
    exact h.sentinel
  · rw [readFrame_writeFrame]
    exact hfix
  · intro e' he'
    rw [hbelow e' he']
    exact h.calls e' he'

theorem FramesInv.modifyFrame (h : FramesInv ex th (e :: es)) {f : PNCallFrame → PNCallFrame}
    (hfix : e.Fixed (top ex es) (f (readFrame th.mem e.addr))) :
    FramesInv ex (th.modifyFrame f) (e :: es) ∧
      SameOn th.mem (th.modifyFrame f).mem (e.valuesBlock ex :: baseBlocks ex es) ∧
      readFrame (th.modifyFrame f).mem e.addr = f (readFrame th.mem e.addr) := by
  have hcur : th.currentFrame = e.addr := h.current
  have hmem : (th.modifyFrame f).mem = writeFrame th.mem e.addr (f (readFrame th.mem e.addr)) := by
    unfold PNThread.modifyFrame
    rw [hcur]
  refine ⟨(h.writeHead hfix).fields rfl hmem rfl rfl, ?_, ?_⟩
  · rw [hmem]
    exact h.writeFrame_sameOn _
  · rw [hmem, readFrame_writeFrame]

theorem FramesInv.saveInst (h : FramesInv ex th (e :: es)) :
    FramesInv ex th.saveInst (e :: es) ∧ SameOn th.mem th.saveInst.mem (e.valuesBlock ex :: baseBlocks ex es) ∧
      readFrame th.saveInst.mem e.addr =
        { readFrame th.mem e.addr with location := ⟨(readFrame th.mem e.addr).location.functionId, th.inst⟩ } := by
  have hfix := h.head
  exact h.modifyFrame ⟨hfix.functionId, hfix.mark, hfix.values, hfix.parent⟩

/-- Going back to an older frame, with the allocator as it is. -/
theorem FramesInv.pop (pre : List Entry) {post : List Entry} (h : FramesInv ex th (pre ++ e :: post)) :
    FramesInv ex { th with currentFrame := e.addr, functionId := e.functionId } (e :: post) := by
  refine ⟨h.inv, h.away, h.sentinel, rfl, h.links.split, h.levels.split, ?_, ?_, ?_⟩
  · have hd := h.disjoint
    rw [baseBlocks, List.flatMap_append] at hd
    exact (List.pairwise_append.mp hd).2.1
  · intro e' he'
    refine h.calls e' ?_
    cases pre with
    | nil => exact he'
    | cons e₀ pre =>
      rw [List.cons_append, List.tail_cons]
      exact List.mem_append_right _ (List.mem_of_mem_tail he')
  · intro e' he'
    cases he'
    rfl

/-- The reset to the mark of the current frame. -/
theorem FramesInv.reset (h : FramesInv ex th (e :: es)) (hm : MarkFound th.allocator (pnAllocatorMark e.alloc)) :
    FramesInv ex (th.resetTo (pnAllocatorMark e.alloc)) (e :: es) := by
  obtain ⟨hi, hx, hbase, hl⟩ := h.levels
  have hr : pnAllocatorResetToMark th.allocator (pnAllocatorMark e.alloc) = e.alloc := reset_restores h.inv hi hx hm
  unfold PNThread.resetTo
  rw [hr]
  exact ⟨hi, h.away.mono hx, h.sentinel, h.current, h.links, ⟨hi, .refl _, hbase, hl⟩, h.disjoint, h.calls, h.running⟩

end Pnacl
