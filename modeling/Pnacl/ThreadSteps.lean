import Pnacl.ThreadStorage
import Mathlib.Data.List.Pairwise

/-!
# Steps keep the storage

Each operation of a thread keeps the storage invariant, with the entries changed as the operation says: a call pushes an
entry, a return pops one, SETJMP adds a buffer to the first entry, LONGJMP goes back to the entry of the buffer. RET and
LONGJMP need that the frame they land in has no jump buffers then, because they reset the allocator to the frame's mark;
every reset needs that the mark's `last_alloc` is not the end of a chunk (`MarkFound`).
-/

namespace Pnacl

open Lib

/-- The reset to this mark stops at the right chunk: no chunk ends where the last block starts. -/
def MarkFound (a : PNAllocator) (m : PNAllocatorMark) : Prop := ∀ c ∈ a.chunks, m.lastAlloc ≠ c.endp

/-- `malloc` answers ranges that overlap neither the chunks nor the sentinel frame. -/
structure MallocFresh (ex : PNExecutor) (malloc : Malloc) : Prop where
  ok : ∀ chunks, MallocOk (malloc chunks) chunks
  away : ∀ chunks size, malloc chunks size ≠ 0 →
    malloc chunks size + size ≤ ex.sentinel ∨ ex.sentinel + PNCallFrame.sizeof ≤ malloc chunks size

variable {ex : PNExecutor} {th th' : PNThread} {e : Entry} {es : List Entry} {mem' : PNWords} {a' : PNAllocator}

theorem MarkFound.safe {a g : PNAllocator} (hg : g.Inv) (hx : Extends g a) (h : MarkFound a (pnAllocatorMark g)) :
    MarkSafe g := by
  have hlast := hg.last
  unfold MarkSafe
  cases hc : g.chunks with
  | nil => trivial
  | cons c cs =>
    rw [hc] at hlast
    have hmem : c ∈ g.chunks := by rw [hc]; exact List.mem_cons_self ..
    obtain ⟨c', hc', _, hend, _⟩ := hx.chunk hmem
    have hne : g.lastAlloc ≠ c'.endp := h c' hc'
    have hle := hlast.2
    have hcur := (hg.wf c hmem).current_le
    simp only
    omega

/-- A reset to a mark that is found gives back the allocator of the mark. -/
theorem reset_restores {a g : PNAllocator} (ha : a.Inv) (hg : g.Inv) (hx : Extends g a)
    (h : MarkFound a (pnAllocatorMark g)) : pnAllocatorResetToMark a (pnAllocatorMark g) = g :=
  resetToMark_restores hg (h.safe hg hx) ha hx

/-! ## Changing memory -/

theorem update_sameWords {mem : PNWords} {p w b n : Nat} (h : p < b ∨ b + n ≤ p) :
    SameWords mem (Function.update mem p w) b n := by
  intro a ha hb
  exact Function.update_of_ne (by omega) _ _

theorem SameOn.trans {m₁ m₂ m₃ : PNWords} {bs : List PNBlock} (h : SameOn m₁ m₂ bs) (h' : SameOn m₂ m₃ bs) :
    SameOn m₁ m₃ bs :=
  fun b hb a ha hb' => (h' b hb a ha hb').trans (h b hb a ha hb')

theorem records_subset {b : PNBlock} (hb : b ∈ es.flatMap Entry.records) : b ∈ allBlocks ex es := by
  obtain ⟨e, he, hb⟩ := List.mem_flatMap.mp hb
  refine List.mem_flatMap.mpr ⟨e, he, ?_⟩
  rcases List.mem_append.mp hb with hb | hb
  · exact List.mem_append_left _ hb
  · rw [List.mem_singleton.mp hb]
    exact List.mem_append_right _ (List.mem_cons_self ..)

theorem records_size_pos {b : PNBlock} (hb : b ∈ es.flatMap Entry.records) : 0 < b.size := by
  obtain ⟨e, _, hb⟩ := List.mem_flatMap.mp hb
  rcases List.mem_append.mp hb with hb | hb
  · obtain ⟨x, _, rfl⟩ := List.mem_map.mp hb
    exact Nat.zero_lt_succ _
  · rw [List.mem_singleton.mp hb]
    exact Nat.zero_lt_succ _

/-- The invariant reads memory only in the records and at the sentinel. -/
theorem ThreadInv.withMem (h : ThreadInv ex th es) (hs : SameOn th.mem mem' (es.flatMap Entry.records))
    (h0 : mem' ex.sentinel = th.mem ex.sentinel) : ThreadInv ex { th with mem := mem' } es where
  inv := h.inv
  away := h.away
  sentinel := h0.trans h.sentinel
  current := h.current
  chain := h.chain.congr hs
  levels := h.levels
  disjoint := h.disjoint
  calls := by
    intro e he
    have hsub : e.frameBlock ∈ es.flatMap Entry.records :=
      List.mem_flatMap.mpr ⟨e, List.mem_of_mem_tail he, List.mem_append_right _ (List.mem_singleton_self _)⟩
    have hf : readFrame mem' e.addr = readFrame th.mem e.addr := readFrame_congr (hs _ hsub)
    rw [hf]
    exact h.calls e he
  running := h.running

/-- The thread has written memory, but neither a record nor the sentinel. -/
structure Quiet (ex : PNExecutor) (th th' : PNThread) (es : List Entry) : Prop where
  eq : th' = { th with mem := th'.mem }
  same : SameOn th.mem th'.mem (es.flatMap Entry.records)
  sentinel : th'.mem ex.sentinel = th.mem ex.sentinel

theorem Quiet.refl (th : PNThread) (es : List Entry) : Quiet ex th th es := ⟨rfl, fun _ _ _ _ _ => rfl, rfl⟩

theorem Quiet.trans {th₂ : PNThread} (h : Quiet ex th th' es) (h' : Quiet ex th' th₂ es) : Quiet ex th th₂ es := by
  refine ⟨?_, h.same.trans h'.same, h'.sentinel.trans h.sentinel⟩
  have e1 := h.eq
  have e2 := h'.eq
  rw [e1] at e2
  exact e2

theorem ThreadInv.quiet (h : ThreadInv ex th es) (q : Quiet ex th th' es) : ThreadInv ex th' es := by
  rw [q.eq]
  exact h.withMem q.same q.sentinel

/-- The invariant does not read the other fields. -/
theorem ThreadInv.fields (h : ThreadInv ex th es) (ha : th'.allocator = th.allocator) (hm : th'.mem = th.mem)
    (hc : th'.currentFrame = th.currentFrame) (hf : th'.functionId = th.functionId) : ThreadInv ex th' es where
  inv := ha ▸ h.inv
  away := ha ▸ h.away
  sentinel := hm ▸ h.sentinel
  current := hc.trans h.current
  chain := hm ▸ h.chain
  levels := ha ▸ h.levels
  disjoint := h.disjoint
  calls := hm ▸ h.calls
  running e he := hf.trans (h.running e he)

/-- More may be allocated. -/
theorem ThreadInv.withAlloc (h : ThreadInv ex th es) (hi : a'.Inv) (hx : Extends th.allocator a') (haw : Away ex a') :
    ThreadInv ex { th with allocator := a' } es :=
  { h with
    inv := hi
    away := haw
    levels := h.levels.mono hx }

/-- A block in a chunk does not touch the sentinel. -/
theorem ThreadInv.ne_sentinel (h : ThreadInv ex th es) {c : PNAllocatorChunk} (hc : c ∈ th.allocator.chunks) {p : Nat}
    (hlo : c.addr ≤ p) (hhi : p < c.endp) : p ≠ ex.sentinel := by
  rcases h.away c hc with h | h
  · omega
  · unfold PNCallFrame.sizeof at h; omega

theorem Entry.values_mem_blocks (e : Entry) : e.valuesBlock ex ∈ e.blocks ex :=
  List.mem_append_right _ (by simp)

/-- The values of the current frame overlap no record. -/
theorem ThreadInv.values_disjoint (h : ThreadInv ex th (e :: es)) {b : PNBlock}
    (hb : b ∈ (e :: es).flatMap Entry.records) : PNBlock.Disjoint (e.valuesBlock ex) b := by
  have hd := h.disjoint
  rw [allBlocks, List.flatMap_cons] at hd
  obtain ⟨hd1, _, hd2⟩ := List.pairwise_append.mp hd
  rw [List.flatMap_cons] at hb
  rcases List.mem_append.mp hb with hb | hb
  · obtain ⟨_, hfv, hbv⟩ := List.pairwise_append.mp hd1
    rcases List.mem_append.mp hb with hb | hb
    · exact (hbv b hb _ (by simp)).symm
    · rw [List.mem_singleton.mp hb]
      exact ((List.pairwise_cons.mp hfv).1 _ (by simp)).symm
  · exact hd2 _ e.values_mem_blocks _ (records_subset hb)

/-! ## Setting values -/

theorem live_iff {p n : Nat} :
    th.live p n = true ↔ ∃ c ∈ th.allocator.chunks, c.addr + PNAllocatorChunk.sizeof ≤ p ∧ p + n ≤ c.endp := by
  simp [PNThread.live]

/-- `pn_thread_set_value` writes a word behind the start of the array, in the same chunk. -/
theorem setValue_ok {id w : Nat} (h : pnThreadSetValue ex th id w = .ok th') :
    ex.numValues ≤ id ∧ id ≠ PN_INVALID_VALUE_ID ∧
      (∃ c ∈ th.allocator.chunks,
        c.addr + PNAllocatorChunk.sizeof ≤ (readFrame th.mem th.currentFrame).functionValues ∧
        (readFrame th.mem th.currentFrame).functionValues + 8 * (id - ex.numValues) + 8 ≤ c.endp) ∧
      th' = th.store ((readFrame th.mem th.currentFrame).functionValues + 8 * (id - ex.numValues)) w := by
  obtain ⟨hid, h⟩ := cAssert_bind_eq_ok.mp h
  dsimp only at h
  split at h
  next hc =>
    obtain ⟨hne, hl⟩ := hc
    obtain ⟨c, hc, hlo, hhi⟩ := live_iff.mp hl
    cases h
    exact ⟨hid, hne, ⟨c, hc, hlo, by omega⟩, rfl⟩
  next => cases h

theorem AllocatedIn.live {t : PNThread} {b : PNBlock} (h : b.AllocatedIn t.allocator) (hi : t.allocator.Inv) :
    t.live b.addr b.size = true := by
  obtain ⟨c, hc, hlo, hhi⟩ := h
  exact live_iff.mpr ⟨c, hc, hlo, Nat.le_trans hhi (hi.wf c hc).current_le⟩

theorem setValue_eq {id w : Nat} (hid : ex.numValues ≤ id) (hne : id ≠ PN_INVALID_VALUE_ID)
    (hl : th.live (readFrame th.mem th.currentFrame).functionValues (8 * (id - ex.numValues) + 8) = true) :
    pnThreadSetValue ex th id w =
      .ok (th.store ((readFrame th.mem th.currentFrame).functionValues + 8 * (id - ex.numValues)) w) := by
  unfold pnThreadSetValue
  rw [cAssert_bind hid]
  refine if_pos ⟨hne, ?_⟩
  rwa [Nat.add_assoc, Nat.add_sub_cancel_left]

/-- The fixed fields of the current frame. -/
theorem ThreadInv.fixed (h : ThreadInv ex th (e :: es)) :
    e.Fixed (top ex es) (readFrame th.mem th.currentFrame) := by
  rw [h.current]
  exact h.chain.1.fixed

/-- Setting a value of the function is quiet. -/
theorem ThreadInv.setValue (h : ThreadInv ex th (e :: es)) {id w : Nat}
    (hr : id < ex.numValues + (ex.functions e.functionId).numValues) (hset : pnThreadSetValue ex th id w = .ok th') :
    Quiet ex th th' (e :: es) := by
  obtain ⟨hid, _, ⟨c, hc, hlo, hhi⟩, rfl⟩ := setValue_ok hset
  rw [h.fixed.values] at hlo hhi ⊢
  refine ⟨rfl, ?_, ?_⟩
  · intro b hb
    have hd := h.values_disjoint hb
    simp only [PNBlock.Disjoint, Entry.valuesBlock, PNRuntimeValue.sizeof] at hd
    exact update_sameWords (by omega)
  · refine Function.update_of_ne (Ne.symm ?_) _ _
    exact h.ne_sentinel hc (by unfold PNAllocatorChunk.sizeof at hlo; omega) (by omega)

/-- The values are the last block, so that nothing lies behind them in the chunk. -/
structure ValuesLast (ex : PNExecutor) (a : PNAllocator) (e : Entry) : Prop where
  last : a.lastAlloc = e.values
  current : ∀ c cs, a.chunks = c :: cs → c.current = e.values + (e.valuesBlock ex).size

/-- Setting any value right after the push is quiet: what is behind the array is free. -/
theorem ThreadInv.setValue_last (h : ThreadInv ex th (e :: es)) (hv : ValuesLast ex th.allocator e) {id w : Nat}
    (hset : pnThreadSetValue ex th id w = .ok th') : Quiet ex th th' (e :: es) := by
  obtain ⟨hid, _, ⟨c, hc, hlo, hhi⟩, rfl⟩ := setValue_ok hset
  rw [h.fixed.values] at hlo hhi ⊢
  have hlast := h.inv.last
  cases hcs : th.allocator.chunks with
  | nil => rw [hcs] at hc; cases hc
  | cons c₀ cs =>
    -- the chunk of the array is the head chunk
    have hc₀ : c₀ ∈ th.allocator.chunks := by rw [hcs]; exact List.mem_cons_self ..
    rw [hcs, hv.last] at hlast
    have hcur := hv.current c₀ cs hcs
    have hend := (h.inv.wf c₀ hc₀).current_le
    obtain ⟨hl1, hl2⟩ := hlast
    simp only [PNAllocatorChunk.sizeof] at hl1 hlo
    have hne (d : PNAllocatorChunk) (hd : d ∈ th.allocator.chunks) (hdc : d ≠ c) : d.Disjoint c :=
      h.inv.disjoint.forall hd hc hdc
    have heq : c₀ = c := by
      by_contra hcon
      rcases hne c₀ hc₀ hcon with h | h <;> omega
    subst heq
    refine ⟨rfl, ?_, ?_⟩
    · intro b hb
      have hd := h.values_disjoint hb
      have hpos := records_size_pos hb
      obtain ⟨d, hdm, hdlo, hdhi⟩ := h.levels.allocated b (records_subset hb)
      have hdcur := (h.inv.wf d hdm).current_le
      simp only [PNBlock.Disjoint, Entry.valuesBlock, PNRuntimeValue.sizeof] at hd hcur
      simp only [PNAllocatorChunk.sizeof] at hdlo
      refine update_sameWords ?_
      by_cases hdc : d = c₀
      · subst hdc
        omega
      · rcases hne d hdm hdc with h | h <;> omega
    · exact Function.update_of_ne (Ne.symm (h.ne_sentinel hc₀ (by omega) (by omega))) _ _

theorem ValuesLast.quiet (hv : ValuesLast ex th.allocator e) (q : Quiet ex th th' es) : ValuesLast ex th'.allocator e := by
  rw [q.eq]
  exact ⟨hv.last, hv.current⟩

theorem setValues_last : ∀ {vs : List (Nat × Nat)} {th : PNThread}, ThreadInv ex th (e :: es) → ValuesLast ex th.allocator e →
    setValues ex th vs = .ok th' → Quiet ex th th' (e :: es)
  | [], th, _, _, hs => by cases hs; exact .refl _ _
  | (id, w) :: vs, th, h, hv, hs => by
    obtain ⟨th₁, h1, hs⟩ := bind_eq_ok.mp hs
    have q := h.setValue_last hv h1
    exact q.trans (setValues_last (h.quiet q) (hv.quiet q) hs)

theorem copyArguments_last {old : Nat} : ∀ {ids : List Nat} {n : Nat} {th : PNThread}, ThreadInv ex th (e :: es) →
    ValuesLast ex th.allocator e → copyArguments ex old th n ids = .ok th' → Quiet ex th th' (e :: es)
  | [], _, th, _, _, hs => by cases hs; exact .refl _ _
  | id :: ids, n, th, h, hv, hs => by
    obtain ⟨th₁, h1, hs⟩ := bind_eq_ok.mp hs
    have q := h.setValue_last hv h1
    exact q.trans (copyArguments_last (h.quiet q) (hv.quiet q) hs)

theorem setValues_inRange : ∀ {vs : List (Nat × Nat)} {th : PNThread}, ThreadInv ex th (e :: es) →
    (∀ v ∈ vs, v.1 < ex.numValues + (ex.functions e.functionId).numValues) →
    setValues ex th vs = .ok th' → Quiet ex th th' (e :: es)
  | [], th, _, _, hs => by cases hs; exact .refl _ _
  | (id, w) :: vs, th, h, hv, hs => by
    obtain ⟨th₁, h1, hs⟩ := bind_eq_ok.mp hs
    have q := h.setValue (hv (id, w) (List.mem_cons_self ..)) h1
    exact q.trans (setValues_inRange (h.quiet q) (fun v hm => hv v (List.mem_cons_of_mem _ hm)) hs)

/-! ## Allocating -/

/-- The head chunk with another `current` has the same range. -/
theorem mem_finish_chunks {a : PNAllocator} {p q n : Nat} {c : PNAllocatorChunk} (hc : c ∈ (a.finish p q n).chunks) :
    ∃ d ∈ a.chunks, c.addr = d.addr ∧ c.endp = d.endp := by
  unfold PNAllocator.finish PNAllocator.setCurrent at hc
  cases ha : a.chunks with
  | nil => simp [ha] at hc
  | cons d ds =>
    simp only [ha] at hc
    rcases List.mem_cons.mp hc with rfl | hc
    · exact ⟨d, List.mem_cons_self .., rfl, rfl⟩
    · exact ⟨c, List.mem_cons_of_mem _ hc, rfl, rfl⟩

theorem allocInNewChunk_chunks {malloc : Nat → Nat} {a : PNAllocator} {size align ret : Nat}
    (h : allocInNewChunk malloc a size align = .ok (ret, a')) {c : PNAllocatorChunk} (hc : c ∈ a'.chunks) :
    (∃ d ∈ a.chunks, c.addr = d.addr ∧ c.endp = d.endp) ∨
      ∃ n, malloc n ≠ 0 ∧ c.addr = malloc n ∧ c.endp = (malloc n + n) % 2 ^ 64 := by
  obtain ⟨⟨d, a₁⟩, hn, h⟩ := bind_eq_ok.mp h
  obtain ⟨p, _, h⟩ := bind_eq_ok.mp h
  obtain ⟨_, h⟩ := pnCheck_bind_eq_ok.mp h
  obtain ⟨_, h⟩ := cAssert_bind_eq_ok.mp h
  cases h
  obtain ⟨d', hd', haddr, hend⟩ := mem_finish_chunks hc
  obtain ⟨_, hn⟩ := pnCheck_bind_eq_ok.mp hn
  obtain ⟨n, _, hn⟩ := bind_eq_ok.mp hn
  obtain ⟨q, hq, hn⟩ := bind_eq_ok.mp hn
  obtain ⟨_, _, hn⟩ := bind_eq_ok.mp hn
  obtain ⟨_, hn⟩ := cAssert_bind_eq_ok.mp hn
  obtain ⟨cur, _, hn⟩ := bind_eq_ok.mp hn
  cases hn
  unfold pnMalloc at hq
  split at hq
  · cases hq
  · cases hq
    rcases List.mem_cons.mp hd' with rfl | hd'
    · exact .inr ⟨n, ‹_›, haddr, hend⟩
    · exact .inl ⟨d', hd', haddr, hend⟩

/-- The chunks after an allocation are those before it and at most one from `malloc`. -/
theorem alloc_chunks {malloc : Nat → Nat} {a : PNAllocator} {size align ret : Nat}
    (h : pnAllocatorAlloc malloc a size align = .ok (ret, a')) {c : PNAllocatorChunk} (hc : c ∈ a'.chunks) :
    (∃ d ∈ a.chunks, c.addr = d.addr ∧ c.endp = d.endp) ∨
      ∃ n, malloc n ≠ 0 ∧ c.addr = malloc n ∧ c.endp = (malloc n + n) % 2 ^ 64 := by
  unfold pnAllocatorAlloc at h
  split at h
  · exact allocInNewChunk_chunks h hc
  · obtain ⟨p, _, h⟩ := bind_eq_ok.mp h
    obtain ⟨_, h⟩ := pnCheck_bind_eq_ok.mp h
    split at h
    · exact allocInNewChunk_chunks h hc
    · cases h
      exact .inl (mem_finish_chunks hc)

theorem alloc_away {malloc : Malloc} (hm : MallocFresh ex malloc) {a : PNAllocator} {size align ret : Nat}
    (haw : Away ex a) (h : pnAllocatorAlloc (malloc a.chunks) a size align = .ok (ret, a')) : Away ex a' := by
  intro c hc
  rcases alloc_chunks h hc with ⟨d, hd, haddr, hend⟩ | ⟨n, hne, haddr, hend⟩
  · rw [haddr, hend]
    exact haw d hd
  · have hr := (hm.ok a.chunks).range n hne
    unfold addressLimit at hr
    rw [haddr, hend, Nat.mod_eq_of_lt (by omega)]
    exact hm.away a.chunks n hne

theorem isAlign_eight : IsAlign 8 := ⟨⟨3, rfl⟩, by decide⟩

/-- The allocations of a thread: the new block is free, allocated afterwards, and away from the sentinel. -/
theorem ThreadInv.alloc (h : ThreadInv ex th es) {malloc : Malloc} (hm : MallocFresh ex malloc) {size ret : Nat}
    (hz : size < 2 ^ 64) (hal : pnAllocatorAlloc (malloc th.allocator.chunks) th.allocator size 8 = .ok (ret, a')) :
    ThreadInv ex { th with allocator := a' } es ∧ Extends th.allocator a' ∧
      PNBlock.AllocatedIn ⟨ret, size⟩ a' ∧ (∀ b, b.AllocatedIn th.allocator → PNBlock.Disjoint ⟨ret, size⟩ b) := by
  obtain ⟨hi, hx, hin, _, hd⟩ := alloc_block h.inv (hm.ok _) isAlign_eight hz hal
  exact ⟨h.withAlloc hi hx (alloc_away hm h.away hal), hx, hin, hd⟩

/-- Writes in a block that is allocated but not listed are quiet. -/
theorem ThreadInv.writeBlock (h : ThreadInv ex th es) {b : PNBlock} (mem' : PNWords) (hb : b.AllocatedIn th.allocator)
    (hd : ∀ b' ∈ allBlocks ex es, b.Disjoint b')
    (hw : ∀ a, a < b.addr ∨ b.addr + b.size ≤ a → mem' a = th.mem a) : Quiet ex th { th with mem := mem' } es := by
  refine ⟨rfl, ?_, ?_⟩
  · intro b' hb' a ha ha'
    rcases hd b' (records_subset hb') with hd | hd
    · exact hw a (.inr (by omega))
    · exact hw a (.inl (by omega))
  · obtain ⟨c, hc, hlo, hhi⟩ := hb
    have hcur := (h.inv.wf c hc).current_le
    refine hw _ ?_
    rcases h.away c hc with h | h
    · exact .inr (by omega)
    · unfold PNCallFrame.sizeof at h
      exact .inl (by omega)

/-! ## The current frame -/

/-- The records of the other entries, and the jump buffers of this one, do not overlap the frame. -/
theorem ThreadInv.frame_disjoint (h : ThreadInv ex th (e :: es)) {b : PNBlock}
    (hb : b ∈ e.bufBlocks ++ es.flatMap Entry.records) : PNBlock.Disjoint e.frameBlock b := by
  have hd := h.disjoint
  rw [allBlocks, List.flatMap_cons] at hd
  obtain ⟨hd1, _, hd2⟩ := List.pairwise_append.mp hd
  rcases List.mem_append.mp hb with hb | hb
  · exact ((List.pairwise_append.mp hd1).2.2 b hb _ (List.mem_cons_self ..)).symm
  · exact hd2 _ (List.mem_append_right _ (List.mem_cons_self ..)) _ (records_subset hb)

theorem ThreadInv.writeFrame_sameOn (h : ThreadInv ex th (e :: es)) (f : PNCallFrame) :
    SameOn th.mem (writeFrame th.mem e.addr f) (e.bufBlocks ++ es.flatMap Entry.records) := by
  intro b hb a ha ha'
  have hd := h.frame_disjoint hb
  simp only [PNBlock.Disjoint, Entry.frameBlock] at hd
  exact writeFrame_outside (by omega)

theorem SameOn.bufBlock {mem : PNWords} {bs : List PNBlock} (h : SameOn mem mem' (e.bufBlocks ++ bs)) {b : Nat}
    (hb : b ∈ e.bufs) : SameWords mem mem' b PNJmpBuf.sizeof :=
  h ⟨b, PNJmpBuf.sizeof⟩ (List.mem_append_left _ (List.mem_map.mpr ⟨b, hb, rfl⟩))

theorem Entry.Fixed.withBufs {parent : Nat} {f : PNCallFrame} (h : e.Fixed parent f) (bufs : List Nat) :
    ({ e with bufs := bufs } : Entry).Fixed parent f :=
  ⟨h.functionId, h.mark, h.values, h.parent⟩

/-- The current frame is written, perhaps with another list of jump buffers. -/
theorem ThreadInv.writeHead (h : ThreadInv ex th (e :: es)) {f : PNCallFrame} {bufs : List Nat}
    (hfix : e.Fixed (top ex es) f) (hch : BufChain (writeFrame th.mem e.addr f) f.jmpbufHead bufs)
    (hsaved : ∀ b ∈ bufs, e.Fixed (top ex es) (readJmpBuf (writeFrame th.mem e.addr f) b).frame ∧
      ResultInRange ex e.functionId (ex.callAt (readJmpBuf (writeFrame th.mem e.addr f) b).frame.location.inst))
    (hal : ∀ b ∈ bufs, PNBlock.AllocatedIn ⟨b, PNJmpBuf.sizeof⟩ th.allocator)
    (hdis : (allBlocks ex ({ e with bufs := bufs } :: es)).Pairwise PNBlock.Disjoint) :
    ThreadInv ex { th with mem := writeFrame th.mem e.addr f } ({ e with bufs := bufs } :: es) := by
  have hsame := h.writeFrame_sameOn f
  have htail : SameOn th.mem (writeFrame th.mem e.addr f) (es.flatMap Entry.records) :=
    fun b hb => hsame b (List.mem_append_right _ hb)
  obtain ⟨hok, hrest⟩ := h.chain
  obtain ⟨hi, hx, hbase, _, hl⟩ := h.levels
  have hbufs : ∀ b ∈ ({ e with bufs := bufs } : Entry).bufBlocks, b.AllocatedIn th.allocator := by
    intro b hb
    obtain ⟨x, hx, rfl⟩ := List.mem_map.mp hb
    exact hal x hx
  refine ⟨h.inv, h.away, ?_, h.current, ⟨?_, hrest.congr htail⟩, ⟨hi, hx, hbase, hbufs, hl⟩, hdis, ?_, ?_⟩
  · refine Eq.trans (writeFrame_outside ?_) h.sentinel
    obtain ⟨c, hc, hlo, hhi⟩ := h.levels.allocated e.frameBlock (List.mem_flatMap.mpr
      ⟨e, List.mem_cons_self .., List.mem_append_right _ (List.mem_cons_self ..)⟩)
    have hend := (h.inv.wf c hc).current_le
    simp only [Entry.frameBlock] at hlo hhi
    rcases h.away c hc with h | h
    · exact .inr (by omega)
    · unfold PNCallFrame.sizeof at h
      exact .inl (by omega)
  · refine ⟨hok.addr_ne, hok.functionId_ne, ?_, ?_, fun b hb => ⟨(hsaved b hb).1.withBufs bufs, (hsaved b hb).2⟩⟩
    · simp only [readFrame_writeFrame]
      exact hfix.withBufs bufs
    · simp only [readFrame_writeFrame]
      exact hch
  · intro e' he'
    have hf : readFrame (writeFrame th.mem e.addr f) e'.addr = readFrame th.mem e'.addr :=
      readFrame_congr (htail e'.frameBlock (List.mem_flatMap.mpr
        ⟨e', he', List.mem_append_right _ (List.mem_singleton_self _)⟩))
    simp only [hf]
    exact h.calls e' he'
  · intro e' he'
    cases he'
    exact h.running e rfl

/-- Changing fields of the current frame that are not fixed. -/
theorem ThreadInv.modifyFrame (h : ThreadInv ex th (e :: es)) {f : PNCallFrame → PNCallFrame}
    (hfix : e.Fixed (top ex es) (f (readFrame th.mem e.addr)))
    (hbuf : (f (readFrame th.mem e.addr)).jmpbufHead = (readFrame th.mem e.addr).jmpbufHead) :
    ThreadInv ex (th.modifyFrame f) (e :: es) := by
  have hcur : th.currentFrame = e.addr := h.current
  have hok := h.chain.1
  have hsame := h.writeFrame_sameOn (f (readFrame th.mem e.addr))
  have hmem : (th.modifyFrame f).mem = writeFrame th.mem e.addr (f (readFrame th.mem e.addr)) := by
    unfold PNThread.modifyFrame
    rw [hcur]
  suffices hw : ThreadInv ex { th with mem := writeFrame th.mem e.addr (f (readFrame th.mem e.addr)) }
      ({ e with bufs := e.bufs } :: es) from hw.fields rfl hmem rfl rfl
  refine h.writeHead hfix ?_ ?_ ?_ h.disjoint
  · rw [hbuf]
    exact hok.bufs.congr fun b hb => hsame.bufBlock hb
  · intro b hb
    rw [readJmpBuf_congr (hsame.bufBlock hb)]
    exact hok.saved b hb
  · intro b hb
    exact h.levels.2.2.2.1 _ (List.mem_map.mpr ⟨b, hb, rfl⟩)

/-- Going back to an older frame, with the allocator as it is. -/
theorem ThreadInv.pop (pre : List Entry) {post : List Entry} (h : ThreadInv ex th (pre ++ e :: post)) :
    ThreadInv ex { th with currentFrame := e.addr, functionId := e.functionId } (e :: post) := by
  obtain ⟨hi, hx, hbase, hl⟩ := h.levels.split
  have hbufs : ∀ b ∈ e.bufBlocks, b.AllocatedIn th.allocator := fun b hb =>
    h.levels.allocated b (List.mem_flatMap.mpr ⟨e, by simp, List.mem_append_left _ hb⟩)
  refine ⟨h.inv, h.away, h.sentinel, rfl, h.chain.split, ⟨hi, hx, hbase, hbufs, hl⟩, ?_, ?_, ?_⟩
  · have hd := h.disjoint
    rw [allBlocks, List.flatMap_append] at hd
    exact (List.pairwise_append.mp hd).2.1
  · intro e' he'
    refine h.calls e' ?_
    cases pre with
    | nil => exact he'
    | cons e₀ pre => simp only [List.cons_append, List.tail_cons]; simp_all
  · intro e' he'
    cases he'
    rfl

/-- The reset to the mark of the current frame, which must not have jump buffers. -/
theorem ThreadInv.reset (h : ThreadInv ex th (e :: es)) (hb : e.bufs = [])
    (hm : MarkFound th.allocator (pnAllocatorMark e.alloc)) :
    ThreadInv ex (th.resetTo (pnAllocatorMark e.alloc)) (e :: es) ∧
      (th.resetTo (pnAllocatorMark e.alloc)).allocator = e.alloc := by
  obtain ⟨hi, hx, hbase, _, hl⟩ := h.levels
  have hr : pnAllocatorResetToMark th.allocator (pnAllocatorMark e.alloc) = e.alloc := reset_restores h.inv hi hx hm
  have hnil : ∀ b ∈ e.bufBlocks, b.AllocatedIn e.alloc := by
    intro b hmem
    simp [Entry.bufBlocks, hb] at hmem
  refine ⟨?_, hr⟩
  unfold PNThread.resetTo
  rw [hr]
  exact ⟨hi, h.away.mono hx, h.sentinel, h.current, h.chain, ⟨hi, .refl _, hbase, hnil, hl⟩, h.disjoint, h.calls,
    h.running⟩

end Pnacl
