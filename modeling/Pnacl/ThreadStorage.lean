import Pnacl.AllocatorBlocks
import Pnacl.Thread

/-!
# Where a thread keeps its frames

The storage of a thread is described by a list of entries, one for each frame from the current one up (`Entry`): the
addresses of the frame, of its values and of its jump buffers, and the allocator as it was at the frame's mark.

- `Chain`: memory holds the frames and buffers that the entries list;
- `Levels`: each frame was allocated at its mark, and everything of the older frames before it;
- `ThreadInv`: both, and no two blocks overlap.
-/

namespace Pnacl

open Lib

/-! ## Records in memory -/

section Words

variable {mem mem' : PNWords} {p : Nat}

/-- The memories agree from `p` on for `n` bytes. -/
def SameWords (mem mem' : PNWords) (p n : Nat) : Prop := ∀ a, p ≤ a → a < p + n → mem' a = mem a

theorem readFrame_congr (h : SameWords mem mem' p PNCallFrame.sizeof) : readFrame mem' p = readFrame mem p := by
  have key (k : Nat) (hk : k < 80) : mem' (p + k) = mem (p + k) := h (p + k) (by omega) (by unfold PNCallFrame.sizeof; omega)
  have key0 : mem' p = mem p := key 0 (by omega)
  unfold readFrame
  rw [key0, key 8 (by omega), key 16 (by omega), key 24 (by omega), key 32 (by omega), key 40 (by omega),
    key 48 (by omega), key 56 (by omega), key 64 (by omega), key 72 (by omega)]

theorem readJmpBuf_congr (h : SameWords mem mem' p PNJmpBuf.sizeof) : readJmpBuf mem' p = readJmpBuf mem p := by
  have h0 : mem' p = mem p := h p (by omega) (by unfold PNJmpBuf.sizeof; omega)
  have h1 : mem' (p + 88) = mem (p + 88) := h (p + 88) (by omega) (by unfold PNJmpBuf.sizeof; omega)
  have h2 : readFrame mem' (p + 8) = readFrame mem (p + 8) :=
    readFrame_congr fun a ha hb => h a (by omega) (by unfold PNJmpBuf.sizeof; unfold PNCallFrame.sizeof at hb; omega)
  rw [readJmpBuf, readJmpBuf, h0, h1, h2]

@[simp] theorem readFrame_writeFrame (f : PNCallFrame) : readFrame (writeFrame mem p f) p = f := by
  simp [readFrame, writeFrame]

theorem writeFrame_outside {f : PNCallFrame} {a : Nat} (h : a < p ∨ p + PNCallFrame.sizeof ≤ a) :
    writeFrame mem p f a = mem a := by
  unfold PNCallFrame.sizeof at h
  unfold writeFrame
  repeat rw [if_neg (by omega)]

@[simp] theorem readJmpBuf_writeJmpBuf (b : PNJmpBuf) : readJmpBuf (writeJmpBuf mem p b) p = b := by
  simp [readJmpBuf, readFrame, writeJmpBuf, writeFrame, Nat.add_assoc]

theorem writeJmpBuf_outside {b : PNJmpBuf} {a : Nat} (h : a < p ∨ p + PNJmpBuf.sizeof ≤ a) :
    writeJmpBuf mem p b a = mem a := by
  unfold PNJmpBuf.sizeof at h
  unfold writeJmpBuf
  rw [if_neg (by omega), if_neg (by omega), writeFrame_outside (by unfold PNCallFrame.sizeof; omega)]

end Words

/-! ## Blocks that stay allocated -/

/-- The block is below `current` of a chunk that is not freed. -/
def PNBlock.AllocatedIn (b : PNBlock) (a : PNAllocator) : Prop :=
  ∃ c ∈ a.chunks, c.addr + PNAllocatorChunk.sizeof ≤ b.addr ∧ b.addr + b.size ≤ c.current

theorem PNBlock.Disjoint.symm {b b' : PNBlock} (h : b.Disjoint b') : b'.Disjoint b := Or.symm h

section Extends

variable {g a a' : PNAllocator}

theorem Extends.trans (h : Extends g a) (h' : Extends a a') : Extends g a' := by
  refine ⟨h'.min.trans h.min, h'.mark.trans h.mark, ?_⟩
  have h1 := h.chunks
  have h2 := h'.chunks
  cases hg : g.chunks with
  | nil => trivial
  | cons c rest =>
    rw [hg] at h1
    obtain ⟨newer, c', heq, haddr, hend, hle⟩ := h1
    rw [heq] at h2
    cases newer with
    | nil =>
      obtain ⟨newer', d, heq', haddr', hend', hle'⟩ := h2
      exact ⟨newer', d, heq', haddr'.trans haddr, hend'.trans hend, Nat.le_trans hle hle'⟩
    | cons n ns =>
      obtain ⟨newer', d, heq', _⟩ := h2
      exact ⟨newer' ++ d :: ns, c', by rw [heq']; simp, haddr, hend, hle⟩

/-- Every chunk of `g` is a chunk of `a`, filled at least as far. -/
theorem Extends.chunk (h : Extends g a) {c : PNAllocatorChunk} (hc : c ∈ g.chunks) :
    ∃ c' ∈ a.chunks, c'.addr = c.addr ∧ c'.endp = c.endp ∧ c.current ≤ c'.current := by
  have h1 := h.chunks
  cases hg : g.chunks with
  | nil => rw [hg] at hc; cases hc
  | cons c₀ rest =>
    rw [hg] at h1 hc
    obtain ⟨newer, c', heq, haddr, hend, hle⟩ := h1
    rw [heq]
    rcases List.mem_cons.mp hc with rfl | hc
    · exact ⟨c', by simp, haddr, hend, hle⟩
    · exact ⟨c, by simp [hc], rfl, rfl, Nat.le_refl _⟩

theorem PNBlock.AllocatedIn.mono {b : PNBlock} (hb : b.AllocatedIn g) (h : Extends g a) : b.AllocatedIn a := by
  obtain ⟨c, hc, hlo, hhi⟩ := hb
  obtain ⟨c', hc', haddr, _, hle⟩ := h.chunk hc
  exact ⟨c', hc', by omega, by omega⟩

/-- An allocation gives a block that is allocated and overlaps none that was. -/
theorem alloc_block {malloc : Nat → Nat} {size align ret : Nat} (hi : a.Inv) (hm : MallocOk malloc a.chunks)
    (ha : IsAlign align) (hz : size < 2 ^ 64) (h : pnAllocatorAlloc malloc a size align = .ok (ret, a')) :
    a'.Inv ∧ Extends a a' ∧ PNBlock.AllocatedIn ⟨ret, size⟩ a' ∧
      (a'.lastAlloc = ret ∧ ∀ c cs, a'.chunks = c :: cs → c.current = ret + size) ∧
      ∀ b : PNBlock, b.AllocatedIn a → PNBlock.Disjoint ⟨ret, size⟩ b := by
  have hp := ((alloc_spec hi hm ha hz).of_ok h).2
  refine ⟨hp.inv hi, (Extends.refl a).placed hp, ?_, ?_, ?_⟩
  · cases hp with
    | inHead c cs head rel grows lo hi' chunks last min mark =>
      exact ⟨{ c with current := ret + size }, by rw [chunks]; simp, lo, Nat.le_refl _⟩
    | inNew c wf disjoint lo hi' chunks last min mark =>
      exact ⟨{ c with current := ret + size }, by rw [chunks]; simp, lo, Nat.le_refl _⟩
  · cases hp with
    | inHead c cs head rel grows lo hi' chunks last min mark =>
      exact ⟨last, fun d ds hd => by rw [chunks] at hd; cases hd; rfl⟩
    | inNew c wf disjoint lo hi' chunks last min mark =>
      exact ⟨last, fun d ds hd => by rw [chunks] at hd; cases hd; rfl⟩
  · rintro b ⟨d, hd, hlo, hhi⟩
    have hb : b.InChunk d := ⟨hlo, Nat.le_trans hhi (hi.wf d hd).current_le⟩
    cases hp with
    | inHead c cs head rel grows lo hi' chunks last min mark =>
      rw [head] at hd
      rcases List.mem_cons.mp hd with rfl | hd
      · exact .inr (Nat.le_trans hhi rel)
      · have hcd : c.Disjoint d := by
          have hpw := hi.disjoint
          rw [head] at hpw
          exact (List.pairwise_cons.mp hpw).1 d hd
        exact PNBlock.InChunk.disjoint ⟨lo, hi'⟩ hb hcd
    | inNew c wf disjoint lo hi' chunks last min mark =>
      exact PNBlock.InChunk.disjoint ⟨lo, hi'⟩ hb (disjoint d hd)

end Extends

/-! ## Entries -/

/-- A frame with what belongs to it. -/
structure Entry where
  addr : Nat
  values : Nat
  functionId : Nat
  /-- The allocator at the frame's mark. -/
  alloc : PNAllocator
  bufs : List Nat

variable (ex : PNExecutor)

def Entry.frameBlock (e : Entry) : PNBlock := ⟨e.addr, PNCallFrame.sizeof⟩

def Entry.valuesBlock (e : Entry) : PNBlock := ⟨e.values, PNRuntimeValue.sizeof * (ex.functions e.functionId).numValues⟩

def Entry.bufBlocks (e : Entry) : List PNBlock := e.bufs.map fun b => ⟨b, PNJmpBuf.sizeof⟩

/-- All blocks of a frame. -/
def Entry.blocks (e : Entry) : List PNBlock := e.bufBlocks ++ [e.frameBlock, e.valuesBlock ex]

/-- The blocks that hold records; the others hold values. -/
def Entry.records (e : Entry) : List PNBlock := e.bufBlocks ++ [e.frameBlock]

/-- The fields of a frame that never change. -/
structure Entry.Fixed (e : Entry) (parent : Nat) (f : PNCallFrame) : Prop where
  functionId : f.location.functionId = e.functionId
  mark : f.mark = pnAllocatorMark e.alloc
  values : f.functionValues = e.values
  parent : f.parent = parent

/-- The list of jump buffers from `head` on. -/
inductive BufChain (mem : PNWords) : Nat → List Nat → Prop where
  | nil : BufChain mem 0 []
  | cons {b : Nat} {bs : List Nat} (h : b ≠ 0) (ht : BufChain mem (readJmpBuf mem b).next bs) : BufChain mem b (b :: bs)

/-- The call stores its result, if any, into a value of the function. -/
def ResultInRange (functionId : Nat) (i : PNRuntimeInstructionCall) : Prop :=
  i.resultValueId = PN_INVALID_VALUE_ID ∨
    ex.numValues ≤ i.resultValueId ∧ i.resultValueId < ex.numValues + (ex.functions functionId).numValues

/-- Memory holds the frame of the entry and its jump buffers. -/
structure EntryOk (mem : PNWords) (parent : Nat) (e : Entry) : Prop where
  addr_ne : e.addr ≠ ex.sentinel
  functionId_ne : e.functionId ≠ PN_INVALID_FUNCTION_ID
  fixed : e.Fixed parent (readFrame mem e.addr)
  bufs : BufChain mem (readFrame mem e.addr).jmpbufHead e.bufs
  saved : ∀ b ∈ e.bufs, e.Fixed parent (readJmpBuf mem b).frame ∧
    ResultInRange ex e.functionId (ex.callAt (readJmpBuf mem b).frame.location.inst)

/-- The frame below which the next one is pushed. -/
def top : List Entry → Nat
  | [] => ex.sentinel
  | e :: _ => e.addr

/-- Memory holds the frames of the entries, linked by their parents. -/
def Chain (mem : PNWords) : List Entry → Prop
  | [] => True
  | e :: es => EntryOk ex mem (top ex es) e ∧ Chain mem es

/-- Frame and values were allocated at the mark, the jump buffers later, and the older frames before. -/
def Levels (a : PNAllocator) : List Entry → Prop
  | [] => True
  | e :: es => e.alloc.Inv ∧ Extends e.alloc a ∧ (∀ b ∈ [e.frameBlock, e.valuesBlock ex], b.AllocatedIn e.alloc) ∧
      (∀ b ∈ e.bufBlocks, b.AllocatedIn a) ∧ Levels e.alloc es

/-- All blocks of the entries. -/
def allBlocks (es : List Entry) : List PNBlock := es.flatMap (Entry.blocks ex)

/-- No chunk overlaps the sentinel frame. -/
def Away (a : PNAllocator) : Prop :=
  ∀ c ∈ a.chunks, c.endp ≤ ex.sentinel ∨ ex.sentinel + PNCallFrame.sizeof ≤ c.addr

/-- The storage invariant. -/
structure ThreadInv (th : PNThread) (es : List Entry) : Prop where
  inv : th.allocator.Inv
  away : Away ex th.allocator
  sentinel : th.mem ex.sentinel = PN_INVALID_FUNCTION_ID
  current : th.currentFrame = top ex es
  chain : Chain ex th.mem es
  levels : Levels ex th.allocator es
  disjoint : (allBlocks ex es).Pairwise PNBlock.Disjoint
  /-- The frames that wait for a call remember which. -/
  calls : ∀ e ∈ es.tail, ResultInRange ex e.functionId (ex.callAt (readFrame th.mem e.addr).location.inst)
  running : ∀ e ∈ es.head?, th.functionId = e.functionId

section Lemmas

variable {ex} {mem mem' : PNWords} {es : List Entry} {a a' : PNAllocator} {e : Entry}

theorem Levels.mono (h : Levels ex a es) (hx : Extends a a') : Levels ex a' es := by
  cases es with
  | nil => trivial
  | cons e es =>
    obtain ⟨hi, he, hb, hbufs, hl⟩ := h
    exact ⟨hi, he.trans hx, hb, fun b hb => (hbufs b hb).mono hx, hl⟩

/-- Everything listed is allocated. -/
theorem Levels.allocated : ∀ {es : List Entry} {a : PNAllocator}, Levels ex a es → ∀ b ∈ allBlocks ex es, b.AllocatedIn a
  | [], _, _, b, hb => by cases hb
  | e :: es, a, ⟨_, he, hbase, hbufs, hl⟩, b, hb => by
    rw [allBlocks, List.flatMap_cons, Entry.blocks, List.append_assoc] at hb
    rcases List.mem_append.mp hb with hb | hb
    · exact hbufs b hb
    · rcases List.mem_append.mp hb with hb | hb
      · exact (hbase b hb).mono he
      · exact (Levels.allocated hl b hb).mono he

/-- Splitting the levels at an entry. -/
theorem Levels.split : ∀ {pre : List Entry} {a : PNAllocator} {e : Entry} {post : List Entry},
    Levels ex a (pre ++ e :: post) → e.alloc.Inv ∧ Extends e.alloc a ∧
      (∀ b ∈ [e.frameBlock, e.valuesBlock ex], b.AllocatedIn e.alloc) ∧ Levels ex e.alloc post
  | [], _, _, _, ⟨hi, he, hb, _, hl⟩ => ⟨hi, he, hb, hl⟩
  | _ :: _, _, _, _, ⟨_, he, _, _, hl⟩ => by
    obtain ⟨hi, he', hb, hl'⟩ := Levels.split hl
    exact ⟨hi, he'.trans he, hb, hl'⟩

theorem Chain.split : ∀ {pre : List Entry} {e : Entry} {post : List Entry}, Chain ex mem (pre ++ e :: post) →
    EntryOk ex mem (top ex post) e ∧ Chain ex mem post
  | [], _, _, h => h
  | _ :: _, _, _, h => Chain.split h.2

theorem BufChain.congr {b : Nat} {bs : List Nat} (h : BufChain mem b bs) (hs : ∀ x ∈ bs, SameWords mem mem' x PNJmpBuf.sizeof) :
    BufChain mem' b bs := by
  induction h with
  | nil => exact .nil
  | cons hne ht ih =>
    rename_i b bs
    refine .cons hne ?_
    rw [readJmpBuf_congr (hs b (List.mem_cons_self ..))]
    exact ih fun x hx => hs x (List.mem_cons_of_mem _ hx)

/-- The memories agree on the blocks. -/
def SameOn (mem mem' : PNWords) (bs : List PNBlock) : Prop := ∀ b ∈ bs, SameWords mem mem' b.addr b.size

theorem SameOn.buf (h : SameOn mem mem' e.records) {b : Nat} (hb : b ∈ e.bufs) :
    SameWords mem mem' b PNJmpBuf.sizeof :=
  h ⟨b, PNJmpBuf.sizeof⟩ (List.mem_append_left _ (List.mem_map.mpr ⟨b, hb, rfl⟩))

theorem SameOn.frame (h : SameOn mem mem' e.records) : SameWords mem mem' e.addr PNCallFrame.sizeof :=
  h e.frameBlock (List.mem_append_right _ (List.mem_singleton_self _))

theorem EntryOk.congr {parent : Nat} (h : EntryOk ex mem parent e) (hs : SameOn mem mem' e.records) :
    EntryOk ex mem' parent e := by
  have hf : readFrame mem' e.addr = readFrame mem e.addr := readFrame_congr hs.frame
  refine ⟨h.addr_ne, h.functionId_ne, by rw [hf]; exact h.fixed, ?_, ?_⟩
  · rw [hf]
    exact h.bufs.congr fun x hx => hs.buf hx
  · intro b hb
    rw [readJmpBuf_congr (hs.buf hb)]
    exact h.saved b hb

/-- Writes outside the records do not matter. -/
theorem Chain.congr : ∀ {es : List Entry}, Chain ex mem es → SameOn mem mem' (es.flatMap Entry.records) →
    Chain ex mem' es
  | [], _, _ => trivial
  | e :: es, h, hs => by
    rw [List.flatMap_cons] at hs
    exact ⟨h.1.congr fun b hb => hs b (List.mem_append_left _ hb),
      Chain.congr h.2 fun b hb => hs b (List.mem_append_right _ hb)⟩

theorem Away.mono (h : Away ex a) {g : PNAllocator} (hg : Extends g a) : Away ex g := by
  intro c hc
  obtain ⟨c', hc', haddr, hend, _⟩ := hg.chunk hc
  rcases h c' hc' with h | h <;> omega

end Lemmas

end Pnacl
