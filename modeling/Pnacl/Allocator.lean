import Pnacl.Bits
import Pnacl.Lib.Bytes

/-!
# The bump allocator

`pn_allocator.h`: chunks taken from `malloc`, newest first, each with a header of three pointers; blocks are cut off the
head chunk from `current` on. A chunk's header is modelled as a record, so `PNAllocator.chunks` is the list that starts
at `chunk_head`; pointers have 64 bits and `NULL` is `0`. `malloc` is a parameter of the functions that reach it: the
address it answers for a size, `0` if there is no memory.

`Inv` says where `last_alloc` and `current` of the head chunk are and that chunks do not overlap; `Placed` says what an
allocation or reallocation that returned did to the chunks (`alloc_placed`, `realloc_placed`), and carries the
invariant along (`Placed.inv`).
-/

namespace Pnacl

open Lib

/-- `PNAllocatorChunk` at address `addr`; the next chunk is the next element of the list. -/
structure PNAllocatorChunk where
  addr : Nat
  current : Nat
  endp : Nat
deriving Repr, DecidableEq

/-- `sizeof(PNAllocatorChunk)`. -/
def PNAllocatorChunk.sizeof : Nat := 24

/-- `PNAllocatorMark`. -/
structure PNAllocatorMark where
  current : Nat
  lastAlloc : Nat
  totalUsed : Nat
  internalFragmentation : Nat
deriving Repr, DecidableEq

/-- `PNAllocator`; `chunks` is the list from `chunk_head` on. -/
structure PNAllocator where
  chunks : List PNAllocatorChunk
  lastAlloc : Nat
  minChunkSize : Nat
  totalUsed : Nat
  internalFragmentation : Nat
  resetMark : PNAllocatorMark
deriving Repr, DecidableEq

/-- `pn_allocator_mark`. -/
def pnAllocatorMark (a : PNAllocator) : PNAllocatorMark where
  current := match a.chunks with
    | [] => 0
    | chunk :: _ => chunk.current
  lastAlloc := a.lastAlloc
  totalUsed := a.totalUsed
  internalFragmentation := a.internalFragmentation

/-- `pn_allocator_init`; the reset mark is the mark of the empty allocator. -/
def pnAllocatorInit (minChunkSize : Nat) : Except Stop PNAllocator := do
  cAssert (pnIsPowerOfTwo minChunkSize) "pn_is_power_of_two(min_chunk_size)"
  cAssert (minChunkSize > PNAllocatorChunk.sizeof) "min_chunk_size > sizeof(PNAllocatorChunk)"
  .ok {
    chunks := []
    lastAlloc := 0
    minChunkSize := minChunkSize
    totalUsed := 0
    internalFragmentation := 0
    resetMark := ⟨0, 0, 0, 0⟩ }

/-- `pn_malloc`. -/
def pnMalloc (malloc : Nat → Nat) (size : Nat) : Except Stop Nat :=
  if malloc size = 0 then pnFatal "Out of memory.\n" [] else .ok (malloc size)

/-- The bytes left in the head chunk, `chunk_head->end - chunk_head->current`. -/
def PNAllocator.unusedTail (a : PNAllocator) : Nat :=
  match a.chunks with
  | [] => 0
  | chunk :: _ => (chunk.endp + 2 ^ 64 - chunk.current) % 2 ^ 64

/-- `pn_allocator_new_chunk`: the new chunk, and the allocator with it as its head. -/
def pnAllocatorNewChunk (malloc : Nat → Nat) (a : PNAllocator) (initialAllocSize align : Nat) :
    Except Stop (PNAllocatorChunk × PNAllocator) := do
  pnCheck (initialAllocSize < 0x80000000) "initial_alloc_size < 0x80000000"
  let chunkSize ← pnNextPowerOfTwo (max (initialAllocSize + PNAllocatorChunk.sizeof + align - 1) a.minChunkSize)
  let chunk ← pnMalloc malloc chunkSize
  let aligned ← pnIsAlignedPointer chunk 8
  cAssert (aligned = true) "pn_is_aligned_pointer(chunk, sizeof(void*))"
  let current ← pnAlignUpPointer ((chunk + PNAllocatorChunk.sizeof) % 2 ^ 64) align
  let c : PNAllocatorChunk := ⟨chunk, current, (chunk + chunkSize) % 2 ^ 64⟩
  .ok (c, { a with
    chunks := c :: a.chunks
    internalFragmentation := (a.internalFragmentation + a.unusedTail) % 2 ^ 64 })

/-- `allocator->chunk_head->current = p`. -/
def PNAllocator.setCurrent (a : PNAllocator) (p : Nat) : PNAllocator :=
  { a with chunks := match a.chunks with
    | [] => []
    | chunk :: rest => { chunk with current := p } :: rest }

/-- The assignments at the end of `pn_allocator_alloc` and `pn_allocator_realloc_add`. -/
def PNAllocator.finish (a : PNAllocator) (newCurrent lastAlloc size : Nat) : PNAllocator :=
  { a.setCurrent newCurrent with lastAlloc := lastAlloc, totalUsed := (a.totalUsed + size) % 2 ^ 64 }

/-- The branch of `pn_allocator_alloc` that starts a new chunk. -/
def allocInNewChunk (malloc : Nat → Nat) (a : PNAllocator) (size align : Nat) : Except Stop (Nat × PNAllocator) := do
  let (chunk, a) ← pnAllocatorNewChunk malloc a size align
  let ret ← pnAlignUpPointer chunk.current align
  let newCurrent := (ret + size) % 2 ^ 64
  pnCheck (newCurrent ≥ ret) "new_current >= ret"
  cAssert (newCurrent ≤ chunk.endp) "new_current <= chunk->end"
  .ok (ret, a.finish newCurrent ret size)

/-- `pn_allocator_alloc`. -/
def pnAllocatorAlloc (malloc : Nat → Nat) (a : PNAllocator) (size align : Nat) : Except Stop (Nat × PNAllocator) :=
  match a.chunks with
  | [] => allocInNewChunk malloc a size align
  | chunk :: _ => do
    let ret ← pnAlignUpPointer chunk.current align
    let newCurrent := (ret + size) % 2 ^ 64
    pnCheck (newCurrent ≥ ret) "new_current >= ret"
    if newCurrent > chunk.endp then allocInNewChunk malloc a size align
    else .ok (ret, a.finish newCurrent ret size)

/-- `pn_allocator_allocz`, with the memory it clears. -/
def pnAllocatorAllocz (malloc : Nat → Nat) (a : PNAllocator) (mem : Nat → UInt8) (size align : Nat) :
    Except Stop (Nat × PNAllocator × (Nat → UInt8)) := do
  let (p, a) ← pnAllocatorAlloc malloc a size align
  .ok (p, a, fillBytes mem p 0 size)

/-- What `pn_allocator_realloc_add` leaves behind: the address of the added bytes, the block's new address, the
allocator and the memory. -/
structure PNReallocated where
  ret : Nat
  p : Nat
  allocator : PNAllocator
  mem : Nat → UInt8

/-- `pn_allocator_realloc_add`. -/
def pnAllocatorReallocAdd (malloc : Nat → Nat) (a : PNAllocator) (mem : Nat → UInt8) (p addSize align : Nat) :
    Except Stop PNReallocated :=
  if p = 0 then do
    let (p, a) ← pnAllocatorAlloc malloc a addSize align
    .ok ⟨p, p, a, mem⟩
  else if p ≠ a.lastAlloc then
    pnFatal "Attempting to realloc, but it was not the last allocation:\np = %p, last_alloc = %p\n" [p, a.lastAlloc]
  else
    match a.chunks with
    | [] => .error (.assert "chunk")
    | chunk :: _ => do
      let newCurrent := (chunk.current + addSize) % 2 ^ 64
      pnCheck (newCurrent > chunk.current) "new_current > chunk->current"
      if newCurrent > chunk.endp then
        -- does not fit: move the block to a new chunk
        let oldSize := (chunk.current + 2 ^ 64 - p) % 2 ^ 64
        let newSize := (oldSize + addSize) % 2 ^ 64
        let (chunk, a) ← pnAllocatorNewChunk malloc a newSize align
        cAssert ((chunk.current + newSize) % 2 ^ 64 ≤ chunk.endp) "chunk->current + new_size <= chunk->end"
        let ret := (chunk.current + oldSize) % 2 ^ 64
        .ok ⟨ret, chunk.current, a.finish ((ret + addSize) % 2 ^ 64) chunk.current addSize,
          copyBytes mem chunk.current p oldSize⟩
      else .ok ⟨chunk.current, p, a.finish newCurrent p addSize, mem⟩

/-- `pn_allocator_last_alloc_size`. -/
def pnAllocatorLastAllocSize (a : PNAllocator) : Nat :=
  match a.chunks with
  | [] => 0
  | chunk :: _ => (chunk.current + 2 ^ 64 - a.lastAlloc) % 2 ^ 64

/-- The loop of `pn_allocator_reset_to_mark`: the chunks that are left when those without `last_alloc` are freed. -/
def freeUntil (lastAlloc : Nat) : List PNAllocatorChunk → List PNAllocatorChunk
  | [] => []
  | chunk :: rest =>
    if lastAlloc ≥ chunk.addr ∧ lastAlloc < chunk.endp then chunk :: rest else freeUntil lastAlloc rest

/-- `pn_allocator_reset_to_mark`. -/
def pnAllocatorResetToMark (a : PNAllocator) (mark : PNAllocatorMark) : PNAllocator :=
  { PNAllocator.setCurrent { a with chunks := freeUntil mark.lastAlloc a.chunks } mark.current with
    lastAlloc := mark.lastAlloc
    totalUsed := mark.totalUsed
    internalFragmentation := mark.internalFragmentation }

/-- `pn_allocator_reset`. -/
def pnAllocatorReset (a : PNAllocator) : PNAllocator := pnAllocatorResetToMark a a.resetMark

/-! ## What is assumed of `malloc` -/

/-- Two chunks do not overlap. -/
def PNAllocatorChunk.Disjoint (c d : PNAllocatorChunk) : Prop := c.endp ≤ d.addr ∨ d.endp ≤ c.addr

/-- Addresses that `malloc` hands out end 4 GiB below the middle of the address space. -/
def addressLimit : Nat := 2 ^ 63 - 2 ^ 32

/-- An answer of `malloc` is a pointer-aligned range that overlaps none of the chunks. -/
structure MallocOk (malloc : Nat → Nat) (chunks : List PNAllocatorChunk) : Prop where
  aligned : ∀ size, malloc size % 8 = 0
  range : ∀ size, malloc size ≠ 0 → malloc size + size ≤ addressLimit
  fresh : ∀ size, malloc size ≠ 0 → ∀ d ∈ chunks, malloc size + size ≤ d.addr ∨ d.endp ≤ malloc size

/-- A `malloc` that has no memory is fine. -/
theorem malloc_none_ok (chunks : List PNAllocatorChunk) : MallocOk (fun _ => 0) chunks :=
  ⟨fun _ => rfl, fun _ h => absurd rfl h, fun _ h => absurd rfl h⟩

/-- A `malloc` that has 64 bytes at `4096` to give. -/
def malloc64 (size : Nat) : Nat := if size = 64 then 4096 else 0

theorem malloc64_ok : MallocOk malloc64 [] where
  aligned size := by unfold malloc64; split <;> rfl
  range size h := by
    unfold malloc64 at h ⊢
    split at h
    · rw [if_pos ‹_›, ‹size = 64›]; decide
    · exact absurd rfl h
  fresh _ _ d hd := by cases hd

/-- An alignment that the callers pass: a power of two in a `uint32_t`. -/
def IsAlign (align : Nat) : Prop := align.isPowerOfTwo ∧ align < 2 ^ 32

/-! ## The invariant -/

/-- A chunk's header comes first and `current` is between it and the end. -/
structure PNAllocatorChunk.Wf (c : PNAllocatorChunk) : Prop where
  addr_pos : 0 < c.addr
  header_le : c.addr + PNAllocatorChunk.sizeof ≤ c.current
  current_le : c.current ≤ c.endp
  end_le : c.endp ≤ addressLimit

/-- `last_alloc` is a block of the head chunk, the last one; without a chunk there is none. -/
def LastInHead (lastAlloc : Nat) : List PNAllocatorChunk → Prop
  | [] => lastAlloc = 0
  | c :: _ => c.addr + PNAllocatorChunk.sizeof ≤ lastAlloc ∧ lastAlloc ≤ c.current

/-- The allocator's invariant. -/
structure PNAllocator.Inv (a : PNAllocator) : Prop where
  min_le : a.minChunkSize ≤ 2 ^ 63
  wf : ∀ c ∈ a.chunks, c.Wf
  disjoint : a.chunks.Pairwise PNAllocatorChunk.Disjoint
  last : LastInHead a.lastAlloc a.chunks

instance : Std.Symm PNAllocatorChunk.Disjoint := ⟨fun _ _ h => Or.symm h⟩

theorem pnAllocatorInit_inv {n : Nat} {a : PNAllocator} (hn : n < 2 ^ 64) (h : pnAllocatorInit n = .ok a) : a.Inv := by
  obtain ⟨h2, h⟩ := cAssert_bind_eq_ok.mp h
  obtain ⟨_, h⟩ := cAssert_bind_eq_ok.mp h
  cases h
  obtain ⟨k, rfl⟩ := pnIsPowerOfTwo_iff.mp h2
  have hk : k < 64 := (Nat.pow_lt_pow_iff_right (by omega)).mp hn
  exact ⟨Nat.pow_le_pow_right (by omega) (by omega), by simp, .nil, rfl⟩

/-- A chunk as `malloc` gave it: in front of all others, with room for `n` bytes at an aligned `current`. -/
structure FreshChunk (chunks : List PNAllocatorChunk) (c : PNAllocatorChunk) (n align : Nat) : Prop where
  wf : c.Wf
  disjoint : ∀ d ∈ chunks, c.Disjoint d
  room : c.current + n ≤ c.endp
  aligned : align ∣ c.current

/-- The computation returns a value with `P`, or it exits, but not by an assertion. -/
def ReturnsOrExits {α : Type} (x : Except Stop α) (P : α → Prop) : Prop :=
  (∃ r, x = .ok r ∧ P r) ∨ ∃ e, x = .error e ∧ e.IsExit ∧ ∀ cond, e ≠ .assert cond

theorem ReturnsOrExits.of_ok {α : Type} {x : Except Stop α} {P : α → Prop} (h : ReturnsOrExits x P) {r : α}
    (hr : x = .ok r) : P r := by
  rcases h with ⟨r', h, hp⟩ | ⟨e, h, _⟩
  · rw [hr] at h; cases h; exact hp
  · rw [hr] at h; cases h

theorem ReturnsOrExits.ok {α : Type} {P : α → Prop} {r : α} (h : P r) : ReturnsOrExits (.ok r) P := .inl ⟨r, rfl, h⟩

theorem ReturnsOrExits.check {α : Type} {P : α → Prop} {p : Prop} [Decidable p] {c : String}
    {f : Unit → Except Stop α} (h : p → ReturnsOrExits (f ()) P) : ReturnsOrExits (pnCheck p c >>= f) P := by
  by_cases hp : p
  · rw [pnCheck_bind hp]; exact h hp
  · rw [pnCheck_bind_neg hp]; exact .inr ⟨_, rfl, trivial, fun _ e => by cases e⟩

section Steps

variable {malloc : Nat → Nat} {a a' : PNAllocator} {n align size ret : Nat}

/-- The allocator with a new chunk in front. -/
def PNAllocator.pushChunk (a : PNAllocator) (c : PNAllocatorChunk) : PNAllocator :=
  { a with
    chunks := c :: a.chunks
    internalFragmentation := (a.internalFragmentation + a.unusedTail) % 2 ^ 64 }

/-- `pn_allocator_new_chunk` exits for lack of memory or puts a fresh chunk in front. -/
theorem newChunk_spec (hi : a.minChunkSize ≤ 2 ^ 63) (hm : MallocOk malloc a.chunks) (ha : IsAlign align) (n : Nat) :
    ReturnsOrExits (pnAllocatorNewChunk malloc a n align) fun r =>
      FreshChunk a.chunks r.1 n align ∧ r.2 = a.pushChunk r.1 := by
  unfold pnAllocatorNewChunk
  refine .check fun hn => ?_
  have halign : align < 2 ^ 32 := ha.2
  obtain ⟨size, hsize, hle⟩ : ∃ r, pnNextPowerOfTwo (max (n + PNAllocatorChunk.sizeof + align - 1) a.minChunkSize) =
      .ok r ∧ max (n + PNAllocatorChunk.sizeof + align - 1) a.minChunkSize ≤ r := by
    apply pnNextPowerOfTwo_spec
    simp only [PNAllocatorChunk.sizeof]
    omega
  rw [hsize, ok_bind]
  unfold pnMalloc
  by_cases h0 : malloc size = 0
  · rw [if_pos h0]
    exact .inr ⟨_, rfl, trivial, fun _ e => by cases e⟩
  · rw [if_neg h0, ok_bind, pnIsAlignedPointer_eight (hm.aligned size), ok_bind, cAssert_bind rfl]
    have hr : malloc size + size ≤ addressLimit := hm.range size h0
    simp only [addressLimit, PNAllocatorChunk.sizeof] at hr hle
    rw [Nat.mod_eq_of_lt (a := malloc size + PNAllocatorChunk.sizeof) (by simp only [PNAllocatorChunk.sizeof]; omega),
      Nat.mod_eq_of_lt (a := malloc size + size) (by omega)]
    obtain ⟨p, hp, hlo, hhi, hd⟩ : ∃ r, pnAlignUpPointer (malloc size + PNAllocatorChunk.sizeof) align = .ok r ∧
        malloc size + PNAllocatorChunk.sizeof ≤ r ∧ r < malloc size + PNAllocatorChunk.sizeof + align ∧ align ∣ r :=
      pnAlignUpPointer_spec ha.1 (by simp only [PNAllocatorChunk.sizeof]; omega)
    rw [hp]
    simp only [PNAllocatorChunk.sizeof] at hlo hhi
    refine .ok ⟨⟨⟨?_, ?_, ?_, ?_⟩, ?_, ?_, hd⟩, rfl⟩
    · exact Nat.pos_of_ne_zero h0
    · exact hlo
    · simp only; omega
    · exact hr
    · intro d hd
      exact hm.fresh size h0 d hd
    · simp only; omega

/-- What an allocation or reallocation does: the last block is now the `n` bytes at `p`, in the head chunk or in a
fresh chunk in front of it, and `current` is its end. `R` is what the old head chunk has to do with the block. -/
inductive Placed (R : PNAllocatorChunk → Prop) (a : PNAllocator) (p n : Nat) (a' : PNAllocator) : Prop where
  | inHead (c : PNAllocatorChunk) (cs : List PNAllocatorChunk) (head : a.chunks = c :: cs) (rel : R c) (grows : c.current ≤ p + n)
      (header_le : c.addr + PNAllocatorChunk.sizeof ≤ p) (le_end : p + n ≤ c.endp)
      (chunks : a'.chunks = { c with current := p + n } :: cs) (last : a'.lastAlloc = p)
      (min : a'.minChunkSize = a.minChunkSize) (mark : a'.resetMark = a.resetMark)
  | inNew (c : PNAllocatorChunk) (wf : c.Wf) (disjoint : ∀ d ∈ a.chunks, c.Disjoint d)
      (header_le : c.addr + PNAllocatorChunk.sizeof ≤ p) (le_end : p + n ≤ c.endp)
      (chunks : a'.chunks = { c with current := p + n } :: a.chunks) (last : a'.lastAlloc = p)
      (min : a'.minChunkSize = a.minChunkSize) (mark : a'.resetMark = a.resetMark)

theorem PNAllocatorChunk.Wf.setCurrent {c : PNAllocatorChunk} (h : c.Wf) {p : Nat}
    (hlo : c.addr + PNAllocatorChunk.sizeof ≤ p) (hhi : p ≤ c.endp) : ({ c with current := p } : PNAllocatorChunk).Wf :=
  ⟨h.addr_pos, hlo, hhi, h.end_le⟩

/-- Placing a block keeps the invariant. -/
theorem Placed.inv {R : PNAllocatorChunk → Prop} {p n : Nat} (h : Placed R a p n a') (hi : a.Inv) : a'.Inv := by
  cases h with
  | inHead c cs head rel grows lo hi' chunks last min mark =>
    have hwf := hi.wf
    have hdis := hi.disjoint
    rw [head] at hwf hdis
    obtain ⟨hd, hdis⟩ := List.pairwise_cons.mp hdis
    refine ⟨min ▸ hi.min_le, ?_, ?_, ?_⟩
    · rw [chunks]
      intro d hmem
      rcases List.mem_cons.mp hmem with rfl | hmem
      · exact (hwf c (List.mem_cons_self ..)).setCurrent (by omega) hi'
      · exact hwf d (List.mem_cons_of_mem _ hmem)
    · rw [chunks]
      exact List.pairwise_cons.mpr ⟨hd, hdis⟩
    · rw [chunks, last]
      exact ⟨lo, Nat.le_add_right p n⟩
  | inNew c wf disjoint lo hi' chunks last min mark =>
    refine ⟨min ▸ hi.min_le, ?_, ?_, ?_⟩
    · rw [chunks]
      intro d hmem
      rcases List.mem_cons.mp hmem with rfl | hmem
      · exact wf.setCurrent (by omega) hi'
      · exact hi.wf d hmem
    · rw [chunks]
      exact List.pairwise_cons.mpr ⟨disjoint, hi.disjoint⟩
    · rw [chunks, last]
      exact ⟨lo, Nat.le_add_right p n⟩

/-- The allocation in a new chunk never meets its assertion. -/
theorem allocInNewChunk_spec {R : Nat → PNAllocatorChunk → Prop} (hi : a.Inv) (hm : MallocOk malloc a.chunks)
    (ha : IsAlign align) (size : Nat) :
    ReturnsOrExits (allocInNewChunk malloc a size align) fun r => align ∣ r.1 ∧ Placed (R r.1) a r.1 size r.2 := by
  unfold allocInNewChunk
  rcases newChunk_spec hi.min_le hm ha size with ⟨⟨c, a'⟩, hc, hf, ha'⟩ | ⟨e, he, hne⟩
  · obtain rfl : a' = a.pushChunk c := ha'
    replace hf : FreshChunk a.chunks c size align := hf
    have hroom := hf.room
    have hend := hf.wf.end_le
    have halign := ha.2
    simp only [addressLimit] at hend
    rw [hc, ok_bind]
    simp only
    rw [pnAlignUpPointer_self ha.1 (by omega) hf.aligned, ok_bind, Nat.mod_eq_of_lt (by omega), pnCheck_bind (by omega),
      cAssert_bind hroom]
    refine .ok ⟨hf.aligned, .inNew c hf.wf hf.disjoint hf.wf.header_le hroom rfl rfl rfl rfl⟩
  · rw [he]
    exact .inr ⟨e, rfl, hne⟩

/-- **Allocation.** It exits, or it returns an aligned block behind the old `current` or in a fresh chunk. -/
theorem alloc_spec (hi : a.Inv) (hm : MallocOk malloc a.chunks) (ha : IsAlign align) (hs : size < 2 ^ 64) :
    ReturnsOrExits (pnAllocatorAlloc malloc a size align) fun r =>
      align ∣ r.1 ∧ Placed (fun c => c.current ≤ r.1) a r.1 size r.2 := by
  unfold pnAllocatorAlloc
  have hwf := hi.wf
  split
  next => exact allocInNewChunk_spec (R := fun p c => c.current ≤ p) hi hm ha size
  next c cs hcs =>
    have hc : c.Wf := hwf c (by rw [hcs]; exact List.mem_cons_self ..)
    have hlo := hc.header_le
    have hcur := hc.current_le
    have hend := hc.end_le
    have halign := ha.2
    simp only [addressLimit] at hend
    obtain ⟨ret, hret, hle, hlt, hd⟩ := pnAlignUpPointer_spec (p := c.current) ha.1 (by omega)
    rw [hret, ok_bind]
    refine .check fun hge => ?_
    -- the sum did not wrap: else it would be below `ret`
    have hsum : (ret + size) % 2 ^ 64 = ret + size := by omega
    rw [hsum]
    split
    · exact allocInNewChunk_spec (R := fun p c => c.current ≤ p) hi hm ha size
    · refine .ok ⟨hd, .inHead c cs hcs hle (Nat.le_add_right_of_le hle) (by omega) (by omega) ?_ rfl rfl rfl⟩
      simp [PNAllocator.finish, PNAllocator.setCurrent, hcs]

/-- **Reallocation** of the last block. It exits, or the block has grown where it is or has moved to a fresh chunk with
its bytes; the added bytes follow the old ones. -/
theorem realloc_spec (hi : a.Inv) (hm : MallocOk malloc a.chunks) (ha : IsAlign align) (hs : size < 2 ^ 64)
    (mem : Nat → UInt8) {p : Nat} (hp : p ≠ 0) :
    ReturnsOrExits (pnAllocatorReallocAdd malloc a mem p size align) fun r =>
      p = a.lastAlloc ∧ r.ret = r.p + pnAllocatorLastAllocSize a ∧
      Placed (fun _ => r.p = p) a r.p
        (pnAllocatorLastAllocSize a + size) r.allocator ∧
      (∀ i, i < pnAllocatorLastAllocSize a → r.mem (r.p + i) = mem (p + i)) ∧
      (∀ i, i < r.p ∨ r.p + pnAllocatorLastAllocSize a ≤ i → r.mem i = mem i) := by
  unfold pnAllocatorReallocAdd
  rw [if_neg hp]
  by_cases hl : p = a.lastAlloc
  · rw [if_neg (not_not.mpr hl)]
    have hwf := hi.wf
    have hlast := hi.last
    unfold pnAllocatorLastAllocSize
    split
    next hnil =>
      rw [hnil] at hlast
      exact absurd (hl.trans hlast) hp
    next c cs hcs =>
      have hc : c.Wf := hwf c (by rw [hcs]; exact List.mem_cons_self ..)
      rw [hcs] at hlast
      obtain ⟨hlo, hhi⟩ := hlast
      rw [← hl] at hlo hhi ⊢
      have hcur := hc.current_le
      have hend := hc.end_le
      simp only [addressLimit] at hend
      have hold : (c.current + 2 ^ 64 - p) % 2 ^ 64 = c.current - p := by omega
      simp only [hold]
      refine .check fun hgt => ?_
      have hsum : (c.current + size) % 2 ^ 64 = c.current + size := by omega
      rw [hsum]
      split
      next =>
        have hnew : (c.current - p + size) % 2 ^ 64 = c.current - p + size := by omega
        rw [hnew]
        rcases newChunk_spec hi.min_le hm ha (c.current - p + size) with ⟨⟨d, a'⟩, hd, hf, ha'⟩ | ⟨e, he, hne⟩
        · obtain rfl : a' = a.pushChunk d := ha'
          replace hf : FreshChunk a.chunks d (c.current - p + size) align := hf
          have hroom := hf.room
          have hdend := hf.wf.end_le
          simp only [addressLimit] at hdend
          rw [hd, ok_bind]
          simp only
          have h1 : (d.current + (c.current - p)) % 2 ^ 64 = d.current + (c.current - p) := by omega
          have h2 : (d.current + (c.current - p + size)) % 2 ^ 64 = d.current + (c.current - p + size) := by omega
          have h3 : (d.current + (c.current - p) + size) % 2 ^ 64 = d.current + (c.current - p + size) := by omega
          rw [h1, h2, h3, cAssert_bind hroom]
          refine .ok ⟨trivial, rfl, .inNew d hf.wf hf.disjoint hf.wf.header_le hroom rfl rfl rfl rfl, ?_, ?_⟩
          · exact fun i hi => copyBytes_inside hi
          · exact fun i hi => copyBytes_outside hi
        · rw [he]
          exact .inr ⟨e, rfl, hne⟩
      next hfit =>
        have htail : c.current = p + (c.current - p) := by omega
        have hnew : c.current + size = p + (c.current - p + size) := by omega
        have hge : c.current ≤ p + (c.current - p + size) := by omega
        have hle : p + (c.current - p + size) ≤ c.endp := by omega
        refine .ok ⟨trivial, htail, .inHead c cs hcs rfl hge hlo hle ?_ rfl rfl rfl, ?_, ?_⟩
        · rw [hnew]
          simp [PNAllocator.finish, PNAllocator.setCurrent, hcs]
        · exact fun i _ => rfl
        · exact fun i _ => rfl
  · rw [if_pos hl]
    exact .inr ⟨_, rfl, trivial, fun _ e => by cases e⟩

end Steps

end Pnacl
