import Pnacl.Bits
import Pnacl.Memory
import Mathlib.Logic.Function.Basic

/-!
# The page map

`mapped_pages` of the executor, a bit set with one bit for each page of guest memory, and the two builtins that work on
it, NACL_IRT_MEMORY_MMAP and NACL_IRT_MEMORY_MUNMAP. Lengths are rounded to pages and added to addresses in 32 bits.

- `pnBitsetSet_bit`, `setPages_bit`: what setting a bit, or a range of bits, does to every bit;
- `mmapSearch_some`, `mmapSearch_none`: the first-fit search of MMAP finds a run of clear bits or there is none;
- `HeapInv`: no page behind `heap_end` is mapped; every reachable state has it (`HeapReachable.inv`);
- `pageMap_iff`: when a call that returned did what `mmap` and `munmap` promise.
-/

namespace Pnacl

open Lib

/-- `PN_PAGESHIFT` and `PN_PAGESIZE`. -/
def PN_PAGESHIFT : Nat := 12
def PN_PAGESIZE : Nat := 4096

/-! ## Bit sets -/

/-- `PNBitSet`. -/
structure PNBitSet where
  numWords : Nat
  words : Nat → BitVec 32

/-- `pn_bitset_init`. -/
def pnBitsetInit (size : Nat) : PNBitSet := ⟨(size + 31) >>> 5, fun _ => 0⟩

/-- `1U << (bit & 31)`. -/
def bitMask (bit : Nat) : BitVec 32 := 1#32 <<< (bit % 32)

/-- `pn_bitset_set`. -/
def pnBitsetSet (b : PNBitSet) (bit : Nat) (set : Bool) : Except Stop PNBitSet := do
  let word := bit >>> 5
  cAssert (word < b.numWords) "word < bitset->num_words"
  let w := b.words word
  .ok { b with words := Function.update b.words word (if set then w ||| bitMask bit else w &&& ~~~bitMask bit) }

/-- `pn_bitset_is_set`. -/
def pnBitsetIsSet (b : PNBitSet) (bit : Nat) : Except Stop Bool := do
  let word := bit >>> 5
  cAssert (word < b.numWords) "word < bitset->num_words"
  .ok (b.words word &&& bitMask bit != 0)

/-- A bit of the set, without the assertion. -/
def PNBitSet.bit (b : PNBitSet) (p : Nat) : Bool := (b.words (p / 32)).getLsbD (p % 32)

/-- Set the `n` bits from `start` on. -/
def setPages (b : PNBitSet) (set : Bool) (start : Nat) : Nat → Except Stop PNBitSet
  | 0 => .ok b
  | n + 1 => do
    let b ← pnBitsetSet b start set
    setPages b set (start + 1) n

/-! ## The heap -/

/-- What MMAP and MUNMAP use of the executor and its memory. -/
structure PNGuestHeap where
  memory : PNMemory
  heapStart : Nat
  heapEnd : Nat
  mappedPages : PNBitSet

/-- `pn_executor_init`, as far as it concerns the heap. -/
def pnExecutorInitHeap (memory : PNMemory) (heapStart : Nat) : Except Stop PNGuestHeap := do
  pnCheck (memory.size % PN_PAGESIZE = 0) "pn_is_aligned(executor->memory->size, PN_PAGESIZE)"
  pnCheck (heapStart % PN_PAGESIZE = 0) "pn_is_aligned(executor->memory->heap_start, PN_PAGESIZE)"
  let mappedPages ← setPages (pnBitsetInit (memory.size >>> PN_PAGESHIFT)) true 0 (heapStart >>> PN_PAGESHIFT)
  .ok ⟨memory, heapStart, heapStart, mappedPages⟩

/-- `page_start`, when page `i` continues a run of `consecutive` unmapped pages. -/
def runStart (i consecutive pageStart : Nat) : Nat := if consecutive = 0 then i else pageStart

/-- The search of MMAP over the `n` pages from `i` on: the first page of `pages` consecutive unmapped ones. -/
def mmapSearch (b : PNBitSet) (pages i consecutive pageStart : Nat) : Nat → Except Stop (Option Nat)
  | 0 => .ok none
  | n + 1 => do
    let set ← pnBitsetIsSet b i
    if set then mmapSearch b pages (i + 1) 0 pageStart n
    else if consecutive + 1 = pages then .ok (some (runStart i consecutive pageStart))
    else mmapSearch b pages (i + 1) (consecutive + 1) (runStart i consecutive pageStart) n

/-- Move `heap_end` back; `stackTop` is the top of the main thread's current frame. -/
def growHeap (h : PNGuestHeap) (stackTop len : Nat) : Except Stop PNGuestHeap := do
  pnMemoryCheck h.memory h.heapEnd len
  let newHeapEnd := (h.heapEnd + len) % 2 ^ 32
  if newHeapEnd > stackTop then pnFatal "Out of heap\n" []
  else .ok { h with heapEnd := newHeapEnd }

/-- `found:` map the pages and store the address. -/
def mmapFound (h : PNGuestHeap) (addrPp result pages : Nat) : Except Stop (Nat × PNGuestHeap) := do
  let mappedPages ← setPages h.mappedPages true (result >>> PN_PAGESHIFT) pages
  let memory ← pnMemoryWrite h.memory 4 addrPp result
  .ok (0, { h with memory := memory, mappedPages := mappedPages })

/-- MMAP of anonymous memory. -/
def mmapAnonymous (h : PNGuestHeap) (stackTop addrPp len : Nat) : Except Stop (Nat × PNGuestHeap) := do
  cAssert (h.heapEnd % PN_PAGESIZE = 0) "pn_is_aligned(executor->heap_end, PN_PAGESIZE)"
  let len := pnAlignUp len PN_PAGESIZE
  let pages := len >>> PN_PAGESHIFT
  let firstPage := h.heapStart >>> PN_PAGESHIFT
  let lastPage := h.heapEnd >>> PN_PAGESHIFT
  match ← mmapSearch h.mappedPages pages firstPage 0 0 (lastPage - firstPage) with
  | some pageStart => mmapFound h addrPp (pageStart <<< PN_PAGESHIFT) pages
  | none => do
    let result := h.heapEnd
    let h ← growHeap h stackTop len
    mmapFound h addrPp result pages

/-- `pn_builtin_NACL_IRT_MEMORY_MMAP`. The arguments `prot`, `fd` and `off` are only traced. -/
def pnBuiltinNaclIrtMemoryMmap (h : PNGuestHeap) (stackTop : Nat) (args : List PNRuntimeValue) :
    Except Stop (Nat × PNGuestHeap) := do
  pnCheck (args.length = 6) "num_args == 6"
  let addrPp := pnArg args 0 4
  let len := pnArg args 1 4
  let flags := pnArg args 3 4
  if flags &&& 0x20 ≠ 0x20 then .ok (PN_EINVAL, h)
  else mmapAnonymous h stackTop addrPp len

/-- `pn_builtin_NACL_IRT_MEMORY_MUNMAP`. -/
def pnBuiltinNaclIrtMemoryMunmap (h : PNGuestHeap) (args : List PNRuntimeValue) : Except Stop (Nat × PNGuestHeap) := do
  pnCheck (args.length = 2) "num_args == 2"
  let oldAddrP := pnArg args 0 4
  let len := pnArg args 1 4
  let addrP := pnAlignDown oldAddrP PN_PAGESIZE
  let len := (pnAlignUp ((oldAddrP + len) % 2 ^ 32) PN_PAGESIZE + 2 ^ 32 - addrP) % 2 ^ 32
  let pages := len >>> PN_PAGESHIFT
  let firstPage := h.heapStart >>> PN_PAGESHIFT
  let lastPage := h.heapEnd >>> PN_PAGESHIFT
  let begin := addrP >>> PN_PAGESHIFT
  let end' := (begin + pages) % 2 ^ 32
  let begin := max begin firstPage
  let end' := min end' lastPage
  let mappedPages ← setPages h.mappedPages false begin (end' - begin)
  .ok (0, { h with mappedPages := mappedPages })

/-! ## Bits and runs of bits -/

theorem shiftRight_five (p : Nat) : p >>> 5 = p / 32 := Nat.shiftRight_eq_div_pow p 5

theorem shiftRight_pageshift (p : Nat) : p >>> PN_PAGESHIFT = p / 4096 := Nat.shiftRight_eq_div_pow p 12

theorem shiftLeft_pageshift (p : Nat) : p <<< PN_PAGESHIFT = p * 4096 := Nat.shiftLeft_eq p 12

theorem bitMask_getLsbD (bit : Nat) {i : Nat} (hi : i < 32) : (bitMask bit).getLsbD i = decide (i = bit % 32) := by
  simp only [bitMask, BitVec.getLsbD_shiftLeft, BitVec.getLsbD_one]
  by_cases h : i = bit % 32
  · simp [h, Nat.mod_lt]
  · simp [h, hi]
    omega

theorem and_bitMask_ne_zero (w : BitVec 32) (bit : Nat) : (w &&& bitMask bit != 0) = w.getLsbD (bit % 32) := by
  have hlt : bit % 32 < 32 := Nat.mod_lt _ (by omega)
  cases hw : w.getLsbD (bit % 32) with
  | true =>
    have h1 : (w &&& bitMask bit).getLsbD (bit % 32) = true := by
      rw [BitVec.getLsbD_and, hw, bitMask_getLsbD _ hlt]
      simp
    have hne : w &&& bitMask bit ≠ 0 := by
      intro h0
      rw [h0] at h1
      simp at h1
    simpa using hne
  | false =>
    have h0 : w &&& bitMask bit = 0 := by
      apply BitVec.eq_of_getLsbD_eq
      intro i hi
      rw [BitVec.getLsbD_and, bitMask_getLsbD _ hi]
      by_cases h : i = bit % 32
      · simp [h, hw]
      · simp [h]
    simp [h0]

theorem pnBitsetIsSet_eq_ok {b : PNBitSet} {p : Nat} {r : Bool} (h : pnBitsetIsSet b p = .ok r) :
    p < 32 * b.numWords ∧ r = b.bit p := by
  obtain ⟨hw, hr⟩ := cAssert_bind_eq_ok.mp h
  rw [shiftRight_five, Nat.div_lt_iff_lt_mul (by omega)] at hw
  rw [and_bitMask_ne_zero, shiftRight_five] at hr
  exact ⟨by omega, (Except.ok.inj hr).symm⟩

/-- Setting one bit. -/
theorem pnBitsetSet_bit {b b' : PNBitSet} {bit : Nat} {set : Bool} (h : pnBitsetSet b bit set = .ok b') :
    bit < 32 * b.numWords ∧ b'.numWords = b.numWords ∧ ∀ p, b'.bit p = if p = bit then set else b.bit p := by
  obtain ⟨hw, hr⟩ := cAssert_bind_eq_ok.mp h
  rw [shiftRight_five] at hw hr
  rw [Nat.div_lt_iff_lt_mul (by omega)] at hw
  obtain rfl := (Except.ok.inj hr).symm
  refine ⟨by omega, rfl, fun p => ?_⟩
  have hlt : p % 32 < 32 := Nat.mod_lt _ (by omega)
  simp only [PNBitSet.bit]
  by_cases hword : p / 32 = bit / 32
  · rw [hword, Function.update_self]
    by_cases hp : p = bit
    · subst hp
      cases set <;> simp [bitMask_getLsbD _ hlt, hlt]
    · have hm : (bitMask bit).getLsbD (p % 32) = false := by
        rw [bitMask_getLsbD _ hlt, decide_eq_false_iff_not]
        omega
      rw [if_neg hp]
      cases set with
      | true => rw [if_pos rfl, BitVec.getLsbD_or, hm, Bool.or_false]
      | false => rw [if_neg (by decide), BitVec.getLsbD_and, BitVec.getLsbD_not, hm]; simp [hlt]
  · have hp : p ≠ bit := fun e => hword (by rw [e])
    simp [Function.update_of_ne hword, hp]

/-- Setting a range of bits. -/
theorem setPages_bit {set : Bool} : ∀ {n : Nat} {b b' : PNBitSet} {start : Nat}, setPages b set start n = .ok b' →
    (0 < n → start + n ≤ 32 * b.numWords) ∧ b'.numWords = b.numWords ∧
      ∀ p, b'.bit p = if start ≤ p ∧ p < start + n then set else b.bit p
  | 0, b, b', start, h => by
    obtain rfl := Except.ok.inj h
    refine ⟨by omega, rfl, fun p => ?_⟩
    rw [if_neg (by omega)]
  | n + 1, b, b', start, h => by
    obtain ⟨b₁, h₁, h₂⟩ := bind_eq_ok.mp h
    obtain ⟨hlt, hw, hbit⟩ := pnBitsetSet_bit h₁
    obtain ⟨hle, hw', hbit'⟩ := setPages_bit h₂
    refine ⟨fun _ => ?_, hw'.trans hw, fun p => ?_⟩
    · rcases Nat.eq_zero_or_pos n with rfl | hn
      · omega
      · have := hle hn
        omega
    · rw [hbit', hbit]
      by_cases hp : p = start
      · simp [hp]
      · have : (start + 1 ≤ p ∧ p < start + 1 + n) ↔ (start ≤ p ∧ p < start + (n + 1)) := by omega
        rw [if_neg hp, if_congr this rfl rfl]

/-- The pages from `s` on are unmapped. -/
def FreeRun (b : PNBitSet) (s n : Nat) : Prop := ∀ p, s ≤ p → p < s + n → b.bit p = false

/-- An unmapped page lengthens the run in front of it. -/
theorem FreeRun.snoc {b : PNBitSet} {i c s : Nat} (hs : FreeRun b s c) (hi : 0 < c → s + c = i) (hb : b.bit i = false) :
    runStart i c s + (c + 1) = i + 1 ∧ FreeRun b (runStart i c s) (c + 1) := by
  unfold runStart
  split
  next hc =>
    refine ⟨by omega, fun p hp hp' => ?_⟩
    rw [show p = i by omega]
    exact hb
  next hc =>
    have hsi := hi (by omega)
    refine ⟨by omega, fun p hp hp' => ?_⟩
    rcases Nat.lt_or_ge p i with hlt | hge
    · exact hs p hp (by omega)
    · rw [show p = i by omega]
      exact hb

/-- A page that the search of MMAP found starts a run of unmapped pages. -/
theorem mmapSearch_some {b : PNBitSet} {pages r : Nat} :
    ∀ {n i consecutive pageStart : Nat}, FreeRun b pageStart consecutive → (0 < consecutive → pageStart + consecutive = i) →
      mmapSearch b pages i consecutive pageStart n = .ok (some r) →
      i ≤ r + consecutive ∧ r + pages ≤ i + n ∧ 0 < pages ∧ FreeRun b r pages
  | 0, i, c, s, hs, hi, h => by cases h
  | n + 1, i, c, s, hs, hi, h => by
    obtain ⟨set, hset, h⟩ := bind_eq_ok.mp h
    obtain ⟨-, rfl⟩ := pnBitsetIsSet_eq_ok hset
    split at h
    next hb =>
      obtain ⟨h₁, h₂, h₃⟩ := mmapSearch_some (fun p _ _ => by omega) (by omega) h
      exact ⟨by omega, by omega, h₃⟩
    next hb =>
      obtain ⟨hi', hs'⟩ := hs.snoc hi (by simpa using hb)
      split at h
      next hc =>
        obtain rfl := Option.some.inj (Except.ok.inj h)
        exact ⟨by omega, by omega, by omega, hc ▸ hs'⟩
      next hc =>
        obtain ⟨h₁, h₂, h₃⟩ := mmapSearch_some hs' (fun _ => hi') h
        exact ⟨by omega, by omega, h₃⟩

/-- If the search found nothing, no run of unmapped pages lies in its range. -/
theorem mmapSearch_none {b : PNBitSet} {pages : Nat} :
    ∀ {n i consecutive pageStart : Nat}, consecutive < pages → mmapSearch b pages i consecutive pageStart n = .ok none →
      ∀ s, i ≤ s + consecutive → s + pages ≤ i + n → ¬FreeRun b s pages
  | 0, i, c, _, hc, _, s, hs, hs' => by omega
  | n + 1, i, c, _, hc, h, s, hs, hs' => by
    obtain ⟨set, hset, h⟩ := bind_eq_ok.mp h
    obtain ⟨-, rfl⟩ := pnBitsetIsSet_eq_ok hset
    split at h
    next hb =>
      intro hrun
      rcases Nat.lt_or_ge i s with hlt | hge
      · exact mmapSearch_none (by omega) h s (by omega) (by omega) hrun
      · have : b.bit i = false := hrun i hge (by omega)
        simp [hb] at this
    next hb =>
      split at h
      next => cases h
      next hne => exact mmapSearch_none (by omega) h s (by omega) (by omega)

/-! ## What the builtins do to the page map -/

/-- `ceil(len / 4096)`. -/
def pageCount (len : Nat) : Nat := (len + 4095) / 4096

/-- The bit of page `p`. -/
def PNGuestHeap.mapped (h : PNGuestHeap) (p : Nat) : Bool := h.mappedPages.bit p

/-- Page `p` lies within `[heap_start, heap_end)`. -/
def PNGuestHeap.InHeap (h : PNGuestHeap) (p : Nat) : Prop := h.heapStart ≤ 4096 * p ∧ 4096 * (p + 1) ≤ h.heapEnd

theorem pnAlignDown_pagesize {x : Nat} (hx : x < 2 ^ 32) : pnAlignDown x PN_PAGESIZE = x / 4096 * 4096 := by
  have := and_mask x (show 12 ≤ 32 by omega)
  rw [Nat.mod_eq_of_lt hx] at this
  exact this

theorem pnAlignUp_pagesize (x : Nat) : pnAlignUp x PN_PAGESIZE = (x + 4095) % 2 ^ 32 / 4096 * 4096 :=
  and_mask (x + 4095) (show 12 ≤ 32 by omega)

/-- Rounding up in 32 bits counts pages modulo `2 ^ 20`. -/
theorem pnAlignUp_pageCount (x : Nat) : pnAlignUp x PN_PAGESIZE = 4096 * (pageCount x % 2 ^ 20) := by
  rw [pnAlignUp_pagesize]
  unfold pageCount
  omega

theorem pnArg_lt (args : List PNRuntimeValue) (n : Nat) : pnArg args n 4 < 2 ^ 32 :=
  Nat.mod_lt _ (Nat.two_pow_pos _)

/-- The state of the heap between two builtins. `heap_end` can wrap to `0`; the builtins find no heap then. -/
structure HeapInv (h : PNGuestHeap) : Prop where
  size_lt : h.memory.size < 2 ^ 32
  start_aligned : h.heapStart % 4096 = 0
  end_aligned : h.heapEnd % 4096 = 0
  end_lt : h.heapEnd < 2 ^ 32
  words_le : h.mappedPages.numWords ≤ 2 ^ 15
  start_le : h.heapEnd ≠ 0 → h.heapStart ≤ h.heapEnd
  clear : h.heapEnd ≠ 0 → ∀ p, h.heapEnd ≤ 4096 * p → h.mapped p = false

/-- The end of MMAP: the pages from `result` on are mapped and `result` is stored. -/
structure MmapFound (h h' : PNGuestHeap) (addrPp result pages : Nat) : Prop where
  size : h'.memory.size = h.memory.size
  heapStart : h'.heapStart = h.heapStart
  heapEnd : h'.heapEnd = h.heapEnd
  numWords : h'.mappedPages.numWords = h.mappedPages.numWords
  fits : 0 < pages → result / 4096 + pages ≤ 32 * h.mappedPages.numWords
  stored : loadBytes h'.memory.data addrPp 4 = result % 2 ^ 32
  mapped : ∀ p, h'.mapped p = if result / 4096 ≤ p ∧ p < result / 4096 + pages then true else h.mapped p

theorem mmapFound_spec {h h' : PNGuestHeap} {addrPp result pages r : Nat}
    (e : mmapFound h addrPp result pages = .ok (r, h')) : MmapFound h h' addrPp result pages := by
  obtain ⟨b, hb, e⟩ := bind_eq_ok.mp e
  obtain ⟨memory, hm, e⟩ := bind_eq_ok.mp e
  obtain ⟨_, -, hm⟩ := bind_eq_ok.mp hm
  cases hm
  obtain ⟨-, rfl⟩ := Prod.mk.inj (Except.ok.inj e)
  obtain ⟨hfits, hw, hbit⟩ := setPages_bit hb
  rw [shiftRight_pageshift] at hfits hbit
  exact ⟨rfl, rfl, rfl, hw, hfits, loadBytes_storeBytes _ _ _ _, hbit⟩

theorem growHeap_spec {h h' : PNGuestHeap} {stackTop len : Nat} (e : growHeap h stackTop len = .ok h') :
    PN_MEMORY_GUARD_SIZE ≤ h.heapEnd ∧ (h.heapEnd + len) % 2 ^ 32 ≤ h.memory.size ∧
      (h.heapEnd + len) % 2 ^ 32 ≤ stackTop ∧ h' = { h with heapEnd := (h.heapEnd + len) % 2 ^ 32 } := by
  obtain ⟨_, hc, e⟩ := bind_eq_ok.mp e
  obtain ⟨hguard, hsize⟩ := pnMemoryCheck_eq_ok.mp hc
  by_cases htop : (h.heapEnd + len) % 2 ^ 32 > stackTop
  · rw [if_pos htop] at e
    cases e
  · rw [if_neg htop] at e
    exact ⟨hguard, hsize, by omega, (Except.ok.inj e).symm⟩

/-- How MMAP finds its pages: a run of unmapped pages in the heap, or the pages behind the heap. -/
theorem mmapAnonymous_cases {h h' : PNGuestHeap} {stackTop addrPp len r : Nat}
    (e : mmapAnonymous h stackTop addrPp len = .ok (r, h')) :
    (∃ s, h.heapStart / 4096 ≤ s ∧ s + pageCount len % 2 ^ 20 ≤ h.heapEnd / 4096 ∧ 0 < pageCount len % 2 ^ 20 ∧
      FreeRun h.mappedPages s (pageCount len % 2 ^ 20) ∧ MmapFound h h' addrPp (4096 * s) (pageCount len % 2 ^ 20)) ∨
    ((0 < pageCount len % 2 ^ 20 → ∀ s, h.heapStart / 4096 ≤ s → s + pageCount len % 2 ^ 20 ≤ h.heapEnd / 4096 →
        ¬FreeRun h.mappedPages s (pageCount len % 2 ^ 20)) ∧ PN_MEMORY_GUARD_SIZE ≤ h.heapEnd ∧
      (h.heapEnd + 4096 * (pageCount len % 2 ^ 20)) % 2 ^ 32 ≤ stackTop ∧
      (h.heapEnd + 4096 * (pageCount len % 2 ^ 20)) % 2 ^ 32 ≤ h.memory.size ∧
      MmapFound { h with heapEnd := (h.heapEnd + 4096 * (pageCount len % 2 ^ 20)) % 2 ^ 32 } h' addrPp h.heapEnd
        (pageCount len % 2 ^ 20)) := by
  obtain ⟨-, e⟩ := cAssert_bind_eq_ok.mp e
  rw [pnAlignUp_pageCount] at e
  simp only [shiftRight_pageshift, Nat.mul_div_cancel_left _ (show 0 < 4096 by omega)] at e
  generalize pageCount len % 2 ^ 20 = pages at e ⊢
  obtain ⟨found, hs, e⟩ := bind_eq_ok.mp e
  cases found with
  | some s =>
    left
    obtain ⟨hlo, hhi, hpos, hrun⟩ := mmapSearch_some (fun p _ _ => by omega) (by omega) hs
    have e : mmapFound h addrPp (s <<< PN_PAGESHIFT) pages = .ok (r, h') := e
    rw [shiftLeft_pageshift, Nat.mul_comm] at e
    exact ⟨s, by omega, by omega, hpos, hrun, mmapFound_spec e⟩
  | none =>
    right
    obtain ⟨h₁, hg, e⟩ := bind_eq_ok.mp e
    obtain ⟨hguard, hsize, htop, rfl⟩ := growHeap_spec hg
    exact ⟨fun hpos s hlo hhi => mmapSearch_none hpos hs s (by omega) (by omega), hguard, htop, hsize,
      mmapFound_spec e⟩

/-- MMAP keeps the invariant. -/
theorem mmapAnonymous_inv {h h' : PNGuestHeap} {stackTop addrPp len r : Nat} (hi : HeapInv h)
    (e : mmapAnonymous h stackTop addrPp len = .ok (r, h')) : HeapInv h' := by
  obtain ⟨hsz, hsa, hea, hel, hw, hse, hclr⟩ := hi
  rcases mmapAnonymous_cases e with ⟨s, hlo, hhi, hpos, hrun, hf⟩ | ⟨hnone, hguard, htop, hsize, hf⟩
  · obtain ⟨f1, f2, f3, f4, -, -, f7⟩ := hf
    refine ⟨by omega, by omega, by omega, by omega, by omega, by rw [f2, f3]; exact hse, fun h0 p hp => ?_⟩
    rw [f3] at h0 hp
    rw [f7, if_neg (by omega)]
    exact hclr h0 p hp
  · obtain ⟨f1, f2, f3, f4, f5, -, f7⟩ := hf
    simp only at f1 f2 f3 f4 f5 f7
    unfold PN_MEMORY_GUARD_SIZE at hguard
    have hse := hse (by omega)
    have hfit : h.heapEnd + 4096 * (pageCount len % 2 ^ 20) ≤ 2 ^ 32 := by
      rcases Nat.eq_zero_or_pos (pageCount len % 2 ^ 20) with h0 | hpos
      · omega
      · have := f5 hpos
        omega
    refine ⟨by omega, by omega, by omega, by omega, by omega, fun h0 => by omega, fun h0 p hp => ?_⟩
    rw [f7, if_neg (by omega)]
    exact hclr (by omega) p (by omega)

/-- What MMAP of `len` bytes promises when it returns `0`. -/
def MmapOk (h h' : PNGuestHeap) (addrPp len : Nat) : Prop :=
  ∃ r, loadBytes h'.memory.data addrPp 4 = r ∧ r % 4096 = 0 ∧
    (∀ p, r / 4096 ≤ p → p < r / 4096 + pageCount len → h.mapped p = false ∧ h'.mapped p = true ∧ h'.InHeap p) ∧
    ∀ p, ¬(r / 4096 ≤ p ∧ p < r / 4096 + pageCount len) → h'.mapped p = h.mapped p

/-- Rounding `len` does not wrap, and unless enough unmapped pages follow each other in the heap, moving `heap_end` back
does not wrap either. -/
def MmapFits (h : PNGuestHeap) (len : Nat) : Prop :=
  len ≤ 2 ^ 32 - 4096 ∧
    ((∃ s, h.heapStart ≤ 4096 * s ∧ 4096 * (s + pageCount len) ≤ h.heapEnd ∧ FreeRun h.mappedPages s (pageCount len)) ∨
      h.heapEnd + 4096 * pageCount len < 2 ^ 32)

/-- The pages that MMAP maps were unmapped, lie in the new heap and are the only ones to change. -/
theorem MmapFound.ok {h h' : PNGuestHeap} {addrPp len s : Nat} (heapEnd : Nat)
    (hf : MmapFound { h with heapEnd := heapEnd } h' addrPp (4096 * s) (pageCount len))
    (hrun : FreeRun h.mappedPages s (pageCount len)) (hlo : h.heapStart ≤ 4096 * s)
    (hhi : 4096 * (s + pageCount len) ≤ heapEnd) (hlt : 4096 * s < 2 ^ 32) : MmapOk h h' addrPp len := by
  obtain ⟨-, f2, f3, -, -, f6, f7⟩ := hf
  rw [Nat.mul_div_cancel_left _ (by omega)] at f7
  refine ⟨4096 * s, by omega, by omega, fun p h₁ h₂ => ⟨hrun p (by omega) (by omega), ?_, ?_, ?_⟩, fun p hp => ?_⟩
  · rw [f7, if_pos (by omega)]
  · simp only at f2
    omega
  · simp only at f3
    omega
  · rw [f7, if_neg (by omega)]
    rfl

/-- A call of MMAP that returned did what it promises iff nothing wrapped. -/
theorem mmapAnonymous_ok_iff {h h' : PNGuestHeap} {stackTop addrPp len r : Nat} (hi : HeapInv h) (hlen : 0 < len)
    (hlt : len < 2 ^ 32) (e : mmapAnonymous h stackTop addrPp len = .ok (r, h')) :
    MmapOk h h' addrPp len ↔ MmapFits h len := by
  have hi' := mmapAnonymous_inv hi e
  have hel := hi.end_lt
  have hea := hi.end_aligned
  by_cases hbig : len ≤ 2 ^ 32 - 4096
  · have hpages : pageCount len % 2 ^ 20 = pageCount len := by
      unfold pageCount
      omega
    have hpos : 0 < pageCount len := by
      unfold pageCount
      omega
    have hc := mmapAnonymous_cases e
    rw [hpages] at hc
    rcases hc with ⟨s, hlo, hhi, -, hrun, hf⟩ | ⟨hnone, hguard, htop, hsize, hf⟩
    · have hsa := hi.start_aligned
      exact iff_of_true (MmapFound.ok h.heapEnd hf hrun (by omega) (by omega) (by omega))
        ⟨hbig, Or.inl ⟨s, by omega, by omega, hrun⟩⟩
    · unfold PN_MEMORY_GUARD_SIZE at hguard
      have hfits := hf.fits hpos
      have hw := hi.words_le
      simp only at hfits
      rcases Nat.lt_or_ge (h.heapEnd + 4096 * pageCount len) (2 ^ 32) with hno | hwrap
      · rw [Nat.mod_eq_of_lt hno, show h.heapEnd = 4096 * (h.heapEnd / 4096) by omega] at hf
        refine iff_of_true ?_ ⟨hbig, Or.inr hno⟩
        refine MmapFound.ok _ hf (fun p h₁ h₂ => hi.clear (by omega) p (by omega)) ?_ (by omega) (by omega)
        have := hi.start_le (by omega)
        omega
      · -- `heap_end` wrapped to `0`, and no page lies in front of `0`
        refine iff_of_false ?_ ?_
        · rintro ⟨r, -, -, hin, -⟩
          obtain ⟨-, -, -, hend⟩ := hin (r / 4096) (Nat.le_refl _) (by omega)
          have := hf.heapEnd
          simp only at this
          omega
        · rintro ⟨-, ⟨s, hlo, hhi, hrun⟩ | hno⟩
          · exact hnone hpos s (by omega) (by omega) hrun
          · omega
  · -- more pages than any heap has
    refine iff_of_false ?_ fun hfit => hbig hfit.1
    rintro ⟨r, -, -, hin, -⟩
    obtain ⟨-, -, -, hend⟩ := hin (r / 4096 + (pageCount len - 1)) (by omega) (by unfold pageCount; omega)
    have := hi'.end_lt
    unfold pageCount at hend
    omega

/-! ## MUNMAP -/

/-- Page `p` intersects the bytes from `addr` up to `addr + len`. -/
def Intersects (p addr len : Nat) : Prop := ∃ x, addr ≤ x ∧ x < addr + len ∧ 4096 * p ≤ x ∧ x < 4096 * (p + 1)

theorem intersects_iff {p addr len : Nat} :
    Intersects p addr len ↔ 0 < len ∧ addr / 4096 ≤ p ∧ p < pageCount (addr + len) := by
  unfold pageCount
  constructor
  · rintro ⟨x, h₁, h₂, h₃, h₄⟩
    omega
  · rintro ⟨h₁, h₂, h₃⟩
    exact ⟨max addr (4096 * p), by omega, by omega, by omega, by omega⟩

/-- What MUNMAP promises. -/
structure MunmapOk (h h' : PNGuestHeap) (addr len : Nat) : Prop where
  mapped : ∀ p, h'.mapped p = true ↔ h.mapped p = true ∧ ¬(h.InHeap p ∧ Intersects p addr len)
  memory : h'.memory = h.memory
  heapStart : h'.heapStart = h.heapStart
  heapEnd : h'.heapEnd = h.heapEnd

/-- The number of pages from the one of `addr` to the one in front of `addr + len`, over unbounded integers. -/
def pageSpan (addr len : Nat) : Nat := pageCount (addr + len) - addr / 4096

/-- The pages that MUNMAP counts, in 32 bits. -/
theorem munmap_pages {addr len : Nat} (ha : addr < 2 ^ 32) :
    ((pnAlignUp ((addr + len) % 2 ^ 32) PN_PAGESIZE + 2 ^ 32 - pnAlignDown addr PN_PAGESIZE) % 2 ^ 32) >>> PN_PAGESHIFT =
      pageSpan addr len % 2 ^ 20 := by
  rw [shiftRight_pageshift, pnAlignUp_pageCount, pnAlignDown_pagesize ha]
  unfold pageSpan pageCount
  omega

theorem HeapInv.inHeap_iff {h : PNGuestHeap} (hi : HeapInv h) {p : Nat} :
    h.InHeap p ↔ h.heapStart / 4096 ≤ p ∧ p < h.heapEnd / 4096 := by
  have hsa := hi.start_aligned
  have hea := hi.end_aligned
  unfold PNGuestHeap.InHeap
  omega

/-- What MUNMAP does: the span is counted modulo `2 ^ 20`, and a span is rounded up also when it has no bytes. -/
theorem munmap_spec {h h' : PNGuestHeap} {args : List PNRuntimeValue} {r : Nat} (hi : HeapInv h)
    (e : pnBuiltinNaclIrtMemoryMunmap h args = .ok (r, h')) :
    h'.memory = h.memory ∧ h'.heapStart = h.heapStart ∧ h'.heapEnd = h.heapEnd ∧
      h'.mappedPages.numWords = h.mappedPages.numWords ∧
      ∀ p, h'.mapped p = true ↔ h.mapped p = true ∧ ¬(h.InHeap p ∧ pnArg args 0 4 / 4096 ≤ p ∧
        p < pnArg args 0 4 / 4096 + pageSpan (pnArg args 0 4) (pnArg args 1 4) % 2 ^ 20) := by
  obtain ⟨-, e⟩ := pnCheck_bind_eq_ok.mp e
  have ha := pnArg_lt args 0
  have hl := pnArg_lt args 1
  generalize pnArg args 0 4 = addr at e ha ⊢
  generalize pnArg args 1 4 = len at e hl ⊢
  obtain ⟨b, hb, e⟩ := bind_eq_ok.mp e
  obtain ⟨-, rfl⟩ := Prod.mk.inj (Except.ok.inj e)
  obtain ⟨-, hw, hbit⟩ := setPages_bit hb
  refine ⟨rfl, rfl, rfl, hw, fun p => ?_⟩
  rw [munmap_pages ha, pnAlignDown_pagesize ha] at hbit
  simp only [shiftRight_pageshift] at hbit
  rw [hi.inHeap_iff, PNGuestHeap.mapped, PNGuestHeap.mapped, hbit]
  split <;> simp <;> omega

/-- MUNMAP keeps the invariant. -/
theorem munmap_inv {h h' : PNGuestHeap} {args : List PNRuntimeValue} {r : Nat} (hi : HeapInv h)
    (e : pnBuiltinNaclIrtMemoryMunmap h args = .ok (r, h')) : HeapInv h' := by
  obtain ⟨hm, hs, he, hw, hbit⟩ := munmap_spec hi e
  obtain ⟨hsz, hsa, hea, hel, hwl, hse, hclr⟩ := hi
  refine ⟨by rw [hm]; exact hsz, by omega, by omega, by omega, by omega, by rw [hs, he]; exact hse, fun h0 p hp => ?_⟩
  rw [he] at h0 hp
  rw [Bool.eq_false_iff]
  intro hp'
  rw [hbit, hclr h0 p hp] at hp'
  exact absurd hp'.1 (by decide)

/-- A call without bytes starts at a page or meets no mapped page of the heap; one whose pages are `2 ^ 20` or more leaves
no mapped page of the heap behind those that it counts. -/
def MunmapFits (h : PNGuestHeap) (addr len : Nat) : Prop :=
  if len = 0 then addr % 4096 = 0 ∨ ¬(h.InHeap (addr / 4096) ∧ h.mapped (addr / 4096) = true)
  else pageSpan addr len < 2 ^ 20 ∨
    ∀ p, addr / 4096 + (pageSpan addr len - 2 ^ 20) ≤ p → ¬(h.InHeap p ∧ h.mapped p = true)

/-- A call of MUNMAP did what it promises iff its pages are those of its bytes, as far as they are mapped. -/
theorem munmap_ok_iff {h h' : PNGuestHeap} {args : List PNRuntimeValue} {r : Nat} (hi : HeapInv h)
    (e : pnBuiltinNaclIrtMemoryMunmap h args = .ok (r, h')) :
    MunmapOk h h' (pnArg args 0 4) (pnArg args 1 4) ↔ MunmapFits h (pnArg args 0 4) (pnArg args 1 4) := by
  obtain ⟨hm, hs, he, -, hbit⟩ := munmap_spec hi e
  have ha := pnArg_lt args 0
  have hl := pnArg_lt args 1
  have hel := hi.end_lt
  generalize pnArg args 0 4 = addr at hbit ha ⊢
  generalize pnArg args 1 4 = len at hbit hl ⊢
  have hspan : pageCount (addr + len) = addr / 4096 + pageSpan addr len := by
    unfold pageSpan pageCount
    omega
  have hiff : MunmapOk h h' addr len ↔ ∀ p, h.InHeap p → h.mapped p = true →
      ((addr / 4096 ≤ p ∧ p < addr / 4096 + pageSpan addr len % 2 ^ 20) ↔
        (0 < len ∧ addr / 4096 ≤ p ∧ p < addr / 4096 + pageSpan addr len)) := by
    rw [← hspan]
    constructor
    · intro hok p hin hp
      have := hok.mapped p
      rw [hbit, intersects_iff] at this
      tauto
    · intro hall
      refine ⟨fun p => ?_, hm, hs, he⟩
      have := hall p
      rw [hbit, intersects_iff]
      tauto
  rw [hiff]
  unfold MunmapFits
  split
  next h0 =>
    subst h0
    rcases Nat.eq_zero_or_pos (addr % 4096) with h0 | hpos
    · have : pageSpan addr 0 = 0 := by unfold pageSpan pageCount; omega
      exact iff_of_true (fun p _ _ => by omega) (Or.inl h0)
    · have : pageSpan addr 0 = 1 := by unfold pageSpan pageCount; omega
      constructor
      · intro hall
        right
        rintro ⟨hin, hp⟩
        have := hall _ hin hp
        omega
      · rintro (h0 | hno) p hin hp
        · omega
        · have hne : p ≠ addr / 4096 := fun e => hno (e ▸ ⟨hin, hp⟩)
          omega
  next hlen =>
    have hle : pageSpan addr len ≤ 2 ^ 20 + 1 := by unfold pageSpan pageCount; omega
    rcases Nat.lt_or_ge (pageSpan addr len) (2 ^ 20) with hlt | hge
    · exact iff_of_true (fun p _ _ => by omega) (Or.inl hlt)
    · constructor
      · intro hall
        right
        rintro p hp ⟨hin, hmap⟩
        have := hall p hin hmap
        have := hin.2
        omega
      · rintro (hlt | hno) p hin hp
        · omega
        · have : ¬addr / 4096 + (pageSpan addr len - 2 ^ 20) ≤ p := fun hge' => hno p hge' ⟨hin, hp⟩
          omega

/-! ## Reachable states -/

/-- The heaps of the states that an executor can reach. The top of the main thread's stack may be anything at a call of
MMAP, and every other instruction may change the bytes of memory. -/
inductive HeapReachable : PNGuestHeap → Prop where
  | init {memory : PNMemory} {heapStart : Nat} {h : PNGuestHeap} : memory.size < 2 ^ 32 → heapStart < 2 ^ 32 →
      pnExecutorInitHeap memory heapStart = .ok h → HeapReachable h
  | mmap {h h' : PNGuestHeap} {stackTop r : Nat} {args : List PNRuntimeValue} : HeapReachable h →
      pnBuiltinNaclIrtMemoryMmap h stackTop args = .ok (r, h') → HeapReachable h'
  | munmap {h h' : PNGuestHeap} {r : Nat} {args : List PNRuntimeValue} : HeapReachable h →
      pnBuiltinNaclIrtMemoryMunmap h args = .ok (r, h') → HeapReachable h'
  | other {h : PNGuestHeap} (data : Nat → UInt8) : HeapReachable h →
      HeapReachable { h with memory := { h.memory with data := data } }

theorem pnExecutorInitHeap_inv {memory : PNMemory} {heapStart : Nat} {h : PNGuestHeap} (hsz : memory.size < 2 ^ 32)
    (hst : heapStart < 2 ^ 32) (e : pnExecutorInitHeap memory heapStart = .ok h) : HeapInv h := by
  obtain ⟨hsa, e⟩ := pnCheck_bind_eq_ok.mp e
  obtain ⟨hha, e⟩ := pnCheck_bind_eq_ok.mp e
  obtain ⟨b, hb, e⟩ := bind_eq_ok.mp e
  obtain rfl := Except.ok.inj e
  obtain ⟨-, hw, hbit⟩ := setPages_bit hb
  simp only [shiftRight_pageshift] at hw hbit
  unfold PN_PAGESIZE at hsa hha
  refine ⟨hsz, hha, hha, hst, ?_, fun _ => Nat.le_refl _, fun _ p hp => ?_⟩
  · rw [hw]
    simp only [pnBitsetInit, shiftRight_five]
    omega
  · simp only at hp
    rw [PNGuestHeap.mapped, hbit, if_neg (by omega)]
    simp [pnBitsetInit, PNBitSet.bit]

/-- A call of MMAP fails with EINVAL and changes nothing, or it is one of anonymous memory. -/
theorem mmap_cases {h h' : PNGuestHeap} {stackTop r : Nat} {args : List PNRuntimeValue}
    (e : pnBuiltinNaclIrtMemoryMmap h stackTop args = .ok (r, h')) :
    r = PN_EINVAL ∧ h' = h ∨ mmapAnonymous h stackTop (pnArg args 0 4) (pnArg args 1 4) = .ok (r, h') := by
  obtain ⟨-, e⟩ := pnCheck_bind_eq_ok.mp e
  by_cases hf : pnArg args 3 4 &&& 0x20 ≠ 0x20
  · rw [if_pos hf] at e
    obtain ⟨hr, hh⟩ := Prod.mk.inj (Except.ok.inj e)
    exact Or.inl ⟨hr.symm, hh.symm⟩
  · rw [if_neg hf] at e
    exact Or.inr e

/-- Every reachable heap has the invariant. -/
theorem HeapReachable.inv {h : PNGuestHeap} (hr : HeapReachable h) : HeapInv h := by
  induction hr with
  | init hsz hst e => exact pnExecutorInitHeap_inv hsz hst e
  | mmap _ e ih =>
    rcases mmap_cases e with ⟨-, rfl⟩ | e
    · exact ih
    · exact mmapAnonymous_inv ih e
  | munmap _ e ih => exact munmap_inv ih e
  | other data _ ih => exact ⟨ih.size_lt, ih.start_aligned, ih.end_aligned, ih.end_lt, ih.words_le, ih.start_le, ih.clear⟩

/-- **The page map.** In every reachable state and for all arguments: a call of MMAP that returns `0` did what it
promises iff `len` and `heap_end + len` do not wrap when they are rounded and added (the sum counts only if the heap has
no room), and a call of MUNMAP did iff its range is not an empty one inside a mapped page and does not span `2 ^ 20` pages
with mapped ones among them. -/
theorem pageMap_iff {h : PNGuestHeap} (hr : HeapReachable h) (args : List PNRuntimeValue) :
    (∀ stackTop h', pnBuiltinNaclIrtMemoryMmap h stackTop args = .ok (0, h') → 0 < pnArg args 1 4 →
      (MmapOk h h' (pnArg args 0 4) (pnArg args 1 4) ↔ MmapFits h (pnArg args 1 4))) ∧
    ∀ r h', pnBuiltinNaclIrtMemoryMunmap h args = .ok (r, h') →
      (MunmapOk h h' (pnArg args 0 4) (pnArg args 1 4) ↔ MunmapFits h (pnArg args 0 4) (pnArg args 1 4)) := by
  constructor
  · intro stackTop h' e hlen
    rcases mmap_cases e with ⟨h0, -⟩ | e
    · exact absurd h0 (by decide)
    · exact mmapAnonymous_ok_iff hr.inv hlen (pnArg_lt args 1) e
  · intro r h' e
    exact munmap_ok_iff hr.inv e

/-- Memory of 1 MiB. -/
def demoMib : PNMemory := ⟨fun _ => 0, 2 ^ 20⟩

/-- The arguments of an anonymous MMAP of `len` bytes that stores its address at 1024. -/
def mmapArgs (len : Nat) : List PNRuntimeValue := [1024, .ofNat len, 3, 0x22, 0xffffffff, 0]

/-- The heap of a program whose heap starts at 4096, then one MMAP and one MUNMAP. -/
def demoPageMap (len : Nat) (args : List PNRuntimeValue) : Except Stop (PNGuestHeap × (Nat × PNGuestHeap) × (Nat × PNGuestHeap)) := do
  let h ← pnExecutorInitHeap demoMib 4096
  let p ← pnBuiltinNaclIrtMemoryMmap h (2 ^ 20) (mmapArgs len)
  let q ← pnBuiltinNaclIrtMemoryMunmap p.2 args
  .ok (h, p, q)

theorem demoPageMap_eq_ok (len : Nat) (args : List PNRuntimeValue) {a b c d : Nat} {f : Bool}
    (hd : (demoPageMap len args).toOption.map (fun (_, (a, h'), (b, _)) => (a, b, h'.heapStart, h'.heapEnd, h'.mapped 1)) =
      some (a, b, c, d, f)) :
    ∃ h h' h'', HeapReachable h ∧ HeapReachable h' ∧ h.heapEnd = 4096 ∧
      pnBuiltinNaclIrtMemoryMmap h (2 ^ 20) (mmapArgs len) = .ok (a, h') ∧
      pnBuiltinNaclIrtMemoryMunmap h' args = .ok (b, h'') ∧ h'.heapStart = c ∧ h'.heapEnd = d ∧ h'.mapped 1 = f := by
  obtain ⟨⟨h, ⟨a', h'⟩, ⟨b', h''⟩⟩, e, hab⟩ := eq_ok_of_toOption hd
  simp only [Prod.mk.injEq] at hab
  obtain ⟨rfl, rfl, hc, hd, hf⟩ := hab
  obtain ⟨h₁, e₁, e⟩ := bind_eq_ok.mp e
  obtain ⟨p, e₂, e⟩ := bind_eq_ok.mp e
  obtain ⟨q, e₃, e⟩ := bind_eq_ok.mp e
  cases e
  have hr : HeapReachable h := .init (by decide) (by decide) e₁
  obtain ⟨b, -, e₁⟩ := bind_eq_ok.mp (pnCheck_bind_eq_ok.mp (pnCheck_bind_eq_ok.mp e₁).2).2
  have hend : h.heapEnd = 4096 := by cases e₁; rfl
  exact ⟨h, h', h'', hr, .mmap hr e₂, hend, e₂, e₃, hc, hd, hf⟩

theorem pageMap_one_page : ∃ h h' h'', HeapReachable h ∧ HeapReachable h' ∧
    pnBuiltinNaclIrtMemoryMmap h (2 ^ 20) (mmapArgs 100) = .ok (0, h') ∧ MmapOk h h' 1024 100 ∧
    pnBuiltinNaclIrtMemoryMunmap h' [4096, 100] = .ok (0, h'') ∧ MunmapOk h' h'' 4096 100 := by
  obtain ⟨h, h', h'', hr, hr', hend, e₂, e₃, -⟩ :=
    demoPageMap_eq_ok 100 [4096, 100] (a := 0) (b := 0) (c := 4096) (d := 8192) (f := true) (by decide)
  refine ⟨h, h', h'', hr, hr', e₂, ?_, e₃, ?_⟩
  · refine ((pageMap_iff hr (mmapArgs 100)).1 _ _ e₂ (by decide)).mpr ⟨by decide, Or.inr ?_⟩
    rw [hend]
    decide
  · exact ((pageMap_iff hr' [4096, 100]).2 _ _ e₃).mpr (Or.inl (by decide))

/-- MMAP of `2 ^ 32 - 1` bytes returns `0` and maps nothing, and an empty MUNMAP inside a mapped page unmaps it. -/
theorem pageMap_wraps :
    (∃ h h', HeapReachable h ∧ pnBuiltinNaclIrtMemoryMmap h (2 ^ 20) (mmapArgs (2 ^ 32 - 1)) = .ok (0, h') ∧
      ¬MmapOk h h' 1024 (2 ^ 32 - 1)) ∧
    ∃ h h', HeapReachable h ∧ pnBuiltinNaclIrtMemoryMunmap h [4097, 0] = .ok (0, h') ∧ ¬MunmapOk h h' 4097 0 := by
  constructor
  · obtain ⟨h, h', _, hr, -, -, e, -⟩ :=
      demoPageMap_eq_ok (2 ^ 32 - 1) [0, 0] (a := 0) (b := 0) (c := 4096) (d := 4096) (f := false) (by decide)
    refine ⟨h, h', hr, e, fun hok => ?_⟩
    rcases mmap_cases e with ⟨h0, -⟩ | e
    · exact absurd h0 (by decide)
    · exact absurd ((mmapAnonymous_ok_iff hr.inv (by decide) (by decide) e).mp hok).1 (by decide)
  · obtain ⟨h, h', h'', hr, hr', -, e₂, e₃, hs, he, hm⟩ :=
      demoPageMap_eq_ok 100 [4097, 0] (a := 0) (b := 0) (c := 4096) (d := 8192) (f := true) (by decide)
    refine ⟨h', h'', hr', e₃, fun hok => ?_⟩
    rcases (munmap_ok_iff hr'.inv e₃).mp hok with h0 | hno
    · exact absurd h0 (by decide)
    · refine hno ⟨⟨?_, ?_⟩, hm⟩
      · rw [hs]
        decide
      · rw [he]
        decide

end Pnacl
