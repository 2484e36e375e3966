import Pnacl.PageMap
import Mathlib.Order.Bounds.Basic

/-!
# MMAP is first fit

The search of MMAP goes over the heap once and keeps the length of the run of unmapped pages in front of it. It stops at the first
run that is long enough, which is the lowest one (`mmapSearch_least`), and it ends wherever the page map has the bits of the heap
(`mmapSearch_total`). `mmap_first_fit` puts this together for the builtin.
-/

namespace Pnacl

open Lib

variable {b : PNBitSet} {pages i n consecutive pageStart r s : Nat}

/-! ## The search -/

/-- The run that the search finds is the lowest that does not end in front of it. -/
theorem mmapSearch_least : ∀ {n i consecutive pageStart : Nat}, consecutive < pages →
    (0 < consecutive → pageStart + consecutive = i) → mmapSearch b pages i consecutive pageStart n = .ok (some r) →
      ∀ s, i ≤ s + consecutive → FreeRun b s pages → r ≤ s
  | 0, _, _, _, _, _, h, _, _, _ => by cases h
  | n + 1, i, c, p, hc, hi, h, s, hs, hrun => by
    obtain ⟨set, hset, h⟩ := bind_eq_ok.mp h
    obtain ⟨-, rfl⟩ := pnBitsetIsSet_eq_ok hset
    split at h
    next hb =>
      rcases Nat.lt_or_ge i s with hlt | hge
      · exact mmapSearch_least (by omega) (by omega) h s (by omega) hrun
      · -- the mapped page lies in the run
        have : b.bit i = false := hrun i hge (by omega)
        simp [hb] at this
    next hb =>
      have hstart : runStart i c p + (c + 1) = i + 1 := by
        unfold runStart
        split
        · omega
        · have := hi (by omega)
          omega
      split at h
      next hpages =>
        obtain rfl := Option.some.inj (Except.ok.inj h)
        omega
      next hne => exact mmapSearch_least (by omega) (fun _ => hstart) h s (by omega) hrun

/-- The search ends if the page map has the bits of all pages it looks at. -/
theorem mmapSearch_total : ∀ {n i consecutive pageStart : Nat}, i + n ≤ 32 * b.numWords →
    ∃ found, mmapSearch b pages i consecutive pageStart n = .ok found
  | 0, _, _, _, _ => ⟨none, rfl⟩
  | n + 1, i, c, p, hn => by
    obtain ⟨set, hset⟩ : ∃ set, pnBitsetIsSet b i = .ok set := by
      refine ⟨_, cAssert_bind ?_⟩
      rw [shiftRight_five, Nat.div_lt_iff_lt_mul (by omega)]
      omega
    rw [mmapSearch, hset, ok_bind]
    split
    · exact mmapSearch_total (by omega)
    · split
      · exact ⟨_, rfl⟩
      · exact mmapSearch_total (by omega)

/-- Setting bits that the page map has. -/
theorem setPages_total {set : Bool} : ∀ {n : Nat} {b : PNBitSet} {start : Nat}, start + n ≤ 32 * b.numWords →
    ∃ b', setPages b set start n = .ok b'
  | 0, b, _, _ => ⟨b, rfl⟩
  | n + 1, b, start, hn => by
    obtain ⟨b₁, h₁⟩ : ∃ b₁, pnBitsetSet b start set = .ok b₁ := by
      refine ⟨_, cAssert_bind ?_⟩
      rw [shiftRight_five, Nat.div_lt_iff_lt_mul (by omega)]
      omega
    obtain ⟨-, hw, -⟩ := pnBitsetSet_bit h₁
    rw [setPages, h₁, ok_bind]
    exact setPages_total (by omega)

/-! ## The builtin -/

/-- The pages that a call of MMAP asks for. -/
def mmapPages (args : List PNRuntimeValue) : Nat := pageCount (pnArg args 1 4) % 2 ^ 20

/-- A run of unmapped pages in the heap that starts at the address. -/
structure FreeRunAt (h : PNGuestHeap) (pages addr : Nat) : Prop where
  aligned : addr % 4096 = 0
  low : h.heapStart ≤ addr
  high : addr + 4096 * pages ≤ h.heapEnd
  free : FreeRun h.mappedPages (addr / 4096) pages

/-- A call of MMAP that returns. -/
structure MmapReturns (h h' : PNGuestHeap) (addrPp addr heapEnd : Nat) (r : Nat) : Prop where
  returned : r = 0
  stored : loadBytes h'.memory.data addrPp 4 = addr
  heapStart : h'.heapStart = h.heapStart
  heapEnd : h'.heapEnd = heapEnd

variable {h h' : PNGuestHeap} {args : List PNRuntimeValue} {stackTop : Nat}

/-- The search of a call of MMAP. -/
def mmapCallSearch (h : PNGuestHeap) (pages : Nat) : Except Stop (Option Nat) :=
  mmapSearch h.mappedPages pages (h.heapStart / 4096) 0 0 (h.heapEnd / 4096 - h.heapStart / 4096)

/-- What MMAP does with the page that the search found. -/
def mmapAt (h : PNGuestHeap) (stackTop addrPp pages : Nat) : Option Nat → Except Stop (Nat × PNGuestHeap)
  | some s => mmapFound h addrPp (4096 * s) pages
  | none => do
    let h' ← growHeap h stackTop (4096 * pages)
    mmapFound h' addrPp h.heapEnd pages

/-- An anonymous MMAP, in pages. -/
theorem mmap_eq (hn : args.length = 6) (hflags : pnArg args 3 4 &&& 0x20 = 0x20) (he : h.heapEnd % 4096 = 0) :
    pnBuiltinNaclIrtMemoryMmap h stackTop args =
      mmapCallSearch h (mmapPages args) >>= mmapAt h stackTop (pnArg args 0 4) (mmapPages args) := by
  unfold pnBuiltinNaclIrtMemoryMmap mmapAnonymous mmapCallSearch mmapPages
  rw [pnCheck_bind hn]
  simp only [hflags, ne_eq, not_true_eq_false, if_false]
  rw [cAssert_bind (by exact he), pnAlignUp_pageCount]
  simp only [shiftRight_pageshift, shiftLeft_pageshift, Nat.mul_div_cancel_left _ (show 0 < 4096 by omega)]
  refine congrArg _ (funext fun found => ?_)
  cases found with
  | none => rfl
  | some s => exact congrArg (mmapFound h (pnArg args 0 4) · _) (Nat.mul_comm ..)

theorem mmapFound_returned {addrPp result : Nat} (e : mmapFound h addrPp result pages = .ok (r, h')) : r = 0 := by
  obtain ⟨_, -, e⟩ := bind_eq_ok.mp e
  obtain ⟨_, -, e⟩ := bind_eq_ok.mp e
  cases e
  rfl

theorem FreeRunAt.pageOf {addr : Nat} (hrun : FreeRunAt h pages addr) : 4096 * (addr / 4096) = addr := by
  have := hrun.aligned
  omega

/-- Where the search of a call finds a page, the lowest run starts. -/
theorem mmapCallSearch_some (hs : h.heapStart % 4096 = 0) (hpos : 0 < pages) (e : mmapCallSearch h pages = .ok (some s)) :
    IsLeast {addr | FreeRunAt h pages addr} (4096 * s) := by
  obtain ⟨hlo, hhi, -, hrun⟩ := mmapSearch_some (fun p _ _ => by omega) (by omega) e
  have hdiv : 4096 * s / 4096 = s := Nat.mul_div_cancel_left _ (by omega)
  constructor
  · refine ⟨by omega, by omega, by omega, ?_⟩
    rw [hdiv]
    exact hrun
  · intro addr haddr
    have hal := haddr.pageOf
    have hlow := haddr.low
    have := mmapSearch_least hpos (by omega) e (addr / 4096) (by omega) haddr.free
    omega

theorem mmapCallSearch_none (hs : h.heapStart % 4096 = 0) (hpos : 0 < pages) (e : mmapCallSearch h pages = .ok none) (addr : Nat) :
    ¬FreeRunAt h pages addr := by
  intro haddr
  have hal := haddr.pageOf
  have hlow := haddr.low
  have hhigh := haddr.high
  exact mmapSearch_none hpos e (addr / 4096) (by omega) (by omega) haddr.free

/-- **First fit.** For every page map and every heap: if the heap has a run of the unmapped pages that an anonymous MMAP asks for,
the call stores the address of the lowest one and leaves `heap_end` alone, and it returns if the page map has the bits of the heap
and the address can be stored; if the heap has none, a call that returns stores the old `heap_end` and moves it behind the new
pages. -/
theorem mmap_first_fit (hn : args.length = 6) (hflags : pnArg args 3 4 &&& 0x20 = 0x20) (hs : h.heapStart % 4096 = 0)
    (he : h.heapEnd % 4096 = 0) (hlt : h.heapEnd < 2 ^ 32) (hpos : 0 < mmapPages args) :
    (∀ addr, IsLeast {addr | FreeRunAt h (mmapPages args) addr} addr →
      (∀ r h', pnBuiltinNaclIrtMemoryMmap h stackTop args = .ok (r, h') →
        MmapReturns h h' (pnArg args 0 4) addr h.heapEnd r) ∧
      (h.heapEnd / 4096 ≤ 32 * h.mappedPages.numWords → pnMemoryCheck h.memory (pnArg args 0 4) 4 = .ok () →
        ∃ r h', pnBuiltinNaclIrtMemoryMmap h stackTop args = .ok (r, h'))) ∧
    ((∀ addr, ¬FreeRunAt h (mmapPages args) addr) → ∀ r h', pnBuiltinNaclIrtMemoryMmap h stackTop args = .ok (r, h') →
      MmapReturns h h' (pnArg args 0 4) h.heapEnd ((h.heapEnd + 4096 * mmapPages args) % 2 ^ 32) r) := by
  rw [mmap_eq hn hflags he]
  refine ⟨fun addr haddr => ⟨fun r h' e => ?_, fun hbits hstore => ?_⟩, fun hno r h' e => ?_⟩
  · obtain ⟨found, hsearch, e⟩ := bind_eq_ok.mp e
    cases found with
    | none => exact absurd haddr.1 (mmapCallSearch_none hs hpos hsearch addr)
    | some s =>
      obtain rfl := haddr.unique (mmapCallSearch_some hs hpos hsearch)
      have hf := mmapFound_spec e
      have hhigh := haddr.1.high
      refine ⟨mmapFound_returned e, ?_, hf.heapStart, hf.heapEnd⟩
      rw [hf.stored]
      omega
  · have hlow := haddr.1.low
    have hhigh := haddr.1.high
    obtain ⟨found, hsearch⟩ : ∃ found, mmapCallSearch h (mmapPages args) = .ok found := mmapSearch_total (by omega)
    rw [hsearch, ok_bind]
    cases found with
    | none => exact absurd haddr.1 (mmapCallSearch_none hs hpos hsearch addr)
    | some s =>
      obtain rfl := haddr.unique (mmapCallSearch_some hs hpos hsearch)
      obtain ⟨b, hb⟩ : ∃ b, setPages h.mappedPages true ((4096 * s) >>> PN_PAGESHIFT) (mmapPages args) = .ok b := by
        apply setPages_total
        rw [shiftRight_pageshift]
        omega
      simp only [mmapAt, mmapFound, hb, ok_bind, pnMemoryWrite, hstore]
      exact ⟨_, _, rfl⟩
  · obtain ⟨found, hsearch, e⟩ := bind_eq_ok.mp e
    cases found with
    | some s => exact absurd (mmapCallSearch_some hs hpos hsearch).1 (hno _)
    | none =>
      obtain ⟨h₁, hg, e⟩ := bind_eq_ok.mp e
      obtain ⟨-, -, -, rfl⟩ := growHeap_spec hg
      have hf := mmapFound_spec e
      refine ⟨mmapFound_returned e, ?_, hf.heapStart, hf.heapEnd⟩
      rw [hf.stored]
      exact Nat.mod_eq_of_lt hlt

/-- A heap of three pages behind a mapped one. -/
def demoHeap : PNGuestHeap := ⟨demoMib, 4096, 16384, ⟨8, Function.update (fun _ => 0) 0 3⟩⟩

/-- Page 1 of the heap is mapped, so one page is found at page 2. -/
theorem mmap_first_fit_page : ∃ r h', pnBuiltinNaclIrtMemoryMmap demoHeap (2 ^ 20) (mmapArgs 100) = .ok (r, h') ∧
    MmapReturns demoHeap h' 1024 8192 16384 r := by
  have hleast : IsLeast {addr | FreeRunAt demoHeap (mmapPages (mmapArgs 100)) addr} 8192 := by
    constructor
    · refine ⟨by decide, by decide, by decide, fun p hp hp' => ?_⟩
      have hp2 : p = 2 := by
        have : mmapPages (mmapArgs 100) = 1 := by decide
        omega
      subst hp2
      decide
    · intro addr haddr
      by_contra hlt
      have hal := haddr.aligned
      have hlow : 4096 ≤ addr := haddr.low
      have haddr' : addr = 4096 := by omega
      subst haddr'
      have := haddr.free 1 (by decide) (by decide)
      revert this
      decide
  have hargs : (mmapArgs 100).length = 6 := rfl
  have h : _ ∧ (_ → _ → ∃ r h', pnBuiltinNaclIrtMemoryMmap demoHeap (2 ^ 20) (mmapArgs 100) = .ok (r, h')) :=
    (mmap_first_fit hargs (by decide) (by decide) (by decide) (by decide) (by decide)).1 8192 hleast
  obtain ⟨r, h', e⟩ := h.2 (by decide) (by decide)
  exact ⟨r, h', e, h.1 r h' e⟩

end Pnacl
