import Pnacl.Lib.Words
import Pnacl.Record
import Pnacl.Thread

/-!
# The storage of abbreviations

`pn_abbrevs_allocate` keeps the `PNAbbrev` objects of a list and the operations of all of them in one block, the objects first. A
new abbreviation makes the block longer (or moves it to a new chunk), moves the operations up by one object and computes the `ops`
pointers again from the `num_ops` fields.

What is stored is a list of lists of operations, an operation being the value of its 8 bytes: `HeadersAt` says where the objects
point to, `WordsAt` what the operations are, and `AbbrevsStored` that the block ends where the head chunk's `current` is.
-/

namespace Pnacl

open Lib

/-- `sizeof(PNAbbrev)` and `sizeof(PNAbbrevOp)`; `ops` is at offset 8 of a `PNAbbrev`. -/
def PNAbbrev.sizeof : Nat := 16
def PNAbbrevOp.sizeof : Nat := 8

/-- `PNAbbrevs`. -/
structure PNAbbrevs where
  numAbbrevs : Nat
  abbrevs : Nat
deriving Repr, DecidableEq

/-- A `PNAbbrevs`, the allocator of its block and memory. -/
structure PNAbbrevStore where
  allocator : PNAllocator
  mem : Nat → UInt8
  abbrevs : PNAbbrevs

/-- The loop over `num_abbrevs` abbreviations that computes the pointers; the abbreviation behind them and
`ops` are returned too. -/
def setAbbrevOps : Nat → (Nat → UInt8) → Nat → Nat → (Nat → UInt8) × Nat × Nat
  | 0, mem, ab, ops => (mem, ab, ops)
  | n + 1, mem, ab, ops =>
    let mem := storeBytes mem (ab + 8) 8 ops
    let ops := (ops + loadBytes mem ab 4 * PNAbbrevOp.sizeof) % 2 ^ 64
    setAbbrevOps n mem ((ab + PNAbbrev.sizeof) % 2 ^ 64) ops

/-- `pn_abbrevs_allocate`. -/
def pnAbbrevsAllocate (malloc : Nat → Nat) (s : PNAbbrevStore) (numOps : Nat) : Except Stop (Nat × PNAbbrevStore) := do
  let numAbbrevs := s.abbrevs.numAbbrevs
  let addSize := PNAbbrev.sizeof + numOps * PNAbbrevOp.sizeof
  let lastSize := if s.abbrevs.abbrevs ≠ 0 then pnAllocatorLastAllocSize s.allocator else 0
  let r ← pnAllocatorReallocAdd malloc s.allocator s.mem s.abbrevs.abbrevs addSize PN_DEFAULT_ALIGN
  let allOpsSize := (lastSize + 2 ^ 64 - PNAbbrev.sizeof * numAbbrevs) % 2 ^ 64
  let prevOps := (r.p + PNAbbrev.sizeof * numAbbrevs) % 2 ^ 64
  let ops := (prevOps + PNAbbrev.sizeof) % 2 ^ 64
  let mem := copyBytes r.mem ops prevOps allOpsSize
  let (mem, ab, ops) := setAbbrevOps numAbbrevs mem r.p ops
  let mem := storeBytes mem ab 4 numOps
  let mem := storeBytes mem (ab + 8) 8 ops
  .ok (ab, ⟨r.allocator, mem, ⟨(numAbbrevs + 1) % 2 ^ 32, r.p⟩⟩)

/-- The loop of `pn_abbrev_copy` from `i` on; `i` is a `uint32_t`, so `2 ^ 32` steps are never too few. -/
def copyAbbrevOps (srcAbbrev destAbbrev : Nat) : Nat → Nat → (Nat → UInt8) → (Nat → UInt8)
  | 0, _, mem => mem
  | fuel + 1, i, mem =>
    if i < loadBytes mem srcAbbrev 4 then
      copyAbbrevOps srcAbbrev destAbbrev fuel (i + 1)
        (copyBytes mem (loadBytes mem (destAbbrev + 8) 8 + PNAbbrevOp.sizeof * i)
          (loadBytes mem (srcAbbrev + 8) 8 + PNAbbrevOp.sizeof * i) PNAbbrevOp.sizeof)
    else mem

/-- `pn_abbrev_copy`. -/
def pnAbbrevCopy (malloc : Nat → Nat) (s : PNAbbrevStore) (srcAbbrev : Nat) : Except Stop PNAbbrevStore := do
  let (destAbbrev, s) ← pnAbbrevsAllocate malloc s (loadBytes s.mem srcAbbrev 4)
  .ok { s with mem := copyAbbrevOps srcAbbrev destAbbrev (2 ^ 32) 0 s.mem }

/-! ## Objects in memory -/

variable {mem mem' : Nat → UInt8} {a a' o p : Nat} {l : List (List Nat)} {ops : List Nat}

/-- The `num_ops` fields. -/
def CountsAt (mem : Nat → UInt8) : Nat → List (List Nat) → Prop
  | _, [] => True
  | a, ops :: l => loadBytes mem a 4 = ops.length ∧ CountsAt mem (a + 16) l

/-- The objects from `a` on; their operations lie one after another from `o` on. -/
def HeadersAt (mem : Nat → UInt8) : Nat → Nat → List (List Nat) → Prop
  | _, _, [] => True
  | a, o, ops :: l => loadBytes mem a 4 = ops.length ∧ loadBytes mem (a + 8) 8 = o ∧
      HeadersAt mem (a + 16) (o + 8 * ops.length) l

theorem HeadersAt.counts (h : HeadersAt mem a o l) : CountsAt mem a l := by
  induction l generalizing a o with
  | nil => trivial
  | cons ops l ih => exact ⟨h.1, ih h.2.2⟩

theorem CountsAt.move (h : CountsAt mem a l) (hm : ∀ i, i < 16 * l.length → mem' (a' + i) = mem (a + i)) :
    CountsAt mem' a' l := by
  induction l generalizing a a' with
  | nil => trivial
  | cons ops l ih =>
    rw [List.length_cons] at hm
    refine ⟨(loadBytes_move fun i hi => hm i (by omega)).trans h.1, ih h.2 fun i hi => ?_⟩
    rw [Nat.add_assoc, Nat.add_assoc]
    exact hm (16 + i) (by omega)

theorem HeadersAt.congr (h : HeadersAt mem a o l) (hm : SameBytes mem mem' a (a + 16 * l.length)) : HeadersAt mem' a o l := by
  induction l generalizing a o with
  | nil => trivial
  | cons ops l ih =>
    rw [List.length_cons] at hm
    refine ⟨?_, ?_, ih h.2.2 (hm.mono (by omega) (by omega))⟩
    · rw [← h.1]
      exact loadBytes_congr (hm.mono (by omega) (by omega))
    · rw [← h.2.1]
      exact loadBytes_congr (hm.mono (by omega) (by omega))

theorem headersAt_snoc : HeadersAt mem a o (l ++ [ops]) ↔ HeadersAt mem a o l ∧
    loadBytes mem (a + 16 * l.length) 4 = ops.length ∧ loadBytes mem (a + 16 * l.length + 8) 8 = o + 8 * l.flatten.length := by
  induction l generalizing a o with
  | nil => simp [HeadersAt]
  | cons ops' l ih =>
    have ha : a + 16 + 16 * l.length = a + 16 * (l.length + 1) := by ring
    have ho : o + 8 * ops'.length + 8 * l.flatten.length = o + 8 * (ops'.length + l.flatten.length) := by ring
    simp only [List.cons_append, HeadersAt, ih, List.length_cons, List.flatten_cons, List.length_append, ha, ho, and_assoc]

/-- The object of one abbreviation. -/
theorem HeadersAt.get (h : HeadersAt mem a o l) {i : Nat} (hi : l[i]? = some ops) :
    loadBytes mem (a + 16 * i) 4 = ops.length ∧ loadBytes mem (a + 16 * i + 8) 8 = o + 8 * (l.take i).flatten.length := by
  induction l generalizing a o i with
  | nil => simp at hi
  | cons ops' l ih =>
    cases i with
    | zero =>
      simp only [List.getElem?_cons_zero, Option.some.injEq] at hi
      subst hi
      simpa using ⟨h.1, h.2.1⟩
    | succ i =>
      have ha : a + 16 * (i + 1) = a + 16 + 16 * i := by ring
      have ho : o + 8 * ((ops' :: l).take (i + 1)).flatten.length = o + 8 * ops'.length + 8 * (l.take i).flatten.length := by
        simp only [List.take_succ_cons, List.flatten_cons, List.length_append]
        ring
      rw [ha, ho]
      exact ih h.2.2 (by simpa using hi)

/-- The loop changes the pointers only, and makes them those of operations from `o` on. -/
theorem setAbbrevOps_spec (h : CountsAt mem a l) (ha : a + 16 * l.length < 2 ^ 64) (ho : o + 8 * l.flatten.length < 2 ^ 64) :
    ∃ mem', setAbbrevOps l.length mem a o = (mem', a + 16 * l.length, o + 8 * l.flatten.length) ∧ HeadersAt mem' a o l ∧
      ∀ i, i < a ∨ a + 16 * l.length ≤ i → mem' i = mem i := by
  induction l generalizing mem a o with
  | nil => exact ⟨mem, by simp [setAbbrevOps], trivial, fun _ _ => rfl⟩
  | cons ops l ih =>
    rw [List.length_cons] at ha
    rw [List.flatten_cons, List.length_append] at ho
    have hcount : loadBytes (storeBytes mem (a + 8) 8 o) a 4 = ops.length := by
      rw [← h.1]
      exact loadBytes_congr fun i _ hi => storeBytes_outside (by omega)
    have hrest : CountsAt (storeBytes mem (a + 8) 8 o) (a + 16) l := h.2.move fun i _ => storeBytes_outside (by omega)
    obtain ⟨mem', hloop, hheaders, hout⟩ := ih (o := o + 8 * ops.length) hrest (by omega) (by omega)
    refine ⟨mem', ?_, ⟨?_, ?_, hheaders⟩, fun i hi => ?_⟩
    · have e₁ : (a + PNAbbrev.sizeof) % 2 ^ 64 = a + 16 := Nat.mod_eq_of_lt (by simp only [PNAbbrev.sizeof]; omega)
      have e₂ : (o + ops.length * PNAbbrevOp.sizeof) % 2 ^ 64 = o + 8 * ops.length := by
        rw [Nat.mod_eq_of_lt (by simp only [PNAbbrevOp.sizeof]; omega), PNAbbrevOp.sizeof, Nat.mul_comm]
      rw [List.length_cons, setAbbrevOps]
      simp only [hcount, e₁, e₂, hloop, List.flatten_cons, List.length_append]
      refine Prod.ext rfl (Prod.ext ?_ ?_)
      · simp only; ring
      · simp only; ring
    · rw [← hcount]
      exact loadBytes_congr fun i _ hi => hout i (by omega)
    · have : loadBytes mem' (a + 8) 8 = loadBytes (storeBytes mem (a + 8) 8 o) (a + 8) 8 :=
        loadBytes_congr fun i _ hi => hout i (by omega)
      rw [this, loadBytes_storeBytes, Nat.mod_eq_of_lt (by omega)]
    · rw [List.length_cons] at hi
      rw [hout i (by omega)]
      exact storeBytes_outside (by omega)

/-! ## The allocator -/

variable {malloc : Nat → Nat} {alloc alloc' : PNAllocator} {q n numOps : Nat}

/-- All allocators are initialised with `PN_MIN_CHUNKSIZE`, so no chunk has more than 4 GiB. -/
structure PNAllocator.SmallChunks (a : PNAllocator) : Prop where
  min : a.minChunkSize ≤ 2 ^ 32
  chunks : ∀ c ∈ a.chunks, c.endp ≤ c.addr + 2 ^ 32

theorem nextPowerOfTwoLoop_le {value k r : Nat} (hv : value ≤ 2 ^ k) (hk : k < 63) : ∀ {fuel j : Nat}, j ≤ k →
    nextPowerOfTwoLoop value fuel (2 ^ j) = .ok r → r ≤ 2 ^ k
  | 0, _, _, h => by cases h
  | fuel + 1, j, hj, h => by
    unfold nextPowerOfTwoLoop at h
    split at h
    next hlt =>
      have hjk : j < k := (Nat.pow_lt_pow_iff_right (a := 2) (by omega)).mp (by omega)
      have h64 : 2 ^ (j + 1) < 2 ^ 64 := Nat.pow_lt_pow_right (by omega) (by omega)
      rw [Nat.shiftLeft_eq, ← Nat.pow_add, Nat.mod_eq_of_lt h64] at h
      exact nextPowerOfTwoLoop_le hv hk hjk h
    next =>
      cases h
      exact Nat.pow_le_pow_right (by omega) hj

theorem newChunk_small {c : PNAllocatorChunk} (hs : alloc.SmallChunks)
    (h : pnAllocatorNewChunk malloc alloc n PN_DEFAULT_ALIGN = .ok (c, alloc')) : alloc'.SmallChunks := by
  obtain ⟨hn, h⟩ := pnCheck_bind_eq_ok.mp h
  obtain ⟨size, hsize, h⟩ := bind_eq_ok.mp h
  obtain ⟨chunk, -, h⟩ := bind_eq_ok.mp h
  obtain ⟨aligned, -, h⟩ := bind_eq_ok.mp h
  obtain ⟨-, h⟩ := cAssert_bind_eq_ok.mp h
  obtain ⟨current, -, h⟩ := bind_eq_ok.mp h
  cases h
  have hmin := hs.min
  have hle : size ≤ 2 ^ 32 := by
    have hmax : max (n + PNAllocatorChunk.sizeof + PN_DEFAULT_ALIGN - 1) alloc.minChunkSize ≤ 2 ^ 32 := by
      simp only [PNAllocatorChunk.sizeof, PN_DEFAULT_ALIGN]
      omega
    exact nextPowerOfTwoLoop_le (j := 0) hmax (by omega) (by omega) hsize
  refine ⟨hmin, fun d hd => ?_⟩
  rcases List.mem_cons.mp hd with rfl | hd
  · have := Nat.mod_le (chunk + size) (2 ^ 64)
    simp only
    omega
  · exact hs.chunks d hd

theorem finish_small (hs : alloc.SmallChunks) (newCurrent lastAlloc size : Nat) :
    (alloc.finish newCurrent lastAlloc size).SmallChunks := by
  refine ⟨hs.min, fun c hc => ?_⟩
  unfold PNAllocator.finish PNAllocator.setCurrent at hc
  cases hcs : alloc.chunks with
  | nil => simp [hcs] at hc
  | cons d ds =>
    have hin := hs.chunks
    simp only [hcs, List.mem_cons] at hc hin
    rcases hc with rfl | hc
    · exact hin d (.inl rfl)
    · exact hin c (.inr hc)

theorem allocInNewChunk_small {size ret : Nat} (hs : alloc.SmallChunks)
    (h : allocInNewChunk malloc alloc size PN_DEFAULT_ALIGN = .ok (ret, alloc')) : alloc'.SmallChunks := by
  obtain ⟨⟨c, a₁⟩, hc, h⟩ := bind_eq_ok.mp h
  obtain ⟨_, -, h⟩ := bind_eq_ok.mp h
  obtain ⟨-, h⟩ := pnCheck_bind_eq_ok.mp h
  obtain ⟨-, h⟩ := cAssert_bind_eq_ok.mp h
  cases h
  exact finish_small (newChunk_small hs hc) ..

theorem reallocAdd_small {mem : Nat → UInt8} {addSize : Nat} {r : PNReallocated} (hs : alloc.SmallChunks)
    (h : pnAllocatorReallocAdd malloc alloc mem p addSize PN_DEFAULT_ALIGN = .ok r) : r.allocator.SmallChunks := by
  unfold pnAllocatorReallocAdd at h
  split at h
  next =>
    obtain ⟨⟨ret, a₁⟩, ha, h⟩ := bind_eq_ok.mp h
    cases h
    unfold pnAllocatorAlloc at ha
    split at ha
    next => exact allocInNewChunk_small hs ha
    next =>
      obtain ⟨_, -, ha⟩ := bind_eq_ok.mp ha
      obtain ⟨-, ha⟩ := pnCheck_bind_eq_ok.mp ha
      split at ha
      · exact allocInNewChunk_small hs ha
      · cases ha
        exact finish_small hs ..
  next =>
    split at h
    · cases h
    · split at h
      · cases h
      · obtain ⟨-, h⟩ := pnCheck_bind_eq_ok.mp h
        split at h
        next =>
          obtain ⟨⟨c, a₁⟩, hc, h⟩ := bind_eq_ok.mp h
          obtain ⟨-, h⟩ := cAssert_bind_eq_ok.mp h
          cases h
          exact finish_small (newChunk_small hs hc) ..
        next =>
          cases h
          exact finish_small hs ..

/-- The last block is the last one of the head chunk. -/
theorem Placed.head {R : PNAllocatorChunk → Prop} (h : Placed R alloc q n alloc') (hi : alloc.Inv) :
    0 < q ∧ alloc'.lastAlloc = q ∧ ∃ c cs, alloc'.chunks = c :: cs ∧ c.current = q + n ∧ c.addr ≤ q ∧ q + n ≤ c.endp ∧
      c.endp ≤ addressLimit := by
  have hinv := h.inv hi
  cases h with
  | inHead c cs head rel grows lo hi' chunks last min mark =>
    have hwf := hinv.wf _ (by rw [chunks]; exact List.mem_cons_self)
    simp only [PNAllocatorChunk.sizeof] at lo
    exact ⟨by omega, last, _, cs, chunks, rfl, by simp only; omega, hi', hwf.end_le⟩
  | inNew c wf disjoint lo hi' chunks last min mark =>
    simp only [PNAllocatorChunk.sizeof] at lo
    exact ⟨by omega, last, _, alloc.chunks, chunks, rfl, by simp only; omega, hi', wf.end_le⟩

/-! ## Allocating an abbreviation -/

/-- What is stored: the objects are followed by their operations, and the block with both is the last one of the allocator. -/
structure AbbrevsStored (s : PNAbbrevStore) (l : List (List Nat)) : Prop where
  allocator : s.allocator.Inv
  small : s.allocator.SmallChunks
  num : s.abbrevs.numAbbrevs = l.length
  unallocated : l = [] → s.abbrevs.abbrevs = 0
  block : l ≠ [] → s.abbrevs.abbrevs ≠ 0 ∧ s.abbrevs.abbrevs = s.allocator.lastAlloc ∧
    ∃ c cs, s.allocator.chunks = c :: cs ∧ c.current = s.abbrevs.abbrevs + (16 * l.length + 8 * l.flatten.length)
  headers : HeadersAt s.mem s.abbrevs.abbrevs (s.abbrevs.abbrevs + 16 * l.length) l
  ops : WordsAt s.mem 8 (s.abbrevs.abbrevs + 16 * l.length) l.flatten

theorem AbbrevsStored.lastSize {s : PNAbbrevStore} (h : AbbrevsStored s l) :
    (if s.abbrevs.abbrevs ≠ 0 then pnAllocatorLastAllocSize s.allocator else 0) = 16 * l.length + 8 * l.flatten.length := by
  by_cases hl : l = []
  · simp [hl, h.unallocated hl]
  · obtain ⟨h0, hlast, c, cs, hcs, hcur⟩ := h.block hl
    have hwf := h.allocator.wf c (by rw [hcs]; exact List.mem_cons_self)
    have h₁ := hwf.current_le
    have h₂ := hwf.end_le
    rw [if_pos h0, pnAllocatorLastAllocSize, hcs]
    simp only [addressLimit] at h₂ ⊢
    rw [← hlast]
    omega

/-- The block behind the reallocation, with the bytes that it had. -/
theorem AbbrevsStored.realloc {s : PNAbbrevStore} (h : AbbrevsStored s l) (hm : MallocOk malloc s.allocator.chunks)
    (hn : numOps < 2 ^ 32) {r : PNReallocated}
    (hr : pnAllocatorReallocAdd malloc s.allocator s.mem s.abbrevs.abbrevs (PNAbbrev.sizeof + numOps * PNAbbrevOp.sizeof)
      PN_DEFAULT_ALIGN = .ok r) :
    (∃ R, Placed R s.allocator r.p (16 * (l.length + 1) + 8 * (l.flatten.length + numOps)) r.allocator) ∧
      ∀ i, i < 16 * l.length + 8 * l.flatten.length → r.mem (r.p + i) = s.mem (s.abbrevs.abbrevs + i) := by
  have halign : IsAlign PN_DEFAULT_ALIGN := ⟨⟨3, rfl⟩, by decide⟩
  have hsize : PNAbbrev.sizeof + numOps * PNAbbrevOp.sizeof < 2 ^ 64 := by
    simp only [PNAbbrev.sizeof, PNAbbrevOp.sizeof]
    omega
  have hadd : ∀ k, k + (PNAbbrev.sizeof + numOps * PNAbbrevOp.sizeof) = k + 16 + 8 * numOps := fun k => by
    simp only [PNAbbrev.sizeof, PNAbbrevOp.sizeof]
    omega
  by_cases hl : l = []
  · subst hl
    rw [h.unallocated rfl] at hr
    unfold pnAllocatorReallocAdd at hr
    rw [if_pos rfl] at hr
    obtain ⟨⟨q, a⟩, ha, hr⟩ := bind_eq_ok.mp hr
    cases hr
    have hp := ((alloc_spec h.allocator hm halign hsize).of_ok ha).2
    refine ⟨⟨fun c => c.current ≤ q, ?_⟩, fun i hi => by simp at hi⟩
    have e : 16 * (([] : List (List Nat)).length + 1) + 8 * (([] : List (List Nat)).flatten.length + numOps) =
        PNAbbrev.sizeof + numOps * PNAbbrevOp.sizeof := by
      have := hadd 0
      simp only [List.length_nil, List.flatten_nil]
      omega
    rw [e]
    exact hp
  · obtain ⟨h0, hlast, -⟩ := h.block hl
    have hsz := h.lastSize
    rw [if_pos h0] at hsz
    obtain ⟨-, -, hp, hmem, -⟩ := (realloc_spec h.allocator hm halign hsize s.mem h0).of_ok hr
    rw [hsz] at hp hmem
    refine ⟨⟨fun _ => r.p = s.abbrevs.abbrevs, ?_⟩, hmem⟩
    have e : 16 * (l.length + 1) + 8 * (l.flatten.length + numOps) =
        16 * l.length + 8 * l.flatten.length + (PNAbbrev.sizeof + numOps * PNAbbrevOp.sizeof) := by
      rw [hadd]
      omega
    rw [e]
    exact hp

/-- **`pn_abbrevs_allocate`** adds an abbreviation with room for `num_ops` operations and keeps the others. -/
theorem AbbrevsStored.allocate {s s' : PNAbbrevStore} {ab : Nat} (h : AbbrevsStored s l)
    (hm : MallocOk malloc s.allocator.chunks) (hn : numOps < 2 ^ 32) (ha : pnAbbrevsAllocate malloc s numOps = .ok (ab, s')) :
    ab = s'.abbrevs.abbrevs + 16 * l.length ∧ ∃ ops, ops.length = numOps ∧ AbbrevsStored s' (l ++ [ops]) := by
  unfold pnAbbrevsAllocate at ha
  simp only [h.lastSize, h.num] at ha
  obtain ⟨r, hr, ha⟩ := bind_eq_ok.mp ha
  obtain ⟨⟨R, hp⟩, hkept⟩ := h.realloc hm hn hr
  have hsmall := reallocAdd_small h.small hr
  obtain ⟨hpos, hlast, c, cs, hcs, hcur, haddr, hend, hlimit⟩ := hp.head h.allocator
  have hchunk := hsmall.chunks c (by rw [hcs]; exact List.mem_cons_self)
  simp only [addressLimit] at hlimit
  -- no address wraps
  have e₁ : (16 * l.length + 8 * l.flatten.length + 2 ^ 64 - PNAbbrev.sizeof * l.length) % 2 ^ 64 = 8 * l.flatten.length := by
    simp only [PNAbbrev.sizeof]
    omega
  have e₂ : (r.p + PNAbbrev.sizeof * l.length) % 2 ^ 64 = r.p + 16 * l.length :=
    Nat.mod_eq_of_lt (by simp only [PNAbbrev.sizeof]; omega)
  have e₃ : (r.p + 16 * l.length + PNAbbrev.sizeof) % 2 ^ 64 = r.p + 16 * (l.length + 1) := by
    rw [Nat.mod_eq_of_lt (by simp only [PNAbbrev.sizeof]; omega), PNAbbrev.sizeof, Nat.add_assoc]
    rfl
  rw [e₁, e₂, e₃] at ha
  have hcounts : CountsAt (copyBytes r.mem (r.p + 16 * (l.length + 1)) (r.p + 16 * l.length) (8 * l.flatten.length)) r.p l := by
    refine h.headers.counts.move fun i hi => ?_
    rw [copyBytes_outside (by omega)]
    exact hkept i (by omega)
  have hops : WordsAt (copyBytes r.mem (r.p + 16 * (l.length + 1)) (r.p + 16 * l.length) (8 * l.flatten.length)) 8
      (r.p + 16 * (l.length + 1)) l.flatten := by
    refine h.ops.move fun i hi => ?_
    rw [copyBytes_inside hi, Nat.add_assoc, Nat.add_assoc]
    exact hkept _ (by omega)
  generalize copyBytes r.mem (r.p + 16 * (l.length + 1)) (r.p + 16 * l.length) (8 * l.flatten.length) = mem₁
    at ha hcounts hops
  obtain ⟨mem₂, hloop, hheaders, hout⟩ := setAbbrevOps_spec (o := r.p + 16 * (l.length + 1)) hcounts (by omega) (by omega)
  rw [hloop] at ha
  cases ha
  have hnum : (l.length + 1) % 2 ^ 32 = l.length + 1 := Nat.mod_eq_of_lt (by omega)
  have hlen (ops : List Nat) : (l ++ [ops]).length = l.length + 1 := by simp
  have hflat (ops : List Nat) : (l ++ [ops]).flatten.length = l.flatten.length + ops.length := by simp
  -- behind the two stores
  have hkeep : ∀ i, i < r.p + 16 * l.length ∨ r.p + 16 * (l.length + 1) ≤ i →
      storeBytes (storeBytes mem₂ (r.p + 16 * l.length) 4 numOps) (r.p + 16 * l.length + 8) 8
        (r.p + 16 * (l.length + 1) + 8 * l.flatten.length) i = mem₂ i := by
    intro i hi
    rw [storeBytes_outside (by omega), storeBytes_outside (by omega)]
  have hcount : loadBytes (storeBytes (storeBytes mem₂ (r.p + 16 * l.length) 4 numOps) (r.p + 16 * l.length + 8) 8
      (r.p + 16 * (l.length + 1) + 8 * l.flatten.length)) (r.p + 16 * l.length) 4 = numOps := by
    rw [loadBytes_congr (m := storeBytes mem₂ (r.p + 16 * l.length) 4 numOps) fun i _ hi => storeBytes_outside (by omega),
      loadBytes_storeBytes, Nat.mod_eq_of_lt hn]
  have hpointer : loadBytes (storeBytes (storeBytes mem₂ (r.p + 16 * l.length) 4 numOps) (r.p + 16 * l.length + 8) 8
      (r.p + 16 * (l.length + 1) + 8 * l.flatten.length)) (r.p + 16 * l.length + 8) 8 =
        r.p + 16 * (l.length + 1) + 8 * l.flatten.length := by
    rw [loadBytes_storeBytes, Nat.mod_eq_of_lt (by omega)]
  generalize storeBytes (storeBytes mem₂ (r.p + 16 * l.length) 4 numOps) (r.p + 16 * l.length + 8) 8
    (r.p + 16 * (l.length + 1) + 8 * l.flatten.length) = mem₃ at hkeep hcount hpointer ⊢
  refine ⟨rfl, loadWords mem₃ 8 (r.p + 16 * (l.length + 1) + 8 * l.flatten.length) numOps, loadWords_length .., ?_⟩
  refine ⟨hp.inv h.allocator, hsmall, ?_, fun hnil => by simp at hnil, fun _ => ⟨?_, hlast.symm, c, cs, hcs, ?_⟩, ?_, ?_⟩
  · rw [hlen]
    exact hnum
  · simp only
    omega
  · rw [hlen, hflat, loadWords_length]
    exact hcur
  · rw [hlen, headersAt_snoc, loadWords_length]
    exact ⟨hheaders.congr fun i _ hi => hkeep i (.inl hi), hcount, hpointer⟩
  · rw [hlen, List.flatten_append, List.flatten_singleton, wordsAt_append]
    refine ⟨hops.congr fun i hi _ => ?_, wordsAt_loadWords ..⟩
    exact (hkeep i (.inr hi)).trans (hout i (.inr (by omega)))

/-! ## Writing operations -/

/-- A change of the last abbreviation's operation `i`. -/
theorem AbbrevsStored.write {s : PNAbbrevStore} {i : Nat} (h : AbbrevsStored s (l ++ [ops])) (hi : i < ops.length)
    (mem' : Nat → UInt8) (hm : ∀ j, j < s.abbrevs.abbrevs + 16 * (l.length + 1) + 8 * l.flatten.length + 8 * i ∨
      s.abbrevs.abbrevs + 16 * (l.length + 1) + 8 * l.flatten.length + 8 * i + 8 ≤ j → mem' j = s.mem j) :
    ∃ ops', ops' = ops.set i (loadBytes mem' (s.abbrevs.abbrevs + 16 * (l.length + 1) + 8 * l.flatten.length + 8 * i) 8) ∧
      AbbrevsStored { s with mem := mem' } (l ++ [ops']) := by
  have hlen (ops : List Nat) : (l ++ [ops]).length = l.length + 1 := by simp
  have hblock := h.block (by simp)
  have hheaders := h.headers
  have hops := h.ops
  have hnum := h.num
  rw [hlen] at hblock hheaders hops hnum
  rw [List.flatten_append, List.flatten_singleton] at hblock hops
  obtain ⟨hold, hnew⟩ := wordsAt_append.mp hops
  have hlength : (ops.set i (loadBytes mem' (s.abbrevs.abbrevs + 16 * (l.length + 1) + 8 * l.flatten.length + 8 * i) 8)).length =
      ops.length := by simp
  refine ⟨_, rfl, h.allocator, h.small, ?_, fun hnil => by simp at hnil, fun _ => ?_, ?_, ?_⟩
  · rw [hlen]
    exact hnum
  · rw [hlen, List.flatten_append, List.flatten_singleton, List.length_append, hlength, ← List.length_append]
    exact hblock
  · rw [hlen, headersAt_snoc, hlength, ← headersAt_snoc]
    refine hheaders.congr fun j _ hj => hm j (.inl ?_)
    rw [hlen] at hj
    omega
  · rw [hlen, List.flatten_append, List.flatten_singleton, wordsAt_append]
    exact ⟨hold.congr fun j _ hj => hm j (.inl (by omega)), hnew.update hi hm⟩

/-- The object of the last abbreviation. -/
theorem AbbrevsStored.last {s : PNAbbrevStore} (h : AbbrevsStored s (l ++ [ops])) :
    loadBytes s.mem (s.abbrevs.abbrevs + 16 * l.length) 4 = ops.length ∧
      loadBytes s.mem (s.abbrevs.abbrevs + 16 * l.length + 8) 8 =
        s.abbrevs.abbrevs + 16 * (l.length + 1) + 8 * l.flatten.length := by
  have hheaders := h.headers
  rw [List.length_append, List.length_singleton, headersAt_snoc] at hheaders
  exact hheaders.2

/-- The loop of `pn_abbrev_copy` writes operations of the new abbreviation, when the `num_ops` field that it reads stays as it is. -/
theorem AbbrevsStored.copyOps {s : PNAbbrevStore} (src : Nat) : ∀ (fuel i : Nat) {mem : Nat → UInt8} {ops : List Nat},
    AbbrevsStored { s with mem := mem } (l ++ [ops]) →
    (∀ fuel, loadBytes (copyAbbrevOps src (s.abbrevs.abbrevs + 16 * l.length) fuel i mem) src 4 = ops.length) →
    ∃ ops', ops'.length = ops.length ∧
      AbbrevsStored { s with mem := copyAbbrevOps src (s.abbrevs.abbrevs + 16 * l.length) fuel i mem } (l ++ [ops'])
  | 0, _, _, ops, h, _ => ⟨ops, rfl, h⟩
  | fuel + 1, i, mem, ops, h, hk => by
    have h0 : loadBytes mem src 4 = ops.length := hk 0
    simp only [copyAbbrevOps]
    split
    next hi =>
      rw [h0] at hi
      obtain ⟨-, hpointer⟩ := h.last
      dsimp only at hpointer
      rw [hpointer]
      obtain ⟨ops₁, hops₁, h₁⟩ := h.write hi (copyBytes mem (s.abbrevs.abbrevs + 16 * (l.length + 1) + 8 * l.flatten.length +
        PNAbbrevOp.sizeof * i) (loadBytes mem (src + 8) 8 + PNAbbrevOp.sizeof * i) PNAbbrevOp.sizeof)
        fun j hj => copyBytes_outside hj
      have hlength : ops₁.length = ops.length := by simp [hops₁]
      obtain ⟨ops', hlen', h'⟩ := copyOps src fuel (i + 1) h₁ fun fuel => by
        have := hk (fuel + 1)
        simp only [copyAbbrevOps, h0, if_pos hi, hpointer] at this
        rw [hlength]
        exact this
      exact ⟨ops', hlen'.trans hlength, h'⟩
    next => exact ⟨ops, rfl, h⟩

/-! ## Runs -/

/-- `abbrevs[i].ops`. -/
def PNAbbrevStore.opsPointer (s : PNAbbrevStore) (i : Nat) : Nat :=
  loadBytes s.mem (s.abbrevs.abbrevs + PNAbbrev.sizeof * i + 8) 8

/-- A call, or the caller storing an operation of the abbreviation that it was given last. -/
inductive PNAbbrevCall where
  | allocate (malloc : Nat → Nat) (numOps : Nat)
  | copy (malloc : Nat → Nat) (srcAbbrev : Nat)
  | write (index op : Nat)

def PNAbbrevCall.exec (s : PNAbbrevStore) : PNAbbrevCall → Except Stop PNAbbrevStore
  | .allocate malloc numOps => do
    let (_, s) ← pnAbbrevsAllocate malloc s numOps
    .ok s
  | .copy malloc srcAbbrev => pnAbbrevCopy malloc s srcAbbrev
  | .write index op =>
    .ok { s with mem := storeBytes s.mem (s.opsPointer (s.abbrevs.numAbbrevs - 1) + PNAbbrevOp.sizeof * index) 8 op }

/-- What is promised of a call: `malloc` keeps to its contract, the numbers have the width of their types, and no more than `num_ops`
operations are written. For `pn_abbrev_copy` that is: writing them does not change the `num_ops` field of the source. -/
def PNAbbrevCall.Promised (s : PNAbbrevStore) : PNAbbrevCall → Prop
  | .allocate malloc numOps => MallocOk malloc s.allocator.chunks ∧ numOps < 2 ^ 32
  | .copy malloc srcAbbrev => MallocOk malloc s.allocator.chunks ∧
    ∀ ab s', pnAbbrevsAllocate malloc s (loadBytes s.mem srcAbbrev 4) = .ok (ab, s') →
      ∀ fuel, loadBytes (copyAbbrevOps srcAbbrev ab fuel 0 s'.mem) srcAbbrev 4 = loadBytes s.mem srcAbbrev 4
  | .write index op => 0 < s.abbrevs.numAbbrevs ∧ op < 2 ^ 64 ∧
    index < loadBytes s.mem (s.abbrevs.abbrevs + PNAbbrev.sizeof * (s.abbrevs.numAbbrevs - 1)) 4

/-- The states of the runs that start with an empty list, in any state of the allocator. -/
inductive AbbrevRun : PNAbbrevStore → Prop where
  | init {alloc : PNAllocator} {mem : Nat → UInt8} (hi : alloc.Inv) (hs : alloc.SmallChunks) : AbbrevRun ⟨alloc, mem, ⟨0, 0⟩⟩
  | step {s s' : PNAbbrevStore} (call : PNAbbrevCall) (h : AbbrevRun s) (hp : call.Promised s) (hx : call.exec s = .ok s') :
      AbbrevRun s'

/-- The loop of `pn_abbrev_copy` stays within the operations at `d`, so it does not change a field that is apart from them. -/
theorem copyAbbrevOps_apart {src ab d n : Nat} (hs : src + 4 ≤ d ∨ d + 8 * n ≤ src) (hab : ab + 16 ≤ d ∨ d + 8 * n ≤ ab)
    (fuel i : Nat) {mem : Nat → UInt8} (hd : loadBytes mem (ab + 8) 8 = d) (hn : loadBytes mem src 4 = n) :
    loadBytes (copyAbbrevOps src ab fuel i mem) src 4 = n := by
  induction fuel generalizing i mem with
  | zero => exact hn
  | succ fuel ih =>
    simp only [copyAbbrevOps]
    split
    next hi =>
      rw [hd]
      rw [hn] at hi
      have hout : ∀ j, j < d ∨ d + 8 * n ≤ j → copyBytes mem (d + PNAbbrevOp.sizeof * i)
          (loadBytes mem (src + 8) 8 + PNAbbrevOp.sizeof * i) PNAbbrevOp.sizeof j = mem j := by
        intro j hj
        refine copyBytes_outside ?_
        simp only [PNAbbrevOp.sizeof]
        omega
      generalize copyBytes mem (d + PNAbbrevOp.sizeof * i) (loadBytes mem (src + 8) 8 + PNAbbrevOp.sizeof * i)
        PNAbbrevOp.sizeof = mem₁ at hout ⊢
      have hd₁ : loadBytes mem₁ (ab + 8) 8 = d := by
        rw [← hd]
        exact loadBytes_congr fun j _ hj => hout j (by omega)
      have hn₁ : loadBytes mem₁ src 4 = n := by
        rw [← hn]
        exact loadBytes_congr fun j _ hj => hout j (by omega)
      exact ih (i + 1) hd₁ hn₁
    next => exact hn

/-- The promise about a source that `pn_abbrevs_allocate` leaves alone, apart from the operations of the new abbreviation. -/
theorem PNAbbrevCall.copy_promised {s : PNAbbrevStore} {src : Nat} (hs : AbbrevsStored s l)
    (hm : MallocOk malloc s.allocator.chunks)
    (hsrc : ∀ ab s', pnAbbrevsAllocate malloc s (loadBytes s.mem src 4) = .ok (ab, s') →
      loadBytes s'.mem src 4 = loadBytes s.mem src 4 ∧
      (src + 4 ≤ loadBytes s'.mem (ab + 8) 8 ∨
        loadBytes s'.mem (ab + 8) 8 + 8 * loadBytes s.mem src 4 ≤ src)) :
    (PNAbbrevCall.copy malloc src).Promised s := by
  refine ⟨hm, fun ab s' ha fuel => ?_⟩
  obtain ⟨hkept, hapart⟩ := hsrc ab s' ha
  obtain ⟨rfl, ops, -, hs'⟩ := hs.allocate hm (loadBytes_lt s.mem src 4) ha
  refine copyAbbrevOps_apart hapart (.inl ?_) fuel 0 rfl hkept
  rw [hs'.last.2]
  omega

/-- What a call does to what is stored. -/
def PNAbbrevCall.Changes (s : PNAbbrevStore) (call : PNAbbrevCall) (l l' : List (List Nat)) : Prop :=
  match call with
  | .allocate _ numOps => ∃ ops, ops.length = numOps ∧ l' = l ++ [ops]
  | .copy _ srcAbbrev => ∃ ops, ops.length = loadBytes s.mem srcAbbrev 4 ∧ l' = l ++ [ops]
  | .write index op => ∃ l₀ ops, l = l₀ ++ [ops] ∧ l' = l₀ ++ [ops.set index op]

/-- **Step.** -/
theorem AbbrevsStored.step {s s' : PNAbbrevStore} {call : PNAbbrevCall} (h : AbbrevsStored s l) (hp : call.Promised s)
    (hx : call.exec s = .ok s') : ∃ l', call.Changes s l l' ∧ AbbrevsStored s' l' := by
  cases call with
  | allocate malloc numOps =>
    obtain ⟨⟨ab, s₁⟩, ha, hx⟩ := bind_eq_ok.mp hx
    cases hx
    obtain ⟨-, ops, hlen, hs⟩ := h.allocate hp.1 hp.2 ha
    exact ⟨_, ⟨ops, hlen, rfl⟩, hs⟩
  | copy malloc srcAbbrev =>
    obtain ⟨⟨ab, s₁⟩, ha, hx⟩ := bind_eq_ok.mp hx
    dsimp only at hx
    injection hx with hx
    subst hx
    obtain ⟨hab, ops, hlen, hs⟩ := h.allocate hp.1 (loadBytes_lt s.mem srcAbbrev 4) ha
    subst hab
    obtain ⟨ops', hlen', hs'⟩ := hs.copyOps srcAbbrev (2 ^ 32) 0 fun fuel =>
      (hp.2 _ _ ha fuel).trans hlen.symm
    exact ⟨_, ⟨ops', hlen'.trans hlen, rfl⟩, hs'⟩
  | write index op =>
    cases hx
    obtain ⟨hpos, hop, hindex⟩ := hp
    rcases List.eq_nil_or_concat l with rfl | ⟨l₀, ops, rfl⟩
    · rw [h.num] at hpos
      cases hpos
    · rw [List.concat_eq_append] at h ⊢
      have hnum : s.abbrevs.numAbbrevs - 1 = l₀.length := by
        rw [h.num]
        simp
      obtain ⟨hcount, hpointer⟩ := h.last
      rw [hnum, show PNAbbrev.sizeof = 16 from rfl, hcount] at hindex
      rw [PNAbbrevStore.opsPointer, hnum, show PNAbbrev.sizeof = 16 from rfl, hpointer]
      obtain ⟨ops', hops', hs⟩ := h.write hindex (storeBytes s.mem (s.abbrevs.abbrevs + 16 * (l₀.length + 1) +
        8 * l₀.flatten.length + 8 * index) 8 op) fun j hj => storeBytes_outside hj
      rw [loadBytes_storeBytes, Nat.mod_eq_of_lt hop] at hops'
      exact ⟨_, ⟨l₀, ops, rfl, rfl⟩, hops' ▸ hs⟩

theorem AbbrevRun.stored {s : PNAbbrevStore} (h : AbbrevRun s) : ∃ l, AbbrevsStored s l := by
  induction h with
  | init hi hs => exact ⟨[], hi, hs, rfl, fun _ => rfl, fun hne => absurd rfl hne, trivial, trivial⟩
  | step call _ hp hx ih =>
    obtain ⟨l, hl⟩ := ih
    obtain ⟨l', -, hl'⟩ := hl.step hp hx
    exact ⟨l', hl'⟩

/-- What a reader of the abbreviations sees: the fields, the operations behind each `ops` pointer, and where the arrays are. -/
structure AbbrevsRead (s : PNAbbrevStore) (l : List (List Nat)) : Prop where
  num : s.abbrevs.numAbbrevs = l.length
  numOps : ∀ i ops, l[i]? = some ops → loadBytes s.mem (s.abbrevs.abbrevs + PNAbbrev.sizeof * i) 4 = ops.length
  ops : ∀ i ops j op, l[i]? = some ops → ops[j]? = some op →
    loadBytes s.mem (s.opsPointer i + PNAbbrevOp.sizeof * j) 8 = op
  /-- The first array is directly behind the objects. -/
  first : l ≠ [] → s.opsPointer 0 = s.abbrevs.abbrevs + PNAbbrev.sizeof * l.length
  /-- Each array is directly behind the one before. -/
  next : ∀ i ops, l[i]? = some ops → i + 1 < l.length → s.opsPointer (i + 1) = s.opsPointer i + PNAbbrevOp.sizeof * ops.length
  /-- The objects end in front of every array, and no two arrays overlap. -/
  objects : ∀ i ops, l[i]? = some ops → s.abbrevs.abbrevs + PNAbbrev.sizeof * l.length ≤ s.opsPointer i
  disjoint : ∀ i j ops ops', i < j → l[i]? = some ops → l[j]? = some ops' →
    s.opsPointer i + PNAbbrevOp.sizeof * ops.length ≤ s.opsPointer j
  /-- The last allocation has them all. -/
  block : l ≠ [] → s.abbrevs.abbrevs = s.allocator.lastAlloc ∧ ∀ i ops, l[i]? = some ops →
    s.opsPointer i + PNAbbrevOp.sizeof * ops.length ≤ s.abbrevs.abbrevs + pnAllocatorLastAllocSize s.allocator

/-- The operations of the first abbreviations are some of all. -/
theorem take_flatten_le {l : List (List Nat)} {i : Nat} (hi : l[i]? = some ops) :
    (l.take (i + 1)).flatten.length = (l.take i).flatten.length + ops.length ∧
      ∀ j, i < j → (l.take (i + 1)).flatten.length ≤ (l.take j).flatten.length := by
  constructor
  · rw [List.take_add_one, hi]
    simp
  · intro j hj
    obtain ⟨k, rfl⟩ := Nat.exists_eq_add_of_le hj
    rw [show i.succ + k = i + 1 + k from rfl, List.take_add (i := i + 1), List.flatten_append, List.length_append]
    exact Nat.le_add_right ..

theorem AbbrevsStored.read {s : PNAbbrevStore} (h : AbbrevsStored s l) : AbbrevsRead s l := by
  have hget : ∀ i ops, l[i]? = some ops → loadBytes s.mem (s.abbrevs.abbrevs + 16 * i) 4 = ops.length ∧
      s.opsPointer i = s.abbrevs.abbrevs + 16 * l.length + 8 * (l.take i).flatten.length :=
    fun i ops hi => h.headers.get hi
  have hsplit (i : Nat) : l.flatten = (l.take i).flatten ++ (l.drop i).flatten := by
    rw [← List.flatten_append, List.take_append_drop]
  have hall (i : Nat) : (l.take i).flatten.length ≤ l.flatten.length := by
    rw [hsplit i, List.length_append]
    exact Nat.le_add_right ..
  refine ⟨h.num, fun i ops hi => (hget i ops hi).1, ?_, fun hne => ?_, ?_, ?_, ?_, fun hne => ⟨(h.block hne).2.1, ?_⟩⟩
  · intro i ops j op hi hj
    rw [(hget i ops hi).2]
    have hk : l.flatten[(l.take i).flatten.length + j]? = some op := by
      have hd : l.drop i = ops :: l.drop (i + 1) := by
        obtain ⟨hlt, rfl⟩ := List.getElem?_eq_some_iff.mp hi
        exact List.drop_eq_getElem_cons hlt
      rw [hsplit i, List.getElem?_append_right (by omega), Nat.add_sub_cancel_left, hd, List.flatten_cons, List.getElem?_append_left]
      · exact hj
      · exact (List.getElem?_eq_some_iff.mp hj).1
    have := h.ops.get hk
    rw [← this]
    simp only [PNAbbrevOp.sizeof]
    congr 1
    ring
  · obtain ⟨ops, rest, rfl⟩ := List.exists_cons_of_ne_nil hne
    rw [(hget 0 ops rfl).2]
    rfl
  · intro i ops hi hlt
    rw [(hget i ops hi).2, (hget (i + 1) _ (List.getElem?_eq_getElem hlt)).2, (take_flatten_le hi).1]
    simp only [PNAbbrevOp.sizeof]
    ring
  · intro i ops hi
    rw [(hget i ops hi).2]
    exact Nat.le_add_right ..
  · intro i j ops ops' hij hi hj
    obtain ⟨hsum, hle⟩ := take_flatten_le hi
    have := hle j hij
    rw [(hget i ops hi).2, (hget j ops' hj).2]
    simp only [PNAbbrevOp.sizeof]
    omega
  · intro i ops hi
    have hsz := h.lastSize
    rw [if_pos (h.block hne).1] at hsz
    have hsum := (take_flatten_le hi).1
    have := hall (i + 1)
    rw [(hget i ops hi).2, hsz]
    simp only [PNAbbrevOp.sizeof]
    omega

/-- **Abbreviations survive growth.** -/
theorem abbrevs_survive {s : PNAbbrevStore} (h : AbbrevRun s) : ∃ l, AbbrevsRead s l ∧
    ∀ (call : PNAbbrevCall) (s' : PNAbbrevStore), call.Promised s → call.exec s = .ok s' →
      ∃ l', call.Changes s l l' ∧ AbbrevsRead s' l' := by
  obtain ⟨l, hl⟩ := h.stored
  refine ⟨l, hl.read, fun call s' hp hx => ?_⟩
  obtain ⟨l', hc, hl'⟩ := hl.step hp hx
  exact ⟨l', hc, hl'.read⟩

/-- A `malloc` that has 128 bytes at `8192` to give, when there are no chunks above. -/
def malloc128 (size : Nat) : Nat := if size = 128 then 8192 else 0

theorem malloc128_ok {chunks : List PNAllocatorChunk} (h : ∀ c ∈ chunks, c.endp ≤ 8192) : MallocOk malloc128 chunks where
  aligned size := by unfold malloc128; split <;> rfl
  range size hne := by
    unfold malloc128 at hne ⊢
    split at hne
    next hs => rw [if_pos hs, hs]; decide
    next => exact absurd rfl hne
  fresh size hne d hd := by
    unfold malloc128 at hne ⊢
    split at hne
    next hs => rw [if_pos hs]; exact .inr (h d hd)
    next => exact absurd rfl hne

/-- One operation is stored, and the second abbreviation, with two operations, needs a new chunk. -/
theorem abbrevs_survive_moved : ∃ s, s.abbrevs = ⟨2, 8216⟩ ∧ ∃ l, AbbrevsRead s l ∧
    ∀ (call : PNAbbrevCall) (s' : PNAbbrevStore), call.Promised s → call.exec s = .ok s' →
      ∃ l', call.Changes s l l' ∧ AbbrevsRead s' l' := by
  obtain ⟨a, ha⟩ : ∃ a, pnAllocatorInit 64 = .ok a := ⟨_, rfl⟩
  have hempty : a.chunks = [] ∧ a.minChunkSize = 64 := by
    cases ha
    exact ⟨rfl, rfl⟩
  have h₀ : AbbrevRun ⟨a, fun _ => 0, ⟨0, 0⟩⟩ :=
    .init (pnAllocatorInit_inv (by decide) ha) ⟨by rw [hempty.2]; decide, by simp [hempty.1]⟩
  cases ha
  have h₁ := h₀.step (.allocate malloc64 1) ⟨malloc64_ok, by decide⟩ rfl
  have h₂ := h₁.step (.write 0 5) ⟨by decide, by decide, by decide +kernel⟩ rfl
  have h₃ := h₂.step (.allocate malloc128 2) ⟨malloc128_ok (by decide), by decide⟩ rfl
  exact ⟨_, rfl, abbrevs_survive h₃⟩

end Pnacl
