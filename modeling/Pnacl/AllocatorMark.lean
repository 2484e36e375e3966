import Pnacl.Allocator
import Mathlib.Logic.Relation

/-!
# Mark and reset

`pn_allocator_reset_to_mark` finds the chunk to stop at by looking for the one that contains the `last_alloc` of the
mark, with the end of a chunk left out. A mark is therefore as good as its `last_alloc` is below the end of the head
chunk (`MarkSafe`): a zero-size block at the end of a full chunk makes the reset free that chunk.

- `resetToMark_restores`: at a safe mark, the reset undoes whatever was allocated on top of it (`Extends`);
- `MarkRun.inv`: along a run whose marks are safe, every mark on the stack can be reset to;
- `mark_reset_inverse_iff`: in every state of such a run, reset undoes the allocations since exactly at safe marks.
-/

namespace Pnacl

open Lib

/-- One call that allocates: `pn_allocator_alloc`, `pn_allocator_allocz` or `pn_allocator_realloc_add`. -/
inductive AllocStep : PNAllocator → PNAllocator → Prop where
  | alloc {a a' : PNAllocator} {malloc : Nat → Nat} {size align ret : Nat} (hm : MallocOk malloc a.chunks)
      (ha : IsAlign align) (hz : size < 2 ^ 64) (h : pnAllocatorAlloc malloc a size align = .ok (ret, a')) :
      AllocStep a a'
  | allocz {a a' : PNAllocator} {malloc : Nat → Nat} {mem mem' : Nat → UInt8} {size align ret : Nat}
      (hm : MallocOk malloc a.chunks) (ha : IsAlign align) (hz : size < 2 ^ 64)
      (h : pnAllocatorAllocz malloc a mem size align = .ok (ret, a', mem')) : AllocStep a a'
  | realloc {a : PNAllocator} {malloc : Nat → Nat} {mem : Nat → UInt8} {p size align : Nat} {r : PNReallocated}
      (hm : MallocOk malloc a.chunks) (ha : IsAlign align) (hz : size < 2 ^ 64)
      (h : pnAllocatorReallocAdd malloc a mem p size align = .ok r) : AllocStep a r.allocator

/-- Any sequence of allocating calls. -/
def AllocRun : PNAllocator → PNAllocator → Prop := Relation.ReflTransGen AllocStep

/-- The last block does not start at the end of its chunk. -/
def MarkSafe (a : PNAllocator) : Prop :=
  match a.chunks with
  | [] => True
  | c :: _ => a.lastAlloc < c.endp

/-- Runs from `pn_allocator_init`: allocations, marks that are safe, and resets to a mark of the stack, which drops the
newer marks. The bottom of the stack is `reset_mark`, so `pn_allocator_reset` is a reset. -/
inductive MarkRun : PNAllocator → List PNAllocatorMark → Prop where
  | init {n : Nat} {a : PNAllocator} (hn : n < 2 ^ 64) (h : pnAllocatorInit n = .ok a) : MarkRun a [a.resetMark]
  | step {a a' : PNAllocator} {ms : List PNAllocatorMark} (h : MarkRun a ms) (hs : AllocStep a a') : MarkRun a' ms
  | mark {a : PNAllocator} {ms : List PNAllocatorMark} (h : MarkRun a ms) (hg : MarkSafe a) :
      MarkRun a (pnAllocatorMark a :: ms)
  | reset {a : PNAllocator} {newer older : List PNAllocatorMark} {m : PNAllocatorMark}
      (h : MarkRun a (newer ++ m :: older)) : MarkRun (pnAllocatorResetToMark a m) (m :: older)

/-! ## Allocating on top of a state -/

/-- The chunks come from others by new chunks in front and by moving `current` of the head chunk up. -/
def ExtendsChunks : List PNAllocatorChunk → List PNAllocatorChunk → Prop
  | [], _ => True
  | c :: rest, cs => ∃ newer c', cs = newer ++ c' :: rest ∧ c'.addr = c.addr ∧ c'.endp = c.endp ∧ c.current ≤ c'.current

/-- The allocator `a` has grown out of `g`. -/
structure Extends (g a : PNAllocator) : Prop where
  min : a.minChunkSize = g.minChunkSize
  mark : a.resetMark = g.resetMark
  chunks : ExtendsChunks g.chunks a.chunks

theorem Extends.refl (a : PNAllocator) : Extends a a := by
  refine ⟨rfl, rfl, ?_⟩
  cases a.chunks with
  | nil => trivial
  | cons c cs => exact ⟨[], c, rfl, rfl, rfl, Nat.le_refl _⟩

section

variable {g a a' : PNAllocator}

theorem Extends.placed {R : PNAllocatorChunk → Prop} {p n : Nat} (h : Extends g a) (hp : Placed R a p n a') :
    Extends g a' := by
  have hch := h.chunks
  cases hp with
  | inHead c cs head rel grows lo hi chunks last min mark =>
    refine ⟨min.trans h.min, mark.trans h.mark, ?_⟩
    rw [chunks]
    rw [head] at hch
    cases hg : g.chunks with
    | nil => trivial
    | cons c₀ rest =>
      rw [hg] at hch
      obtain ⟨newer, c', heq, haddr, hend, hle⟩ := hch
      cases newer with
      | nil =>
        cases heq
        exact ⟨[], { c with current := p + n }, rfl, haddr, hend, Nat.le_trans hle grows⟩
      | cons d newer =>
        cases heq
        exact ⟨{ c with current := p + n } :: newer, c', rfl, haddr, hend, hle⟩
  | inNew c wf disjoint lo hi chunks last min mark =>
    refine ⟨min.trans h.min, mark.trans h.mark, ?_⟩
    rw [chunks]
    cases hg : g.chunks with
    | nil => trivial
    | cons c₀ rest =>
      rw [hg] at hch
      obtain ⟨newer, c', heq, haddr, hend, hle⟩ := hch
      rw [heq]
      exact ⟨{ c with current := p + n } :: newer, c', rfl, haddr, hend, hle⟩

/-- Every allocating call places a block. -/
theorem AllocStep.placed (hi : a.Inv) (h : AllocStep a a') : ∃ R p n, Placed R a p n a' := by
  cases h with
  | alloc hm ha hz h => exact ⟨_, _, _, ((alloc_spec hi hm ha hz).of_ok h).2⟩
  | allocz hm ha hz h =>
    obtain ⟨⟨p, a₁⟩, hal, hr⟩ := bind_eq_ok.mp h
    cases hr
    exact ⟨_, _, _, ((alloc_spec hi hm ha hz).of_ok hal).2⟩
  | @realloc malloc mem p size align r hm ha hz h =>
    by_cases hp : p = 0
    · subst hp
      unfold pnAllocatorReallocAdd at h
      rw [if_pos rfl] at h
      obtain ⟨⟨p, a₁⟩, hal, hr⟩ := bind_eq_ok.mp h
      cases hr
      exact ⟨_, _, _, ((alloc_spec hi hm ha hz).of_ok hal).2⟩
    · exact ⟨_, _, _, ((realloc_spec hi hm ha hz mem hp).of_ok h).2.2.1⟩

theorem AllocStep.inv (h : AllocStep a a') (hi : a.Inv) : a'.Inv := by
  obtain ⟨R, p, n, hp⟩ := h.placed hi
  exact hp.inv hi

theorem AllocStep.grows (h : AllocStep a a') (hi : a.Inv) (hg : Extends g a) : Extends g a' := by
  obtain ⟨R, p, n, hp⟩ := h.placed hi
  exact hg.placed hp

theorem AllocRun.grows (h : AllocRun a a') (hi : a.Inv) : a'.Inv ∧ Extends a a' := by
  induction h with
  | refl => exact ⟨hi, .refl a⟩
  | tail _ hs ih => exact ⟨hs.inv ih.1, hs.grows ih.1 ih.2⟩

/-! ## Reset -/

/-- The loop frees the chunks in front of the one that contains `last_alloc`. -/
theorem freeUntil_append {p : Nat} {c : PNAllocatorChunk} {rest : List PNAllocatorChunk} (hlo : c.addr ≤ p)
    (hhi : p < c.endp) : ∀ {newer : List PNAllocatorChunk}, (∀ d ∈ newer, d.Disjoint c) →
      freeUntil p (newer ++ c :: rest) = c :: rest
  | [], _ => by
    rw [List.nil_append, freeUntil, if_pos ⟨hlo, hhi⟩]
  | d :: newer, h => by
    have hd : ¬(p ≥ d.addr ∧ p < d.endp) := by
      rcases h d (List.mem_cons_self ..) with hd | hd <;> omega
    rw [List.cons_append, freeUntil, if_neg hd]
    exact freeUntil_append hlo hhi fun e he => h e (List.mem_cons_of_mem _ he)

/-- No chunk contains `NULL`, so all are freed. -/
theorem freeUntil_null : ∀ {cs : List PNAllocatorChunk}, (∀ c ∈ cs, c.Wf) → freeUntil 0 cs = []
  | [], _ => rfl
  | c :: cs, h => by
    have hc := (h c (List.mem_cons_self ..)).addr_pos
    rw [freeUntil, if_neg (by omega)]
    exact freeUntil_null fun d hd => h d (List.mem_cons_of_mem _ hd)

/-- Reset undoes everything that was allocated on top of a safe mark. -/
theorem resetToMark_restores (hg : g.Inv) (hsafe : MarkSafe g) (hi : a.Inv) (h : Extends g a) :
    pnAllocatorResetToMark a (pnAllocatorMark g) = g := by
  obtain ⟨hmin, hmark, hch⟩ := h
  have hlast := hg.last
  have hdis := hi.disjoint
  obtain ⟨gchunks, glast, gmin, gused, gfrag, gmark⟩ := g
  obtain ⟨achunks, alast, amin, aused, afrag, amark⟩ := a
  cases hmin
  cases hmark
  cases gchunks with
  | nil =>
    have h0 : glast = 0 := hlast
    subst h0
    simp only [pnAllocatorResetToMark, pnAllocatorMark, PNAllocator.setCurrent, freeUntil_null hi.wf]
  | cons c rest =>
    obtain ⟨newer, c', heq, haddr, hend, hle⟩ := hch
    have heq' : achunks = newer ++ c' :: rest := heq
    subst heq'
    have hlo : c'.addr ≤ glast := by
      have := hlast.1
      simp only at this
      omega
    have hhi : glast < c'.endp := hend ▸ hsafe
    have hnew : ∀ d ∈ newer, d.Disjoint c' := fun d hd =>
      (List.pairwise_append.mp hdis).2.2 d hd c' (List.mem_cons_self ..)
    simp only [pnAllocatorResetToMark, pnAllocatorMark, PNAllocator.setCurrent, freeUntil_append hlo hhi hnew, haddr, hend]

theorem length_freeUntil_le (p : Nat) (cs : List PNAllocatorChunk) : (freeUntil p cs).length ≤ cs.length := by
  induction cs with
  | nil => exact Nat.le_refl 0
  | cons c cs ih =>
    rw [freeUntil]
    split
    · exact Nat.le_refl _
    · exact Nat.le_succ_of_le ih

@[simp] theorem length_setCurrent (a : PNAllocator) (p : Nat) : (a.setCurrent p).chunks.length = a.chunks.length := by
  unfold PNAllocator.setCurrent
  cases a.chunks <;> rfl

/-- Reset at once after a mark that is not safe: the head chunk is freed. -/
theorem resetToMark_unsafe (hsafe : ¬MarkSafe a) :
    (pnAllocatorResetToMark a (pnAllocatorMark a)).chunks.length < a.chunks.length := by
  unfold MarkSafe at hsafe
  cases hcs : a.chunks with
  | nil =>
    rw [hcs] at hsafe
    exact absurd trivial hsafe
  | cons c cs =>
    rw [hcs] at hsafe
    have hfree : freeUntil a.lastAlloc a.chunks = freeUntil a.lastAlloc cs := by
      rw [hcs, freeUntil, if_neg fun h => hsafe h.2]
    have hle := length_freeUntil_le a.lastAlloc cs
    simp only [pnAllocatorResetToMark, pnAllocatorMark, length_setCurrent, hfree, List.length_cons]
    omega

end

/-! ## Runs -/

/-- Every mark on the stack is the mark of a state on top of which the later ones were reached. -/
structure MarkInv (a : PNAllocator) (ms : List PNAllocatorMark) (gs : List PNAllocator) : Prop where
  inv : a.Inv
  marks : ms = gs.map pnAllocatorMark
  safe : ∀ g ∈ gs, g.Inv ∧ MarkSafe g ∧ Extends g a
  nested : gs.Pairwise fun newer older => Extends older newer

theorem MarkInv.step {a a' : PNAllocator} {ms : List PNAllocatorMark} {gs : List PNAllocator} (h : MarkInv a ms gs)
    (hs : AllocStep a a') : MarkInv a' ms gs where
  inv := hs.inv h.inv
  marks := h.marks
  safe g hg := ⟨(h.safe g hg).1, (h.safe g hg).2.1, hs.grows h.inv (h.safe g hg).2.2⟩
  nested := h.nested

theorem MarkInv.mark {a : PNAllocator} {ms : List PNAllocatorMark} {gs : List PNAllocator} (h : MarkInv a ms gs)
    (hg : MarkSafe a) : MarkInv a (pnAllocatorMark a :: ms) (a :: gs) where
  inv := h.inv
  marks := by rw [h.marks, List.map_cons]
  safe g hmem := by
    rcases List.mem_cons.mp hmem with rfl | hmem
    · exact ⟨h.inv, hg, .refl _⟩
    · exact h.safe g hmem
  nested := List.pairwise_cons.mpr ⟨fun g hmem => (h.safe g hmem).2.2, h.nested⟩

/-- A reset to a mark of the stack goes back to the state at the mark. -/
theorem MarkInv.reset {a : PNAllocator} {newer older : List PNAllocatorMark} {m : PNAllocatorMark}
    {gs : List PNAllocator} (h : MarkInv a (newer ++ m :: older) gs) :
    ∃ g gs', MarkInv g (m :: older) (g :: gs') ∧ pnAllocatorResetToMark a m = g := by
  obtain ⟨gnew, grest, rfl, hnew, hrest⟩ := List.map_eq_append_iff.mp h.marks.symm
  obtain ⟨g, gold, rfl, rfl, hold⟩ := List.map_eq_cons_iff.mp hrest
  have hnest := (List.pairwise_append.mp h.nested).2.1
  have hmem : g ∈ gnew ++ g :: gold := List.mem_append_right _ (List.mem_cons_self ..)
  obtain ⟨hginv, hgsafe, hgext⟩ := h.safe g hmem
  refine ⟨g, gold, ⟨hginv, by rw [← hold, List.map_cons], ?_, hnest⟩, resetToMark_restores hginv hgsafe h.inv hgext⟩
  intro g' hg'
  rcases List.mem_cons.mp hg' with rfl | hg'
  · exact ⟨hginv, hgsafe, .refl _⟩
  · obtain ⟨h1, h2, _⟩ := h.safe g' (List.mem_append_right _ (List.mem_cons_of_mem _ hg'))
    exact ⟨h1, h2, (List.pairwise_cons.mp hnest).1 g' hg'⟩

/-- Along a run whose marks are safe, every mark on the stack can be reset to. -/
theorem MarkRun.inv {a : PNAllocator} {ms : List PNAllocatorMark} (h : MarkRun a ms) : ∃ gs, MarkInv a ms gs := by
  induction h with
  | @init n a hn h =>
    have hi := pnAllocatorInit_inv hn h
    obtain ⟨_, h⟩ := cAssert_bind_eq_ok.mp h
    obtain ⟨_, h⟩ := cAssert_bind_eq_ok.mp h
    cases h
    refine ⟨[⟨[], 0, n, 0, 0, ⟨0, 0, 0, 0⟩⟩], hi, rfl, ?_, List.pairwise_singleton _ _⟩
    intro g hg
    rw [List.mem_singleton.mp hg]
    exact ⟨hi, trivial, .refl _⟩
  | step _ hs ih =>
    obtain ⟨gs, ih⟩ := ih
    exact ⟨gs, ih.step hs⟩
  | mark _ hg ih =>
    obtain ⟨gs, ih⟩ := ih
    exact ⟨_, ih.mark hg⟩
  | reset _ ih =>
    obtain ⟨gs, ih⟩ := ih
    obtain ⟨g, gs', hg, he⟩ := ih.reset
    rw [he]
    exact ⟨_, hg⟩

/-- **Mark and reset are inverse**, in every state of a run whose marks are safe, exactly if the mark taken there is:
after any further allocations the reset gives back the very allocator of the mark. -/
theorem mark_reset_inverse_iff (a : PNAllocator) (ms : List PNAllocatorMark) (h : MarkRun a ms) :
    (∀ a', AllocRun a a' → pnAllocatorResetToMark a' (pnAllocatorMark a) = a) ↔ MarkSafe a := by
  obtain ⟨gs, hi⟩ := h.inv
  constructor
  · intro hall
    by_contra hsafe
    have hlt := resetToMark_unsafe hsafe
    rw [hall a .refl] at hlt
    exact Nat.lt_irrefl _ hlt
  · intro hsafe a' hrun
    obtain ⟨hi', hext⟩ := hrun.grows hi.inv
    exact resetToMark_restores hi.inv hsafe hi' hext

/-- The allocator after one block of 40 bytes, which fills a chunk of 64. -/
def fullChunk : PNAllocator := ⟨[⟨4096, 4160, 4160⟩], 4120, 64, 40, 0, ⟨0, 0, 0, 0⟩⟩

theorem fullChunk_run : MarkRun fullChunk [⟨0, 0, 0, 0⟩] :=
  .step (.init (n := 64) (by decide) rfl)
    (.alloc malloc64_ok (show IsAlign 1 from ⟨⟨0, rfl⟩, by decide⟩) (show 40 < 2 ^ 64 by decide) rfl)

/-- With the chunk full but its last block not empty, a mark is safe. -/
theorem mark_reset_inverse_full_chunk :
    MarkSafe fullChunk ∧ ∀ a', AllocRun fullChunk a' → pnAllocatorResetToMark a' (pnAllocatorMark fullChunk) = fullChunk :=
  have hsafe : MarkSafe fullChunk := show 4120 < 4160 by decide
  ⟨hsafe, (mark_reset_inverse_iff fullChunk _ fullChunk_run).mpr hsafe⟩

/-- A block of no bytes at the end of the full chunk: the reset right after the mark frees the chunk. -/
theorem mark_reset_at_chunk_end :
    let a : PNAllocator := ⟨[⟨4096, 4160, 4160⟩], 4160, 64, 40, 0, ⟨0, 0, 0, 0⟩⟩
    MarkRun a [⟨0, 0, 0, 0⟩] ∧ AllocRun a a ∧ (pnAllocatorResetToMark a (pnAllocatorMark a)).chunks = [] ∧
      pnAllocatorResetToMark a (pnAllocatorMark a) ≠ a := by
  intro a
  refine ⟨.step fullChunk_run ?_, .refl, rfl, by decide⟩
  exact .alloc (malloc_none_ok _) (show IsAlign 1 from ⟨⟨0, rfl⟩, by decide⟩) (show 0 < 2 ^ 64 by decide) rfl

end Pnacl
