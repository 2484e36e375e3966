import Pnacl.Lib.Logged
import Pnacl.Loops

/-!
# Loop headers while the search runs

`pn_basic_block_calculate_loops` once more, on any successor graph, with a note of the blocks after every store to them and of
the path of active calls. On the path the headers point to blocks nearer to the root, and the header of any block was found
before the block itself (`HeaderInv`), so all chains end and every loop along them returns. The one exception is block 0
without instructions: the zero in its header is its own id (`headerChains_iff`).
-/

namespace Pnacl

open Lib Relation

/-! ## The pass with its stores -/

/-- The blocks of the active calls, the innermost first, and the fields of all blocks. -/
structure LoopMoment where
  path : List Nat
  bbs : PNLoopBlocks

abbrev LoopLog := Logged Stop LoopMoment

/-- A store to the blocks, while the calls on `path` are active. -/
def storeBlocks (path : List Nat) (bbs : PNLoopBlocks) : LoopLog PNLoopBlocks := do
  note ⟨path, bbs⟩
  pure bbs

section Pass

variable (numBbs : Nat) (path : List Nat)

/-- The loop of `pn_basic_block_tag_loop_header`. -/
def tagLoopLog : Nat → PNLoopBlocks → Nat → Nat → LoopLog PNLoopBlocks
  | 0, _, _, _ => stop .fuel
  | fuel + 1, bbs, cur1, cur2 =>
    let parentLoopHeader := (bbs cur1).loopHeaderId
    if parentLoopHeader = PN_INVALID_BB_ID then
      storeBlocks path (Function.update bbs cur1 { bbs cur1 with loopHeaderId := cur2 })
    else if parentLoopHeader = cur2 then pure bbs
    else if (bbs parentLoopHeader).dfspPos < (bbs cur2).dfspPos then do
      let bbs ← storeBlocks path (Function.update bbs cur1 { bbs cur1 with loopHeaderId := cur2 })
      tagLoopLog fuel bbs cur2 parentLoopHeader
    else tagLoopLog fuel bbs parentLoopHeader cur2

/-- `pn_basic_block_tag_loop_header`. -/
def tagLoopHeaderLog (bbs : PNLoopBlocks) (bb loopHeaderId : Nat) : LoopLog PNLoopBlocks :=
  if loopHeaderId = PN_INVALID_BB_ID then pure bbs
  else if loopHeaderId = bb then pure bbs
  else tagLoopLog path (2 * numBbs + 1) bbs bb loopHeaderId

/-- `while (loop_header->loop_header_id != PN_INVALID_BB_ID)`. -/
def markIrreducibleLog (bb : Nat) : Nat → PNLoopBlocks → Nat → LoopLog PNLoopBlocks
  | 0, _, _ => stop .fuel
  | fuel + 1, bbs, loopHeader =>
    let loopHeaderId := (bbs loopHeader).loopHeaderId
    if loopHeaderId = PN_INVALID_BB_ID then pure bbs
    else if 0 < (bbs loopHeaderId).dfspPos then tagLoopHeaderLog numBbs path bbs bb loopHeaderId
    else do
      let bbs ← storeBlocks path (Function.update bbs loopHeaderId { bbs loopHeaderId with isIrreducible := true })
      markIrreducibleLog bb fuel bbs loopHeaderId

/-- A successor that has been seen before. -/
def visitSeenLog (bbs : PNLoopBlocks) (bb succBbId : Nat) : LoopLog PNLoopBlocks :=
  let loopHeaderId := (bbs succBbId).loopHeaderId
  if 0 < (bbs succBbId).dfspPos then do
    let bbs ← storeBlocks path (Function.update bbs succBbId { bbs succBbId with isLoopHeader := true })
    tagLoopHeaderLog numBbs path bbs bb succBbId
  else if loopHeaderId = PN_INVALID_BB_ID then pure bbs
  else if 0 < (bbs loopHeaderId).dfspPos then tagLoopHeaderLog numBbs path bbs bb loopHeaderId
  else do
    let bbs ← storeBlocks path (Function.update bbs succBbId { bbs succBbId with isReentry := true })
    let bbs ← storeBlocks path (Function.update bbs loopHeaderId { bbs loopHeaderId with isIrreducible := true })
    markIrreducibleLog numBbs path bb (numBbs + 1) bbs loopHeaderId

/-- The body of the loop over the successors. -/
def visitSuccLog (calculateLoops : LoopSearch → Nat → LoopLog (Nat × LoopSearch)) (bb : Nat) (s : LoopSearch)
    (succBbId : Nat) : LoopLog LoopSearch :=
  if succBbId < numBbs then
    if succBbId ∈ s.seenBbs then do
      let bbs ← visitSeenLog numBbs path s.bbs bb succBbId
      pure { s with bbs := bbs }
    else do
      let (newLoopHeader, s) ← calculateLoops s succBbId
      let bbs ← tagLoopHeaderLog numBbs path s.bbs bb newLoopHeader
      pure { s with bbs := bbs }
  else stop (.undefined "function->bbs out of range")

end Pass

/-- `pn_basic_block_calculate_loops`, called on `path`. -/
def calculateLoopsLog (numBbs : Nat) : Nat → List Nat → Nat → LoopSearch → Nat → LoopLog (Nat × LoopSearch)
  | 0, _, _, _, _ => stop .fuel
  | fuel + 1, path, dfspPos, s, bb => do
    let bbs ← storeBlocks (bb :: path) (s.bbs.setPos bb dfspPos)
    let s ← (s.bbs bb).succBbIds.foldlM
      (visitSuccLog numBbs (bb :: path) (calculateLoopsLog numBbs fuel (bb :: path) (dfspPos + 1)) bb) ⟨bbs, bb :: s.seenBbs⟩
    let bbs ← storeBlocks path (s.bbs.setPos bb 0)
    pure ((s.bbs bb).loopHeaderId, { s with bbs := bbs })

/-- `pn_function_calculate_loops`. -/
def functionCalculateLoopsLog (f : PNLoopFunction) : LoopLog PNLoopBlocks :=
  if 0 < f.numBbs then do
    let (_, s) ← calculateLoopsLog f.numBbs (f.numBbs + 1) [] 1 ⟨f.bbs, []⟩ 0
    pure s.bbs
  else pure f.bbs

/-! ## Without the notes -/

section Erase

variable (numBbs : Nat) (path : List Nat)

@[simp] theorem erase_storeBlocks (bbs : PNLoopBlocks) : erase (storeBlocks path bbs) = .ok bbs := rfl

@[simp] theorem erase_tagLoop (fuel : Nat) (bbs : PNLoopBlocks) (cur1 cur2 : Nat) :
    erase (tagLoopLog path fuel bbs cur1 cur2) = tagLoop fuel bbs cur1 cur2 := by
  induction fuel generalizing bbs cur1 cur2 with
  | zero => rfl
  | succ fuel ih =>
    simp only [tagLoopLog, tagLoop]
    split_ifs <;> simp [ih]

@[simp] theorem erase_tagLoopHeader (bbs : PNLoopBlocks) (bb h : Nat) :
    erase (tagLoopHeaderLog numBbs path bbs bb h) = pnBasicBlockTagLoopHeader numBbs bbs bb h := by
  simp only [tagLoopHeaderLog, pnBasicBlockTagLoopHeader]
  split_ifs <;> simp

@[simp] theorem erase_markIrreducible (bb fuel : Nat) (bbs : PNLoopBlocks) (h : Nat) :
    erase (markIrreducibleLog numBbs path bb fuel bbs h) = markIrreducible numBbs bb fuel bbs h := by
  induction fuel generalizing bbs h with
  | zero => rfl
  | succ fuel ih =>
    simp only [markIrreducibleLog, markIrreducible]
    split_ifs <;> simp [ih]

@[simp] theorem erase_visitSeen (bbs : PNLoopBlocks) (bb v : Nat) :
    erase (visitSeenLog numBbs path bbs bb v) = visitSeen numBbs bbs bb v := by
  simp only [visitSeenLog, visitSeen]
  split_ifs <;> simp

theorem erase_visitSucc {callLog : LoopSearch → Nat → LoopLog (Nat × LoopSearch)}
    {call : LoopSearch → Nat → Except Stop (Nat × LoopSearch)} (hcall : ∀ s v, erase (callLog s v) = call s v) (bb : Nat)
    (s : LoopSearch) (v : Nat) : erase (visitSuccLog numBbs path callLog bb s v) = visitSucc numBbs call bb s v := by
  simp only [visitSuccLog, visitSucc]
  split_ifs <;> simp [hcall]

theorem erase_calculateLoops (fuel dfspPos : Nat) (s : LoopSearch) (bb : Nat) :
    erase (calculateLoopsLog numBbs fuel path dfspPos s bb) = pnBasicBlockCalculateLoops numBbs fuel dfspPos s bb := by
  induction fuel generalizing path dfspPos s bb with
  | zero => rfl
  | succ fuel ih =>
    have hstep := fun s v => erase_visitSucc numBbs (bb :: path) (ih (bb :: path) (dfspPos + 1)) bb s v
    simp only [calculateLoopsLog, pnBasicBlockCalculateLoops, erase_bind, erase_storeBlocks, ok_bind, erase_foldlM, hstep,
      erase_pure]

/-- The notes do not change what the pass does. -/
theorem erase_functionCalculateLoops (f : PNLoopFunction) : erase (functionCalculateLoopsLog f) = pnFunctionCalculateLoops f := by
  simp only [functionCalculateLoopsLog, pnFunctionCalculateLoops]
  split_ifs
  · simp [erase_calculateLoops]
  · rfl

end Erase

/-! ## Headers that were found before -/

/-- The headers of the blocks of `l` are blocks of `l` behind them. -/
def HeadersBehind (l : List Nat) (bbs : PNLoopBlocks) : Prop :=
  ∀ x ∈ l, (bbs x).loopHeaderId ≠ PN_INVALID_BB_ID →
    (bbs x).loopHeaderId ∈ l ∧ depth l (bbs x).loopHeaderId < depth l x

section Behind

variable {l p : List Nat} {bbs bbs' : PNLoopBlocks} {bb cur1 cur2 x y : Nat}

theorem depth_cons_self : depth (bb :: l) bb = l.length + 1 := by
  rw [depth, if_pos rfl]

theorem depth_cons_of_mem (hbb : bb ∉ l) (hx : x ∈ l) : depth (bb :: l) x = depth l x := by
  rw [depth, if_neg]
  rintro rfl
  exact hbb hx

/-- Two lists in the same order. -/
theorem depth_lt_of_sublist (h : p.Sublist l) (hn : l.Nodup) (hx : x ∈ p) (hy : y ∈ p) (hlt : depth p x < depth p y) :
    depth l x < depth l y := by
  induction h with
  | slnil => cases hx
  | @cons p l a h ih =>
    obtain ⟨ha, hn⟩ := List.nodup_cons.mp hn
    rw [depth_cons_of_mem ha (h.subset hx), depth_cons_of_mem ha (h.subset hy)]
    exact ih hn hx hy hlt
  | @cons_cons p l a h ih =>
    obtain ⟨ha, hn⟩ := List.nodup_cons.mp hn
    have hap : a ∉ p := fun hm => ha (h.subset hm)
    by_cases hya : y = a
    · subst hya
      have hxy : x ≠ y := by
        rintro rfl
        omega
      have hxp := (List.mem_cons.mp hx).resolve_left hxy
      have := depth_le (p := l) (a := x)
      rw [depth_cons_self, depth_cons_of_mem ha (h.subset hxp)]
      omega
    · have hyp := (List.mem_cons.mp hy).resolve_left hya
      have hle := depth_le (p := p) (a := y)
      have hxa : x ≠ a := by
        rintro rfl
        rw [depth_cons_self, depth_cons_of_mem hap hyp] at hlt
        omega
      have hxp := (List.mem_cons.mp hx).resolve_left hxa
      rw [depth_cons_of_mem hap hxp, depth_cons_of_mem hap hyp] at hlt
      rw [depth_cons_of_mem ha (h.subset hxp), depth_cons_of_mem ha (h.subset hyp)]
      exact ih hn hxp hyp hlt

theorem HeadersBehind.congr (h : HeadersBehind l bbs) (hsame : ∀ x, (bbs' x).loopHeaderId = (bbs x).loopHeaderId) :
    HeadersBehind l bbs' := fun x hx hne => by
  rw [hsame] at hne ⊢
  exact h x hx hne

/-- A header is set. -/
theorem HeadersBehind.set (h : HeadersBehind l bbs) (hmem : cur2 ∈ l) (hlt : depth l cur2 < depth l cur1) :
    HeadersBehind l (Function.update bbs cur1 { bbs cur1 with loopHeaderId := cur2 }) := fun x hx => by
  by_cases hxc : x = cur1
  · subst hxc
    rw [Function.update_self]
    exact fun _ => ⟨hmem, hlt⟩
  · rw [Function.update_of_ne hxc]
    exact h x hx

/-- One more block in front. -/
theorem HeadersBehind.cons (h : HeadersBehind l bbs) (hbb : bb ∉ l)
    (hheader : (bbs bb).loopHeaderId ≠ PN_INVALID_BB_ID → (bbs bb).loopHeaderId ∈ l) : HeadersBehind (bb :: l) bbs := by
  intro x hx hne
  rcases List.mem_cons.mp hx with rfl | hx
  · have hmem := hheader hne
    have := depth_le (p := l) (a := (bbs x).loopHeaderId)
    rw [depth_cons_self, depth_cons_of_mem hbb hmem]
    exact ⟨List.mem_cons_of_mem _ hmem, by omega⟩
  · obtain ⟨hmem, hlt⟩ := h x hx hne
    rw [depth_cons_of_mem hbb hmem, depth_cons_of_mem hbb hx]
    exact ⟨List.mem_cons_of_mem _ hmem, hlt⟩

/-- The first block is left. -/
theorem HeadersBehind.tail (h : HeadersBehind (bb :: l) bbs) (hbb : bb ∉ l) : HeadersBehind l bbs := by
  intro x hx hne
  obtain ⟨hmem, hlt⟩ := h x (List.mem_cons_of_mem _ hx) hne
  have hle := depth_le (p := l) (a := x)
  rw [depth_cons_of_mem hbb hx] at hlt
  have hmem : (bbs x).loopHeaderId ∈ l := by
    refine (List.mem_cons.mp hmem).resolve_left fun heq => ?_
    rw [heq, depth_cons_self] at hlt
    omega
  rw [depth_cons_of_mem hbb hmem] at hlt
  exact ⟨hmem, hlt⟩

theorem HeadersBehind.head (h : HeadersBehind (bb :: l) bbs) (hne : (bbs bb).loopHeaderId ≠ PN_INVALID_BB_ID) :
    (bbs bb).loopHeaderId ∈ l := by
  obtain ⟨hmem, hlt⟩ := h bb List.mem_cons_self hne
  refine (List.mem_cons.mp hmem).resolve_left fun heq => ?_
  rw [heq] at hlt
  omega

/-- A chain stays in the list, and goes back in it. -/
theorem HeadersBehind.chain (h : HeadersBehind l bbs) (hx : x ∈ l) (hc : HeaderChain bbs x y) :
    y ∈ l ∧ depth l y < depth l x := by
  induction hc with
  | single hstep =>
    obtain ⟨rfl, hne⟩ := hstep
    exact h x hx hne
  | tail _ hstep ih =>
    obtain ⟨rfl, hne⟩ := hstep
    obtain ⟨hmem, hlt⟩ := ih
    obtain ⟨hmem', hlt'⟩ := h _ hmem hne
    exact ⟨hmem', Nat.lt_trans hlt' hlt⟩

end Behind

/-! ## The invariant of the search -/

/-- The chains of headers at a moment: from a block on the path a chain stays on the path and its positions go down, and no
chain comes back to its block. -/
structure HeadersEnd (m : LoopMoment) : Prop where
  path : ∀ x ∈ m.path, ∀ y, HeaderChain m.bbs x y → y ∈ m.path ∧ (m.bbs y).dfspPos < (m.bbs x).dfspPos
  acyclic : ∀ x, ¬HeaderChain m.bbs x x

/-- The search is on the path `p`. -/
structure HeaderInv (succ : Nat → List Nat) (numBbs : Nat) (p : List Nat) (s : LoopSearch) : Prop where
  succs : ∀ x, (s.bbs x).succBbIds = succ x
  nodup : s.seenBbs.Nodup
  range : ∀ x ∈ s.seenBbs, x < numBbs
  path : p.Sublist s.seenBbs
  pos : ∀ x, (s.bbs x).dfspPos = depth p x
  onPath : HeadersBehind p s.bbs
  onSeen : HeadersBehind s.seenBbs s.bbs
  unseen : ∀ x, x ∉ s.seenBbs → (s.bbs x).loopHeaderId = PN_INVALID_BB_ID ∨ ((s.bbs x).loopHeaderId = 0 ∧ x ≠ 0)

section Search

variable {succ : Nat → List Nat} {numBbs fuel : Nat} {p seen : List Nat} {s : LoopSearch} {bbs bbs' : PNLoopBlocks}
  {bb cur1 cur2 h v x : Nat}

theorem HeaderInv.moment (hi : HeaderInv succ numBbs p s) (hroot : 0 ∈ s.seenBbs) : HeadersEnd ⟨p, s.bbs⟩ where
  path x hx y hc := by
    dsimp only
    rw [hi.pos, hi.pos]
    exact hi.onPath.chain hx hc
  acyclic x hc := by
    by_cases hx : x ∈ s.seenBbs
    · exact Nat.lt_irrefl _ (hi.onSeen.chain hx hc).2
    · -- a block that has not been seen can only have the root for its header
      obtain ⟨hne, hcase⟩ := hc.cases
      obtain ⟨hzero, hx0⟩ := (hi.unseen x hx).resolve_left hne
      dsimp only at hzero hcase
      rw [hzero] at hcase
      rcases hcase with rfl | hc
      · exact hx0 rfl
      · exact hx (hi.onSeen.chain hroot hc).1

/-- A store that keeps the fields the invariant is about. -/
theorem HeaderInv.mark {a : Nat} {b : PNLoopBlock} (hi : HeaderInv succ numBbs p ⟨bbs, seen⟩)
    (hsuccs : b.succBbIds = (bbs a).succBbIds) (hpos : b.dfspPos = (bbs a).dfspPos)
    (hheader : b.loopHeaderId = (bbs a).loopHeaderId) : HeaderInv succ numBbs p ⟨Function.update bbs a b, seen⟩ where
  succs x := (field_update _ hsuccs x).trans (hi.succs x)
  nodup := hi.nodup
  range := hi.range
  path := hi.path
  pos x := (field_update _ hpos x).trans (hi.pos x)
  onPath := hi.onPath.congr (field_update _ hheader)
  onSeen := hi.onSeen.congr (field_update _ hheader)
  unseen x hx := by
    have hsame : (Function.update bbs a b x).loopHeaderId = (bbs x).loopHeaderId := field_update _ hheader x
    dsimp only
    rw [hsame]
    exact hi.unseen x hx

/-- A header on the path is set. -/
theorem HeaderInv.set (hi : HeaderInv succ numBbs p ⟨bbs, seen⟩) (h₁ : cur1 ∈ p) (h₂ : cur2 ∈ p)
    (hlt : depth p cur2 < depth p cur1) :
    HeaderInv succ numBbs p ⟨Function.update bbs cur1 { bbs cur1 with loopHeaderId := cur2 }, seen⟩ where
  succs x := (field_update PNLoopBlock.succBbIds (b := { bbs cur1 with loopHeaderId := cur2 }) rfl x).trans (hi.succs x)
  nodup := hi.nodup
  range := hi.range
  path := hi.path
  pos x := (field_update PNLoopBlock.dfspPos (b := { bbs cur1 with loopHeaderId := cur2 }) rfl x).trans (hi.pos x)
  onPath := hi.onPath.set h₂ hlt
  onSeen := hi.onSeen.set (hi.path.subset h₂) (depth_lt_of_sublist hi.path hi.nodup h₂ h₁ hlt)
  unseen x hx := by
    have hxc : x ≠ cur1 := by
      rintro rfl
      exact hx (hi.path.subset h₁)
    dsimp only
    rw [Function.update_of_ne hxc]
    exact hi.unseen x hx

theorem HeaderInv.length_le (hi : HeaderInv succ numBbs p s) : p.length ≤ numBbs :=
  hi.path.length_le.trans (length_le_of_lt hi.nodup hi.range)

/-- The search enters a block. -/
theorem HeaderInv.enter (hi : HeaderInv succ numBbs p s) (hnew : bb ∉ s.seenBbs) (hbb : bb < numBbs) (hroot : 0 ∈ bb :: p) :
    HeaderInv succ numBbs (bb :: p) ⟨s.bbs.setPos bb (p.length + 1), bb :: s.seenBbs⟩ := by
  have hsame : ∀ x, (s.bbs.setPos bb (p.length + 1) x).loopHeaderId = (s.bbs x).loopHeaderId := fun x => by
    rw [PNLoopBlocks.setPos_fields]
  have hnewp : bb ∉ p := fun hm => hnew (hi.path.subset hm)
  -- the header of a block that is new is none, or the root
  have hheader : (s.bbs bb).loopHeaderId ≠ PN_INVALID_BB_ID → (s.bbs bb).loopHeaderId ∈ p := fun hne => by
    obtain ⟨hzero, hne0⟩ := (hi.unseen bb hnew).resolve_left hne
    rw [hzero]
    exact (List.mem_cons.mp hroot).resolve_left (Ne.symm hne0)
  constructor
  · intro x
    dsimp only
    rw [PNLoopBlocks.setPos_fields]
    exact hi.succs x
  · exact List.nodup_cons.mpr ⟨hnew, hi.nodup⟩
  · exact List.forall_mem_cons.mpr ⟨hbb, hi.range⟩
  · exact hi.path.cons_cons bb
  · intro x
    dsimp only
    rw [PNLoopBlocks.setPos_fields, depth, hi.pos]
  · exact (hi.onPath.cons hnewp hheader).congr hsame
  · exact (hi.onSeen.cons hnew fun hne => hi.path.subset (hheader hne)).congr hsame
  · intro x hx
    dsimp only
    rw [hsame]
    exact hi.unseen x fun hm => hx (List.mem_cons_of_mem _ hm)

/-- The search leaves a block. -/
theorem HeaderInv.leave (hi : HeaderInv succ numBbs (bb :: p) s) : HeaderInv succ numBbs p ⟨s.bbs.setPos bb 0, s.seenBbs⟩ := by
  have hsame : ∀ x, (s.bbs.setPos bb 0 x).loopHeaderId = (s.bbs x).loopHeaderId := fun x => by
    rw [PNLoopBlocks.setPos_fields]
  have hnew : bb ∉ p := (List.nodup_cons.mp (hi.path.nodup hi.nodup)).1
  constructor
  · intro x
    dsimp only
    rw [PNLoopBlocks.setPos_fields]
    exact hi.succs x
  · exact hi.nodup
  · exact hi.range
  · exact List.sublist_of_cons_sublist hi.path
  · intro x
    dsimp only
    rw [PNLoopBlocks.setPos_fields, hi.pos, depth]
    by_cases hx : x = bb
    · subst hx
      rw [if_pos rfl, depth_eq_zero hnew]
    · rw [if_neg hx, if_neg hx]
  · exact (hi.onPath.tail hnew).congr hsame
  · exact hi.onSeen.congr hsame
  · intro x hx
    dsimp only
    rw [hsame]
    exact hi.unseen x hx

/-! ## The loops return -/

theorem HeaderInv.store (hi : HeaderInv succ numBbs p ⟨bbs, seen⟩) (hroot : 0 ∈ seen) :
    Logs HeadersEnd (storeBlocks p bbs) fun bbs' => HeaderInv succ numBbs p ⟨bbs', seen⟩ :=
  (Logs.note (hi.moment hroot)).bind fun _ _ => .pure hi

/-- The two cursors of the loop go up the path. -/
theorem tagLoop_logs (hroot : 0 ∈ seen) (hi : HeaderInv succ numBbs p ⟨bbs, seen⟩) (h₁ : cur1 ∈ p) (h₂ : cur2 ∈ p)
    (hlt : depth p cur2 < depth p cur1) (hf : depth p cur1 + depth p cur2 < fuel) :
    Logs HeadersEnd (tagLoopLog p fuel bbs cur1 cur2) fun bbs' => HeaderInv succ numBbs p ⟨bbs', seen⟩ := by
  induction fuel generalizing bbs cur1 cur2 with
  | zero => omega
  | succ fuel ih =>
    have hset := hi.set h₁ h₂ hlt
    rw [tagLoopLog]
    dsimp only
    by_cases hnone : (bbs cur1).loopHeaderId = PN_INVALID_BB_ID
    · rw [if_pos hnone]
      exact hset.store hroot
    rw [if_neg hnone]
    by_cases heq : (bbs cur1).loopHeaderId = cur2
    · rw [if_pos heq]
      exact .pure hi
    obtain ⟨hmem, hparent⟩ := hi.onPath cur1 h₁ hnone
    dsimp only at hmem hparent
    have hposp := hi.pos (bbs cur1).loopHeaderId
    have hpos2 := hi.pos cur2
    dsimp only at hposp hpos2
    rw [if_neg heq, hposp, hpos2]
    by_cases hpd : depth p (bbs cur1).loopHeaderId < depth p cur2
    · rw [if_pos hpd]
      refine (hset.store hroot).bind fun bbs' hi' => ?_
      exact ih hi' h₂ hmem hpd (by omega)
    · -- of two blocks at one position there is only one
      have hne : depth p cur2 ≠ depth p (bbs cur1).loopHeaderId := fun h => heq (depth_inj h₂ h).symm
      rw [if_neg hpd]
      exact ih hi hmem h₂ (by omega) (by omega)

/-- The headers with which the source calls it are on the path. -/
theorem tagLoopHeader_logs (hroot : 0 ∈ seen) (hi : HeaderInv succ numBbs (bb :: p) ⟨bbs, seen⟩)
    (hh : h ≠ PN_INVALID_BB_ID → h ∈ bb :: p) :
    Logs HeadersEnd (tagLoopHeaderLog numBbs (bb :: p) bbs bb h) fun bbs' => HeaderInv succ numBbs (bb :: p) ⟨bbs', seen⟩ := by
  unfold tagLoopHeaderLog
  by_cases hv : h = PN_INVALID_BB_ID
  · rw [if_pos hv]
    exact .pure hi
  by_cases hb : h = bb
  · rw [if_neg hv, if_pos hb]
    exact .pure hi
  rw [if_neg hv, if_neg hb]
  have hbp : bb ∉ p := (List.nodup_cons.mp (hi.path.nodup hi.nodup)).1
  have hhp : h ∈ p := (List.mem_cons.mp (hh hv)).resolve_left hb
  have hlen := hi.length_le
  have hle := depth_le (p := p) (a := h)
  have hself : depth (bb :: p) bb = p.length + 1 := depth_cons_self
  have hother := depth_cons_of_mem hbp hhp
  rw [List.length_cons] at hlen
  apply tagLoop_logs hroot hi List.mem_cons_self (hh hv)
  · omega
  · omega

/-- The walk along the chain of a block that was found before. -/
theorem markIrreducible_logs (hroot : 0 ∈ seen) (hi : HeaderInv succ numBbs (bb :: p) ⟨bbs, seen⟩) (hh : h ∈ seen)
    (hf : depth seen h < fuel) :
    Logs HeadersEnd (markIrreducibleLog numBbs (bb :: p) bb fuel bbs h) fun bbs' => HeaderInv succ numBbs (bb :: p) ⟨bbs', seen⟩ := by
  induction fuel generalizing bbs h with
  | zero => omega
  | succ fuel ih =>
    rw [markIrreducibleLog]
    dsimp only
    by_cases hnone : (bbs h).loopHeaderId = PN_INVALID_BB_ID
    · rw [if_pos hnone]
      exact .pure hi
    obtain ⟨hmem, hlt⟩ := hi.onSeen h hh hnone
    dsimp only at hmem hlt
    have hpos := hi.pos (bbs h).loopHeaderId
    dsimp only at hpos
    rw [if_neg hnone]
    by_cases hp : (bbs h).loopHeaderId ∈ bb :: p
    · rw [if_pos (by rw [hpos]; exact depth_pos.mpr hp)]
      exact tagLoopHeader_logs hroot hi fun _ => hp
    · rw [if_neg (by rw [hpos, depth_eq_zero hp]; exact Nat.lt_irrefl 0)]
      have hmark := hi.mark (a := (bbs h).loopHeaderId) (b := { bbs (bbs h).loopHeaderId with isIrreducible := true }) rfl rfl rfl
      refine (hmark.store hroot).bind fun bbs' hi' => ?_
      exact ih hi' hmem (by omega)

/-- A successor that has been seen. -/
theorem visitSeen_logs (hroot : 0 ∈ seen) (hi : HeaderInv succ numBbs (bb :: p) ⟨bbs, seen⟩) (hv : v ∈ seen) :
    Logs HeadersEnd (visitSeenLog numBbs (bb :: p) bbs bb v) fun bbs' => HeaderInv succ numBbs (bb :: p) ⟨bbs', seen⟩ := by
  have hposv := hi.pos v
  have hposh := hi.pos (bbs v).loopHeaderId
  dsimp only at hposv hposh
  unfold visitSeenLog
  dsimp only
  by_cases hvp : v ∈ bb :: p
  · rw [if_pos (by rw [hposv]; exact depth_pos.mpr hvp)]
    have hmark := hi.mark (a := v) (b := { bbs v with isLoopHeader := true }) rfl rfl rfl
    refine (hmark.store hroot).bind fun bbs' hi' => ?_
    exact tagLoopHeader_logs hroot hi' fun _ => hvp
  rw [if_neg (by rw [hposv, depth_eq_zero hvp]; exact Nat.lt_irrefl 0)]
  by_cases hnone : (bbs v).loopHeaderId = PN_INVALID_BB_ID
  · rw [if_pos hnone]
    exact .pure hi
  rw [if_neg hnone]
  by_cases hhp : (bbs v).loopHeaderId ∈ bb :: p
  · rw [if_pos (by rw [hposh]; exact depth_pos.mpr hhp)]
    exact tagLoopHeader_logs hroot hi fun _ => hhp
  · rw [if_neg (by rw [hposh, depth_eq_zero hhp]; exact Nat.lt_irrefl 0)]
    obtain ⟨hmem, -⟩ := hi.onSeen v hv hnone
    have hle := depth_le (p := seen) (a := (bbs v).loopHeaderId)
    have hlen := length_le_of_lt hi.nodup hi.range
    dsimp only at hmem hlen
    have hmark := hi.mark (a := v) (b := { bbs v with isReentry := true }) rfl rfl rfl
    refine (hmark.store hroot).bind fun bbs₁ hi₁ => ?_
    have hmark₁ := hi₁.mark (a := (bbs v).loopHeaderId) (b := { bbs₁ (bbs v).loopHeaderId with isIrreducible := true })
      rfl rfl rfl
    refine (hmark₁.store hroot).bind fun bbs₂ hi₂ => ?_
    exact markIrreducible_logs hroot hi₂ hmem (by omega)

/-- What a call of `pn_basic_block_calculate_loops` on the path `p` returns: the search is on that path again, and the header is
on it. -/
def Returns (succ : Nat → List Nat) (numBbs : Nat) (p : List Nat) (s : LoopSearch) (r : Nat × LoopSearch) : Prop :=
  HeaderInv succ numBbs p r.2 ∧ (r.1 ≠ PN_INVALID_BB_ID → r.1 ∈ p) ∧ s.seenBbs.length ≤ r.2.seenBbs.length

/-- One successor. -/
theorem visitSucc_logs {call : LoopSearch → Nat → LoopLog (Nat × LoopSearch)} (hroot : 0 ∈ bb :: p)
    (hi : HeaderInv succ numBbs (bb :: p) s) (hv : v < numBbs)
    (hcall : v ∉ s.seenBbs → Logs HeadersEnd (call s v) (Returns succ numBbs (bb :: p) s)) :
    Logs HeadersEnd (visitSuccLog numBbs (bb :: p) call bb s v) fun s' =>
      HeaderInv succ numBbs (bb :: p) s' ∧ s.seenBbs.length ≤ s'.seenBbs.length := by
  unfold visitSuccLog
  rw [if_pos hv]
  by_cases hs : v ∈ s.seenBbs
  · rw [if_pos hs]
    refine (visitSeen_logs (hi.path.subset hroot) hi hs).bind fun bbs' hi' => ?_
    exact .pure ⟨hi', Nat.le_refl _⟩
  · rw [if_neg hs]
    refine (hcall hs).bind fun r hr => ?_
    obtain ⟨hi', hh, hlen⟩ := hr
    refine (tagLoopHeader_logs (hi'.path.subset hroot) hi' hh).bind fun bbs' hi'' => ?_
    exact .pure ⟨hi'', hlen⟩

/-- **A call returns**, and the chains end at every store of it. -/
theorem calculateLoops_logs (hrange : ∀ u v, Reached (fun u v => v ∈ succ u) 0 u → v ∈ succ u → v < numBbs)
    (hroot : 0 ∈ bb :: p) (hreach : Reached (fun u v => v ∈ succ u) 0 bb) (hi : HeaderInv succ numBbs p s) (hnew : bb ∉ s.seenBbs)
    (hbb : bb < numBbs) (hf : numBbs < fuel + s.seenBbs.length) :
    Logs HeadersEnd (calculateLoopsLog numBbs fuel p (p.length + 1) s bb) (Returns succ numBbs p s) := by
  induction fuel generalizing bb p s with
  | zero =>
    have := length_le_of_lt hi.nodup hi.range
    omega
  | succ fuel ih =>
    have henter := hi.enter hnew hbb hroot
    rw [calculateLoopsLog, hi.succs]
    refine (henter.store (henter.path.subset hroot)).bind fun bbs₁ hi₁ => ?_
    refine Logs.bind (Q := fun s' => HeaderInv succ numBbs (bb :: p) s' ∧ s.seenBbs.length < s'.seenBbs.length) ?_ fun s' hs' => ?_
    · refine Logs.foldlM (fun s₂ v hv hs₂ => ?_) ⟨hi₁, by simp⟩
      obtain ⟨hi₂, hlen₂⟩ := hs₂
      refine (visitSucc_logs hroot hi₂ (hrange bb v hreach hv) fun hnewv => ?_).mono fun s₃ hs₃ => ⟨hs₃.1, hlen₂.trans_le hs₃.2⟩
      exact ih (List.mem_cons_of_mem _ hroot) (hreach.edge hv) hi₂ hnewv (hrange bb v hreach hv) (by omega)
    · obtain ⟨hi', hlen'⟩ := hs'
      refine (hi'.leave.store (hi'.path.subset hroot)).bind fun bbs₂ hi₂ => ?_
      exact .pure ⟨hi₂, hi'.onPath.head, hlen'.le⟩

end Search

/-! ## Every function -/

section Function

variable {f : PNLoopFunction}

/-- Before the search. -/
theorem PNLoopFunction.headerInv (hbegun : f.Begun 0) : HeaderInv (fun b => (f.bbs b).succBbIds) f.numBbs [] ⟨f.bbs, []⟩ where
  succs _ := rfl
  nodup := List.nodup_nil
  range x hx := absurd hx List.not_mem_nil
  path := List.Sublist.refl []
  pos x := (f.plain x).1
  onPath x hx := absurd hx List.not_mem_nil
  onSeen x hx := absurd hx List.not_mem_nil
  unseen x _ := by
    by_cases hx : f.Begun x
    · exact .inl hx
    · right
      constructor
      · exact congrArg PNLoopBlock.loopHeaderId ((f.fields x).resolve_left fun h => hx (congrArg PNLoopBlock.loopHeaderId h))
      · rintro rfl
        exact hx hbegun

theorem functionCalculateLoops_logs (hblocks : ∀ b, Reached f.Edge 0 b → b < f.numBbs) (hbegun : f.Begun 0) :
    Logs HeadersEnd (functionCalculateLoopsLog f) fun _ => True := by
  have hzero : 0 < f.numBbs := hblocks 0 ⟨_, .root⟩
  unfold functionCalculateLoopsLog
  rw [if_pos hzero]
  have hcall := calculateLoops_logs (fun u v hu hv => hblocks v (hu.edge hv)) (List.mem_singleton.mpr rfl) ⟨_, .root⟩
    (f.headerInv hbegun) List.not_mem_nil hzero (show f.numBbs < f.numBbs + 1 + ([] : List Nat).length from Nat.lt_succ_self _)
  exact hcall.bind fun r _ => .pure trivial

/-- Block 0 is left as it was declared: it is its own header. -/
theorem functionCalculateLoops_zero (hzero : 0 < f.numBbs) (hbegun : ¬f.Begun 0) :
    ∃ bbs notes, (functionCalculateLoopsLog f).run = .ok (bbs, notes) ∧ ∃ m ∈ notes, ¬HeadersEnd m := by
  have hheader : (f.bbs 0).loopHeaderId = 0 :=
    congrArg PNLoopBlock.loopHeaderId ((f.fields 0).resolve_left fun h => hbegun (congrArg PNLoopBlock.loopHeaderId h))
  have hrun : (calculateLoopsLog f.numBbs (f.numBbs + 1) [] 1 ⟨f.bbs, []⟩ 0).run =
      .ok ((((f.bbs.setPos 0 1) 0).loopHeaderId, ⟨(f.bbs.setPos 0 1).setPos 0 0, [0]⟩),
        [⟨[0], f.bbs.setPos 0 1⟩, ⟨[], (f.bbs.setPos 0 1).setPos 0 0⟩]) := by
    rw [calculateLoopsLog, f.succBbIds_nil hbegun]
    rfl
  unfold functionCalculateLoopsLog
  rw [if_pos hzero]
  refine ⟨_, _, run_bind_ok hrun rfl, _, List.mem_append_left _ List.mem_cons_self, fun hend => hend.acyclic 0 ?_⟩
  refine .single ⟨?_, by decide⟩
  dsimp only
  rw [PNLoopBlocks.setPos_fields]
  exact hheader

/-- **On every successor graph the pass returns**, and it returns what the pass without notes does. At every store the chains
of headers end, and those of the path go down the path, just when block 0 has begun since it was declared. -/
theorem headerChains_iff (f : PNLoopFunction) (hblocks : 0 < f.numBbs → ∀ b, Reached f.Edge 0 b → b < f.numBbs) :
    ∃ bbs notes, (functionCalculateLoopsLog f).run = .ok (bbs, notes) ∧ pnFunctionCalculateLoops f = .ok bbs ∧
      ((∀ m ∈ notes, HeadersEnd m) ↔ f.numBbs = 0 ∨ f.Begun 0) := by
  have hplain : ∀ {bbs notes}, (functionCalculateLoopsLog f).run = .ok (bbs, notes) → pnFunctionCalculateLoops f = .ok bbs :=
    fun {bbs notes} hrun => by
      rw [← erase_functionCalculateLoops]
      exact erase_of_run hrun
  by_cases hzero : 0 < f.numBbs
  · by_cases hbegun : f.Begun 0
    · obtain ⟨bbs, notes, hrun, hnotes, -⟩ := functionCalculateLoops_logs (hblocks hzero) hbegun
      exact ⟨bbs, notes, hrun, hplain hrun, iff_of_true hnotes (.inr hbegun)⟩
    · obtain ⟨bbs, notes, hrun, m, hm, hbad⟩ := functionCalculateLoops_zero hzero hbegun
      refine ⟨bbs, notes, hrun, hplain hrun, iff_of_false (fun hall => hbad (hall m hm)) ?_⟩
      rintro (hnone | hb)
      · omega
      · exact hbegun hb
  · have hrun : (functionCalculateLoopsLog f).run = .ok (f.bbs, []) := by
      unfold functionCalculateLoopsLog
      rw [if_neg hzero]
      rfl
    exact ⟨f.bbs, [], hrun, hplain hrun, iff_of_true (by simp) (.inl (by omega))⟩

/-- A loop with two entries: the graph is not reducible. -/
def twoEntries : PNLoopFunction where
  numBbs := 4
  bbs b := { succBbIds := match b with | 0 => [1, 2] | 1 => [2] | 2 => [1, 3] | _ => [] }
  fields _ := .inl rfl
  ids b := by
    match b with
    | 0 | 1 | 2 => decide
    | _ + 3 => exact fun v hv => absurd hv List.not_mem_nil

theorem twoEntries_blocks (b : Nat) (hr : Reached twoEntries.Edge 0 b) : b < twoEntries.numBbs := by
  obtain ⟨p, hp⟩ := hr
  cases hp with
  | root => decide
  | @step _ u _ _ he =>
    unfold PNLoopFunction.Edge twoEntries at he
    show b < 4
    match u with
    | 0 | 1 | 2 => simp at he; omega
    | _ + 3 => cases he

theorem headerChains_iff_twoEntries : ∃ bbs notes, (functionCalculateLoopsLog twoEntries).run = .ok (bbs, notes) ∧
    pnFunctionCalculateLoops twoEntries = .ok bbs ∧ ∀ m ∈ notes, HeadersEnd m := by
  obtain ⟨bbs, notes, hrun, hplain, hiff⟩ := headerChains_iff twoEntries fun _ => twoEntries_blocks
  exact ⟨bbs, notes, hrun, hplain, hiff.mpr (.inr rfl)⟩

/-- One block, declared again behind its instructions. -/
def declaredTwice : PNLoopFunction where
  numBbs := 1
  bbs _ := { loopHeaderId := 0 }
  fields _ := .inr rfl
  ids _ _ hv := absurd hv List.not_mem_nil

theorem declaredTwice_own_header :
    ∃ bbs notes, (functionCalculateLoopsLog declaredTwice).run = .ok (bbs, notes) ∧ ∃ m ∈ notes, ¬HeadersEnd m :=
  functionCalculateLoops_zero (by decide) (show (0 : Nat) ≠ PN_INVALID_BB_ID by decide)

end Function

end Pnacl
