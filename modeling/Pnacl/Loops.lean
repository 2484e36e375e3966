import Pnacl.Lib.NaturalLoops
import Pnacl.Module
import Mathlib.Data.List.Perm.Subperm
import Mathlib.Logic.Function.Basic

/-!
# Loop headers

`pn_calculate_loops.h` of the `PN_CALCULATE_LOOPS` build: one depth-first search over the successors that weaves, for each
block, the chain of the headers of its loops. On a reducible successor graph the chains are those of the natural loops
(`WeaveInv` is what holds while the search runs), but a block whose id is `PN_INVALID_BB_ID` cannot be told from no header at
all.
-/

namespace Pnacl

open Lib Relation

/-! ## The pass -/

/-- What the pass reads and writes of `PNBasicBlock`, with the values that a block begins with. -/
structure PNLoopBlock where
  succBbIds : List Nat := []
  dfspPos : Nat := 0
  loopHeaderId : Nat := PN_INVALID_BB_ID
  isLoopHeader : Bool := false
  isIrreducible : Bool := false
  isReentry : Bool := false
deriving Repr, DecidableEq

/-- `function->bbs`. -/
abbrev PNLoopBlocks := Nat → PNLoopBlock

/-- The fields of the blocks, and the members of `seen_bbs`. -/
structure LoopSearch where
  bbs : PNLoopBlocks
  seenBbs : List Nat

section Pass

variable (numBbs : Nat)

/-- The loop of `pn_basic_block_tag_loop_header`. -/
def tagLoop : Nat → PNLoopBlocks → Nat → Nat → Except Stop PNLoopBlocks
  | 0, _, _, _ => .error .fuel
  | fuel + 1, bbs, cur1, cur2 =>
    let parentLoopHeader := (bbs cur1).loopHeaderId
    if parentLoopHeader = PN_INVALID_BB_ID then .ok (Function.update bbs cur1 { bbs cur1 with loopHeaderId := cur2 })
    else if parentLoopHeader = cur2 then .ok bbs
    else if (bbs parentLoopHeader).dfspPos < (bbs cur2).dfspPos then
      tagLoop fuel (Function.update bbs cur1 { bbs cur1 with loopHeaderId := cur2 }) cur2 parentLoopHeader
    else tagLoop fuel bbs parentLoopHeader cur2

/-- `pn_basic_block_tag_loop_header`. -/
def pnBasicBlockTagLoopHeader (bbs : PNLoopBlocks) (bb loopHeaderId : Nat) : Except Stop PNLoopBlocks :=
  if loopHeaderId = PN_INVALID_BB_ID then .ok bbs
  else if loopHeaderId = bb then .ok bbs
  else tagLoop (2 * numBbs + 1) bbs bb loopHeaderId

/-- `while (loop_header->loop_header_id != PN_INVALID_BB_ID)`: the loops around one that is entered beside its header. -/
def markIrreducible (bb : Nat) : Nat → PNLoopBlocks → Nat → Except Stop PNLoopBlocks
  | 0, _, _ => .error .fuel
  | fuel + 1, bbs, loopHeader =>
    let loopHeaderId := (bbs loopHeader).loopHeaderId
    if loopHeaderId = PN_INVALID_BB_ID then .ok bbs
    else if 0 < (bbs loopHeaderId).dfspPos then pnBasicBlockTagLoopHeader numBbs bbs bb loopHeaderId
    else
      markIrreducible bb fuel (Function.update bbs loopHeaderId { bbs loopHeaderId with isIrreducible := true }) loopHeaderId

/-- A successor that has been seen before. -/
def visitSeen (bbs : PNLoopBlocks) (bb succBbId : Nat) : Except Stop PNLoopBlocks :=
  let loopHeaderId := (bbs succBbId).loopHeaderId
  if 0 < (bbs succBbId).dfspPos then
    pnBasicBlockTagLoopHeader numBbs (Function.update bbs succBbId { bbs succBbId with isLoopHeader := true }) bb succBbId
  else if loopHeaderId = PN_INVALID_BB_ID then .ok bbs
  else if 0 < (bbs loopHeaderId).dfspPos then pnBasicBlockTagLoopHeader numBbs bbs bb loopHeaderId
  else
    let bbs := Function.update bbs succBbId { bbs succBbId with isReentry := true }
    let bbs := Function.update bbs loopHeaderId { bbs loopHeaderId with isIrreducible := true }
    markIrreducible numBbs bb (numBbs + 1) bbs loopHeaderId

/-- The body of the loop over the successors; `calculateLoops` is the call for a successor. -/
def visitSucc (calculateLoops : LoopSearch → Nat → Except Stop (Nat × LoopSearch)) (bb : Nat) (s : LoopSearch)
    (succBbId : Nat) : Except Stop LoopSearch :=
  if succBbId < numBbs then
    if succBbId ∈ s.seenBbs then do
      let bbs ← visitSeen numBbs s.bbs bb succBbId
      .ok { s with bbs := bbs }
    else do
      let (newLoopHeader, s) ← calculateLoops s succBbId
      let bbs ← pnBasicBlockTagLoopHeader numBbs s.bbs bb newLoopHeader
      .ok { s with bbs := bbs }
  else .error (.undefined "function->bbs out of range")

/-- Set `dfsp_pos`. -/
def PNLoopBlocks.setPos (bbs : PNLoopBlocks) (bb dfspPos : Nat) : PNLoopBlocks :=
  Function.update bbs bb { bbs bb with dfspPos := dfspPos }

/-- `pn_basic_block_calculate_loops`. -/
def pnBasicBlockCalculateLoops : Nat → Nat → LoopSearch → Nat → Except Stop (Nat × LoopSearch)
  | 0, _, _, _ => .error .fuel
  | fuel + 1, dfspPos, s, bb => do
    let s ← (s.bbs bb).succBbIds.foldlM (visitSucc numBbs (pnBasicBlockCalculateLoops fuel (dfspPos + 1)) bb)
      ⟨s.bbs.setPos bb dfspPos, bb :: s.seenBbs⟩
    .ok ((s.bbs bb).loopHeaderId, { s with bbs := s.bbs.setPos bb 0 })

end Pass

/-- What the pass reads of `PNFunction`, as `pn_function_block_read` leaves it: a block that has begun, or the zeros of a block
that was declared again behind its instructions, or that no id reaches. -/
structure PNLoopFunction where
  numBbs : Nat
  bbs : PNLoopBlocks
  fields : ∀ b, bbs b = { succBbIds := (bbs b).succBbIds } ∨ bbs b = { loopHeaderId := 0 }
  ids : ∀ b, ∀ v ∈ (bbs b).succBbIds, v < 2 ^ 16

/-- `pn_function_calculate_loops`. -/
def pnFunctionCalculateLoops (f : PNLoopFunction) : Except Stop PNLoopBlocks :=
  if 0 < f.numBbs then do
    let (_, s) ← pnBasicBlockCalculateLoops f.numBbs (f.numBbs + 1) 1 ⟨f.bbs, []⟩ 0
    .ok s.bbs
  else .ok f.bbs

/-- A field that an update of one block keeps. -/
theorem field_update {β : Type} {bbs : PNLoopBlocks} {id : Nat} {b : PNLoopBlock} (field : PNLoopBlock → β)
    (hb : field b = field (bbs id)) (x : Nat) : field (Function.update bbs id b x) = field (bbs x) := by
  by_cases hx : x = id
  · subst hx
    rw [Function.update_self, hb]
  · rw [Function.update_of_ne hx]

theorem PNLoopBlocks.setPos_fields (bbs : PNLoopBlocks) (bb dfspPos x : Nat) :
    bbs.setPos bb dfspPos x = { bbs x with dfspPos := if x = bb then dfspPos else (bbs x).dfspPos } := by
  unfold PNLoopBlocks.setPos
  by_cases hx : x = bb
  · subst hx
    rw [Function.update_self, if_pos rfl]
  · rw [Function.update_of_ne hx, if_neg hx]

/-! ## Weaving the chains -/

/-- The chain of headers from a block on. -/
def HeaderChain (bbs : PNLoopBlocks) : Nat → Nat → Prop :=
  TransGen fun x y => (bbs x).loopHeaderId = y ∧ y ≠ PN_INVALID_BB_ID

/-- Each header that is set is the header of a natural loop of the block. -/
def SoundHeaders (E : Nat → Nat → Prop) (bbs : PNLoopBlocks) : Prop :=
  ∀ x, Reached E 0 x → (bbs x).loopHeaderId ≠ PN_INVALID_BB_ID → LoopBody E 0 (bbs x).loopHeaderId x

/-- Only headers change, and only of the blocks on the path; no chain loses a header. -/
structure Woven (E : Nat → Nat → Prop) (p : List Nat) (bbs bbs' : PNLoopBlocks) : Prop where
  fields : ∀ x, bbs' x = { bbs x with loopHeaderId := (bbs' x).loopHeaderId }
  outside : ∀ x, x ∉ p → bbs' x = bbs x
  sound : SoundHeaders E bbs'
  chain : ∀ x y, HeaderChain bbs x y → HeaderChain bbs' x y

section Weave

variable {E : Nat → Nat → Prop} {p : List Nat} {bbs bbs' bbs₂ : PNLoopBlocks} {cur1 cur2 a b h x y bb fuel numBbs : Nat}

theorem HeaderChain.mono (hall : ∀ x, (bbs x).loopHeaderId ≠ PN_INVALID_BB_ID → HeaderChain bbs' x (bbs x).loopHeaderId)
    (hc : HeaderChain bbs x y) : HeaderChain bbs' x y := by
  induction hc with
  | single h =>
    obtain ⟨rfl, hv⟩ := h
    exact hall _ hv
  | tail _ h ih =>
    obtain ⟨rfl, hv⟩ := h
    exact ih.trans (hall _ hv)

theorem HeaderChain.parent (hv : (bbs x).loopHeaderId ≠ PN_INVALID_BB_ID) : HeaderChain bbs x (bbs x).loopHeaderId :=
  .single ⟨rfl, hv⟩

theorem Woven.refl (hs : SoundHeaders E bbs) : Woven E p bbs bbs := ⟨fun _ => rfl, fun _ _ => rfl, hs, fun _ _ h => h⟩

theorem Woven.isLoopHeader (hw : Woven E p bbs bbs') (x : Nat) : (bbs' x).isLoopHeader = (bbs x).isLoopHeader :=
  (congrArg PNLoopBlock.isLoopHeader (hw.fields x)).trans rfl

/-- One header set, and then more. -/
theorem Woven.set (hw : Woven E p (Function.update bbs cur1 { bbs cur1 with loopHeaderId := cur2 }) bbs') (hm : cur1 ∈ p)
    (hc : (bbs cur1).loopHeaderId ≠ PN_INVALID_BB_ID → HeaderChain bbs' cur1 (bbs cur1).loopHeaderId) :
    Woven E p bbs bbs' where
  fields x := by
    rw [hw.fields x]
    by_cases hx : x = cur1
    · subst hx
      rw [Function.update_self]
    · rw [Function.update_of_ne hx]
  outside x hx := by
    rw [hw.outside x hx, Function.update_of_ne (show x ≠ cur1 from fun heq => hx (heq ▸ hm))]
  sound := hw.sound
  chain x y := by
    refine HeaderChain.mono fun z hz => ?_
    by_cases hzc : z = cur1
    · subst hzc
      exact hc hz
    · refine hw.chain _ _ (.single ⟨?_, hz⟩)
      rw [Function.update_of_ne hzc]

theorem SoundHeaders.set (hs : SoundHeaders E bbs) (hl : LoopBody E 0 cur2 cur1) :
    SoundHeaders E (Function.update bbs cur1 { bbs cur1 with loopHeaderId := cur2 }) := fun y hr hy => by
  by_cases hyc : y = cur1
  · subst hyc
    rw [Function.update_self]
    exact hl
  · rw [Function.update_of_ne hyc] at hy ⊢
    exact hs y hr hy

/-- The loop merges the chain of `cur2` into that of `cur1`. -/
theorem tagLoop_spec (hp : Walk E 0 p x) (hn : p.Nodup) (hpos : ∀ y, (bbs y).dfspPos = depth p y) (hs : SoundHeaders E bbs)
    (hm : cur1 ∈ p) (hl : LoopBody E 0 cur2 cur1) (hv : cur2 ≠ PN_INVALID_BB_ID)
    (hf : depth p cur1 + depth p cur2 < fuel) :
    ∃ bbs', tagLoop fuel bbs cur1 cur2 = .ok bbs' ∧ Woven E p bbs bbs' ∧ HeaderChain bbs' cur1 cur2 := by
  induction fuel generalizing bbs cur1 cur2 with
  | zero => omega
  | succ fuel ih =>
    have hlt := hl.depth_lt hp hn hm
    have hsound := hs.set hl
    have hedge : HeaderChain (Function.update bbs cur1 { bbs cur1 with loopHeaderId := cur2 }) cur1 cur2 :=
      .single ⟨by rw [Function.update_self], hv⟩
    rw [tagLoop]
    by_cases hnone : (bbs cur1).loopHeaderId = PN_INVALID_BB_ID
    · rw [if_pos hnone]
      exact ⟨_, rfl, (Woven.refl hsound).set hm fun h => absurd hnone h, hedge⟩
    rw [if_neg hnone]
    by_cases heq : (bbs cur1).loopHeaderId = cur2
    · rw [if_pos heq]
      exact ⟨_, rfl, .refl hs, .single ⟨heq, hv⟩⟩
    rw [if_neg heq, hpos, hpos]
    have hreach : Reached E 0 cur1 := .of_mem hp hm
    have hl' := hs cur1 hreach hnone
    have hlt' := hl'.depth_lt hp hn hm
    generalize hparent : (bbs cur1).loopHeaderId = parent at *
    by_cases hpd : depth p parent < depth p cur2
    · rw [if_pos hpd]
      -- `cur2` goes between, and the old header goes on along its chain
      have hdom := hl'.dominates.of_depth_lt hl.dominates hp hn hm hpd
      have hnest : LoopBody E 0 parent cur2 := hl'.nest hl.dominates hdom heq hreach
      have hpos' := fun y =>
        (field_update PNLoopBlock.dfspPos (b := { bbs cur1 with loopHeaderId := cur2 }) rfl y).trans (hpos y)
      obtain ⟨bbs', hrun, hwoven, hchain⟩ := ih hpos' hsound (hl.dominates.mem_walk hp hm) hnest hnone (by omega)
      have hfirst := hwoven.chain _ _ hedge
      exact ⟨bbs', hrun, hwoven.set hm fun _ => hparent ▸ hfirst.trans hchain, hfirst⟩
    · rw [if_neg hpd]
      have hne : depth p cur2 ≠ depth p parent := fun h => heq (depth_inj (hl.dominates.mem_walk hp hm) h).symm
      have hdom := hl.dominates.of_depth_lt hl'.dominates hp hn hm (by omega)
      have hnest : LoopBody E 0 cur2 parent := hl.nest hl'.dominates hdom (Ne.symm heq) hreach
      obtain ⟨bbs', hrun, hwoven, hchain⟩ := ih hpos hs (hl'.dominates.mem_walk hp hm) hnest hv (by omega)
      exact ⟨bbs', hrun, hwoven, (hwoven.chain _ _ (.single ⟨hparent, hnone⟩)).trans hchain⟩

/-- `pn_basic_block_tag_loop_header`, for no header, the block itself or the header of one of its loops. -/
theorem tagLoopHeader_spec (hp : Walk E 0 p x) (hn : p.Nodup) (hlen : p.length ≤ numBbs)
    (hpos : ∀ y, (bbs y).dfspPos = depth p y) (hs : SoundHeaders E bbs) (hm : bb ∈ p)
    (hl : h ≠ PN_INVALID_BB_ID → h ≠ bb → LoopBody E 0 h bb) :
    ∃ bbs', pnBasicBlockTagLoopHeader numBbs bbs bb h = .ok bbs' ∧ Woven E p bbs bbs' ∧
      (h = PN_INVALID_BB_ID ∨ h = bb ∨ HeaderChain bbs' bb h) := by
  unfold pnBasicBlockTagLoopHeader
  by_cases hv : h = PN_INVALID_BB_ID
  · rw [if_pos hv]
    exact ⟨_, rfl, .refl hs, .inl hv⟩
  by_cases hb : h = bb
  · rw [if_neg hv, if_pos hb]
    exact ⟨_, rfl, .refl hs, .inr (.inl hb)⟩
  rw [if_neg hv, if_neg hb]
  have h₁ := depth_le (p := p) (a := bb)
  have h₂ := depth_le (p := p) (a := h)
  obtain ⟨bbs', hrun, hwoven, hchain⟩ := tagLoop_spec hp hn hpos hs hm (hl hv hb) hv
    (show depth p bb + depth p h < 2 * numBbs + 1 by omega)
  exact ⟨bbs', hrun, hwoven, .inr (.inr hchain)⟩

end Weave

/-! ## The search -/

/-- The edges that the search weaves by: those of the successor graph, without back edges to the block whose id stands for no
header. -/
structure SearchGraph (succ : Nat → List Nat) (numBbs : Nat) (E : Nat → Nat → Prop) : Prop where
  edge : ∀ u v, E u v → v ∈ succ u
  split : ∀ u v, Reached E 0 u → v ∈ succ u → E u v ∨ (v = PN_INVALID_BB_ID ∧ Dominates E 0 v u)
  sentinel : ∀ u, BackEdge E 0 u PN_INVALID_BB_ID → u = PN_INVALID_BB_ID
  reducible : ReducibleGraph E 0
  range : ∀ u v, Reached E 0 u → v ∈ succ u → v < numBbs

/-- The search is on the path `p`, and the edges of `D` are behind it. The source of such an edge has the target in its chain
when the edge is a back edge, and else the header of the target, which the search has left. -/
structure WeaveInv (succ : Nat → List Nat) (numBbs : Nat) (E : Nat → Nat → Prop) (p : List Nat) (D : Nat → Nat → Prop)
    (s : LoopSearch) : Prop where
  succs : ∀ x, (s.bbs x).succBbIds = succ x
  nodup : s.seenBbs.Nodup
  range : ∀ x ∈ s.seenBbs, x < numBbs
  reached : ∀ x ∈ s.seenBbs, Reached E 0 x
  path : ∀ x ∈ p, x ∈ s.seenBbs
  pos : ∀ x, (s.bbs x).dfspPos = depth p x
  done : ∀ u v, D u v → u ∈ s.seenBbs ∧ v ∈ succ u ∧ v ∈ s.seenBbs
  finished : ∀ x ∈ s.seenBbs, x ∉ p → ∀ v ∈ succ x, D x v
  sound : SoundHeaders E s.bbs
  back : ∀ u v, D u v → E u v → Dominates E 0 v u → u = v ∨ HeaderChain s.bbs u v
  forward : ∀ u v, D u v → E u v → ¬Dominates E 0 v u → v ∉ p ∧
    ((s.bbs v).loopHeaderId = PN_INVALID_BB_ID ∨ (s.bbs v).loopHeaderId = u ∨ HeaderChain s.bbs u (s.bbs v).loopHeaderId)
  plain : ∀ x, (s.bbs x).isIrreducible = false ∧ (s.bbs x).isReentry = false

/-- The marked blocks are the targets of the back edges behind the search. -/
def HeadersMarked (E D : Nat → Nat → Prop) (bbs : PNLoopBlocks) : Prop :=
  ∀ x, (bbs x).isLoopHeader = true ↔ ∃ u, D u x ∧ Dominates E 0 x u

/-- One more edge is behind the search. -/
def withEdge (D : Nat → Nat → Prop) (a b : Nat) : Nat → Nat → Prop := fun u v => D u v ∨ (u = a ∧ v = b)

section Search

variable {succ : Nat → List Nat} {E : Nat → Nat → Prop} {numBbs : Nat} {p p' : List Nat} {D : Nat → Nat → Prop}
  {s s' : LoopSearch} {bbs' : PNLoopBlocks} {seen' l : List Nat} {bb a b h u v x fuel : Nat}

/-- What `WeaveInv` needs when the path, the positions and the seen blocks change. -/
theorem WeaveInv.move (hi : WeaveInv succ numBbs E p D s)
    (hsame : ∀ x, bbs' x = { s.bbs x with dfspPos := (bbs' x).dfspPos, isLoopHeader := (bbs' x).isLoopHeader })
    (hpos : ∀ x, (bbs' x).dfspPos = depth p' x) (hnodup : seen'.Nodup) (hrange : ∀ x ∈ seen', x < numBbs)
    (hreached : ∀ x ∈ seen', Reached E 0 x) (hpath : ∀ x ∈ p', x ∈ seen') (hsub : ∀ x ∈ s.seenBbs, x ∈ seen')
    (hfin : ∀ x ∈ seen', x ∉ p' → ∀ v ∈ succ x, D x v) (hout : ∀ x ∈ s.seenBbs, x ∉ p → x ∉ p') :
    WeaveInv succ numBbs E p' D ⟨bbs', seen'⟩ := by
  have hheader : ∀ x, (bbs' x).loopHeaderId = (s.bbs x).loopHeaderId := fun x => by rw [hsame x]
  have hchain : ∀ {x y}, HeaderChain s.bbs x y → HeaderChain bbs' x y := fun hc =>
    hc.mono fun x hx => hheader x ▸ HeaderChain.parent (by rw [hheader]; exact hx)
  refine ⟨fun x => ?_, hnodup, hrange, hreached, hpath, hpos, fun u v hd => ?_, hfin, fun x hr hx => ?_,
    fun u v hd he hdom => ?_, fun u v hd he hdom => ?_, fun x => ?_⟩
  · exact (congrArg PNLoopBlock.succBbIds (hsame x)).trans (hi.succs x)
  · obtain ⟨hu, hv, hs⟩ := hi.done u v hd
    exact ⟨hsub u hu, hv, hsub v hs⟩
  · simp only [hheader] at hx ⊢
    exact hi.sound x hr hx
  · exact (hi.back u v hd he hdom).imp_right hchain
  · obtain ⟨hv, hcases⟩ := hi.forward u v hd he hdom
    simp only [hheader]
    exact ⟨hout v (hi.done u v hd).2.2 hv, hcases.imp_right (Or.imp_right hchain)⟩
  · obtain ⟨hirreducible, hreentry⟩ := hi.plain x
    exact ⟨(congrArg PNLoopBlock.isIrreducible (hsame x)).trans hirreducible,
      (congrArg PNLoopBlock.isReentry (hsame x)).trans hreentry⟩

/-- A block comes on the path. -/
theorem WeaveInv.enter (hi : WeaveInv succ numBbs E p D s) (hw : Walk E 0 (bb :: p) bb) (hbb : bb < numBbs)
    (hnew : bb ∉ s.seenBbs) : WeaveInv succ numBbs E (bb :: p) D ⟨s.bbs.setPos bb (p.length + 1), bb :: s.seenBbs⟩ := by
  refine hi.move (fun x => ?_) (fun x => ?_) (List.nodup_cons.mpr ⟨hnew, hi.nodup⟩)
    (List.forall_mem_cons.mpr ⟨hbb, hi.range⟩) (List.forall_mem_cons.mpr ⟨⟨_, hw⟩, hi.reached⟩)
    (List.forall_mem_cons.mpr ⟨List.mem_cons_self, fun x hx => List.mem_cons_of_mem _ (hi.path x hx)⟩)
    (fun x hx => List.mem_cons_of_mem _ hx) (fun x hx hxp => ?_) (fun x hx hxp hm => ?_)
  · rw [PNLoopBlocks.setPos_fields]
  · rw [PNLoopBlocks.setPos_fields, depth, hi.pos x]
  · rw [List.mem_cons, not_or] at hxp
    exact hi.finished x ((List.mem_cons.mp hx).resolve_left hxp.1) hxp.2
  · rcases List.mem_cons.mp hm with rfl | hm
    · exact hnew hx
    · exact hxp hm

/-- A block whose edges are all behind the search leaves the path. -/
theorem WeaveInv.leave (hi : WeaveInv succ numBbs E (bb :: p) D s) (hn : (bb :: p).Nodup) (hall : ∀ v ∈ succ bb, D bb v) :
    WeaveInv succ numBbs E p D ⟨s.bbs.setPos bb 0, s.seenBbs⟩ := by
  obtain ⟨hbb, -⟩ := List.nodup_cons.mp hn
  refine hi.move (fun x => ?_) (fun x => ?_) hi.nodup hi.range hi.reached (fun x hx => hi.path x (List.mem_cons_of_mem _ hx))
    (fun x hx => hx) (fun x hx hxp => ?_) (fun x _ hxp hm => hxp (List.mem_cons_of_mem _ hm))
  · rw [PNLoopBlocks.setPos_fields]
  · rw [PNLoopBlocks.setPos_fields]
    by_cases hx : x = bb
    · subst hx
      rw [if_pos rfl, depth_eq_zero hbb]
    · rw [if_neg hx, hi.pos x, depth, if_neg hx]
  · by_cases hxb : x = bb
    · subst hxb
      exact hall
    · exact hi.finished x hx fun hm => hxp ((List.mem_cons.mp hm).resolve_left hxb)

/-- A block of the path is marked as a loop header. -/
theorem WeaveInv.mark (hi : WeaveInv succ numBbs E p D s) (v : Nat) :
    WeaveInv succ numBbs E p D ⟨Function.update s.bbs v { s.bbs v with isLoopHeader := true }, s.seenBbs⟩ := by
  refine hi.move (fun x => ?_) (fun x => ?_) hi.nodup hi.range hi.reached hi.path (fun x hx => hx) hi.finished
    fun x _ hxp => hxp
  · by_cases hx : x = v
    · subst hx
      rw [Function.update_self]
    · rw [Function.update_of_ne hx]
  · rw [← hi.pos x]
    exact field_update PNLoopBlock.dfspPos (by rfl) x

theorem WeaveInv.weave (hi : WeaveInv succ numBbs E p D s) (hw : Woven E p s.bbs bbs') :
    WeaveInv succ numBbs E p D ⟨bbs', s.seenBbs⟩ where
  succs x := (congrArg PNLoopBlock.succBbIds (hw.fields x)).trans (hi.succs x)
  nodup := hi.nodup
  range := hi.range
  reached := hi.reached
  path := hi.path
  pos x := (congrArg PNLoopBlock.dfspPos (hw.fields x)).trans (hi.pos x)
  done := hi.done
  finished := hi.finished
  sound := hw.sound
  back u v hd he hdom := (hi.back u v hd he hdom).imp_right (hw.chain _ _)
  forward u v hd he hdom := by
    obtain ⟨hv, hcases⟩ := hi.forward u v hd he hdom
    dsimp only
    rw [hw.outside v hv]
    exact ⟨hv, hcases.imp_right (Or.imp_right (hw.chain _ _))⟩
  plain x := by
    obtain ⟨hirreducible, hreentry⟩ := hi.plain x
    exact ⟨(congrArg PNLoopBlock.isIrreducible (hw.fields x)).trans hirreducible,
      (congrArg PNLoopBlock.isReentry (hw.fields x)).trans hreentry⟩

theorem WeaveInv.addEdge (hi : WeaveInv succ numBbs E p D s) (ha : a ∈ s.seenBbs) (hb : b ∈ succ a) (hbs : b ∈ s.seenBbs)
    (hback : E a b → Dominates E 0 b a → a = b ∨ HeaderChain s.bbs a b)
    (hforward : E a b → ¬Dominates E 0 b a → b ∉ p ∧ ((s.bbs b).loopHeaderId = PN_INVALID_BB_ID ∨
      (s.bbs b).loopHeaderId = a ∨ HeaderChain s.bbs a (s.bbs b).loopHeaderId)) :
    WeaveInv succ numBbs E p (withEdge D a b) s :=
  { hi with
    done := fun u v hd => by
      rcases hd with hd | ⟨rfl, rfl⟩
      · exact hi.done u v hd
      · exact ⟨ha, hb, hbs⟩
    finished := fun x hx hxp v hv => .inl (hi.finished x hx hxp v hv)
    back := fun u v hd he hdom => by
      rcases hd with hd | ⟨rfl, rfl⟩
      · exact hi.back u v hd he hdom
      · exact hback he hdom
    forward := fun u v hd he hdom => by
      rcases hd with hd | ⟨rfl, rfl⟩
      · exact hi.forward u v hd he hdom
      · exact hforward he hdom }

theorem HeadersMarked.addEdge (hm : HeadersMarked E D s.bbs) (hsame : ∀ x, (bbs' x).isLoopHeader = (s.bbs x).isLoopHeader)
    (hd : ¬Dominates E 0 b a) : HeadersMarked E (withEdge D a b) bbs' := fun x => by
  rw [hsame x, hm x]
  constructor
  · rintro ⟨u, hu, hdom⟩
    exact ⟨u, .inl hu, hdom⟩
  · rintro ⟨u, hu | ⟨rfl, rfl⟩, hdom⟩
    · exact ⟨u, hu, hdom⟩
    · exact absurd hdom hd

theorem HeadersMarked.mark (hm : HeadersMarked E D s.bbs) (hb : (bbs' b).isLoopHeader = true)
    (hsame : ∀ x, x ≠ b → (bbs' x).isLoopHeader = (s.bbs x).isLoopHeader) (hd : Dominates E 0 b a) :
    HeadersMarked E (withEdge D a b) bbs' := fun x => by
  by_cases hx : x = b
  · subst hx
    exact ⟨fun _ => ⟨a, .inr ⟨rfl, rfl⟩, hd⟩, fun _ => hb⟩
  · rw [hsame x hx, hm x]
    constructor
    · rintro ⟨u, hu, hdom⟩
      exact ⟨u, .inl hu, hdom⟩
    · rintro ⟨u, hu | ⟨-, rfl⟩, hdom⟩
      · exact ⟨u, hu, hdom⟩
      · exact absurd rfl hx

theorem length_le_of_lt (hn : l.Nodup) (hlt : ∀ x ∈ l, x < numBbs) : l.length ≤ numBbs := by
  have hsub := (List.subperm_of_subset hn fun x hx => List.mem_range.mpr (hlt x hx)).length_le
  rwa [List.length_range] at hsub

theorem WeaveInv.length_le (hi : WeaveInv succ numBbs E p D s) (hn : p.Nodup) : p.length ≤ numBbs :=
  length_le_of_lt hn fun x hx => hi.range x (hi.path x hx)

/-- An edge to a block that the search has left, whose header is in the chain of the source. -/
theorem WeaveInv.left (hi : WeaveInv succ numBbs E (bb :: p) D s) (hm : HeadersMarked E D s.bbs)
    (hw : Woven E (bb :: p) s.bbs bbs') (hv : v ∈ succ bb) (hs : v ∈ s.seenBbs) (hvp : v ∉ bb :: p)
    (hdom : ¬Dominates E 0 v bb) (hcase : (s.bbs v).loopHeaderId = PN_INVALID_BB_ID ∨ (s.bbs v).loopHeaderId = bb ∨
      HeaderChain bbs' bb (s.bbs v).loopHeaderId) :
    WeaveInv succ numBbs E (bb :: p) (withEdge D bb v) ⟨bbs', s.seenBbs⟩ ∧ HeadersMarked E (withEdge D bb v) bbs' := by
  refine ⟨(hi.weave hw).addEdge (hi.path bb List.mem_cons_self) hv hs (fun _ hd => absurd hd hdom) (fun _ _ => ⟨hvp, ?_⟩),
    hm.addEdge hw.isLoopHeader hdom⟩
  dsimp only
  rw [hw.outside v hvp]
  exact hcase

/-- A successor that has been seen is on the path, and dominates the block, or the search has left it, and its header is on the
path. -/
theorem visitSeen_spec (hg : SearchGraph succ numBbs E) (hw : Walk E 0 (bb :: p) bb) (hn : (bb :: p).Nodup)
    (hi : WeaveInv succ numBbs E (bb :: p) D s) (hm : HeadersMarked E D s.bbs) (hv : v ∈ succ bb) (hs : v ∈ s.seenBbs) :
    ∃ bbs', visitSeen numBbs s.bbs bb v = .ok bbs' ∧
      WeaveInv succ numBbs E (bb :: p) (withEdge D bb v) ⟨bbs', s.seenBbs⟩ ∧ HeadersMarked E (withEdge D bb v) bbs' := by
  have hbb : bb ∈ bb :: p := List.mem_cons_self
  have hlen := hi.length_le hn
  unfold visitSeen
  by_cases hvp : v ∈ bb :: p
  · have hdom : Dominates E 0 v bb :=
      (hg.split bb v ⟨_, hw⟩ hv).elim (fun he => hg.reducible.dominates hw hn hvp he) And.right
    have hmark := hi.mark v
    rw [if_pos (by rw [hi.pos]; exact depth_pos.mpr hvp)]
    obtain ⟨bbs', hrun, hwoven, hcase⟩ := tagLoopHeader_spec hw hn hlen hmark.pos hmark.sound hbb fun hne hvb =>
      BackEdge.loopBody ⟨⟨_, hw⟩, (hg.split bb v ⟨_, hw⟩ hv).resolve_right fun h => hne h.1, hdom⟩ (Ne.symm hvb)
    refine ⟨bbs', hrun, (hmark.weave hwoven).addEdge (hi.path bb hbb) hv hs (fun he _ => ?_) (fun _ hnd => absurd hdom hnd),
      hm.mark ?_ (fun x hx => ?_) hdom⟩
    · rcases hcase with rfl | rfl | hc
      · exact .inl (hg.sentinel bb ⟨⟨_, hw⟩, he, hdom⟩)
      · exact .inl rfl
      · exact .inr hc
    · refine (hwoven.isLoopHeader v).trans ?_
      dsimp only
      rw [Function.update_self]
    · refine (hwoven.isLoopHeader x).trans ?_
      dsimp only
      rw [Function.update_of_ne hx]
  · have hdom : ¬Dominates E 0 v bb := fun hd => hvp (hd _ hw)
    have he : E bb v := (hg.split bb v ⟨_, hw⟩ hv).resolve_right fun h => hdom h.2
    rw [if_neg (by rw [hi.pos, depth_eq_zero hvp]; exact Nat.lt_irrefl 0)]
    by_cases hnone : (s.bbs v).loopHeaderId = PN_INVALID_BB_ID
    · rw [if_pos hnone]
      exact ⟨s.bbs, rfl, hi.left hm (.refl hi.sound) hv hs hvp hdom (.inl hnone)⟩
    · -- the header of a block that has been left dominates every block with an edge to it
      have hbody := hi.sound v (hi.reached v hs) hnone
      have hpath := hbody.dominates.source he (Ne.symm hbody.1) _ hw
      rw [if_neg hnone, if_pos (by rw [hi.pos]; exact depth_pos.mpr hpath)]
      obtain ⟨bbs', hrun, hwoven, hcase⟩ := tagLoopHeader_spec hw hn hlen hi.pos hi.sound hbb fun _ hne =>
        hbody.edge he (Ne.symm hne)
      exact ⟨bbs', hrun, hi.left hm hwoven hv hs hvp hdom hcase⟩

/-- What a call of `pn_basic_block_calculate_loops` does, for a block that has not been seen. -/
def Searches (succ : Nat → List Nat) (numBbs : Nat) (E : Nat → Nat → Prop) (p : List Nat) (D : Nat → Nat → Prop)
    (s : LoopSearch) (bb : Nat) (r : Except Stop (Nat × LoopSearch)) : Prop :=
  ∃ D' s', r = .ok ((s'.bbs bb).loopHeaderId, s') ∧ WeaveInv succ numBbs E p D' s' ∧ HeadersMarked E D' s'.bbs ∧
    (∀ u v, D u v → D' u v) ∧ bb ∈ s'.seenBbs ∧ s.seenBbs.length ≤ s'.seenBbs.length

/-- One successor. -/
theorem visitSucc_spec {call : LoopSearch → Nat → Except Stop (Nat × LoopSearch)} (hg : SearchGraph succ numBbs E)
    (hw : Walk E 0 (bb :: p) bb) (hn : (bb :: p).Nodup) (hi : WeaveInv succ numBbs E (bb :: p) D s)
    (hm : HeadersMarked E D s.bbs) (hv : v ∈ succ bb)
    (hcall : v ∉ s.seenBbs → v < numBbs → Walk E 0 (v :: bb :: p) v → Searches succ numBbs E (bb :: p) D s v (call s v)) :
    ∃ D' s', visitSucc numBbs call bb s v = .ok s' ∧ WeaveInv succ numBbs E (bb :: p) D' s' ∧ HeadersMarked E D' s'.bbs ∧
      (∀ u v, D u v → D' u v) ∧ D' bb v ∧ s.seenBbs.length ≤ s'.seenBbs.length := by
  have hbb : bb ∈ bb :: p := List.mem_cons_self
  have hlt := hg.range bb v ⟨_, hw⟩ hv
  unfold visitSucc
  rw [if_pos hlt]
  by_cases hs : v ∈ s.seenBbs
  · obtain ⟨bbs', hrun, hi', hm'⟩ := visitSeen_spec hg hw hn hi hm hv hs
    rw [if_pos hs, hrun]
    exact ⟨_, _, rfl, hi', hm', fun _ _ => .inl, .inr ⟨rfl, rfl⟩, Nat.le_refl _⟩
  · have hvp : v ∉ bb :: p := fun hmem => hs (hi.path v hmem)
    have hdom : ¬Dominates E 0 v bb := fun hd => hvp (hd _ hw)
    have he : E bb v := (hg.split bb v ⟨_, hw⟩ hv).resolve_right fun h => hdom h.2
    obtain ⟨D', s', hrun, hi', hm', hD, hseen, hlen⟩ := hcall hs hlt (hw.step he)
    rw [if_neg hs, hrun]
    simp only [ok_bind]
    obtain ⟨bbs', htag, hwoven, hcase⟩ := tagLoopHeader_spec (h := (s'.bbs v).loopHeaderId) hw hn (hi'.length_le hn) hi'.pos
      hi'.sound hbb fun hne hvb => (hi'.sound v (hi'.reached v hseen) hne).edge he (Ne.symm hvb)
    rw [htag]
    obtain ⟨hi'', hm''⟩ := hi'.left hm' hwoven hv hseen hvp hdom hcase
    exact ⟨_, _, rfl, hi'', hm'', fun u v h => .inl (hD u v h), .inr ⟨rfl, rfl⟩, hlen⟩

/-- The loop over the successors. -/
theorem visitSuccs_spec {call : LoopSearch → Nat → Except Stop (Nat × LoopSearch)} (hg : SearchGraph succ numBbs E)
    (hw : Walk E 0 (bb :: p) bb) (hn : (bb :: p).Nodup) (hf : numBbs < fuel + s.seenBbs.length)
    (hcall : ∀ D s v, WeaveInv succ numBbs E (bb :: p) D s → HeadersMarked E D s.bbs → numBbs < fuel + s.seenBbs.length →
      v ∉ s.seenBbs → v < numBbs → Walk E 0 (v :: bb :: p) v → Searches succ numBbs E (bb :: p) D s v (call s v))
    (hi : WeaveInv succ numBbs E (bb :: p) D s) (hm : HeadersMarked E D s.bbs) (hl : ∀ v ∈ l, v ∈ succ bb) :
    ∃ D' s', l.foldlM (visitSucc numBbs call bb) s = .ok s' ∧ WeaveInv succ numBbs E (bb :: p) D' s' ∧
      HeadersMarked E D' s'.bbs ∧ (∀ u v, D u v → D' u v) ∧ (∀ v ∈ l, D' bb v) ∧
        s.seenBbs.length ≤ s'.seenBbs.length := by
  induction l generalizing D s with
  | nil => exact ⟨D, s, rfl, hi, hm, fun _ _ h => h, fun v hv => absurd hv List.not_mem_nil, Nat.le_refl _⟩
  | cons v l ih =>
    obtain ⟨hv, hl⟩ := List.forall_mem_cons.mp hl
    obtain ⟨D₁, s₁, hrun, hi₁, hm₁, hD₁, hdone, hlen₁⟩ := visitSucc_spec hg hw hn hi hm hv (hcall D s v hi hm hf)
    obtain ⟨D', s', hrest, hi', hm', hD', hall, hlen⟩ := ih (by omega) hi₁ hm₁ hl
    rw [List.foldlM_cons, hrun]
    exact ⟨D', s', hrest, hi', hm', fun u v h => hD' u v (hD₁ u v h),
      List.forall_mem_cons.mpr ⟨hD' bb v hdone, hall⟩, Nat.le_trans hlen₁ hlen⟩

/-- Enough fuel for the blocks that have not been seen lets the search return. -/
theorem calculateLoops_spec (hg : SearchGraph succ numBbs E) (hw : Walk E 0 (bb :: p) bb) (hn : p.Nodup)
    (hi : WeaveInv succ numBbs E p D s) (hm : HeadersMarked E D s.bbs) (hf : numBbs < fuel + s.seenBbs.length)
    (hnew : bb ∉ s.seenBbs) (hbb : bb < numBbs) :
    Searches succ numBbs E p D s bb (pnBasicBlockCalculateLoops numBbs fuel (p.length + 1) s bb) := by
  induction fuel generalizing bb p D s with
  | zero =>
    have hlen := length_le_of_lt hi.nodup hi.range
    omega
  | succ fuel ih =>
    have hn : (bb :: p).Nodup := List.nodup_cons.mpr ⟨fun hmem => hnew (hi.path bb hmem), hn⟩
    have henter := hi.enter hw hbb hnew
    have hmark : HeadersMarked E D (s.bbs.setPos bb (p.length + 1)) := fun x => by
      rw [PNLoopBlocks.setPos_fields]
      exact hm x
    obtain ⟨D', s', hrun, hi', hm', hD, hall, hlen⟩ := visitSuccs_spec hg hw hn
      (s := ⟨s.bbs.setPos bb (p.length + 1), bb :: s.seenBbs⟩) (by simp only [List.length_cons]; omega)
      (fun D s v hi hm hf hnew hlt hw => ih hw hn hi hm hf hnew hlt) henter hmark fun v hv => hv
    rw [List.length_cons] at hrun hlen
    rw [pnBasicBlockCalculateLoops, hi.succs, hrun]
    refine ⟨D', ⟨s'.bbs.setPos bb 0, s'.seenBbs⟩, ?_, hi'.leave hn hall, fun x => ?_, hD, hi'.path bb List.mem_cons_self,
      by simp only; omega⟩
    · simp only [ok_bind]
      rw [PNLoopBlocks.setPos_fields]
    · dsimp only
      rw [PNLoopBlocks.setPos_fields]
      exact hm' x

end Search

/-! ## Headers that are set -/

/-- No block loses its header. -/
def HeadersStay (bbs bbs' : PNLoopBlocks) : Prop :=
  ∀ x, (bbs x).loopHeaderId ≠ PN_INVALID_BB_ID → (bbs' x).loopHeaderId ≠ PN_INVALID_BB_ID

section Stay

variable {bbs bbs' bbs₂ : PNLoopBlocks} {s s' : LoopSearch} {numBbs fuel cur1 cur2 bb h id pos : Nat} {l : List Nat}

theorem HeadersStay.refl (bbs : PNLoopBlocks) : HeadersStay bbs bbs := fun _ h => h

theorem HeadersStay.trans (h₁ : HeadersStay bbs bbs') (h₂ : HeadersStay bbs' bbs₂) : HeadersStay bbs bbs₂ :=
  fun x hx => h₂ x (h₁ x hx)

theorem HeadersStay.of_eq (heq : ∀ x, (bbs' x).loopHeaderId = (bbs x).loopHeaderId) : HeadersStay bbs bbs' := fun x hx => by
  rw [heq]
  exact hx

theorem headersStay_set (hv : cur2 ≠ PN_INVALID_BB_ID) :
    HeadersStay bbs (Function.update bbs cur1 { bbs cur1 with loopHeaderId := cur2 }) := fun x hx => by
  by_cases hxc : x = cur1
  · subst hxc
    rw [Function.update_self]
    exact hv
  · rw [Function.update_of_ne hxc]
    exact hx

theorem headersStay_update {b : PNLoopBlock} (heq : b.loopHeaderId = (bbs id).loopHeaderId) :
    HeadersStay bbs (Function.update bbs id b) := .of_eq (field_update _ heq)

theorem tagLoop_stay (hv : cur2 ≠ PN_INVALID_BB_ID) (h : tagLoop fuel bbs cur1 cur2 = .ok bbs') : HeadersStay bbs bbs' := by
  induction fuel generalizing bbs cur1 cur2 with
  | zero => cases h
  | succ fuel ih =>
    rw [tagLoop] at h
    by_cases hnone : (bbs cur1).loopHeaderId = PN_INVALID_BB_ID
    · rw [if_pos hnone] at h
      cases h
      exact headersStay_set hv
    rw [if_neg hnone] at h
    by_cases heq : (bbs cur1).loopHeaderId = cur2
    · rw [if_pos heq] at h
      cases h
      exact .refl _
    rw [if_neg heq] at h
    by_cases hpos : (bbs (bbs cur1).loopHeaderId).dfspPos < (bbs cur2).dfspPos
    · rw [if_pos hpos] at h
      exact (headersStay_set hv).trans (ih hnone h)
    · rw [if_neg hpos] at h
      exact ih hv h

theorem tagLoopHeader_stay (hrun : pnBasicBlockTagLoopHeader numBbs bbs bb h = .ok bbs') : HeadersStay bbs bbs' := by
  unfold pnBasicBlockTagLoopHeader at hrun
  split at hrun
  · cases hrun
    exact .refl _
  next hv =>
    split at hrun
    · cases hrun
      exact .refl _
    · exact tagLoop_stay hv hrun

theorem markIrreducible_stay (hrun : markIrreducible numBbs bb fuel bbs h = .ok bbs') : HeadersStay bbs bbs' := by
  induction fuel generalizing bbs h with
  | zero => cases hrun
  | succ fuel ih =>
    rw [markIrreducible] at hrun
    dsimp only at hrun
    split at hrun
    · cases hrun
      exact .refl _
    split at hrun
    · exact tagLoopHeader_stay hrun
    · refine HeadersStay.trans ?_ (ih hrun)
      exact headersStay_update rfl

theorem visitSeen_stay (hrun : visitSeen numBbs bbs bb id = .ok bbs') : HeadersStay bbs bbs' := by
  unfold visitSeen at hrun
  dsimp only at hrun
  split at hrun
  · refine HeadersStay.trans ?_ (tagLoopHeader_stay hrun)
    exact headersStay_update rfl
  split at hrun
  · cases hrun
    exact .refl _
  split at hrun
  · exact tagLoopHeader_stay hrun
  · refine HeadersStay.trans ?_ (markIrreducible_stay hrun)
    refine HeadersStay.trans ?_ (headersStay_update rfl)
    exact headersStay_update rfl

theorem visitSucc_stay {call : LoopSearch → Nat → Except Stop (Nat × LoopSearch)}
    (hcall : ∀ s v r s', call s v = .ok (r, s') → HeadersStay s.bbs s'.bbs) (hrun : visitSucc numBbs call bb s id = .ok s') :
    HeadersStay s.bbs s'.bbs := by
  unfold visitSucc at hrun
  split at hrun
  · split at hrun
    · obtain ⟨bbs', hseen, hrun⟩ := bind_eq_ok.mp hrun
      cases hrun
      exact visitSeen_stay hseen
    · obtain ⟨⟨r, s₁⟩, hsucc, hrun⟩ := bind_eq_ok.mp hrun
      obtain ⟨bbs', htag, hrun⟩ := bind_eq_ok.mp hrun
      cases hrun
      exact (hcall _ _ _ _ hsucc).trans (tagLoopHeader_stay htag)
  · cases hrun

theorem visitSuccs_stay {call : LoopSearch → Nat → Except Stop (Nat × LoopSearch)}
    (hcall : ∀ s v r s', call s v = .ok (r, s') → HeadersStay s.bbs s'.bbs)
    (hrun : l.foldlM (visitSucc numBbs call bb) s = .ok s') : HeadersStay s.bbs s'.bbs := by
  induction l generalizing s with
  | nil =>
    cases hrun
    exact .refl _
  | cons v l ih =>
    rw [List.foldlM_cons] at hrun
    obtain ⟨s₁, hsucc, hrun⟩ := bind_eq_ok.mp hrun
    exact (visitSucc_stay hcall hsucc).trans (ih hrun)

theorem headersStay_setPos : HeadersStay bbs (bbs.setPos bb pos) := .of_eq fun x => by
  rw [PNLoopBlocks.setPos_fields]

theorem calculateLoops_stay {r : Nat} (hrun : pnBasicBlockCalculateLoops numBbs fuel pos s bb = .ok (r, s')) :
    HeadersStay s.bbs s'.bbs := by
  induction fuel generalizing pos s bb r s' with
  | zero => cases hrun
  | succ fuel ih =>
    rw [pnBasicBlockCalculateLoops] at hrun
    obtain ⟨s₁, hsuccs, hrun⟩ := bind_eq_ok.mp hrun
    cases hrun
    have hstay := visitSuccs_stay (fun s v r s' h => ih h) hsuccs
    exact (headersStay_setPos.trans hstay).trans headersStay_setPos

end Stay

/-! ## The headers found -/

/-- The header chain of each block, and the marked blocks, when the search is over. -/
structure ChainsFound (succ : Nat → List Nat) (E : Nat → Nat → Prop) (bbs : PNLoopBlocks) : Prop where
  sound : SoundHeaders E bbs
  chain : ∀ b, Reached E 0 b → ∀ g, LoopBody E 0 g b → HeaderChain bbs b g
  marked : ∀ b, (bbs b).isLoopHeader = true ↔ ∃ u, Reached E 0 u ∧ b ∈ succ u ∧ Dominates E 0 b u
  plain : ∀ b, (bbs b).isIrreducible = false ∧ (bbs b).isReentry = false

section Found

variable {succ : Nat → List Nat} {E : Nat → Nat → Prop} {numBbs : Nat} {D : Nat → Nat → Prop} {s : LoopSearch}
  {bbs : PNLoopBlocks} {b g h u v x : Nat}

theorem HeaderChain.loopBody (hs : SoundHeaders E bbs) (hr : Reached E 0 x) (hc : HeaderChain bbs x h) : LoopBody E 0 h x := by
  induction hc with
  | single h =>
    obtain ⟨rfl, hv⟩ := h
    exact hs _ hr hv
  | tail _ h ih =>
    obtain ⟨rfl, hv⟩ := h
    exact ih.trans (hs _ ih.reached hv)

theorem HeaderChain.cases (hc : HeaderChain bbs x h) :
    (bbs x).loopHeaderId ≠ PN_INVALID_BB_ID ∧ ((bbs x).loopHeaderId = h ∨ HeaderChain bbs (bbs x).loopHeaderId h) := by
  rcases TransGen.head'_iff.mp hc with ⟨y, ⟨rfl, hv⟩, hr⟩
  refine ⟨hv, ?_⟩
  rcases reflTransGen_iff_eq_or_transGen.mp hr with heq | hr
  · exact .inl heq.symm
  · exact .inr hr

/-- With all edges behind the search, a block has the headers of all its loops in its chain. -/
theorem WeaveInv.chain (hi : WeaveInv succ numBbs E [] D s) (hall : ∀ u v, Reached E 0 u → E u v → D u v)
    (hr : Reached E 0 b) (hb : LoopBody E 0 g b) : HeaderChain s.bbs b g := by
  obtain ⟨hne, u, hu, hpath⟩ := hb
  induction hpath using ReflTransGen.head_induction_on with
  | refl => exact (hi.back u g (hall u g hr hu.2.1) hu.2.1 hu.2.2).resolve_left hne
  | @head a c he _ ih =>
    -- the chain of the target, seen from the source
    have hc := ih (hr.edge he.1) he.2
    by_cases hd : Dominates E 0 c a
    · rcases hi.back a c (hall a c hr he.1) he.1 hd with rfl | hac
      · exact hc
      · exact hac.trans hc
    · obtain ⟨hv, hcg⟩ := hc.cases
      rcases (hi.forward a c (hall a c hr he.1) he.1 hd).2 with hnone | heq | hac
      · exact absurd hnone hv
      · rw [heq] at hcg
        exact hcg.resolve_left hne
      · rcases hcg with heq | hcg
        · exact heq ▸ hac
        · exact hac.trans hcg

theorem WeaveInv.found (hg : SearchGraph succ numBbs E) (hi : WeaveInv succ numBbs E [] D s) (hm : HeadersMarked E D s.bbs)
    (hroot : 0 ∈ s.seenBbs) : ChainsFound succ E s.bbs := by
  have hseen : ∀ {u}, Reached E 0 u → u ∈ s.seenBbs := by
    rintro u ⟨p, hp⟩
    induction hp with
    | root => exact hroot
    | step _ he ih => exact (hi.done _ _ (hi.finished _ ih List.not_mem_nil _ (hg.edge _ _ he))).2.2
  have hall : ∀ u v, Reached E 0 u → v ∈ succ u → D u v := fun u v hr hv => hi.finished u (hseen hr) List.not_mem_nil v hv
  refine ⟨hi.sound, fun b hr g hb => hi.chain (fun u v hr he => hall u v hr (hg.edge u v he)) hr hb, fun b => ?_, hi.plain⟩
  rw [hm b]
  constructor
  · rintro ⟨u, hd, hdom⟩
    obtain ⟨hu, hb, -⟩ := hi.done u b hd
    exact ⟨u, hi.reached u hu, hb, hdom⟩
  · rintro ⟨u, hr, hb, hdom⟩
    exact ⟨u, hall u b hr hb, hdom⟩

theorem ChainsFound.complete (hf : ChainsFound succ E bbs) (hr : Reached E 0 b) (hb : LoopBody E 0 g b) :
    (bbs b).loopHeaderId ≠ PN_INVALID_BB_ID ∧ (g = (bbs b).loopHeaderId ∨ LoopBody E 0 g (bbs b).loopHeaderId) := by
  obtain ⟨hv, hcases⟩ := (hf.chain b hr g hb).cases
  exact ⟨hv, hcases.imp Eq.symm (HeaderChain.loopBody hf.sound (hf.sound b hr hv).reached)⟩

end Found

section Function

variable {f : PNLoopFunction} {bbs : PNLoopBlocks} {b g h : Nat}

/-- The successor graph. -/
def PNLoopFunction.Edge (f : PNLoopFunction) (u v : Nat) : Prop := v ∈ (f.bbs u).succBbIds

instance (f : PNLoopFunction) (u v : Nat) : Decidable (f.Edge u v) := inferInstanceAs (Decidable (_ ∈ _))

/-- The block has begun since it was declared. -/
def PNLoopFunction.Begun (f : PNLoopFunction) (b : Nat) : Prop := (f.bbs b).loopHeaderId = PN_INVALID_BB_ID

theorem PNLoopFunction.plain (f : PNLoopFunction) (b : Nat) : (f.bbs b).dfspPos = 0 ∧ (f.bbs b).isLoopHeader = false ∧
    (f.bbs b).isIrreducible = false ∧ (f.bbs b).isReentry = false := by
  rcases f.fields b with h | h <;> rw [h] <;> exact ⟨rfl, rfl, rfl, rfl⟩

/-- A block that has not begun has no successors. -/
theorem PNLoopFunction.succBbIds_nil (hb : ¬f.Begun b) : (f.bbs b).succBbIds = [] := by
  rcases f.fields b with h | h
  · exact absurd (congrArg PNLoopBlock.loopHeaderId h) hb
  · rw [h]

/-- The edges that the search weaves by: the back edges to block `PN_INVALID_BB_ID` go unnoticed. -/
def PNLoopFunction.WovenEdge (f : PNLoopFunction) : Nat → Nat → Prop := withoutBack f.Edge 0 PN_INVALID_BB_ID

theorem PNLoopFunction.searchGraph (hred : ReducibleGraph f.Edge 0) (hblocks : ∀ b, Reached f.Edge 0 b → b < f.numBbs) :
    SearchGraph (fun b => (f.bbs b).succBbIds) f.numBbs f.WovenEdge where
  edge _ _ he := he.1
  split u v _ hv := by
    by_cases hback : v = PN_INVALID_BB_ID ∧ u ≠ PN_INVALID_BB_ID ∧ Dominates f.Edge 0 PN_INVALID_BB_ID u
    · obtain ⟨rfl, -, hd⟩ := hback
      exact .inr ⟨rfl, dominates_withoutBack.mpr hd⟩
    · exact .inl ⟨hv, hback⟩
  sentinel _ hu := (backEdge_withoutBack.mp hu).2 rfl
  reducible := hred.withoutBack
  range _ _ hr hv := hblocks _ ((reached_withoutBack.mp hr).edge hv)

/-- What the pass finds on a reducible graph. -/
theorem calculateLoops_found (hred : ReducibleGraph f.Edge 0) (hblocks : ∀ b, Reached f.Edge 0 b → b < f.numBbs)
    (hbegun : ∀ b, Reached f.Edge 0 b → f.Begun b) :
    ∃ bbs, pnFunctionCalculateLoops f = .ok bbs ∧ ChainsFound (fun b => (f.bbs b).succBbIds) f.WovenEdge bbs := by
  have hg := f.searchGraph hred hblocks
  have hzero : 0 < f.numBbs := hblocks 0 ⟨_, .root⟩
  have hnil : ∀ {x : Nat}, x ∉ ([] : List Nat) := List.not_mem_nil
  have hi : WeaveInv (fun b => (f.bbs b).succBbIds) f.numBbs f.WovenEdge [] (fun _ _ => False) ⟨f.bbs, []⟩ := by
    exact ⟨fun _ => rfl, List.nodup_nil, fun _ h => absurd h hnil, fun _ h => absurd h hnil, fun _ h => absurd h hnil,
      fun x => (f.plain x).1, fun _ _ h => h.elim, fun _ h => absurd h hnil,
      fun x hr hx => absurd (hbegun x (reached_withoutBack.mp hr)) hx, fun _ _ h => h.elim, fun _ _ h => h.elim,
      fun x => (f.plain x).2.2⟩
  have hm : HeadersMarked f.WovenEdge (fun _ _ => False) f.bbs := fun x => by
    rw [(f.plain x).2.1]
    constructor
    · intro h
      cases h
    · rintro ⟨_, h, _⟩
      exact h.elim
  obtain ⟨D', s', hrun, hi', hm', -, hroot, -⟩ := calculateLoops_spec hg .root List.nodup_nil hi hm
    (show f.numBbs < f.numBbs + 1 + _ by simp only [List.length_nil]; omega) hnil hzero
  unfold pnFunctionCalculateLoops
  rw [if_pos hzero]
  rw [List.length_nil] at hrun
  rw [hrun]
  exact ⟨_, rfl, hi'.found hg hm' hroot⟩

/-- The fields are right at a block: the block is marked when it is the target of a back edge, and its header is that of the
smallest natural loop with another header, or none where there is no such loop. -/
def PNLoopFunction.RightAt (f : PNLoopFunction) (bbs : PNLoopBlocks) (b : Nat) : Prop :=
  ((bbs b).isLoopHeader = true ↔ ∃ u, BackEdge f.Edge 0 u b) ∧
    ((∃ h, Innermost f.Edge 0 b h ∧ (bbs b).loopHeaderId = h) ∨
      ((∀ h, h ≠ b → ¬NaturalLoop f.Edge 0 h b) ∧ (bbs b).loopHeaderId = PN_INVALID_BB_ID))

/-- The pass is right about the loops of the function. -/
def PNLoopFunction.LoopsFound (f : PNLoopFunction) (bbs : PNLoopBlocks) : Prop :=
  (∀ b, Reached f.Edge 0 b → f.RightAt bbs b) ∧ ∀ b, (bbs b).isReentry = false ∧ (bbs b).isIrreducible = false

/-- A block of the loop of block `PN_INVALID_BB_ID` is in the loop of a block around it, without the back edges to block
`PN_INVALID_BB_ID`. -/
def PNLoopFunction.LeavesLast (f : PNLoopFunction) : Prop :=
  ∃ b g, Reached f.Edge 0 b ∧ LoopBody f.Edge 0 PN_INVALID_BB_ID b ∧ g ≠ PN_INVALID_BB_ID ∧
    Dominates f.Edge 0 g PN_INVALID_BB_ID ∧ LoopBody f.WovenEdge 0 g b

theorem ChainsFound.marked_iff (hf : ChainsFound (fun b => (f.bbs b).succBbIds) f.WovenEdge bbs) (b : Nat) :
    (bbs b).isLoopHeader = true ↔ ∃ u, BackEdge f.Edge 0 u b := by
  rw [hf.marked b]
  constructor
  · rintro ⟨u, hr, he, hd⟩
    exact ⟨u, reached_withoutBack.mp hr, he, dominates_withoutBack.mp hd⟩
  · rintro ⟨u, hr, he, hd⟩
    exact ⟨u, reached_withoutBack.mpr hr, he, dominates_withoutBack.mpr hd⟩

theorem ChainsFound.body (hf : ChainsFound (fun b => (f.bbs b).succBbIds) f.WovenEdge bbs) (hr : Reached f.Edge 0 b)
    (hv : (bbs b).loopHeaderId ≠ PN_INVALID_BB_ID) : LoopBody f.Edge 0 (bbs b).loopHeaderId b :=
  (hf.sound b (reached_withoutBack.mpr hr) hv).of_withoutBack

/-- A block that is not in the loop of block `PN_INVALID_BB_ID`. -/
theorem ChainsFound.outside (hf : ChainsFound (fun b => (f.bbs b).succBbIds) f.WovenEdge bbs) (hr : Reached f.Edge 0 b)
    (hout : ¬LoopBody f.Edge 0 PN_INVALID_BB_ID b) : f.RightAt bbs b := by
  have hwoven : ∀ {g}, LoopBody f.Edge 0 g b → LoopBody f.WovenEdge 0 g b := fun hg =>
    hg.withoutBack_outside (fun heq => hout (heq ▸ hg)) hout hr
  have hcomplete := fun g => hf.complete (g := g) (reached_withoutBack.mpr hr)
  refine ⟨hf.marked_iff b, ?_⟩
  by_cases hv : (bbs b).loopHeaderId = PN_INVALID_BB_ID
  · exact .inr ⟨fun h hne hl => (hcomplete h (hwoven (hl.loopBody hne))).1 hv, hv⟩
  · exact .inl ⟨_, (hf.body hr hv).innermost fun g hg => (hcomplete g (hwoven hg)).2.imp_right LoopBody.of_withoutBack, rfl⟩

/-- A block of the loop of block `PN_INVALID_BB_ID`, where no block of it is in a loop around it. -/
theorem ChainsFound.inside (hf : ChainsFound (fun b => (f.bbs b).succBbIds) f.WovenEdge bbs) (hr : Reached f.Edge 0 b)
    (hb : LoopBody f.Edge 0 PN_INVALID_BB_ID b) (hleaves : ¬f.LeavesLast) : f.RightAt bbs b := by
  have hcomplete := fun g => hf.complete (g := g) (reached_withoutBack.mpr hr)
  have horder : ∀ {g}, LoopBody f.Edge 0 g b →
      Dominates f.Edge 0 PN_INVALID_BB_ID g ∨ Dominates f.Edge 0 g PN_INVALID_BB_ID :=
    fun hg => hb.dominates.total hg.dominates hr
  have hinner : ∀ {g}, LoopBody f.Edge 0 g b → g ≠ PN_INVALID_BB_ID → Dominates f.Edge 0 PN_INVALID_BB_ID g →
      LoopBody f.WovenEdge 0 g b := fun hg hne hd => hg.withoutBack_inside hd (Ne.symm hne)
  refine ⟨hf.marked_iff b, .inl ⟨_, ?_, rfl⟩⟩
  by_cases hv : (bbs b).loopHeaderId = PN_INVALID_BB_ID
  · rw [hv]
    refine hb.innermost fun g hg => ?_
    by_cases hne : g = PN_INVALID_BB_ID
    · exact .inl hne
    rcases horder hg with hd | hd
    · exact absurd hv (hcomplete g (hinner hg hne hd)).1
    · exact .inr (hg.nest hb.dominates hd hne hr)
  · have hbody := hf.body hr hv
    -- the header found is inside the loop of the last block
    have hd : Dominates f.Edge 0 PN_INVALID_BB_ID (bbs b).loopHeaderId := (horder hbody).resolve_right fun hd =>
      hleaves ⟨b, _, hr, hb, hv, hd, hf.sound b (reached_withoutBack.mpr hr) hv⟩
    refine hbody.innermost fun g hg => ?_
    by_cases hne : g = PN_INVALID_BB_ID
    · subst hne
      exact .inr (hb.nest hbody.dominates hd (Ne.symm hv) hr)
    rcases horder hg with hdg | hdg
    · exact (hcomplete g (hinner hg hne hdg)).2.imp_right LoopBody.of_withoutBack
    · refine .inr (hg.nest hbody.dominates (hdg.trans hd) ?_ hr)
      rintro rfl
      exact hv (hdg.antisymm hd hbody.reached)

/-- Where the chain of a block of the loop of block `PN_INVALID_BB_ID` leaves that loop, the header is wrong. -/
theorem PNLoopFunction.LoopsFound.not_leaves (hf : ChainsFound (fun b => (f.bbs b).succBbIds) f.WovenEdge bbs)
    (hright : f.LoopsFound bbs) (hg : g ≠ PN_INVALID_BB_ID) (hd : Dominates f.Edge 0 g PN_INVALID_BB_ID)
    (hc : HeaderChain bbs b g) (hr : Reached f.Edge 0 b) (hb : LoopBody f.Edge 0 PN_INVALID_BB_ID b) : False := by
  have hnext : ∀ {a}, Reached f.Edge 0 a → LoopBody f.Edge 0 PN_INVALID_BB_ID a →
      (bbs a).loopHeaderId ≠ PN_INVALID_BB_ID →
        LoopBody f.Edge 0 PN_INVALID_BB_ID (bbs a).loopHeaderId := fun {a} hr ha hv => by
    rcases (hright.1 a hr).2 with ⟨h, ⟨-, hh, hall⟩, heq⟩ | ⟨hnone, -⟩
    · rw [heq] at hv ⊢
      have hself : NaturalLoop f.Edge 0 h h := by
        rcases hh with ⟨-, hu⟩ | hh
        · exact .inl ⟨rfl, hu⟩
        · exact .inl ⟨rfl, hh.2.imp fun _ hu => hu.1⟩
      exact (hall _ (Ne.symm ha.1) ha.natural h hself).loopBody (Ne.symm hv)
    · exact absurd ha.natural (hnone _ (Ne.symm ha.1))
  induction hc using TransGen.head_induction_on with
  | single h =>
    obtain ⟨rfl, hv⟩ := h
    have hin := hnext hr hb hv
    exact hin.1 (hd.antisymm hin.dominates (hf.body hr hv).reached)
  | head h _ ih =>
    obtain ⟨rfl, hv⟩ := h
    exact ih (hf.body hr hv).reached (hnext hr hb hv)

/-- Below `PN_INVALID_BB_ID` every id is a block id. -/
theorem not_leavesLast (hblocks : ∀ b, Reached f.Edge 0 b → b < f.numBbs) (hle : f.numBbs ≤ PN_INVALID_BB_ID) :
    ¬f.LeavesLast := by
  rintro ⟨b, g, -, hb, -⟩
  have hlt := hblocks _ hb.reached
  omega

/-- A block that has not begun keeps its zero for a header, and has no loops. -/
theorem PNLoopFunction.LoopsFound.begun (hrun : pnFunctionCalculateLoops f = .ok bbs) (hright : f.LoopsFound bbs)
    (hr : Reached f.Edge 0 b) : f.Begun b := by
  by_contra hb
  have hstay : HeadersStay f.bbs bbs := by
    unfold pnFunctionCalculateLoops at hrun
    split at hrun
    · obtain ⟨⟨r, s⟩, hsearch, hrun⟩ := bind_eq_ok.mp hrun
      cases hrun
      exact calculateLoops_stay hsearch
    · cases hrun
      exact .refl _
  have hleaf : ∀ {v}, ¬f.Edge b v := fun {v} he => by
    unfold PNLoopFunction.Edge at he
    rw [f.succBbIds_nil hb] at he
    cases he
  have hnone : ∀ {h}, ¬LoopBody f.Edge 0 h b := by
    rintro h ⟨-, u, hu, hpath⟩
    rcases hpath.cases_head with rfl | ⟨v, hv, -⟩
    · exact hleaf hu.2.1
    · exact hleaf hv.1
  rcases (hright.1 b hr).2 with ⟨h, ⟨hne, hh, -⟩, -⟩ | ⟨-, hv⟩
  · exact hnone (hh.loopBody hne)
  · exact hstay b hb hv

/-- The pass is right about the loops of a reducible graph just when its blocks have begun and no block of the loop of block
`PN_INVALID_BB_ID` leaves it for a loop around it. -/
theorem loops_found_iff (f : PNLoopFunction) (hred : ReducibleGraph f.Edge 0)
    (hblocks : ∀ b, Reached f.Edge 0 b → b < f.numBbs) :
    (∃ bbs, pnFunctionCalculateLoops f = .ok bbs ∧ f.LoopsFound bbs) ↔
      (∀ b, Reached f.Edge 0 b → f.Begun b) ∧ ¬f.LeavesLast := by
  constructor
  · rintro ⟨bbs, hrun, hright⟩
    have hbegun : ∀ b, Reached f.Edge 0 b → f.Begun b := fun b hr => hright.begun hrun hr
    obtain ⟨bbs', hrun', hf⟩ := calculateLoops_found hred hblocks hbegun
    cases hrun.symm.trans hrun'
    refine ⟨hbegun, fun ⟨b, g, hr, hb, hg, hd, hbody⟩ => ?_⟩
    exact hright.not_leaves hf hg hd (hf.chain b (reached_withoutBack.mpr hr) g hbody) hr hb
  · rintro ⟨hbegun, hleaves⟩
    obtain ⟨bbs, hrun, hf⟩ := calculateLoops_found hred hblocks hbegun
    refine ⟨bbs, hrun, fun b hr => ?_, fun b => (hf.plain b).symm⟩
    by_cases hb : LoopBody f.Edge 0 PN_INVALID_BB_ID b
    · exact hf.inside hr hb hleaves
    · exact hf.outside hr hb

/-- A loop in a loop. -/
def nestedLoops : PNLoopFunction where
  numBbs := 4
  bbs b := { succBbIds := match b with | 0 => [1] | 1 => [2] | 2 => [1, 3] | 3 => [0] | _ => [] }
  fields _ := .inl rfl
  ids b := by
    match b with
    | 0 | 1 | 2 | 3 => decide
    | _ + 4 => exact fun v hv => absurd hv List.not_mem_nil

theorem nestedLoops_edge {u v : Nat} (he : nestedLoops.Edge u v) :
    (u = 0 ∧ v = 1) ∨ (u = 1 ∧ v = 2) ∨ (u = 2 ∧ v = 1) ∨ (u = 2 ∧ v = 3) ∨ (u = 3 ∧ v = 0) := by
  unfold PNLoopFunction.Edge nestedLoops at he
  match u with
  | 0 | 1 | 2 | 3 => simp at he; omega
  | _ + 4 => cases he

theorem nestedLoops_reducible : ReducibleGraph nestedLoops.Edge 0 := by
  refine reducibleGraph_of_rank id fun u v _ he => ?_
  rcases nestedLoops_edge he with ⟨rfl, rfl⟩ | ⟨rfl, rfl⟩ | ⟨rfl, rfl⟩ | ⟨rfl, rfl⟩ | ⟨rfl, rfl⟩
  · exact .inl (by decide)
  · exact .inl (by decide)
  · refine .inr (dominates_of_edge (by decide) fun u he => ?_)
    have := nestedLoops_edge he
    omega
  · exact .inl (by decide)
  · exact .inr (root_dominates 3)

theorem nestedLoops_blocks (b : Nat) (hr : Reached nestedLoops.Edge 0 b) : b < nestedLoops.numBbs := by
  obtain ⟨p, hp⟩ := hr
  cases hp with
  | root => decide
  | step _ he =>
    have hlt : b < 4 := by
      have := nestedLoops_edge he
      omega
    exact hlt

theorem loops_found_iff_nested : ∃ bbs, pnFunctionCalculateLoops nestedLoops = .ok bbs ∧ nestedLoops.LoopsFound bbs := by
  refine (loops_found_iff nestedLoops nestedLoops_reducible nestedLoops_blocks).mpr ⟨fun b _ => rfl, ?_⟩
  exact not_leavesLast nestedLoops_blocks (by decide)

/-- Block `65535` heads a loop in the loop of block `0`. -/
def lastBlockLoop : PNLoopFunction where
  numBbs := 65536
  bbs b := { succBbIds := if b = 0 then [65535] else if b = 65535 then [1] else if b = 1 then [65535, 0] else [] }
  fields _ := .inl rfl
  ids b v hv := by
    dsimp only at hv
    split at hv
    · simp at hv; omega
    split at hv
    · simp at hv; omega
    split at hv
    · simp at hv; omega
    · cases hv

theorem lastBlockLoop_edge {u v : Nat} (he : lastBlockLoop.Edge u v) :
    (u = 0 ∧ v = 65535) ∨ (u = 65535 ∧ v = 1) ∨ (u = 1 ∧ (v = 65535 ∨ v = 0)) := by
  unfold PNLoopFunction.Edge lastBlockLoop at he
  dsimp only at he
  split at he
  · simp at he; omega
  split at he
  · simp at he; omega
  split at he
  · simp at he; omega
  · cases he

theorem lastBlockLoop_dominates : Dominates lastBlockLoop.Edge 0 65535 1 :=
  dominates_of_edge (by decide) fun u he => by
    have := lastBlockLoop_edge he
    omega

theorem lastBlockLoop_reducible : ReducibleGraph lastBlockLoop.Edge 0 := by
  refine reducibleGraph_of_rank (fun b => if b = 0 then 0 else if b = 65535 then 1 else 2) fun u v _ he => ?_
  rcases lastBlockLoop_edge he with ⟨rfl, rfl⟩ | ⟨rfl, rfl⟩ | ⟨rfl, rfl | rfl⟩
  · exact .inl (by decide)
  · exact .inl (by decide)
  · exact .inr lastBlockLoop_dominates
  · exact .inr (root_dominates 1)

theorem lastBlockLoop_reached : Reached lastBlockLoop.Edge 0 1 := by
  have hlast : lastBlockLoop.Edge 0 65535 := by decide +kernel
  have hone : lastBlockLoop.Edge 65535 1 := by decide +kernel
  exact ⟨_, .step (.step .root hlast) hone⟩

/-- The header of block `1` is block `65535`, but the pass says block `0`. -/
theorem last_header_lost : ReducibleGraph lastBlockLoop.Edge 0 ∧
    (∀ b, Reached lastBlockLoop.Edge 0 b → b < lastBlockLoop.numBbs) ∧
    ∃ bbs, pnFunctionCalculateLoops lastBlockLoop = .ok bbs ∧ (bbs 1).loopHeaderId = 0 ∧
      ¬lastBlockLoop.LoopsFound bbs := by
  refine ⟨lastBlockLoop_reducible, fun b ⟨p, hp⟩ => ?_, ?_⟩
  · cases hp with
    | root => exact Nat.zero_lt_succ _
    | step _ he =>
      have := lastBlockLoop_edge he
      have hlt : b < 65536 := by omega
      exact hlt
  obtain ⟨bbs, hrun, hzero⟩ := eq_ok_of_toOption (x := pnFunctionCalculateLoops lastBlockLoop)
    (g := fun bbs => (bbs 1).loopHeaderId) (b := 0) (by decide +kernel)
  refine ⟨bbs, hrun, hzero, fun hfound => ?_⟩
  have hinner : LoopBody lastBlockLoop.Edge 0 65535 1 :=
    BackEdge.loopBody ⟨lastBlockLoop_reached, by decide +kernel, lastBlockLoop_dominates⟩ (by decide)
  have houter : NaturalLoop lastBlockLoop.Edge 0 0 0 :=
    .inl ⟨rfl, 1, lastBlockLoop_reached, by decide +kernel, root_dominates 1⟩
  rcases (hfound.1 1 lastBlockLoop_reached).2 with ⟨h, ⟨-, -, hall⟩, heq⟩ | ⟨-, heq⟩
  · obtain rfl : 0 = h := hzero.symm.trans heq
    have hd := ((hall 65535 (by decide) hinner.natural 0 houter).loopBody (by decide)).dominates
    exact absurd (hd _ .root) (by decide)
  · exact absurd (hzero.symm.trans heq) (by decide)

end Function

end Pnacl
