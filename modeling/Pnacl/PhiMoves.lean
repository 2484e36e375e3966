import Pnacl.Lib.Moves
import Pnacl.PhiAssigns

/-!
# Phi assigns as moves

The phis of a block with an entry for block `p` are the moves of the edge from `p` to that block (`phiMoves`). The assigns
of `p` are the moves of all its edges, grouped by their destination block in the order of the blocks (`assigns_eq`). The
search for assigns that cannot be done in place looks at the first of these groups only: `fastPhiAssign_iff`.
-/

namespace Pnacl

open Lib

/-- The move of a phi on the edge from block `p`. -/
def PNInstruction.phiMoves (p : Nat) : PNInstruction → List (Move Nat)
  | .phi resultValueId _ incoming => (incoming.filter fun i => i.bbId = p).map fun i => ⟨resultValueId, i.valueId⟩
  | _ => []

/-- The moves of the edge from block `p` to this block. -/
def PNBasicBlock.phiMoves (bb : PNBasicBlock) (p : Nat) : List (Move Nat) :=
  bb.instructions.flatMap (PNInstruction.phiMoves p)

/-- The moves of the first edge from block `p` that has any, in the order of the blocks. -/
def firstMoves (bbs : List PNBasicBlock) (p : Nat) : List (Move Nat) :=
  ((bbs.map fun bb => bb.phiMoves p).find? fun ms => ms ≠ []).getD []

/-- The move as an assign of the edge to block `n`. -/
def assignTo (n : Nat) (m : Move Nat) : PNPhiAssign := ⟨toBbId n, m.source, m.dest⟩

/-- The moves of all edges from block `p`, from block `k` on. -/
def groupedAssigns (p : Nat) : List PNBasicBlock → Nat → List PNPhiAssign
  | [], _ => []
  | bb :: bbs, k => (bb.phiMoves p).map (assignTo k) ++ groupedAssigns p bbs (k + 1)

section

variable {p : Nat}

theorem phiUses_moves (k : Nat) (inst : PNInstruction) :
    ((inst.phiUses.filter fun u => u.incoming.bbId = p).map (assignOf k)) = (inst.phiMoves p).map (assignTo k) := by
  cases inst with
  | phi d t incoming => simp [PNInstruction.phiUses, PNInstruction.phiMoves, List.filter_map, Function.comp_def, assignOf, assignTo]
  | _ => rfl

theorem phiUses_flatMap (k : Nat) : ∀ insts : List PNInstruction,
    ((insts.flatMap PNInstruction.phiUses).filter fun u => u.incoming.bbId = p).map (assignOf k) =
      (insts.flatMap (PNInstruction.phiMoves p)).map (assignTo k)
  | [] => rfl
  | inst :: insts => by
    simp only [List.flatMap_cons, List.filter_append, List.map_append, phiUses_moves, phiUses_flatMap k insts]

/-- **The assigns of block `p` are the moves of its edges.** -/
theorem assignsFor_eq : ∀ {bbs : List PNBasicBlock} {k : Nat}, (∀ bb ∈ bbs, bb.phiUses = []) →
    assignsFor (((bbs.map pnBasicBlockCalculateUses).zipIdx k).flatMap fun (bb, n) => bb.phiUses.map fun use => (n, use)) p =
      groupedAssigns p bbs k
  | [], _, _ => rfl
  | bb :: bbs, k, h => by
    have hbb := h bb (List.mem_cons_self ..)
    have hrest := assignsFor_eq (k := k + 1) fun b hb => h b (List.mem_cons_of_mem _ hb)
    unfold assignsFor at hrest ⊢
    rw [List.map_cons, List.zipIdx_cons, List.flatMap_cons, List.filter_append, List.map_append, hrest, groupedAssigns]
    congr 1
    have := phiUses_flatMap (p := p) k bb.instructions
    simpa [pnBasicBlockCalculateUses, PNBasicBlock.phiMoves, hbb, List.filter_map, Function.comp_def] using this

/-- The assigns of a function, as the pass calculates them. -/
theorem assigns_eq {f : PNFunction} (h : ∀ bb ∈ f.bbs, bb.phiUses = []) :
    assignsFor (indexedUses (pnFunctionCalculateUses f).bbs) p = groupedAssigns p f.bbs 0 :=
  assignsFor_eq h

theorem mem_groupedAssigns {a : PNPhiAssign} : ∀ {bbs : List PNBasicBlock} {k : Nat}, a ∈ groupedAssigns p bbs k →
    ∃ n bb m, bbs[n]? = some bb ∧ m ∈ bb.phiMoves p ∧ a = assignTo (k + n) m
  | [], _, h => by cases h
  | bb :: bbs, k, h => by
    rcases List.mem_append.mp h with h | h
    · obtain ⟨m, hm, rfl⟩ := List.mem_map.mp h
      exact ⟨0, bb, m, rfl, hm, rfl⟩
    · obtain ⟨n, b, m, hn, hm, rfl⟩ := mem_groupedAssigns h
      exact ⟨n + 1, b, m, hn, hm, by rw [Nat.add_right_comm, Nat.add_assoc]⟩

/-! ## The search for hazards -/

/-- No move reads the destination of an earlier one. -/
def Untouched (ms : List (Move Nat)) : Prop := ms.Pairwise fun k m => m.source ≠ k.dest

instance (ms : List (Move Nat)) : Decidable (Untouched ms) := inferInstanceAs (Decidable (List.Pairwise _ _))

/-- Assigns to other blocks are passed over. -/
theorem scan_rest {as : List PNPhiAssign} {b first : Nat} {seen : List Nat} : ∀ {rest : List PNPhiAssign} {m : Nat},
    (∀ a ∈ rest, a.bbId ≠ b) → (b ≠ PN_INVALID_BB_ID ∨ rest = []) → fastPhiAssignLoop as rest m first b seen = true
  | [], _, _, _ => rfl
  | a :: rest, m, h, hb => by
    have hb : b ≠ PN_INVALID_BB_ID := hb.resolve_right (by simp)
    rw [fastPhiAssignLoop, if_neg fun hc => hb hc.1, if_neg fun hc => h a (List.mem_cons_self ..) hc.1]
    exact scan_rest (fun c hc => h c (List.mem_cons_of_mem _ hc)) (.inl hb)

/-- The search in the first group, behind the moves `d` that have been looked at. -/
theorem scan_group {n : Nat} {rest : List PNPhiAssign} (hrest : ∀ a ∈ rest, a.bbId ≠ toBbId n)
    (hn : toBbId n ≠ PN_INVALID_BB_ID ∨ rest = []) : ∀ {g d : List (Move Nat)}, Untouched d →
    (fastPhiAssignLoop ((d ++ g).map (assignTo n) ++ rest) (g.map (assignTo n) ++ rest) d.length 0 (toBbId n) [toBbId n] =
      true ↔ Untouched (d ++ g))
  | [], d, hd => by
    rw [List.append_nil, List.map_nil, List.nil_append, scan_rest hrest hn]
    simpa using hd
  | x :: g, d, hd => by
    have hprior : isPriorDest ((d ++ x :: g).map (assignTo n) ++ rest) 0 d.length x.source =
        d.any fun k => x.source = k.dest := by
      simp only [isPriorDest, List.drop_zero, List.map_append, List.append_assoc]
      rw [List.take_append_of_le_length (by simp), List.take_of_length_le (by simp), List.any_map]
      rfl
    rw [List.map_cons, List.cons_append, fastPhiAssignLoop, if_neg (by simp [assignTo]),
      show (assignTo n x).sourceValueId = x.source from rfl, hprior]
    split
    · next hc =>
      -- the source is a prior destination
      obtain ⟨k, hk, heq⟩ := List.any_eq_true.mp hc.2
      simp only [Bool.false_eq_true, false_iff]
      intro hu
      exact (List.pairwise_append.mp hu).2.2 k hk x (List.mem_cons_self ..) (of_decide_eq_true heq)
    · next hc =>
      have hd' : Untouched (d ++ [x]) := by
        refine List.pairwise_append.mpr ⟨hd, List.pairwise_singleton _ _, ?_⟩
        intro k hk y hy heq
        cases List.mem_singleton.mp hy
        exact hc ⟨rfl, List.any_eq_true.mpr ⟨k, hk, decide_eq_true heq⟩⟩
      have := scan_group (g := g) hrest hn hd'
      rwa [List.length_append, List.append_assoc] at this

/-- The first group is in front, and the assigns behind it are to other blocks. -/
theorem groupedAssigns_cases : ∀ {bbs : List PNBasicBlock} {k : Nat},
    (∀ {n : Nat} {bb : PNBasicBlock}, bbs[n]? = some bb → bb.phiMoves p ≠ [] → k + n < 2 ^ 16) →
    (groupedAssigns p bbs k = [] ∧ firstMoves bbs p = []) ∨
      ∃ n x g rest, groupedAssigns p bbs k = (x :: g).map (assignTo n) ++ rest ∧ firstMoves bbs p = x :: g ∧
        (∀ a ∈ rest, a.bbId ≠ toBbId n) ∧ (toBbId n ≠ PN_INVALID_BB_ID ∨ rest = [])
  | [], _, _ => .inl ⟨rfl, rfl⟩
  | bb :: bbs, k, h => by
    have hrest : ∀ {n : Nat} {b : PNBasicBlock}, bbs[n]? = some b → b.phiMoves p ≠ [] → k + 1 + n < 2 ^ 16 := by
      intro n b hb hne
      have := h (n := n + 1) hb hne
      omega
    cases hm : bb.phiMoves p with
    | nil =>
      have hfirst : firstMoves (bb :: bbs) p = firstMoves bbs p := by simp [firstMoves, hm]
      have hgroup : groupedAssigns p (bb :: bbs) k = groupedAssigns p bbs (k + 1) := by simp [groupedAssigns, hm]
      rw [hfirst, hgroup]
      exact groupedAssigns_cases hrest
    | cons x g =>
      right
      have hk : k < 2 ^ 16 := h (n := 0) rfl (by simp [hm])
      -- every later assign is to a later block, whose number is below `2 ^ 16`
      have hlater : ∀ a ∈ groupedAssigns p bbs (k + 1), k < a.bbId ∧ a.bbId < 2 ^ 16 := by
        intro a ha
        obtain ⟨n, b, m, hn, hmem, rfl⟩ := mem_groupedAssigns ha
        have hlt := hrest hn (List.ne_nil_of_mem hmem)
        simp only [assignTo, toBbId, Nat.mod_eq_of_lt hlt]
        omega
      have hid : toBbId k = k := Nat.mod_eq_of_lt hk
      refine ⟨k, x, g, groupedAssigns p bbs (k + 1), ?_, ?_, ?_, ?_⟩
      · rw [groupedAssigns, hm]
      · simp [firstMoves, hm]
      · intro a ha
        have := hlater a ha
        omega
      · by_cases hinv : k = PN_INVALID_BB_ID
        · right
          apply List.eq_nil_iff_forall_not_mem.mpr
          intro a ha
          have := hlater a ha
          unfold PN_INVALID_BB_ID at hinv
          omega
        · left
          rwa [hid]

/-- **The in-place loop is chosen iff no move of the first edge reads the destination of an earlier one.** -/
theorem fastPhiAssign_iff {bbs : List PNBasicBlock}
    (h : ∀ {n : Nat} {bb : PNBasicBlock}, bbs[n]? = some bb → bb.phiMoves p ≠ [] → n < 2 ^ 16) :
    fastPhiAssign (groupedAssigns p bbs 0) = true ↔ Untouched (firstMoves bbs p) := by
  rcases groupedAssigns_cases (k := 0) fun hb hne => by simpa using h hb hne with
    ⟨hnil, hfirst⟩ | ⟨n, x, g, rest, heq, hfirst, hrest, hn⟩
  · rw [hnil, hfirst]
    simp [fastPhiAssign, fastPhiAssignLoop, Untouched]
  · rw [heq, hfirst, fastPhiAssign, List.map_cons, List.cons_append, fastPhiAssignLoop, if_pos (by simp)]
    exact scan_group (d := [x]) hrest hn (List.pairwise_singleton _ _)

/-! ## The moves of one edge -/

/-- With one entry for each block, a phi has at most one move on an edge. -/
theorem phiMoves_dest_sublist {d t : Nat} {incoming : List PNPhiIncoming} (h : (incoming.map PNPhiIncoming.bbId).Nodup) :
    (((PNInstruction.phi d t incoming).phiMoves p).map Move.dest).Sublist [d] := by
  have hle : (incoming.filter fun i => i.bbId = p).length ≤ 1 := by
    induction incoming with
    | nil => simp
    | cons i is ih =>
      rw [List.map_cons, List.nodup_cons] at h
      by_cases hi : i.bbId = p
      · have hnil : is.filter (fun j => j.bbId = p) = [] := by
          rw [List.filter_eq_nil_iff]
          intro j hj heq
          exact h.1 (List.mem_map.mpr ⟨j, hj, (of_decide_eq_true heq).trans hi.symm⟩)
        simp [hi, hnil]
      · simpa [hi] using ih h.2
  simp only [PNInstruction.phiMoves, List.map_map]
  cases hf : incoming.filter fun i => i.bbId = p with
  | nil => simp
  | cons i is =>
    rw [hf, List.length_cons] at hle
    have : is = [] := List.eq_nil_of_length_eq_zero (by omega)
    simp [this]

/-- The result of a phi. -/
def PNInstruction.phiDest : PNInstruction → Option Nat
  | .phi resultValueId _ _ => some resultValueId
  | _ => none

/-- Every phi has one entry for each block. -/
def Deduped (insts : List PNInstruction) : Prop :=
  ∀ {d t incoming}, .phi d t incoming ∈ insts → (incoming.map PNPhiIncoming.bbId).Nodup

theorem flatMap_phiMoves_sublist : ∀ {insts : List PNInstruction}, Deduped insts →
    ((insts.flatMap (PNInstruction.phiMoves p)).map Move.dest).Sublist (insts.filterMap PNInstruction.phiDest)
  | [], _ => .slnil
  | inst :: insts, h => by
    have hd : Deduped insts := fun hm => h (List.mem_cons_of_mem _ hm)
    have hrest := flatMap_phiMoves_sublist hd
    rw [List.flatMap_cons, List.map_append, List.filterMap_cons]
    cases inst with
    | phi d t incoming =>
      exact (phiMoves_dest_sublist (p := p) (h (List.mem_cons_self ..))).append hrest
    | _ => exact hrest

/-- The destinations of all assigns of a block are different. -/
theorem groupedAssigns_dest_sublist : ∀ {bbs : List PNBasicBlock} {k : Nat},
    Deduped (bbs.flatMap PNBasicBlock.instructions) →
    ((groupedAssigns p bbs k).map PNPhiAssign.destValueId).Sublist
      ((bbs.flatMap PNBasicBlock.instructions).filterMap PNInstruction.phiDest)
  | [], _, _ => .slnil
  | bb :: bbs, k, h => by
    rw [groupedAssigns, List.map_append, List.flatMap_cons, List.filterMap_append, List.map_map]
    refine List.Sublist.append ?_ (groupedAssigns_dest_sublist ?_)
    · exact flatMap_phiMoves_sublist fun hm => h (List.mem_append_left _ hm)
    · intro d t incoming hm
      exact h (List.mem_append_right _ hm)

end

end Pnacl
