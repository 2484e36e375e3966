import Pnacl.Branch
import Pnacl.Layout
import Pnacl.FrameStorage
import Pnacl.PhiRead
import Pnacl.WellFormed

/-!
# Phis on the edges of the control flow graph

A block that ends with a branch has one table for all its edges, and one flag that says how the assigns are done. On the
way to a block the assigns of that edge are done, in place or at once: `phiEdge_iff` says for which edges this leaves the
phis of the destination with the values that their entries had before the branch.
-/

namespace Pnacl

open Lib

section Blocks

variable {host : PNHost} {p : Nat}

theorem groupedAssigns_congr : ∀ {bbs bbs' : List PNBasicBlock} {k : Nat},
    bbs'.map PNBasicBlock.instructions = bbs.map PNBasicBlock.instructions →
    groupedAssigns p bbs' k = groupedAssigns p bbs k
  | [], [], _, _ => rfl
  | bb :: bbs, bb' :: bbs', k, h => by
    simp only [List.map_cons, List.cons.injEq] at h
    rw [groupedAssigns, groupedAssigns, groupedAssigns_congr h.2, PNBasicBlock.phiMoves, h.1, ← PNBasicBlock.phiMoves]

theorem groupedAssigns_append : ∀ {bbs bbs' : List PNBasicBlock} {k : Nat},
    groupedAssigns p (bbs ++ bbs') k = groupedAssigns p bbs k ++ groupedAssigns p bbs' (k + bbs.length)
  | [], _, _ => rfl
  | bb :: bbs, bbs', k => by
    rw [List.cons_append, groupedAssigns, groupedAssigns, groupedAssigns_append, List.append_assoc, List.length_cons,
      Nat.add_assoc k 1, Nat.add_comm 1]

/-- A branch is stored in the bytes that it takes. -/
theorem lowerInstruction_branch {module : PNModule} {f : PNFunction} {bbOffsets : List Nat} {inst : PNInstruction}
    {stored : Option PNRuntimeInstruction} (hb : inst.isBranch = true)
    (h : lowerInstruction host module f bbOffsets inst = .ok stored) :
    ∃ i, stored = some i ∧ i.sizeof = inst.streamSize := by
  cases inst with
  | br trueBb falseBb valueId =>
    rw [lowerInstruction] at h
    rw [PNInstruction.streamSize]
    split at h
    · next hne =>
      obtain ⟨type0, _, h⟩ := bind_eq_ok.mp h
      obtain ⟨_, _, h⟩ := bind_eq_ok.mp h
      cases h
      exact ⟨_, rfl, (if_pos hne).symm⟩
    · next hne =>
      cases h
      exact ⟨_, rfl, (if_neg hne).symm⟩
  | switch typeId valueId defaultBb cases caseBbs =>
    obtain ⟨type0, _, h⟩ := bind_eq_ok.mp h
    obtain ⟨opcode, _, h⟩ := bind_eq_ok.mp h
    cases h
    exact ⟨_, rfl, by simp [PNRuntimeInstruction.sizeof, PNInstruction.streamSize]⟩
  | _ => cases hb

/-- What the executor finds at the end of block `p`, which ends with a branch. -/
structure BranchBlock (host : PNHost) (numValues : Nat) (f : PNFunction) (base : Nat) (stream : PNIstream) (p : Nat)
    (bb : PNBasicBlock) (offsets : List Nat) : Prop where
  inst : ∃ i, stream.at (f.terminatorAddr base p bb) = some i ∧
    stream.at (f.terminatorAddr base p bb + i.sizeof) = some (bb.phiTable host offsets)
  offsets : ∀ n, n < f.bbs.length → offsets[n]? = some (f.blockAddr base n)
  assigns : bb.phiAssigns = groupedAssigns p f.bbs 0
  fast : bb.fastPhiAssign = true ↔ Untouched (firstMoves f.bbs p)
  dests : (bb.phiAssigns.map PNPhiAssign.destValueId).Nodup
  dest_lt : ∀ a ∈ bb.phiAssigns, a.destValueId < numValues + f.values.length
  index : ∀ {n : Nat} {b : PNBasicBlock}, f.bbs[n]? = some b → b.phiMoves p ≠ [] → n < 2 ^ 16

/-- **What the reader leaves for a block that ends with a branch.** -/
theorem PhiRead.branchBlock {numValues functionId base : Nat} {f : PNFunction} {stream : PNIstream} {bb : PNBasicBlock}
    {last : PNInstruction} (h : PhiRead host numValues functionId f) (hstream : f.instructions = some (base, stream))
    (hp : f.bbs[p]? = some bb) (hlast : bb.instructions.getLast? = some last) (hb : last.isBranch = true) :
    ∃ offsets, BranchBlock host numValues f base stream p bb offsets := by
  obtain ⟨module, f₀, g, hpass, hok, hv, hsame⟩ := h
  obtain ⟨f₁, f₂, h₁, h₂, h₃, hg⟩ := pnFunctionPasses_cases hpass
  obtain ⟨hre, _⟩ := resultValueTypes_spec h₁
  have hbbs₁ : f₁.bbs = f₀.bbs := by rw [hre.function]
  have hbbs : f.bbs = f₂.bbs := by rw [hsame.bbs, hg]
  have hinsts : f.bbs.map PNBasicBlock.instructions = f₁.bbs.map PNBasicBlock.instructions := by
    rw [hbbs, phiAssigns_instructions h₂, calculateUses_instructions]
  obtain ⟨_, hf₂, hblocks⟩ := phiAssigns_spec h₂
  have hvalues : f.values.length = f₀.values.length := by
    rw [hsame.values, hg, hf₂]
    exact hre.length
  obtain ⟨stream', offsets, heq, hoffsets, hbranch⟩ := calculateOpcodes_branch (host.instructions_le functionId) h₃
  have hcode : g.instructions = some (host.instructions functionId, stream') := by rw [heq]
  rw [← hsame.instructions, hstream] at hcode
  cases hcode
  have haddr : ∀ n, f₂.blockAddr (host.instructions functionId) n = f.blockAddr (host.instructions functionId) n := by
    intro n
    rw [PNFunction.blockAddr, PNFunction.blockAddr, hbbs]
  -- the assigns of the block
  have hassigns : assignsFor (indexedUses (pnFunctionCalculateUses f₁).bbs) p = groupedAssigns p f.bbs 0 := by
    rw [groupedAssigns_congr hinsts]
    apply assigns_eq
    rw [hbbs₁]
    exact hok.uses
  have hindex : ∀ {n : Nat} {b : PNBasicBlock}, f.bbs[n]? = some b → b.phiMoves p ≠ [] → n < 2 ^ 16 := by
    intro n b hn hne
    have hmap := congrArg (fun l : List (List PNInstruction) => l[n]?) hinsts
    simp only [List.getElem?_map, hn, hbbs₁] at hmap
    obtain ⟨b₀, hb₀, heq₀⟩ := Option.map_eq_some_iff.mp hmap.symm
    refine hok.index hb₀ ?_
    rintro hnil
    rw [heq₀] at hnil
    exact hne (by simp [PNBasicBlock.phiMoves, hnil])
  have hinsts₀ : f.bbs.flatMap PNBasicBlock.instructions = f₀.insts := by
    rw [List.flatMap_def, hinsts, hbbs₁, ← List.flatMap_def, PNFunction.insts]
  have hbb : bb.phiAssigns = groupedAssigns p f.bbs 0 ∧ bb.fastPhiAssign = fastPhiAssign (groupedAssigns p f.bbs 0) := by
    have := hblocks p
    rw [← hbbs, hp] at this
    obtain ⟨b, _, rfl⟩ := Option.map_eq_some_iff.mp this.symm
    exact ⟨hassigns, congrArg fastPhiAssign hassigns⟩
  have hsub : ((groupedAssigns p f.bbs 0).map PNPhiAssign.destValueId).Sublist (f₀.insts.filterMap PNInstruction.phiDest) := by
    rw [← hinsts₀]
    apply groupedAssigns_dest_sublist
    rw [hinsts₀]
    exact hok.deduped
  refine ⟨offsets, ?_, ?_, hbb.1, ?_, ?_, ?_, hindex⟩
  · obtain ⟨stored, hst, hmem, htable⟩ := hbranch (hbbs ▸ hp) hlast hb
    obtain ⟨i, rfl, hsize⟩ := lowerInstruction_branch hb hst
    rw [PNFunction.terminatorAddr, haddr, ← PNFunction.terminatorAddr] at hmem htable
    refine ⟨i, hmem i rfl, ?_⟩
    rw [hsize]
    exact htable
  · intro n hn
    rw [← haddr]
    exact hoffsets n (hbbs ▸ hn)
  · rw [hbb.2]
    exact fastPhiAssign_iff hindex
  · rw [hbb.1]
    exact hsub.nodup hok.dests
  · intro a ha
    rw [hbb.1] at ha
    have := hok.dest_lt _ (hsub.subset (List.mem_map_of_mem ha))
    omega

end Blocks

/-! ## One edge -/

/-- No other block with entries for block `p` lies at the address of block `s`. -/
def PNFunction.Alone (f : PNFunction) (p s : Nat) : Prop :=
  ∀ (n : Nat) (bb : PNBasicBlock), f.bbs[n]? = some bb → bb.phiMoves p ≠ [] →
    blockOffset f.bbs n = blockOffset f.bbs s → n = s

/-- An assign as it is in the table. -/
def runtimeAssign (host : PNHost) (offsets : List Nat) (a : PNPhiAssign) : PNRuntimePhiAssign :=
  ⟨bbOffsetAt host offsets a.bbId, a.sourceValueId, a.destValueId⟩

section Edge

variable {host : PNHost} {numValues base p s : Nat} {f : PNFunction} {stream : PNIstream} {bb S : PNBasicBlock}
  {offsets : List Nat}

theorem mem_phiMoves {m : Move Nat} : m ∈ S.phiMoves p ↔
    ∃ t incoming, .phi m.dest t incoming ∈ S.instructions ∧ ⟨p, m.source⟩ ∈ incoming := by
  constructor
  · intro h
    obtain ⟨inst, hinst, hm⟩ := List.mem_flatMap.mp h
    cases inst with
    | phi d t incoming =>
      obtain ⟨i, hfilter, rfl⟩ := List.mem_map.mp hm
      obtain ⟨hi, hp⟩ := List.mem_filter.mp hfilter
      cases of_decide_eq_true hp
      exact ⟨t, incoming, hinst, hi⟩
    | _ => cases hm
  · rintro ⟨t, incoming, hinst, hi⟩
    refine List.mem_flatMap.mpr ⟨_, hinst, List.mem_map.mpr ⟨_, List.mem_filter.mpr ⟨hi, by simp⟩, rfl⟩⟩

theorem movesTo_append (destInst : Nat) (as bs : List PNRuntimePhiAssign) :
    movesTo destInst (as ++ bs) = movesTo destInst as ++ movesTo destInst bs := by
  simp [movesTo]

theorem movesTo_eq_nil {destInst : Nat} {as : List PNRuntimePhiAssign} (h : ∀ a ∈ as, a.inst ≠ destInst) :
    movesTo destInst as = [] := by
  rw [movesTo, List.map_eq_nil_iff, List.filter_eq_nil_iff]
  intro a ha heq
  exact h a ha (of_decide_eq_true heq)

/-- The address of a block, as the table has it. -/
theorem BranchBlock.runtimeAssign_inst (h : BranchBlock host numValues f base stream p bb offsets) {n : Nat}
    {b : PNBasicBlock} (hn : f.bbs[n]? = some b) {m : Move Nat} (hm : m ∈ b.phiMoves p) :
    (runtimeAssign host offsets (assignTo n m)).inst = f.blockAddr base n := by
  have hid : toBbId n = n := Nat.mod_eq_of_lt (h.index hn (List.ne_nil_of_mem hm))
  have hlt : n < f.bbs.length := (List.getElem?_eq_some_iff.mp hn).1
  simp [runtimeAssign, assignTo, bbOffsetAt, hid, List.getD, h.offsets n hlt]

/-- **The table asks for the moves of the edge.** -/
theorem BranchBlock.movesTo_eq (h : BranchBlock host numValues f base stream p bb offsets) (halone : f.Alone p s)
    (hs : f.bbs[s]? = some S) :
    movesTo (f.blockAddr base s) (bb.phiAssigns.map (runtimeAssign host offsets)) = S.phiMoves p := by
  obtain ⟨hlt, hget⟩ := List.getElem?_eq_some_iff.mp hs
  have hsplit : f.bbs = f.bbs.take s ++ (S :: f.bbs.drop (s + 1)) := by
    rw [← hget, List.getElem_cons_drop, List.take_append_drop]
  have hlen : (f.bbs.take s).length = s := by
    rw [List.length_take]
    omega
  -- the assigns of other blocks go to other addresses
  have hother : ∀ {n : Nat} {b : PNBasicBlock} {m : Move Nat}, f.bbs[n]? = some b → m ∈ b.phiMoves p → n ≠ s →
      (runtimeAssign host offsets (assignTo n m)).inst ≠ f.blockAddr base s := by
    intro n b m hn hm hne heq
    rw [h.runtimeAssign_inst hn hm] at heq
    exact hne (halone n b hn (List.ne_nil_of_mem hm) (Nat.add_left_cancel heq))
  have hfront : movesTo (f.blockAddr base s) ((groupedAssigns p (f.bbs.take s) 0).map (runtimeAssign host offsets)) = [] := by
    apply movesTo_eq_nil
    intro r hr
    obtain ⟨a, ha, rfl⟩ := List.mem_map.mp hr
    obtain ⟨n, b, m, hn, hm, rfl⟩ := mem_groupedAssigns ha
    rw [List.getElem?_take] at hn
    split at hn
    · next hlt =>
      rw [Nat.zero_add]
      exact hother hn hm (Nat.ne_of_lt hlt)
    · cases hn
  have hback : movesTo (f.blockAddr base s)
      ((groupedAssigns p (f.bbs.drop (s + 1)) (s + 1)).map (runtimeAssign host offsets)) = [] := by
    apply movesTo_eq_nil
    intro r hr
    obtain ⟨a, ha, rfl⟩ := List.mem_map.mp hr
    obtain ⟨n, b, m, hn, hm, rfl⟩ := mem_groupedAssigns ha
    rw [List.getElem?_drop] at hn
    exact hother hn hm (by omega)
  have hmiddle : movesTo (f.blockAddr base s) (((S.phiMoves p).map (assignTo s)).map (runtimeAssign host offsets)) =
      S.phiMoves p := by
    rw [movesTo, List.filter_eq_self.mpr]
    · simp [Function.comp_def, runtimeAssign, assignTo]
    · intro a ha
      rw [List.map_map] at ha
      obtain ⟨m, hm, rfl⟩ := List.mem_map.mp ha
      exact decide_eq_true (h.runtimeAssign_inst hs hm)
  rw [h.assigns, hsplit, groupedAssigns_append, groupedAssigns, Nat.zero_add, hlen, List.map_append,
    List.map_append, movesTo_append, movesTo_append, hfront, hmiddle, hback, List.append_nil, List.nil_append]

end Edge

/-! ## Executing a branch -/

/-- The phis of `S` with an entry for block `p` have got the value that the entry named, and nothing else of the frame,
which has `n` values, has changed. -/
structure PhisAssigned (ex : PNExecutor) (n : Nat) (S : PNBasicBlock) (p : Nat) (th th' : PNThread) : Prop where
  phi : ∀ {d t v incoming}, .phi d t incoming ∈ S.instructions → ⟨p, v⟩ ∈ incoming → v < ex.numValues + n →
    pnThreadGetValue ex th' d = pnThreadGetValue ex th v
  other : ∀ id, id < ex.numValues + n → (∀ t v incoming, .phi id t incoming ∈ S.instructions → ⟨p, v⟩ ∉ incoming) →
    pnThreadGetValue ex th' id = pnThreadGetValue ex th id

/-- A frame of `f` that is about to branch at the end of block `p`. -/
structure AtBranch (f : PNFunction) (base p : Nat) (bb : PNBasicBlock) (malloc : Malloc) (th : PNThread) : Prop where
  frame : FrameState th f.values.length
  malloc : MallocOk (malloc th.allocator.chunks) th.allocator.chunks
  inst : th.inst = f.terminatorAddr base p bb

/-- The phis of block `s` are assigned at once whenever the branch of block `p` goes there. -/
def PhiEdge (ex : PNExecutor) (f : PNFunction) (base : Nat) (stream : PNIstream) (p : Nat) (bb : PNBasicBlock) (s : Nat)
    (S : PNBasicBlock) : Prop :=
  ∀ (malloc : Malloc) (th th' : PNThread), AtBranch f base p bb malloc th →
    branchTo ex stream malloc (f.blockAddr base s) th = .ok th' → PhisAssigned ex f.values.length S p th th'

section Execute

variable {host : PNHost} {numValues base p s n : Nat} {f : PNFunction} {stream : PNIstream} {bb S : PNBasicBlock}
  {offsets : List Nat} {ex : PNExecutor} {malloc : Malloc} {th th' : PNThread}

theorem phisAssigned_iff : PhisAssigned ex n S p th th' ↔
    (∀ m ∈ S.phiMoves p, m.source < ex.numValues + n → pnThreadGetValue ex th' m.dest = pnThreadGetValue ex th m.source) ∧
      ∀ id, id < ex.numValues + n → id ∉ (S.phiMoves p).map Move.dest →
        pnThreadGetValue ex th' id = pnThreadGetValue ex th id := by
  constructor
  · intro h
    constructor
    · intro m hm hlt
      obtain ⟨t, incoming, hinst, hi⟩ := mem_phiMoves.mp hm
      exact h.phi hinst hi hlt
    · intro id hlt hid
      apply h.other id hlt
      intro t v incoming hinst hi
      exact hid (List.mem_map.mpr ⟨⟨id, v⟩, mem_phiMoves.mpr ⟨t, incoming, hinst, hi⟩, rfl⟩)
  · rintro ⟨hphi, hother⟩
    constructor
    · intro d t v incoming hinst hi hlt
      exact hphi ⟨d, v⟩ (mem_phiMoves.mpr ⟨t, incoming, hinst, hi⟩) hlt
    · intro id hlt hid
      apply hother id hlt
      intro hmem
      obtain ⟨m, hm, rfl⟩ := List.mem_map.mp hmem
      obtain ⟨t, incoming, hinst, hi⟩ := mem_phiMoves.mp hm
      exact hid t m.source incoming hinst hi

/-- The branch does the phi assigns of its table. -/
theorem BranchBlock.branchTo_eq (h : BranchBlock host numValues f base stream p bb offsets)
    (hlen : bb.phiAssigns.length < 2 ^ 16) (hinst : th.inst = f.terminatorAddr base p bb) (destInst : Nat) :
    branchTo ex stream malloc destInst th = (PNThreadOp.phiAssigns malloc bb.fastPhiAssign
      (bb.phiAssigns.map (runtimeAssign host offsets)) destInst).exec ex th := by
  obtain ⟨i, hi, htable⟩ := h.inst
  have htake : (bb.phiAssigns.map (runtimeAssign host offsets)).take (bb.phiAssigns.length % 2 ^ 16) =
      bb.phiAssigns.map (runtimeAssign host offsets) := by
    apply List.take_of_length_le
    rw [List.length_map, Nat.mod_eq_of_lt hlen]
  have hfast : decide ((if bb.fastPhiAssign then 1 else 0) ≠ 0) = bb.fastPhiAssign := by
    cases bb.fastPhiAssign <;> rfl
  simp only [branchTo, hinst, hi, htable, PNBasicBlock.phiTable]
  exact (congrArg₂ (fun fast as => (PNThreadOp.phiAssigns malloc fast as destInst).exec ex th) hfast htake)

/-- The destinations of an edge are different values of the frame. -/
theorem BranchBlock.dests_edge (h : BranchBlock host numValues f base stream p bb offsets) (halone : f.Alone p s)
    (hs : f.bbs[s]? = some S) : ((S.phiMoves p).map Move.dest).Nodup ∧
      ∀ a ∈ bb.phiAssigns.map (runtimeAssign host offsets), a.destValueId < numValues + f.values.length := by
  constructor
  · have hmap : (bb.phiAssigns.map (runtimeAssign host offsets)).map PNRuntimePhiAssign.destValueId =
        bb.phiAssigns.map PNPhiAssign.destValueId := by
      rw [List.map_map]
      rfl
    rw [← h.movesTo_eq halone hs, movesTo, List.map_map]
    refine List.Nodup.sublist (List.filter_sublist.map _) ?_
    rw [show (Move.dest ∘ fun a : PNRuntimePhiAssign => (⟨a.destValueId, a.sourceValueId⟩ : Move Nat)) =
      PNRuntimePhiAssign.destValueId from rfl, hmap]
    exact h.dests
  · intro r hr
    obtain ⟨a, ha, rfl⟩ := List.mem_map.mp hr
    exact h.dest_lt a ha

/-- **The edge is done at once, unless the in-place loop is chosen for moves that are not independent.** -/
theorem BranchBlock.phiEdge (h : BranchBlock host numValues f base stream p bb offsets)
    (hlen : bb.phiAssigns.length < 2 ^ 16) (hex : ex.numValues = numValues) (halone : f.Alone p s)
    (hs : f.bbs[s]? = some S) (hok : ¬Untouched (firstMoves f.bbs p) ∨ Independent (S.phiMoves p)) :
    PhiEdge ex f base stream p bb s S := by
  intro malloc th th' hth hb
  subst hex
  obtain ⟨hnodup, hlt⟩ := h.dests_edge halone hs
  have hmoves := h.movesTo_eq halone hs
  rw [h.branchTo_eq hlen hth.inst] at hb
  obtain ⟨th₁, hdo, hb⟩ := bind_eq_ok.mp hb
  cases hb
  apply phisAssigned_iff.mpr
  have hget : pnThreadGetValue ex { th₁ with inst := f.blockAddr base s } = pnThreadGetValue ex th₁ := rfl
  rw [hget]
  cases hfast : bb.fastPhiAssign with
  | true =>
    have hind : Independent (S.phiMoves p) := hok.resolve_left (not_not.mpr (h.fast.mp hfast))
    rw [hfast, pnThreadDoPhiAssigns, if_pos rfl] at hdo
    have henv := phiAssignsInPlace_spec hth.frame hlt hdo
    rw [hmoves, movesInOrder_eq hind] at henv
    rw [henv]
    constructor
    · intro m hm _
      exact movesAtOnce_of_mem hnodup hm
    · intro id _ hid
      exact movesAtOnce_of_notMem hid
  | false =>
    rw [hfast] at hdo
    have hspec := phiAssignsTwoPass_spec hth.frame hth.malloc (by simpa using hlen) hlt (by rw [hmoves]; exact hnodup) hdo
    rwa [hmoves] at hspec

/-- **If the in-place loop is chosen for moves that are not independent, some frame gets a wrong value.** -/
theorem BranchBlock.ok_of_phiEdge (h : BranchBlock host numValues f base stream p bb offsets)
    (hlen : bb.phiAssigns.length < 2 ^ 16) (hex : ex.numValues = numValues) (halone : f.Alone p s)
    (hs : f.bbs[s]? = some S) (hth : AtBranch f base p bb malloc th)
    (hrun : branchTo ex stream malloc (f.blockAddr base s) th = .ok th') (hedge : PhiEdge ex f base stream p bb s S) :
    ¬Untouched (firstMoves f.bbs p) ∨ Independent (S.phiMoves p) := by
  by_contra hnot
  rw [not_or, not_not] at hnot
  obtain ⟨hun, hind⟩ := hnot
  subst hex
  obtain ⟨hnodup, hlt⟩ := h.dests_edge halone hs
  have hmoves := h.movesTo_eq halone hs
  have hfast := h.fast.mpr hun
  have hexec : ∀ th : PNThread, th.inst = f.terminatorAddr base p bb →
      branchTo ex stream malloc (f.blockAddr base s) th = (do
        let th ← phiAssignsInPlace ex (f.blockAddr base s) th (bb.phiAssigns.map (runtimeAssign host offsets))
        .ok { th with inst := f.blockAddr base s }) := by
    intro th hinst
    rw [h.branchTo_eq hlen hinst, hfast]
    rfl
  -- the destinations are values of the function, since the branch returns
  rw [hexec th hth.inst] at hrun
  obtain ⟨th₁, hdo, _⟩ := bind_eq_ok.mp hrun
  have hdests := phiAssignsInPlace_dests hdo
  rw [hmoves] at hdests
  have hrange : ∀ m ∈ S.phiMoves p, m.dest < ex.numValues + f.values.length := by
    intro m hm
    rw [← hmoves] at hm
    obtain ⟨a, ha, rfl⟩ := List.mem_map.mp hm
    exact hlt a (List.mem_filter.mp ha).1
  -- give the destination of `k` a value that its source does not have
  obtain ⟨k, hk, m, hm, hne, heq, hstale⟩ := exists_stale_of_not_independent (V := Nat) hnodup hind
  obtain ⟨w, hw⟩ : ∃ w, pnThreadGetValue ex th k.source ≠ w := ⟨_, Nat.ne_of_lt (Nat.lt_succ_self _)⟩
  have hset := hth.frame.setValue_returns (hdests k hk).1 (hrange k hk) (hdests k hk).2 w
  obtain ⟨hframe, henv, _⟩ := hth.frame.setValue (hrange k hk) hset
  generalize hst : th.store _ w = th₂ at hset hframe henv
  have hth₂ : AtBranch f base p bb malloc th₂ := by
    subst hst
    exact ⟨hframe, hth.malloc, hth.inst⟩
  have hvalues : ∀ m ∈ movesTo (f.blockAddr base s) (bb.phiAssigns.map (runtimeAssign host offsets)),
      ex.numValues ≤ m.dest ∧ m.dest < ex.numValues + f.values.length ∧ m.dest ≠ PN_INVALID_VALUE_ID := by
    rw [hmoves]
    intro m hm
    exact ⟨(hdests m hm).1, hrange m hm, (hdests m hm).2⟩
  obtain ⟨th₃, hdo₂⟩ := phiAssignsInPlace_returns hframe hvalues
  have hrun₂ : branchTo ex stream malloc (f.blockAddr base s) th₂ = .ok { th₃ with inst := f.blockAddr base s } := by
    rw [hexec th₂ hth₂.inst, hdo₂]
    rfl
  have hassigned := (phisAssigned_iff.mp (hedge malloc th₂ _ hth₂ hrun₂)).1 m hm (heq ▸ hrange k hk)
  have horder := phiAssignsInPlace_spec hframe hlt hdo₂
  rw [hmoves] at horder
  refine hstale (pnThreadGetValue ex th₂) ?_ ((congrFun horder m.dest).symm.trans hassigned)
  rw [henv, Function.update_self, Function.update_of_ne hne]
  exact hw

/-- The branch goes where it ends up. -/
theorem opcodeBranch_branchTo (h : opcodeBranch ex stream malloc th = .ok th') :
    branchTo ex stream malloc th'.inst th = .ok th' := by
  unfold opcodeBranch at h
  split at h
  · cases h
  · next destInst _ =>
    have hdest : th'.inst = destInst := by
      unfold branchTo at h
      split at h
      · cases h
      · split at h
        · obtain ⟨th₁, _, h⟩ := bind_eq_ok.mp h
          cases h
          rfl
        · cases h
    rw [hdest]
    exact h

/-- **An edge of an accepted function assigns its phis at once iff its own moves are independent, or the two-pass loop is
chosen for the block since the moves of the first edge with phis are not.** -/
theorem phiEdge_iff {fuel : Nat} {memory : PNMemory} {bs bs' : PNBitStream} {rs : PNReadState} {last : PNInstruction}
    (h : pnModuleRead host true fuel (pnModuleInit memory) bs = .ok (rs, bs')) (hf : f ∈ rs.module.functions)
    (hstream : f.instructions = some (base, stream)) (hp : f.bbs[p]? = some bb)
    (hlast : bb.instructions.getLast? = some last) (hb : last.isBranch = true) (hlen : bb.phiAssigns.length < 2 ^ 16)
    (hs : f.bbs[s]? = some S) (hex : ex.numValues = rs.module.values.length) (halone : f.Alone p s) :
    (¬Untouched (firstMoves f.bbs p) ∨ Independent (S.phiMoves p) →
      ∀ (malloc : Malloc) (th th' : PNThread), AtBranch f base p bb malloc th →
        opcodeBranch ex stream malloc th = .ok th' → th'.inst = f.blockAddr base s →
        PhisAssigned ex f.values.length S p th th') ∧
    ((∃ malloc th th', AtBranch f base p bb malloc th ∧
        branchTo ex stream malloc (f.blockAddr base s) th = .ok th') →
      (PhiEdge ex f base stream p bb s S ↔ ¬Untouched (firstMoves f.bbs p) ∨ Independent (S.phiMoves p))) := by
  obtain ⟨functionId, hread⟩ := pnModuleRead_phiRead h hf (by simp [hstream])
  obtain ⟨offsets, hblock⟩ := hread.branchBlock hstream hp hlast hb
  constructor
  · intro hok malloc th th' hth hbranch hdest
    have hto := opcodeBranch_branchTo hbranch
    rw [hdest] at hto
    exact hblock.phiEdge hlen hex halone hs hok malloc th th' hth hto
  · rintro ⟨malloc, th, th', hth, hrun⟩
    constructor
    · exact hblock.ok_of_phiEdge hlen hex halone hs hth hrun
    · exact hblock.phiEdge hlen hex halone hs

end Execute

/-! ## A swap behind another edge

Block 2 is a loop whose phis 4 and 5 are swapped in every round; its other edge goes to block 1, which has a phi too.

```
f(i1 %1):       br 2
block 1:        %3 = phi [%4, 2];  ret
block 2:        %4 = phi [%1, 0], [%5, 2];  %5 = phi [1, 0], [%4, 2];  br %1, 1, 2
```
-/

def swapFile : List UInt8 :=
  [80, 69, 88, 69, 0, 0, 0, 0, 33, 8, 0, 0, 0, 0, 0, 0, 69, 8, 0, 0, 0, 0, 0, 0, 7, 193, 176, 0, 124, 4, 193, 213, 0, 0, 1,
    0, 35, 132, 0, 0, 64, 12, 2, 0, 0, 0, 0, 0, 7, 193, 208, 130, 0, 0, 0, 0, 0, 0, 0, 0, 7, 65, 48, 17, 8, 0, 0, 0, 47,
    129, 48, 52, 4, 132, 176, 2, 12, 21, 65, 0, 20, 194, 80, 17, 8, 0, 33, 188, 12, 129, 16, 0, 0, 0, 0, 0]

def swapExit : PNBasicBlock where
  instructions := [.phi 3 1 [⟨2, 4⟩], .ret PN_INVALID_VALUE_ID]
  phiUses := [⟨3, ⟨2, 4⟩⟩]
  phiAssigns := []
  fastPhiAssign := true

def swapLoop : PNBasicBlock where
  instructions := [.phi 4 1 [⟨0, 1⟩, ⟨2, 5⟩], .phi 5 1 [⟨0, 2⟩, ⟨2, 4⟩], .br 1 (some 2) 1]
  phiUses := [⟨4, ⟨0, 1⟩⟩, ⟨4, ⟨2, 5⟩⟩, ⟨5, ⟨0, 2⟩⟩, ⟨5, ⟨2, 4⟩⟩]
  phiAssigns := [⟨1, 4, 3⟩, ⟨2, 5, 4⟩, ⟨2, 4, 5⟩]
  fastPhiAssign := true

def swapBlocks : List PNBasicBlock :=
  [⟨[.br 2 none PN_INVALID_VALUE_ID], [], [⟨2, 1, 4⟩, ⟨2, 2, 5⟩], true⟩, swapExit, swapLoop]

def swapStream : PNIstream :=
  [(4096, .br 4152), (4112, .phiTable 2 1 [⟨4152, 1, 4⟩, ⟨4152, 2, 5⟩]), (4148, .ret), (4152, .brInt1 1 4148 4152),
    (4176, .phiTable 3 1 [⟨4148, 4, 3⟩, ⟨4152, 5, 4⟩, ⟨4152, 4, 5⟩]), (4228, trapInstruction)]

/-- The executor of this module; the function is the start function. -/
def swapExecutor : PNExecutor where
  numValues := 1
  moduleValues _ := 0
  numFunctions := 1
  functions _ := ⟨1, 5, [1], 4096⟩
  callAt _ := ⟨PN_INVALID_VALUE_ID, []⟩
  sentinel := 64
  stackEnd := 65536
  startFunctionId := 0
  startinfoStart := 2048
  numFunctions_lt := Nat.le_of_ble_eq_true rfl
  numValues_lt _ := by decide

set_option synthInstance.maxSize 1024 in
/-- The file is accepted. -/
theorem swapFile_read : ∃ rs bs' f, readFile swapFile = .ok (rs, bs') ∧ rs.module.values.length = 1 ∧
    f ∈ rs.module.functions ∧ f.bbs = swapBlocks ∧ f.values.length = 5 ∧ f.instructions = some (4096, swapStream) := by
  have heval : (readFile swapFile).toOption.map (fun r => (r.1.module.values.length,
      r.1.module.functions.map fun f => (f.bbs, f.values.length, f.instructions))) =
      some (1, [(swapBlocks, 5, some (4096, swapStream))]) := by
    decide
  obtain ⟨⟨rs, bs'⟩, h, hrs⟩ := eq_ok_of_toOption heval
  obtain ⟨hvalues, hfunctions⟩ := Prod.mk.inj hrs
  obtain ⟨f, hf, heq⟩ := List.mem_map.mp (hfunctions ▸ List.mem_singleton_self _)
  obtain ⟨hbbs, heq⟩ := Prod.mk.inj heq
  obtain ⟨hlen, hinsts⟩ := Prod.mk.inj heq
  exact ⟨rs, bs', f, h, hvalues, hf, hbbs, hlen, hinsts⟩

/-- The start thread. -/
def swapStart : PNThread :=
  (pnExecutorInit swapExecutor demoMalloc (fun _ => 0) demoMemory ⟨0, 0, 0, 0⟩).toOption.get rfl

/-- The start thread at the end of block 2, with phi 5 set to 1. -/
def swapThread : PNThread := { swapStart.store (131176 + 8 * 4) 1 with inst := 4152 }

theorem swapThread_frame : FrameState swapThread 5 := by
  have hinit : pnExecutorInit swapExecutor demoMalloc (fun _ => 0) demoMemory ⟨0, 0, 0, 0⟩ = .ok swapStart := rfl
  obtain ⟨e, _, hinv, _⟩ := init_inv (demoMalloc_fresh_of rfl) hinit
  have hframe : FrameState swapStart 5 := hinv.frameState
  have hlt : 5 < swapExecutor.numValues + 5 := by decide
  obtain ⟨h, _, _⟩ := hframe.setValue hlt (hframe.setValue_returns (by decide) hlt (by decide) 1)
  exact ⟨h.inv, h.frame, h.values, h.disjoint⟩

theorem swapThread_atBranch {f : PNFunction} (hbbs : f.bbs = swapBlocks) (hlen : f.values.length = 5) :
    AtBranch f 4096 2 swapLoop demoMalloc swapThread := by
  refine ⟨hlen ▸ swapThread_frame, (demoMalloc_fresh_of rfl : MallocFresh swapExecutor demoMalloc).ok _, ?_⟩
  rw [PNFunction.terminatorAddr, PNFunction.blockAddr, hbbs]
  rfl

/-- On the edge from block 2 to block 1 the phi is assigned. -/
theorem swap_exit_phiEdge : ∃ rs bs' f, readFile swapFile = .ok (rs, bs') ∧ f ∈ rs.module.functions ∧
    f.bbs[2]? = some swapLoop ∧ f.bbs[1]? = some swapExit ∧ swapExit.phiMoves 2 = [⟨3, 4⟩] ∧
    PhiEdge swapExecutor f 4096 swapStream 2 swapLoop 1 swapExit := by
  obtain ⟨rs, bs', f, h, hvalues, hf, hbbs, hlen, hinsts⟩ := swapFile_read
  have hp : f.bbs[2]? = some swapLoop := by rw [hbbs]; rfl
  have hs : f.bbs[1]? = some swapExit := by rw [hbbs]; rfl
  have halone : f.Alone 2 1 := by
    intro n bb hn hne heq
    rw [hbbs] at hn heq
    match n, hn with
    | 0, hn =>
      cases hn
      exact absurd rfl hne
    | 1, _ => rfl
    | 2, _ => exact absurd heq (by decide)
  have hrun : ∃ th', branchTo swapExecutor swapStream demoMalloc (f.blockAddr 4096 1) swapThread = .ok th' := by
    rw [PNFunction.blockAddr, hbbs]
    exact ⟨_, rfl⟩
  obtain ⟨th', hrun⟩ := hrun
  refine ⟨rs, bs', f, h, hf, hp, hs, by decide, ?_⟩
  have hlast : swapLoop.instructions.getLast? = some (.br 1 (some 2) 1) := rfl
  have hex : swapExecutor.numValues = rs.module.values.length := hvalues.symm
  refine ((phiEdge_iff h hf hinsts hp hlast rfl (by decide) hs hex halone).2 ?_).mpr ?_
  · exact ⟨demoMalloc, swapThread, th', swapThread_atBranch hbbs hlen, hrun⟩
  · exact .inr (by decide)

/-- In the loop, phi 5 should get the value 0 of phi 4 and keeps its own. -/
theorem swap_loop_not_assigned : ∃ rs bs' f th', readFile swapFile = .ok (rs, bs') ∧ f ∈ rs.module.functions ∧
    f.instructions = some (4096, swapStream) ∧ f.bbs[2]? = some swapLoop ∧
    AtBranch f 4096 2 swapLoop demoMalloc swapThread ∧
    opcodeBranch swapExecutor swapStream demoMalloc swapThread = .ok th' ∧ th'.inst = f.blockAddr 4096 2 ∧
    pnThreadGetValue swapExecutor swapThread 4 = 0 ∧ pnThreadGetValue swapExecutor th' 5 = 1 ∧
    ¬PhisAssigned swapExecutor f.values.length swapLoop 2 swapThread th' := by
  obtain ⟨rs, bs', f, h, _, hf, hbbs, hlen, hinsts⟩ := swapFile_read
  have heval : (opcodeBranch swapExecutor swapStream demoMalloc swapThread).toOption.map
      (fun th' => (th'.inst, pnThreadGetValue swapExecutor th' 5)) = some (4152, 1) := rfl
  obtain ⟨th', hrun, heq⟩ := eq_ok_of_toOption heval
  obtain ⟨hinst, hvalue⟩ := Prod.mk.inj heq
  have haddr : f.blockAddr 4096 2 = 4152 := by
    rw [PNFunction.blockAddr, hbbs]
    rfl
  refine ⟨rs, bs', f, th', h, hf, hinsts, by rw [hbbs]; rfl, swapThread_atBranch hbbs hlen, hrun, hinst.trans haddr.symm,
    rfl, hvalue, ?_⟩
  intro hp
  have hphi : PNInstruction.phi 5 1 [⟨0, 2⟩, ⟨2, 4⟩] ∈ swapLoop.instructions := by decide
  have := hp.phi (v := 4) hphi (by decide) (by rw [hlen]; decide)
  rw [hvalue] at this
  exact absurd this (by decide)

end Pnacl
