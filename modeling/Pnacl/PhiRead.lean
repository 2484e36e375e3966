import Pnacl.FunctionsRead
import Pnacl.PhiMoves

/-!
# The phis of an accepted function

While the body of a function is read, every phi gets a value id of its own, that of the value it defines, and with
deduplication at most one entry for a block (`PhiOk`). So every function of an accepted module that has a stream is the
result of the passes on such a function: `pnModuleRead_phiRead`. Nothing is assumed about repeated records.
-/

namespace Pnacl

open Lib

/-- The phis of a function are in order; its values have the ids from `numValues` on. -/
structure PhiOk (numValues : Nat) (f : PNFunction) : Prop where
  uses : ∀ bb ∈ f.bbs, bb.phiUses = []
  dests : (f.insts.filterMap PNInstruction.phiDest).Nodup
  dest_lt : ∀ d ∈ f.insts.filterMap PNInstruction.phiDest, d < numValues + f.values.length
  deduped : Deduped f.insts
  index : ∀ {n : Nat} {bb : PNBasicBlock}, f.bbs[n]? = some bb → bb.instructions ≠ [] → n < 2 ^ 16

/-- The function is the result of the passes on one whose phis are in order. The module may have got values since. -/
def PhiRead (host : PNHost) (numValues functionId : Nat) (f : PNFunction) : Prop :=
  ∃ module f₀ g, pnFunctionPasses host module functionId f₀ = .ok g ∧ PhiOk module.values.length f₀ ∧
    module.values.length ≤ numValues ∧ SameBody g f

section Function

variable {numValues : Nat} {f f' : PNFunction}

theorem PhiOk.of_empty (hbbs : f.bbs = []) : PhiOk numValues f := by
  constructor <;> simp [PNFunction.insts, hbbs, Deduped]

/-- Nothing depends on the names, and values may be added. -/
theorem PhiOk.congr (h : PhiOk numValues f) (hbbs : f'.bbs = f.bbs) (hvalues : f.values.length ≤ f'.values.length) :
    PhiOk numValues f' := by
  have hinsts : f'.insts = f.insts := by rw [PNFunction.insts, hbbs, PNFunction.insts]
  constructor
  · rw [hbbs]
    exact h.uses
  · rw [hinsts]
    exact h.dests
  · rw [hinsts]
    intro d hd
    have := h.dest_lt d hd
    omega
  · rw [hinsts]
    exact h.deduped
  · rw [hbbs]
    exact h.index

/-- The instruction is one more, at the end of its block. -/
theorem insts_modify_perm (inst : PNInstruction) : ∀ {bbs : List PNBasicBlock} {k : Nat}, k < bbs.length →
    ((bbs.modify k (·.append inst)).flatMap PNBasicBlock.instructions).Perm
      (inst :: bbs.flatMap PNBasicBlock.instructions)
  | [], _, hk => by cases hk
  | bb :: bbs, 0, _ => by
    simp only [List.modify_zero_cons, List.flatMap_cons, PNBasicBlock.append]
    exact (List.perm_append_singleton inst bb.instructions).append_right _
  | bb :: bbs, k + 1, hk => by
    simp only [List.modify_succ_cons, List.flatMap_cons]
    exact ((insts_modify_perm inst (Nat.lt_of_succ_lt_succ hk)).append_left _).trans List.perm_middle

/-- A phi defines the next value. -/
theorem RecordForm.phiDest {host : PNHost} {dedupe : Bool} {module : PNModule} {relId d : Nat} {inst : PNInstruction}
    {value : Option PNValue} (h : RecordForm host dedupe module relId inst value) (hd : inst.phiDest = some d) :
    d = relId ∧ value.toList.length = 1 := by
  cases h with
  | phi _ _ =>
    cases hd
    exact ⟨rfl, rfl⟩
  | _ => cases hd

theorem RecordForm.deduped {host : PNHost} {module : PNModule} {relId d t : Nat} {incoming : List PNPhiIncoming}
    {value : Option PNValue} (h : RecordForm host true module relId (.phi d t incoming) value) :
    (incoming.map PNPhiIncoming.bbId).Nodup := by
  cases h with
  | phi _ hd => exact hd rfl

/-- A record of the function: the new phi, if it is one, gets an id that no other one has. -/
theorem PhiOk.append {host : PNHost} {module : PNModule} {inst : PNInstruction} {value : Option PNValue} {k : Nat}
    (h : PhiOk numValues f) (hform : RecordForm host true module (numValues + f.values.length) inst value)
    (hk : k < f.bbs.length) (hsmall : k < 2 ^ 16) : PhiOk numValues (f.append (some k) inst value) := by
  have hperm : (f.append (some k) inst value).insts.Perm (inst :: f.insts) := insts_modify_perm inst hk
  have hlen : (f.append (some k) inst value).values.length = f.values.length + value.toList.length := by
    simp [PNFunction.append]
  have hget : ∀ {n : Nat} {bb : PNBasicBlock}, (f.append (some k) inst value).bbs[n]? = some bb →
      ∃ b, f.bbs[n]? = some b ∧ (bb = b ∨ n = k ∧ bb = b.append inst) := by
    intro n bb hn
    simp only [PNFunction.append, List.getElem?_modify] at hn
    obtain ⟨b, hb, rfl⟩ := Option.map_eq_some_iff.mp hn
    refine ⟨b, hb, ?_⟩
    split
    · next heq => exact .inr ⟨heq.symm, rfl⟩
    · exact .inl rfl
  constructor
  · intro bb hbb
    obtain ⟨n, hn⟩ := List.getElem?_of_mem hbb
    obtain ⟨b, hb, rfl | ⟨_, rfl⟩⟩ := hget hn
    · exact h.uses _ (List.mem_of_getElem? hb)
    · exact h.uses b (List.mem_of_getElem? hb)
  · rw [(hperm.filterMap _).nodup_iff, List.filterMap_cons]
    split
    · exact h.dests
    · next d hd =>
      obtain ⟨rfl, _⟩ := hform.phiDest hd
      exact List.nodup_cons.mpr ⟨fun hmem => Nat.lt_irrefl _ (h.dest_lt _ hmem), h.dests⟩
  · intro d hd
    rw [(hperm.filterMap _).mem_iff, List.filterMap_cons] at hd
    rw [hlen]
    split at hd
    · have := h.dest_lt d hd
      omega
    · next d' hd' =>
      obtain ⟨rfl, hone⟩ := hform.phiDest hd'
      rcases List.mem_cons.mp hd with rfl | hd
      · omega
      · have := h.dest_lt d hd
        omega
  · intro d t incoming hmem
    rcases List.mem_cons.mp (hperm.mem_iff.mp hmem) with rfl | hmem
    · exact hform.deduped
    · exact h.deduped hmem
  · intro n bb hn hne
    obtain ⟨b, hb, rfl | ⟨rfl, _⟩⟩ := hget hn
    · exact h.index hb hne
    · exact hsmall

end Function

/-! ## The body of a function -/

/-- What holds while the body of a function is read. -/
structure PhiInv (s : PNFunctionState) : Prop where
  ok : PhiOk s.rs.module.values.length s.function
  cur : ∀ k ∈ s.curBb, k < s.function.bbs.length ∧ k < 2 ^ 16
  curBbId : s.curBbId < 2 ^ 16

section Body

variable {host : PNHost} {fuel : Nat} {s s' : PNFunctionState} {rs rs' : PNReadState} {bs bs' : PNBitStream}
  {functionId : Nat}

theorem PhiInv.beginBb (h : PhiInv s) (hb : s.beginBb = .ok s') : PhiInv s' := by
  rcases beginBb_cases hb with ⟨_, rfl⟩ | ⟨_, hlt, rfl⟩
  · exact h
  · refine ⟨h.ok, ?_, h.curBbId⟩
    intro k hk
    cases Option.mem_some.mp hk
    exact ⟨hlt, h.curBbId⟩

theorem PhiInv.append (h : PhiInv s) {inst : PNInstruction} {value : Option PNValue} {module : PNModule}
    (hform : RecordForm host true module (pnFunctionNumValues s.rs.module s.function) inst value) :
    PhiInv (s.append inst value) := by
  have hid : (s.append inst value).curBbId < 2 ^ 16 := by
    simp only [PNFunctionState.append, toBbId]
    split
    · exact Nat.mod_lt _ (by decide)
    · exact h.curBbId
  cases hcur : s.curBb with
  | none =>
    refine ⟨h.ok.congr ?_ ?_, ?_, hid⟩
    · simp [PNFunctionState.append, PNFunction.append, hcur]
    · simp [PNFunctionState.append, PNFunction.append]
    · intro k hk
      cases hcur.symm.trans hk
  | some k =>
    obtain ⟨hk, hsmall⟩ := h.cur k hcur
    refine ⟨?_, ?_, hid⟩
    · simp only [PNFunctionState.append, hcur]
      exact h.ok.append hform hk hsmall
    · intro j hj
      simpa [PNFunctionState.append, PNFunction.append, hcur] using h.cur j hj

theorem PhiInv.record {code : Nat} {reader : PNRecordReader} (h : PhiInv s)
    (hr : (pnFunctionBlock host true fuel).record s code reader = .ok (s', bs')) : PhiInv s' := by
  rcases pnFunctionBlock_record_cases hr with ⟨numBbs, rfl⟩ | ⟨s₁, r, hb, hread, rfl⟩
  · -- the new blocks are empty, and none of them is the current one
    refine ⟨?_, by simp [PNFunctionState.declare], h.curBbId⟩
    have hinsts : (s.declare numBbs).function.insts = [] := by
      simp [PNFunctionState.declare, PNFunction.insts, List.flatMap_replicate]
    constructor
    · intro bb hbb
      rw [List.eq_of_mem_replicate hbb]
    · simp [hinsts]
    · simp [hinsts]
    · simp [hinsts, Deduped]
    · intro n bb hn hne
      rw [List.eq_of_mem_replicate (List.mem_of_getElem? hn)] at hne
      exact absurd rfl hne
  · have hform := readInstruction_form hread
    obtain ⟨hrs, _, hfun⟩ := beginBb_rs hb
    apply (h.beginBb hb).append
    rw [hrs, hfun]
    exact hform

theorem PhiInv.subblock (h : PhiInv s) (hr : (pnFunctionBlock host true fuel).subblock s bs = .ok (s', bs')) :
    PhiInv s' := by
  rcases pnFunctionBlock_subblock_cases hr with ⟨rs, f, cs, vs, events, hf, rfl⟩ | ⟨rs, hf, rfl⟩
  · have hfun := hf.function
    refine ⟨?_, ?_, h.curBbId⟩
    · have hv : rs.module.values = s.rs.module.values := by rw [hf.state]
      rw [hv]
      refine h.ok.congr (by rw [hfun]) ?_
      simp [hfun]
    · intro k hk
      have := h.cur k hk
      simpa [hfun] using this
  · have hb := load_sameBody hf
    have hv : (s.load rs).rs.module.values = s.rs.module.values := hf.values
    refine ⟨?_, ?_, h.curBbId⟩
    · rw [hv]
      exact h.ok.congr hb.bbs (Nat.le_of_eq (by rw [hb.values]))
    · intro k hk
      rw [hb.bbs]
      exact h.cur k hk

theorem pnFunctionBlock_keeps_phi : (pnFunctionBlock host true fuel).Keeps PhiInv
    (fun s => PhiRead host s.rs.module.values.length s.functionId s.function) := by
  constructor
  · intro s s' bs bs' hs h
    obtain ⟨_, f, hp, rfl⟩ := pnFunctionBlock_endBlock_cases h
    exact ⟨_, _, _, hp, hs.ok, Nat.le_refl _, .of_unnamed rfl⟩
  · intro s s' bs bs' hs h
    exact hs.subblock h
  · intro s s' ab hs h
    cases h
    exact hs
  · intro s s' code reader bs' hs h
    exact hs.record h

end Body

/-! ## The module -/

section Module

variable {host : PNHost} {fuel : Nat} {rs : PNReadState} {bs bs' : PNBitStream}

theorem PhiRead.congr {numValues numValues' functionId : Nat} {f f' : PNFunction} (h : PhiRead host numValues functionId f)
    (hle : numValues ≤ numValues') (hf : SameBody f f') : PhiRead host numValues' functionId f' := by
  obtain ⟨module, f₀, g, hp, hok, hv, hb⟩ := h
  exact ⟨module, f₀, g, hp, hok, Nat.le_trans hv hle, hb.trans hf⟩

theorem phiRead_body : BodyProperty host true fuel (PhiRead host) := by
  constructor
  · intro numValues numValues' functionId f f' h hle hf
    exact h.congr hle hf
  · intro rs functionId f argTypes abbrevs s bs bs' hnil h
    have hinit : PhiInv ⟨rs, functionId, appendArgs f argTypes, 0, 2 ^ 16 - 1, 0, none⟩ :=
      ⟨.of_empty hnil, by simp, by simp⟩
    exact readBlock_inv pnFunctionBlock_keeps_phi hinit h

/-- **Every function of an accepted module that has a stream is the result of the passes on one whose phis are in
order.** -/
theorem pnModuleRead_phiRead {memory : PNMemory} {f : PNFunction}
    (h : pnModuleRead host true fuel (pnModuleInit memory) bs = .ok (rs, bs')) (hf : f ∈ rs.module.functions)
    (hne : f.instructions ≠ none) : ∃ functionId, PhiRead host rs.module.values.length functionId f :=
  pnModuleRead_functions phiRead_body h hf hne

end Module

end Pnacl
