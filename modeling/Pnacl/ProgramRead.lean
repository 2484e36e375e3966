import Pnacl.ProgramOps

/-!
# How calls are read

A CALL of a function is lowered by what that function is while the body is read: to CALL, or to the opcode of an intrinsic. So the
body must be read behind the names of the module (`BodyNamed`), and then a call of a function that is no intrinsic is a CALL in the
stream (`CallsRead.direct`).
-/

namespace Pnacl

open Lib

/-- Besides, no function becomes an intrinsic, or stops being one, behind the body. -/
def BodyNamed (host : PNHost) (dedupe : Bool) (fuel : Nat) (module : PNModule) (functionId : Nat) (f : PNFunction) : Prop :=
  ∃ rs rs' f₀ f₁ bs bs', rs.module.types = module.types ∧ rs.module.values = module.values ∧
    (∀ g ∈ rs.module.functions, g.typeId < module.types.length) ∧ rs.module.functions[functionId]? = some f₀ ∧
    (f₀.bbs = [] ∧ f₀.values = [] ∧ f₀.constants = []) ∧
    pnFunctionBlockRead host dedupe fuel rs functionId bs = .ok (rs', bs') ∧
    rs'.module.functions[functionId]? = some f₁ ∧ SameBody f₁ f ∧
    rs'.module.functions.map PNFunction.intrinsicId = module.functions.map PNFunction.intrinsicId

/-- The passes on a body have seen the names of the module. -/
def PassesNamed (host : PNHost) (module : PNModule) (functionId : Nat) (f : PNFunction) : Prop :=
  ∃ module' f₀ g, module'.types = module.types ∧ module'.values = module.values ∧
    module'.functions.map PNFunction.intrinsicId = module.functions.map PNFunction.intrinsicId ∧
    pnFunctionPasses host module' functionId f₀ = .ok g ∧ SameBody g f

section

variable {host : PNHost} {dedupe : Bool} {fuel : Nat} {module : PNModule} {s s' : PNFunctionState} {rs rs' : PNReadState}
  {bs bs' : PNBitStream} {functionId : Nat} {f : PNFunction}

/-- The module has the intrinsic that the function is. -/
def PNFunctionState.Named (s : PNFunctionState) : Prop :=
  ∀ g, s.rs.module.functions[s.functionId]? = some g → g.intrinsicId = s.function.intrinsicId

theorem passes_intrinsicId {f' : PNFunction} (h : pnFunctionPasses host module functionId f = .ok f') :
    f'.intrinsicId = f.intrinsicId := by
  obtain ⟨f₁, f₂, h₁, h₂, -, hf'⟩ := pnFunctionPasses_cases h
  obtain ⟨hre, -⟩ := resultValueTypes_spec h₁
  obtain ⟨-, hf₂, -⟩ := phiAssigns_spec h₂
  rw [hf', hf₂]
  have h₁ := congrArg PNFunction.intrinsicId hre.function
  exact h₁

theorem PNFunctionState.Named.store_map (h : s.Named) : s.store.module.functions.map PNFunction.intrinsicId =
    s.rs.module.functions.map PNFunction.intrinsicId := by
  refine List.ext_getElem? fun n => ?_
  rw [List.getElem?_map, List.getElem?_map, PNFunctionState.store]
  by_cases hn : n = s.functionId
  · subst hn
    cases hg : s.rs.module.functions[s.functionId]? with
    | none => rw [List.getElem?_eq_none (by rw [List.length_set]; exact List.getElem?_eq_none_iff.mp hg)]
    | some g =>
      rw [List.getElem?_set_self (List.getElem?_eq_some_iff.mp hg).1, Option.map_some, Option.map_some, h g hg]
  · rw [List.getElem?_set_ne (Ne.symm hn)]

theorem PNFunctionState.named_load (s : PNFunctionState) (rs : PNReadState) : (s.load rs).Named := by
  intro g hg
  rw [show (s.load rs).rs.module.functions[(s.load rs).functionId]? = rs.module.functions[s.functionId]? from rfl] at hg
  simp only [PNFunctionState.load, List.getD, hg, Option.getD_some]

theorem PNFunctionState.Named.subblock (h : s.Named) (hr : (pnFunctionBlock host dedupe fuel).subblock s bs = .ok (s', bs')) :
    s'.Named := by
  rcases pnFunctionBlock_subblock_cases hr with ⟨rs, f, cs, vs, events, hf, rfl⟩ | ⟨rs, -, rfl⟩
  · intro g hg
    have hmodule : rs.module = s.rs.module := by rw [hf.state]
    rw [hf.function]
    exact h g (hmodule ▸ hg)
  · exact s.named_load rs

theorem PNFunctionState.Named.record {code : Nat} {reader : PNRecordReader} (h : s.Named)
    (hr : (pnFunctionBlock host dedupe fuel).record s code reader = .ok (s', bs')) : s'.Named := by
  rcases pnFunctionBlock_record_cases hr with ⟨numBbs, rfl⟩ | ⟨s₁, r, hb, -, rfl⟩
  · exact h
  · obtain ⟨hrs, hid, hfun⟩ := beginBb_rs hb
    intro g hg
    have hg' : s.rs.module.functions[s.functionId]? = some g := by
      rw [← hrs, ← hid]
      exact hg
    rw [h g hg', ← hfun]
    rfl

theorem pnFunctionBlock_keeps_named : (pnFunctionBlock host dedupe fuel).Keeps (fun s => BodyInv host module s ∧ s.Named)
    (fun s => ∃ module' f₀ g, module'.types = module.types ∧ module'.values = module.values ∧
      module'.functions.map PNFunction.intrinsicId = s.store.module.functions.map PNFunction.intrinsicId ∧
      pnFunctionPasses host module' s.functionId f₀ = .ok g ∧ SameBody g s.function) := by
  constructor
  · intro s s' bs bs' hs h
    obtain ⟨_, f, hp, rfl⟩ := pnFunctionBlock_endBlock_cases h
    have hnamed : ({ s with function := f } : PNFunctionState).Named := fun g hg =>
      (hs.2 g hg).trans (passes_intrinsicId hp).symm
    exact ⟨_, _, _, hs.1.types, hs.1.values, hnamed.store_map.symm, hp, .of_unnamed rfl⟩
  · intro s s' bs bs' hs h
    exact ⟨hs.1.subblock h, hs.2.subblock h⟩
  · intro s s' ab hs h
    cases h
    exact hs
  · intro s s' code reader bs' hs h
    exact ⟨hs.1.record h, hs.2.record h⟩

theorem BodyNamed.passes (h : BodyNamed host dedupe fuel module functionId f) (hd : TableOk module.types) :
    PassesNamed host module functionId f := by
  obtain ⟨rs, rs', f₀, f₁, bs, bs', ht, hv, hdecl, hf₀, ⟨hbbs, hvalues, hconstants⟩, hread, hf₁, hsame, hnames⟩ := h
  obtain ⟨g, isVarargs, returnType, argTypes, s, bs₁, hg, htype, hb, rfl⟩ := pnFunctionBlockRead_cases hread
  cases hf₀.symm.trans hg
  obtain ⟨rfl, -⟩ := readBlock_inv (pnFunctionBlock_keeps_frame rs functionId) ⟨rfl, .refl _ _⟩ hb
  have hid : f₀.typeId < rs.module.types.length := by
    rw [ht]
    exact hdecl f₀ (List.mem_of_getElem? hf₀)
  rw [PNModule.type_congr ht] at htype
  have hok : BodyOk host module (appendArgs f₀ argTypes) := .start hd (ht ▸ hid) htype hbbs hvalues hconstants
  have hstart : BodyInv host module ⟨rs, s.functionId, appendArgs f₀ argTypes, 0, 2 ^ 16 - 1, 0, none⟩ :=
    ⟨ht, hv, ⟨ht ▸ hd, ht ▸ hdecl⟩, hid, hok, by simp⟩
  have hnamed : PNFunctionState.Named ⟨rs, s.functionId, appendArgs f₀ argTypes, 0, 2 ^ 16 - 1, 0, none⟩ := by
    intro g hg
    cases hf₀.symm.trans hg
    rfl
  obtain ⟨module', g₀, g, ht', hv', hn', hp, hsame'⟩ := readBlock_inv pnFunctionBlock_keeps_named ⟨hstart, hnamed⟩ hb
  cases store_getElem? s hf₁
  exact ⟨module', g₀, g, ht', hv', hn'.trans hnames, hp, hsame'.trans hsame⟩

end

end Pnacl
