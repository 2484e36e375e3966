import Pnacl.BlockFrames
import Pnacl.TypeTable

/-!
# The functions of an accepted module

A body is read for one function after the other, and nothing that follows it changes more of that function than its name. So
what holds of a function when its body ends holds of it in the accepted module: `pnModuleRead_functions`.
-/

namespace Pnacl

open Lib

section Functions

variable {host : PNHost} {dedupe : Bool} {fuel : Nat} {s s' : PNModuleState} {rs : PNReadState} {bs bs' : PNBitStream}

/-- A property of a function, besides its id and the number of values of the module, that holds when its body ends and does
not depend on what follows: more values, and names. -/
structure BodyProperty (host : PNHost) (dedupe : Bool) (fuel : Nat) (P : Nat → Nat → PNFunction → Prop) : Prop where
  congr : ∀ {numValues numValues' functionId : Nat} {f f' : PNFunction}, P numValues functionId f → numValues ≤ numValues' →
    SameBody f f' → P numValues' functionId f'
  body : ∀ {rs : PNReadState} {functionId : Nat} {f : PNFunction} {argTypes : List Nat} {abbrevs : List PNAbbrev}
    {s : PNFunctionState} {bs bs' : PNBitStream}, f.bbs = [] →
    readBlock host (pnFunctionBlock host dedupe fuel) fuel ⟨rs, functionId, appendArgs f argTypes, 0, 2 ^ 16 - 1, 0, none⟩
      abbrevs bs = .ok (s, bs') → P s.rs.module.values.length s.functionId s.function

/-- What holds while the module block is read: functions from `functionId` on have no body so far. -/
structure FunctionsInv (P : Nat → Nat → PNFunction → Prop) (s : PNModuleState) : Prop where
  fresh : ∀ {n : Nat} {f : PNFunction}, s.functionId ≤ n → s.rs.module.functions[n]? = some f →
    f.bbs = [] ∧ f.instructions = none
  read : ∀ {n : Nat} {f : PNFunction}, s.rs.module.functions[n]? = some f → f.instructions ≠ none →
    P s.rs.module.values.length n f

variable {P : Nat → Nat → PNFunction → Prop} (hP : BodyProperty host dedupe fuel P)

include hP

/-- The functions are the same up to their names, and values may be added. -/
theorem FunctionsInv.congr (h : FunctionsInv P s) (hv : s.rs.module.values.length ≤ rs.module.values.length)
    (hf : ∀ n : Nat, (rs.module.functions[n]?).map PNFunction.unnamed =
      (s.rs.module.functions[n]?).map PNFunction.unnamed) : FunctionsInv P { s with rs := rs } := by
  constructor
  · intro n f hle hn
    obtain ⟨g, hg, hb⟩ := sameBody_of_map (hf n) hn
    rw [hb.bbs, hb.instructions]
    exact h.fresh hle hg
  · intro n f hn hne
    obtain ⟨g, hg, hb⟩ := sameBody_of_map (hf n) hn
    rw [hb.instructions] at hne
    exact hP.congr (h.read hg hne) hv hb

/-- The body of the next function. -/
theorem FunctionsInv.functionBlock (h : FunctionsInv P s) {functionId : Nat} (hle : s.functionId ≤ functionId)
    (hb : pnFunctionBlockRead host dedupe fuel s.rs functionId bs = .ok (rs, bs')) :
    FunctionsInv P ⟨rs, functionId + 1⟩ := by
  have hframe := pnFunctionBlockRead_frame hb
  obtain ⟨f, _, _, argTypes, s₁, _, hf, _, hread, rfl⟩ := pnFunctionBlockRead_cases hb
  obtain ⟨rfl, hframe₁⟩ := readBlock_inv (pnFunctionBlock_keeps_frame s.rs functionId) ⟨rfl, .refl _ _⟩ hread
  have hread₁ := hP.body (h.fresh hle hf).1 hread
  constructor
  · intro n g hlt hn
    obtain ⟨g', hg', hsame⟩ := sameBody_of_map (hframe.functions n (Nat.ne_of_gt hlt)) hn
    rw [hsame.bbs, hsame.instructions]
    exact h.fresh (Nat.le_trans hle (Nat.le_of_succ_le hlt)) hg'
  · intro n g hn hne
    by_cases heq : n = s₁.functionId
    · subst heq
      cases store_getElem? s₁ hn
      exact hread₁
    · obtain ⟨g', hg', hsame⟩ := sameBody_of_map (hframe.functions n heq) hn
      rw [hsame.instructions] at hne
      exact hP.congr (h.read hg' hne) (Nat.le_of_eq (by rw [hframe.values])) hsame

/-- A declaration adds a function without body. -/
theorem FunctionsInv.readFunction (h : FunctionsInv P s) {reader reader' : PNRecordReader}
    (hr : Pnacl.readFunction host s.rs reader = .ok (rs, reader')) : FunctionsInv P { s with rs := rs } := by
  obtain ⟨g, _, _, _, hbbs, _, _, hnone, _, hm⟩ := readFunction_cases hr
  constructor
  · intro n f hle hn
    simp only [hm, pnModuleAppendValue, List.getElem?_append] at hn
    split at hn
    · exact h.fresh hle hn
    · cases List.mem_singleton.mp (List.mem_of_getElem? hn)
      exact ⟨hbbs, hnone⟩
  · intro n f hn hne
    simp only [hm, pnModuleAppendValue, List.getElem?_append] at hn
    split at hn
    · refine hP.congr (h.read hn hne) ?_ (.of_unnamed rfl)
      simp [hm, pnModuleAppendValue]
    · cases List.mem_singleton.mp (List.mem_of_getElem? hn)
      exact absurd hnone hne

theorem FunctionsInv.subblock (hs : FunctionsInv P s)
    (h : (pnModuleBlock host dedupe fuel).subblock s bs = .ok (s', bs')) : FunctionsInv P s' := by
  obtain ⟨⟨id, bs₁⟩, _, h⟩ := bind_eq_ok.mp h
  dsimp only at h
  split at h
  · obtain ⟨⟨rs, bs₂⟩, hb, h⟩ := bind_eq_ok.mp h
    cases h
    obtain ⟨hm, _⟩ := pnBlockinfoBlockRead_frame hb
    exact hs.congr hP (by rw [hm]) fun _ => by rw [hm]
  · obtain ⟨⟨rs, bs₂⟩, hb, h⟩ := bind_eq_ok.mp h
    cases h
    have hf := pnTypeBlockRead_frame hb
    exact hs.congr hP (by rw [hf.values]) fun _ => by rw [hf.functions]
  · obtain ⟨⟨rs, bs₂⟩, hb, h⟩ := bind_eq_ok.mp h
    cases h
    have hf := pnGlobalvarBlockRead_frame hb
    obtain ⟨vs, hv, _⟩ := hf.values
    exact hs.congr hP (by simp [hv]) fun _ => by rw [hf.functions]
  · obtain ⟨⟨rs, bs₂⟩, hb, h⟩ := bind_eq_ok.mp h
    cases h
    have hf := pnValueSymtabBlockRead_frame hb
    exact hs.congr hP (by rw [hf.values]) hf.getElem?
  · obtain ⟨_, h⟩ := pnCheck_bind_eq_ok.mp h
    obtain ⟨⟨rs, bs₂⟩, hb, h⟩ := bind_eq_ok.mp h
    cases h
    exact hs.functionBlock hP (skipProtos_le _ _) hb
  · cases h

theorem pnModuleBlock_keeps_functions : (pnModuleBlock host dedupe fuel).Keeps (FunctionsInv P) (FunctionsInv P) := by
  constructor
  · intro s s' bs bs' hs h
    cases alignEnd_eq_ok h
    exact hs
  · intro s s' bs bs' hs h
    exact hs.subblock hP h
  · intro s s' ab hs h
    cases h
    exact hs
  · intro s s' code reader bs' hs h
    simp only [pnModuleBlock] at h
    split at h
    · obtain ⟨⟨version, r₁⟩, _, h⟩ := bind_eq_ok.mp h
      cases finish_eq_ok h
      exact hs.congr hP (Nat.le_refl _) fun _ => rfl
    · obtain ⟨⟨rs, r₁⟩, hr, h⟩ := bind_eq_ok.mp h
      cases finish_eq_ok h
      exact hs.readFunction hP hr
    · cases h

/-- **What holds of functions when their bodies end holds of all functions of an accepted module that have a stream.** -/
theorem pnModuleRead_functions {memory : PNMemory} {f : PNFunction}
    (h : pnModuleRead host dedupe fuel (pnModuleInit memory) bs = .ok (rs, bs')) (hf : f ∈ rs.module.functions)
    (hne : f.instructions ≠ none) : ∃ functionId, P rs.module.values.length functionId f := by
  obtain ⟨s, bs₁, bs₂, hb, rfl⟩ := pnModuleRead_cases h
  have hs : FunctionsInv P s := by
    apply readBlock_inv (pnModuleBlock_keeps_functions hP) _ hb
    constructor <;> simp [pnModuleInit]
  obtain ⟨n, hn⟩ := List.getElem?_of_mem hf
  exact ⟨n, hs.read hn hne⟩

end Functions

end Pnacl
