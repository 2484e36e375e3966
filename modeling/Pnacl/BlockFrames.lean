import Pnacl.Reader

/-!
# What the blocks leave alone

The block info, the global variables and the symbol tables change only a small part of what has been read. Each of them
is described once, by what it keeps (`pnBlockinfoBlockRead_frame`, `pnGlobalvarBlockRead_frame`,
`pnValueSymtabBlockRead_frame`, `pnFunctionBlockRead_frame`); invariants of the reader are derived from these facts.
-/

namespace Pnacl

open Lib

section Records

variable {fuel : Nat}

theorem finish_eq_ok {σ : Type} {s s' : σ} {reader : PNRecordReader} {bs : PNBitStream}
    (h : finish fuel s reader = .ok (s', bs)) : s' = s := by
  obtain ⟨_, _, h⟩ := bind_eq_ok.mp h
  cases h
  rfl

theorem alignEnd_eq_ok {σ : Type} {s s' : σ} {bs bs' : PNBitStream} (h : alignEnd s bs = .ok (s', bs')) : s' = s := by
  obtain ⟨_, _, h⟩ := bind_eq_ok.mp h
  cases h
  rfl

end Records

/-! ## Block info -/

section Blocks

variable {host : PNHost} {dedupe : Bool} {fuel : Nat} {rs rs' : PNReadState} {bs bs' : PNBitStream}

theorem pnBlockinfoBlockRead_frame (h : pnBlockinfoBlockRead host fuel rs bs = .ok (rs', bs')) :
    rs'.module = rs.module ∧ rs'.trace = rs.trace := by
  obtain ⟨⟨s, bs₁⟩, h, hs⟩ := bind_eq_ok.mp h
  cases hs
  have hk : (pnBlockinfoBlock fuel).Keeps (fun s => s.rs.module = rs.module ∧ s.rs.trace = rs.trace)
      (fun s => s.rs.module = rs.module ∧ s.rs.trace = rs.trace) := by
    constructor
    · intro s s' bs bs' hs h
      rwa [alignEnd_eq_ok h]
    · intro s s' bs bs' hs h
      cases h
    · intro s s' ab hs h
      obtain ⟨context, _, h⟩ := bind_eq_ok.mp h
      cases h
      exact hs
    · intro s s' code reader bs' hs h
      simp only [pnBlockinfoBlock] at h
      split at h
      · obtain ⟨⟨blockId, reader'⟩, _, h⟩ := bind_eq_ok.mp h
        rwa [finish_eq_ok h]
      · rwa [finish_eq_ok h]
      · rwa [finish_eq_ok h]
      · cases h
  exact readBlock_inv hk ⟨rfl, rfl⟩ h

/-! ## Global variables -/

theorem pnGlobalvarWriteReloc_memory {module module' : PNModule} {valueId offset addend : Nat}
    (h : pnGlobalvarWriteReloc module valueId offset addend = .ok module') :
    ∃ memory, module' = { module with memory := memory } := by
  unfold pnGlobalvarWriteReloc at h
  split at h
  · split at h
    · obtain ⟨memory, _, h⟩ := bind_eq_ok.mp h
      cases h
      exact ⟨memory, rfl⟩
    · cases h
  · obtain ⟨_, h⟩ := pnCheck_bind_eq_ok.mp h
    obtain ⟨memory, _, h⟩ := bind_eq_ok.mp h
    cases h
    exact ⟨memory, rfl⟩
  · cases h

theorem writeRelocs_memory {module' : PNModule} : ∀ {relocs : List PNRelocInfo} {module : PNModule},
    writeRelocs module relocs = .ok module' → ∃ memory, module' = { module with memory := memory }
  | [], module, h => by
    cases h
    exact ⟨_, rfl⟩
  | r :: rest, module, h => by
    obtain ⟨_, h⟩ := pnCheck_bind_eq_ok.mp h
    obtain ⟨module₁, h₁, h⟩ := bind_eq_ok.mp h
    obtain ⟨_, rfl⟩ := pnGlobalvarWriteReloc_memory h₁
    obtain ⟨memory, rfl⟩ := writeRelocs_memory h
    exact ⟨memory, rfl⟩

/-- What the global variables may change: values are appended, all with a type of the table. -/
structure GlobalvarFrame (rs rs' : PNReadState) : Prop where
  types : rs'.module.types = rs.module.types
  functions : rs'.module.functions = rs.module.functions
  trace : rs'.trace = rs.trace
  values : ∃ vs, rs'.module.values = rs.module.values ++ vs ∧ ∀ v ∈ vs, v.typeId < rs.module.types.length

theorem GlobalvarFrame.refl (rs : PNReadState) : GlobalvarFrame rs rs :=
  ⟨rfl, rfl, rfl, [], (List.append_nil _).symm, by simp⟩

/-- Fields that the frame does not name may change. -/
theorem GlobalvarFrame.congr {rs₁ rs₂ : PNReadState} (h : GlobalvarFrame rs rs₁)
    (ht : rs₂.module.types = rs₁.module.types) (hf : rs₂.module.functions = rs₁.module.functions)
    (hv : rs₂.module.values = rs₁.module.values) (htr : rs₂.trace = rs₁.trace) : GlobalvarFrame rs rs₂ :=
  ⟨ht.trans h.types, hf.trans h.functions, htr.trans h.trace, hv ▸ h.values⟩

theorem GlobalvarFrame.readVar {s s' : PNGlobalvarState} {reader reader' : PNRecordReader} (hs : GlobalvarFrame rs s.rs)
    (h : Pnacl.readVar s reader = .ok (s', reader')) : GlobalvarFrame rs s'.rs := by
  obtain ⟨_, h⟩ := pnCheck_bind_eq_ok.mp h
  obtain ⟨⟨n, r₁⟩, _, h⟩ := bind_eq_ok.mp h
  obtain ⟨alignment, _, h⟩ := bind_eq_ok.mp h
  obtain ⟨⟨isConstant, r₂⟩, _, h⟩ := bind_eq_ok.mp h
  obtain ⟨_, h⟩ := pnCheck_bind_eq_ok.mp h
  obtain ⟨typeId, ht, h⟩ := bind_eq_ok.mp h
  cases h
  obtain ⟨vs, hv, hlt⟩ := hs.values
  refine ⟨hs.types, hs.functions, hs.trace, vs ++ [⟨.globalVar s.rs.module.numGlobalVars, typeId⟩], ?_, ?_⟩
  · show s.rs.module.values ++ _ = _
    rw [hv, List.append_assoc]
  · intro v hmem
    rcases List.mem_append.mp hmem with hmem | hmem
    · exact hlt v hmem
    · cases List.mem_singleton.mp hmem
      exact hs.types ▸ pnModuleFindIntegerType_lt ht

theorem nextInitializer_rs {s s' : PNGlobalvarState} (h : s.nextInitializer = .ok s') : s'.rs = s.rs := by
  unfold PNGlobalvarState.nextInitializer at h
  split at h
  · cases h
  · obtain ⟨_, h⟩ := pnCheck_bind_eq_ok.mp h
    cases h
    rfl

theorem GlobalvarFrame.readReloc {s s' : PNGlobalvarState} {reader reader' : PNRecordReader}
    (hs : GlobalvarFrame rs s.rs) (h : Pnacl.readReloc s reader = .ok (s', reader')) : GlobalvarFrame rs s'.rs := by
  obtain ⟨s₁, h₁, h⟩ := bind_eq_ok.mp h
  rw [← nextInitializer_rs h₁] at hs
  obtain ⟨⟨index, r₁⟩, _, h⟩ := bind_eq_ok.mp h
  obtain ⟨⟨addend, r₂⟩, _, h⟩ := bind_eq_ok.mp h
  dsimp only at h
  split at h
  · obtain ⟨module, hm, h⟩ := bind_eq_ok.mp h
    obtain ⟨memory, rfl⟩ := pnGlobalvarWriteReloc_memory hm
    cases h
    exact hs.congr rfl rfl rfl rfl
  · cases h
    exact hs

theorem pnGlobalvarBlockRead_frame (h : pnGlobalvarBlockRead host fuel rs bs = .ok (rs', bs')) :
    GlobalvarFrame rs rs' := by
  obtain ⟨⟨s, bs₁⟩, h, hs⟩ := bind_eq_ok.mp h
  cases hs
  have hk : (pnGlobalvarBlock fuel).Keeps (fun s => GlobalvarFrame rs s.rs) (fun s => GlobalvarFrame rs s.rs) := by
    constructor
    · intro s s' bs bs' hs h
      obtain ⟨bs₁, _, h⟩ := bind_eq_ok.mp h
      obtain ⟨module, hm, h⟩ := bind_eq_ok.mp h
      obtain ⟨memory, rfl⟩ := writeRelocs_memory hm
      cases h
      exact hs.congr rfl rfl rfl rfl
    · intro s s' bs bs' hs h
      cases h
    · intro s s' ab hs h
      cases h
      exact hs
    · intro s s' code reader bs' hs h
      simp only [pnGlobalvarBlock] at h
      split at h
      · obtain ⟨⟨s₁, r₁⟩, h₁, h⟩ := bind_eq_ok.mp h
        rw [finish_eq_ok h]
        exact hs.readVar h₁
      · split at h
        · cases h
        · obtain ⟨⟨n, r₁⟩, _, h⟩ := bind_eq_ok.mp h
          rw [finish_eq_ok h]
          exact hs.congr rfl rfl rfl rfl
      · obtain ⟨s₁, h₁, h⟩ := bind_eq_ok.mp h
        rw [← nextInitializer_rs h₁] at hs
        obtain ⟨⟨n, r₁⟩, _, h⟩ := bind_eq_ok.mp h
        obtain ⟨_, _, h⟩ := bind_eq_ok.mp h
        rw [finish_eq_ok h]
        exact hs.congr rfl rfl rfl rfl
      · obtain ⟨s₁, h₁, h⟩ := bind_eq_ok.mp h
        rw [← nextInitializer_rs h₁] at hs
        obtain ⟨⟨memory, dataOffset, r₁⟩, _, h⟩ := bind_eq_ok.mp h
        rw [finish_eq_ok h]
        exact hs.congr rfl rfl rfl rfl
      · obtain ⟨⟨s₁, r₁⟩, h₁, h⟩ := bind_eq_ok.mp h
        rw [finish_eq_ok h]
        exact hs.readReloc h₁
      · obtain ⟨⟨n, r₁⟩, _, h⟩ := bind_eq_ok.mp h
        rw [finish_eq_ok h]
        exact hs.congr rfl rfl rfl rfl
      · cases h
  exact readBlock_inv hk ((GlobalvarFrame.refl rs).congr rfl rfl rfl rfl) h

/-! ## Symbols -/

/-- A function without what a symbol table gives it. -/
def PNFunction.unnamed (f : PNFunction) : PNFunction := { f with name := none, intrinsicId := .null }

/-- What two functions have in common that differ only in what a symbol table gives them. -/
structure SameBody (f f' : PNFunction) : Prop where
  typeId : f'.typeId = f.typeId
  constants : f'.constants = f.constants
  bbs : f'.bbs = f.bbs
  values : f'.values = f.values
  instructions : f'.instructions = f.instructions

theorem SameBody.of_unnamed {f f' : PNFunction} (h : f'.unnamed = f.unnamed) : SameBody f f' := by
  unfold PNFunction.unnamed at h
  injection h
  constructor <;> assumption

theorem SameBody.trans {f f' f'' : PNFunction} (h : SameBody f f') (h' : SameBody f' f'') : SameBody f f'' :=
  ⟨h'.typeId.trans h.typeId, h'.constants.trans h.constants, h'.bbs.trans h.bbs, h'.values.trans h.values,
    h'.instructions.trans h.instructions⟩

theorem SameBody.insts {f f' : PNFunction} (h : SameBody f f') : f'.insts = f.insts := by
  rw [PNFunction.insts, h.bbs, PNFunction.insts]

theorem map_modify_of_eq {α β : Type} {g : α → β} {k : α → α} (hg : ∀ a, g (k a) = g a) :
    ∀ (l : List α) (n : Nat), (l.modify n k).map g = l.map g
  | [], n => by simp
  | a :: l, 0 => by simp [hg]
  | a :: l, n + 1 => by simp [map_modify_of_eq hg l n]

/-- What a symbol table may change: the names and intrinsics of functions. -/
structure SymtabFrame (rs rs' : PNReadState) : Prop where
  types : rs'.module.types = rs.module.types
  functions : rs'.module.functions.map PNFunction.unnamed = rs.module.functions.map PNFunction.unnamed
  values : rs'.module.values = rs.module.values
  trace : rs'.trace = rs.trace

theorem SymtabFrame.readSymbol {s : PNReadState} {module : PNModule} {reader reader' : PNRecordReader}
    (hs : SymtabFrame rs s) (h : Pnacl.readSymbol fuel s.module reader = .ok (module, reader')) :
    SymtabFrame rs { s with module := module } := by
  obtain ⟨⟨valueId, r₁⟩, _, h⟩ := bind_eq_ok.mp h
  obtain ⟨_, _, h⟩ := bind_eq_ok.mp h
  obtain ⟨⟨len, r₂⟩, _, h⟩ := bind_eq_ok.mp h
  obtain ⟨⟨name, r₃⟩, _, h⟩ := bind_eq_ok.mp h
  dsimp only at h
  split at h
  · obtain ⟨module', hm, h⟩ := bind_eq_ok.mp h
    cases h
    unfold nameFunction at hm
    split at hm
    · cases hm
    · split at hm
      all_goals
        cases hm
        refine ⟨hs.types, Eq.trans ?_ hs.functions, hs.values, hs.trace⟩
        apply map_modify_of_eq
        intro f
        rfl
  · cases h
    exact hs

theorem pnValueSymtabBlockRead_frame (h : pnValueSymtabBlockRead host fuel rs bs = .ok (rs', bs')) :
    SymtabFrame rs rs' := by
  have hk : (pnValueSymtabBlock fuel).Keeps (SymtabFrame rs) (SymtabFrame rs) := by
    constructor
    · intro s s' bs bs' hs h
      rwa [alignEnd_eq_ok h]
    · intro s s' bs bs' hs h
      cases h
    · intro s s' ab hs h
      cases h
      exact hs
    · intro s s' code reader bs' hs h
      simp only [pnValueSymtabBlock] at h
      split at h
      · obtain ⟨⟨module, r₁⟩, h₁, h⟩ := bind_eq_ok.mp h
        rw [finish_eq_ok h]
        exact hs.readSymbol h₁
      · rwa [finish_eq_ok h]
      · cases h
  exact readBlock_inv hk ⟨rfl, rfl, rfl, rfl⟩ h

/-- A function behind the symbol table comes from one in front of it. -/
theorem SymtabFrame.getElem? (h : SymtabFrame rs rs') (n : Nat) :
    (rs'.module.functions[n]?).map PNFunction.unnamed = (rs.module.functions[n]?).map PNFunction.unnamed := by
  rw [← List.getElem?_map, h.functions, List.getElem?_map]

/-! ## Constants -/

/-- The function that an event is about. -/
def PNReadEvent.functionId? : PNReadEvent → Option Nat
  | .typeNumEntries _ => none
  | .functionNumblocks functionId _ | .functionInstruction functionId _ _ _ | .constantsSettype functionId _
  | .constantsValue functionId _ => some functionId

/-- What a constants block does: constants are appended to the function, each with its value. `cs` are the new constants
and `vs` the new values, whose types are those of the constants. -/
structure ConstantsFrame (functionId : Nat) (rs : PNReadState) (f : PNFunction) (rs' : PNReadState) (f' : PNFunction)
    (cs : List PNConstant) (vs : List PNValue) (events : List PNReadEvent) : Prop where
  state : rs' = { rs with trace := rs.trace ++ events }
  function : f' = { f with constants := f.constants ++ cs, values := f.values ++ vs }
  about : ∀ e ∈ events, (∃ typeId, e = .constantsSettype functionId typeId) ∨ ∃ c ∈ cs, e = .constantsValue functionId c
  event : ∀ c ∈ cs, .constantsValue functionId c ∈ events
  typeId : ∀ c ∈ cs, c.typeId < rs.module.types.length ∨ c.typeId = PN_INVALID_TYPE_ID
  value : ∀ v ∈ vs, ∃ c ∈ cs, v.typeId = c.typeId

/-- The invariant of a constants block. -/
def ConstantsInv (functionId : Nat) (rs : PNReadState) (f : PNFunction) (s : PNConstantsState) : Prop :=
  s.functionId = functionId ∧
    (s.curTypeId < rs.module.types.length ∨ s.curTypeId = PN_INVALID_TYPE_ID) ∧
    ∃ cs vs events, ConstantsFrame functionId rs f s.rs s.function cs vs events

theorem ConstantsInv.append {functionId : Nat} {f : PNFunction} {s : PNConstantsState} (h : ConstantsInv functionId rs f s)
    (code : PNConstantCode) (value : Option Nat) : ConstantsInv functionId rs f (s.append code value) := by
  obtain ⟨rfl, hcur, cs, vs, events, hf⟩ := h
  let c : PNConstant := ⟨code, s.curTypeId, s.curBasicType, value⟩
  let v : PNValue := ⟨.constant (s.function.constants.length % 2 ^ 16), s.curTypeId⟩
  refine ⟨rfl, hcur, cs ++ [c], vs ++ [v], events ++ [.constantsValue s.functionId c], ?_⟩
  constructor
  · simp [PNConstantsState.append, hf.state, c]
  · simp [PNConstantsState.append, pnFunctionAppendValue, pnFunctionAppendConstant, hf.function, c, v]
  · intro e he
    rcases List.mem_append.mp he with he | he
    · rcases hf.about e he with h | ⟨c', hc', rfl⟩
      · exact .inl h
      · exact .inr ⟨c', List.mem_append_left _ hc', rfl⟩
    · cases List.mem_singleton.mp he
      exact .inr ⟨c, by simp, rfl⟩
  · intro c' hc'
    rcases List.mem_append.mp hc' with hc' | hc'
    · exact List.mem_append_left _ (hf.event c' hc')
    · cases List.mem_singleton.mp hc'
      simp
  · intro c' hc'
    rcases List.mem_append.mp hc' with hc' | hc'
    · exact hf.typeId c' hc'
    · cases List.mem_singleton.mp hc'
      exact hcur
  · intro v' hv'
    rcases List.mem_append.mp hv' with hv' | hv'
    · obtain ⟨c', hc', h⟩ := hf.value v' hv'
      exact ⟨c', List.mem_append_left _ hc', h⟩
    · cases List.mem_singleton.mp hv'
      exact ⟨c, by simp, rfl⟩

theorem pnConstantsBlock_keeps {functionId : Nat} {f : PNFunction} :
    (pnConstantsBlock host fuel).Keeps (ConstantsInv functionId rs f) (ConstantsInv functionId rs f) := by
  constructor
  · intro s s' bs bs' hs h
    rwa [alignEnd_eq_ok h]
  · intro s s' bs bs' hs h
    cases h
  · intro s s' ab hs h
    cases h
    exact hs
  · intro s s' code reader bs' hs h
    simp only [pnConstantsBlock] at h
    split at h
    · obtain ⟨⟨typeId, r₁⟩, _, h⟩ := bind_eq_ok.mp h
      obtain ⟨hlt, h⟩ := pnCheck_bind_eq_ok.mp h
      rw [finish_eq_ok h]
      obtain ⟨rfl, _, cs, vs, events, hf⟩ := hs
      have ht : s.rs.module.types = rs.module.types := by rw [hf.state]
      refine ⟨rfl, .inl (ht ▸ hlt), cs, vs, events ++ [.constantsSettype s.functionId (toTypeId typeId)], ?_⟩
      refine ⟨by simp [hf.state], hf.function, ?_, fun c hc => List.mem_append_left _ (hf.event c hc), hf.typeId, hf.value⟩
      intro e he
      rcases List.mem_append.mp he with he | he
      · exact hf.about e he
      · exact .inl ⟨_, List.mem_singleton.mp he⟩
    · rw [finish_eq_ok h]
      exact hs.append _ _
    · obtain ⟨⟨value, r₁⟩, _, h⟩ := bind_eq_ok.mp h
      rw [finish_eq_ok h]
      exact hs.append _ _
    · obtain ⟨⟨value, r₁⟩, _, h⟩ := bind_eq_ok.mp h
      rw [finish_eq_ok h]
      exact hs.append _ _
    · cases h

theorem pnConstantsBlockRead_frame {functionId : Nat} {f f' : PNFunction}
    (h : pnConstantsBlockRead host fuel rs functionId f bs = .ok (rs', f', bs')) :
    ∃ cs vs events, ConstantsFrame functionId rs f rs' f' cs vs events := by
  obtain ⟨⟨s, bs₁⟩, h, hs⟩ := bind_eq_ok.mp h
  cases hs
  have h₀ : ConstantsInv functionId rs f ⟨rs, functionId, f, PN_INVALID_TYPE_ID, .void⟩ := by
    refine ⟨rfl, .inr rfl, [], [], [], ?_⟩
    constructor <;> simp
  exact (readBlock_inv pnConstantsBlock_keeps h₀ h).2.2

/-! ## Functions -/

/-- DECLAREBLOCKS replaces the blocks. -/
def PNFunctionState.declare (s : PNFunctionState) (numBbs : Nat) : PNFunctionState :=
  { s with
    function := { s.function with bbs := List.replicate numBbs {} }
    curBb := none
    rs := { s.rs with trace := s.rs.trace ++ [.functionNumblocks s.functionId numBbs] } }

/-- The next block is begun, or the last one goes on. -/
theorem beginBb_cases {s s' : PNFunctionState} (h : s.beginBb = .ok s') :
    (s.prevBbId = s.curBbId ∧ s' = s) ∨ (s.prevBbId ≠ s.curBbId ∧ s.curBbId < s.function.bbs.length ∧
      s' = { s with prevBbId := s.curBbId, curBb := some s.curBbId, numBbs := s.numBbs + 1 }) := by
  unfold PNFunctionState.beginBb at h
  split at h
  · next hne =>
    obtain ⟨hlt, h⟩ := pnCheck_bind_eq_ok.mp h
    cases h
    exact .inr ⟨hne, hlt, rfl⟩
  · next heq =>
    cases h
    exact .inl ⟨not_not.mp heq, rfl⟩

variable {s s' : PNFunctionState}

/-- A record of a function block declares the blocks or is an instruction. -/
theorem pnFunctionBlock_record_cases {code : Nat} {reader : PNRecordReader}
    (h : (pnFunctionBlock host dedupe fuel).record s code reader = .ok (s', bs')) :
    (∃ numBbs, s' = s.declare numBbs) ∨
      ∃ s₁ r, s.beginBb = .ok s₁ ∧
        readInstruction host dedupe fuel s₁.rs.module s₁.rs.context.useRelativeIds
          (pnFunctionNumValues s.rs.module s.function) code reader = .ok r ∧
        s' = s₁.append r.instruction r.value := by
  simp only [pnFunctionBlock] at h
  split at h
  · obtain ⟨⟨numBbs, r⟩, _, h⟩ := bind_eq_ok.mp h
    cases h
    exact .inl ⟨numBbs, rfl⟩
  · obtain ⟨s₁, h₁, h⟩ := bind_eq_ok.mp h
    obtain ⟨r, hr, h⟩ := bind_eq_ok.mp h
    exact .inr ⟨s₁, r, h₁, hr, finish_eq_ok h⟩

/-- A subblock of a function block holds constants or symbols. -/
theorem pnFunctionBlock_subblock_cases (h : (pnFunctionBlock host dedupe fuel).subblock s bs = .ok (s', bs')) :
    (∃ rs f cs vs events, ConstantsFrame s.functionId s.rs s.function rs f cs vs events ∧
        s' = { s with rs := rs, function := f }) ∨
      ∃ rs, SymtabFrame s.store rs ∧ s' = s.load rs := by
  obtain ⟨⟨id, bs₁⟩, _, h⟩ := bind_eq_ok.mp h
  dsimp only at h
  split at h
  · obtain ⟨⟨rs, f, bs₂⟩, hc, h⟩ := bind_eq_ok.mp h
    cases h
    obtain ⟨cs, vs, events, hf⟩ := pnConstantsBlockRead_frame hc
    exact .inl ⟨rs, f, cs, vs, events, hf, rfl⟩
  · obtain ⟨⟨rs, bs₂⟩, hc, h⟩ := bind_eq_ok.mp h
    cases h
    exact .inr ⟨rs, pnValueSymtabBlockRead_frame hc, rfl⟩
  · cases h

theorem pnFunctionBlock_endBlock_cases (h : (pnFunctionBlock host dedupe fuel).endBlock s bs = .ok (s', bs')) :
    s.numBbs = s.function.bbs.length ∧
      ∃ f, pnFunctionPasses host s.rs.module s.functionId s.function = .ok f ∧ s' = { s with function := f } := by
  obtain ⟨hn, h⟩ := pnCheck_bind_eq_ok.mp h
  obtain ⟨f, hf, h⟩ := bind_eq_ok.mp h
  exact ⟨hn, f, hf, alignEnd_eq_ok h⟩

/-- What the body of a function may change: that function, and the names of the others. -/
structure FunctionFrame (functionId : Nat) (rs rs' : PNReadState) : Prop where
  types : rs'.module.types = rs.module.types
  values : rs'.module.values = rs.module.values
  length : rs'.module.functions.length = rs.module.functions.length
  functions : ∀ n, n ≠ functionId →
    (rs'.module.functions[n]?).map PNFunction.unnamed = (rs.module.functions[n]?).map PNFunction.unnamed
  trace : ∃ events, rs'.trace = rs.trace ++ events ∧ ∀ e ∈ events, e.functionId? = some functionId

variable {functionId : Nat}

theorem FunctionFrame.refl (functionId : Nat) (rs : PNReadState) : FunctionFrame functionId rs rs :=
  ⟨rfl, rfl, rfl, fun _ _ => rfl, [], (List.append_nil _).symm, by simp⟩

theorem FunctionFrame.trans {rs₁ : PNReadState} (h₁ : FunctionFrame functionId rs rs₁)
    (h₂ : FunctionFrame functionId rs₁ rs') : FunctionFrame functionId rs rs' := by
  obtain ⟨e₁, ht₁, hf₁⟩ := h₁.trace
  obtain ⟨e₂, ht₂, hf₂⟩ := h₂.trace
  refine ⟨h₂.types.trans h₁.types, h₂.values.trans h₁.values, h₂.length.trans h₁.length,
    fun n hn => (h₂.functions n hn).trans (h₁.functions n hn), e₁ ++ e₂, ?_, ?_⟩
  · rw [ht₂, ht₁, List.append_assoc]
  · intro e he
    rcases List.mem_append.mp he with he | he
    · exact hf₁ e he
    · exact hf₂ e he

/-- Events of the function may be added. -/
theorem FunctionFrame.events (functionId : Nat) (rs : PNReadState) {events : List PNReadEvent}
    (h : ∀ e ∈ events, e.functionId? = some functionId) :
    FunctionFrame functionId rs { rs with trace := rs.trace ++ events } :=
  ⟨rfl, rfl, rfl, fun _ _ => rfl, events, rfl, h⟩

theorem FunctionFrame.store (s : PNFunctionState) : FunctionFrame s.functionId s.rs s.store := by
  refine ⟨rfl, rfl, ?_, ?_, [], (List.append_nil _).symm, by simp⟩
  · simp [PNFunctionState.store]
  · intro n hn
    simp [PNFunctionState.store, List.getElem?_set_ne (Ne.symm hn)]

theorem store_getElem? (s : PNFunctionState) {g : PNFunction} (hg : s.store.module.functions[s.functionId]? = some g) :
    g = s.function := by
  simp only [PNFunctionState.store, List.getElem?_set, if_true] at hg
  split at hg
  · exact (Option.some.inj hg).symm
  · cases hg

/-- The function that is taken out of the module again has only got a name. -/
theorem load_sameBody {rs : PNReadState} (hf : SymtabFrame s.store rs) : SameBody s.function (s.load rs).function := by
  have h := hf.getElem? s.functionId
  simp only [PNFunctionState.load, List.getD]
  cases hg : rs.module.functions[s.functionId]? with
  | none => exact .of_unnamed rfl
  | some g =>
    rw [hg] at h
    obtain ⟨g', hg', heq⟩ := Option.map_eq_some_iff.mp h.symm
    cases store_getElem? s hg'
    exact .of_unnamed heq.symm

/-- A function after a symbol table, or after the body of another one. -/
theorem sameBody_of_map {functions functions' : List PNFunction} {n : Nat} {f : PNFunction}
    (hf : (functions'[n]?).map PNFunction.unnamed = (functions[n]?).map PNFunction.unnamed)
    (hn : functions'[n]? = some f) : ∃ g, functions[n]? = some g ∧ SameBody g f := by
  rw [hn] at hf
  obtain ⟨g, hg, heq⟩ := Option.map_eq_some_iff.mp hf.symm
  exact ⟨g, hg, .of_unnamed heq.symm⟩

theorem SymtabFrame.functionFrame (h : SymtabFrame rs rs') (functionId : Nat) : FunctionFrame functionId rs rs' := by
  refine ⟨h.types, h.values, ?_, fun n _ => h.getElem? n, [], ?_, by simp⟩
  · simpa using congrArg List.length h.functions
  · rw [h.trace, List.append_nil]

theorem ConstantsFrame.functionFrame {f f' : PNFunction} {cs : List PNConstant} {vs : List PNValue}
    {events : List PNReadEvent} (h : ConstantsFrame functionId rs f rs' f' cs vs events) :
    FunctionFrame functionId rs rs' := by
  rw [h.state]
  apply FunctionFrame.events
  intro e he
  rcases h.about e he with ⟨_, rfl⟩ | ⟨_, _, rfl⟩ <;> rfl

theorem beginBb_rs (h : s.beginBb = .ok s') : s'.rs = s.rs ∧ s'.functionId = s.functionId ∧ s'.function = s.function := by
  rcases beginBb_cases h with ⟨_, rfl⟩ | ⟨_, _, rfl⟩ <;> exact ⟨rfl, rfl, rfl⟩

/-- A step of the function block keeps to the frame. -/
theorem FunctionFrame.record {code : Nat} {reader : PNRecordReader}
    (h : (pnFunctionBlock host dedupe fuel).record s code reader = .ok (s', bs')) :
    s'.functionId = s.functionId ∧ FunctionFrame s.functionId s.rs s'.rs := by
  rcases pnFunctionBlock_record_cases h with ⟨numBbs, rfl⟩ | ⟨s₁, r, hb, _, rfl⟩
  · exact ⟨rfl, .events _ _ (by simp [PNReadEvent.functionId?])⟩
  · obtain ⟨hrs, hid, _⟩ := beginBb_rs hb
    refine ⟨hid, ?_⟩
    simp only [PNFunctionState.append, hrs, hid]
    exact .events _ _ (by simp [PNReadEvent.functionId?])

theorem FunctionFrame.subblock (h : (pnFunctionBlock host dedupe fuel).subblock s bs = .ok (s', bs')) :
    s'.functionId = s.functionId ∧ FunctionFrame s.functionId s.rs s'.rs := by
  rcases pnFunctionBlock_subblock_cases h with ⟨rs, f, cs, vs, events, hf, rfl⟩ | ⟨rs, hf, rfl⟩
  · exact ⟨rfl, hf.functionFrame⟩
  · exact ⟨rfl, (FunctionFrame.store s).trans (hf.functionFrame _)⟩

theorem pnFunctionBlock_keeps_frame (rs : PNReadState) (functionId : Nat) : (pnFunctionBlock host dedupe fuel).Keeps
    (fun s => s.functionId = functionId ∧ FunctionFrame functionId rs s.rs)
    (fun s => s.functionId = functionId ∧ FunctionFrame functionId rs s.rs) := by
  constructor
  · intro s s' bs bs' hs h
    obtain ⟨_, f, _, rfl⟩ := pnFunctionBlock_endBlock_cases h
    exact hs
  · rintro s s' bs bs' ⟨rfl, hs⟩ h
    obtain ⟨hid, hf⟩ := FunctionFrame.subblock h
    exact ⟨hid, hs.trans hf⟩
  · intro s s' ab hs h
    cases h
    exact hs
  · rintro s s' code reader bs' ⟨rfl, hs⟩ h
    obtain ⟨hid, hf⟩ := FunctionFrame.record h
    exact ⟨hid, hs.trans hf⟩

/-- The passes, one after the other. -/
theorem pnFunctionPasses_cases {module : PNModule} {f f' : PNFunction}
    (h : pnFunctionPasses host module functionId f = .ok f') :
    ∃ f₁ f₂, pnFunctionCalculateResultValueTypes host module f = .ok f₁ ∧
      pnFunctionCalculatePhiAssigns (pnFunctionCalculateUses f₁) = .ok f₂ ∧
      pnFunctionCalculateOpcodes host module f₂ (host.instructions functionId) = .ok f' ∧
      f' = { f₂ with instructions := f'.instructions } := by
  obtain ⟨f₁, h₁, h⟩ := bind_eq_ok.mp h
  obtain ⟨f₂, h₂, h⟩ := bind_eq_ok.mp h
  refine ⟨f₁, f₂, h₁, h₂, h, ?_⟩
  obtain ⟨⟨offsets, last⟩, _, h⟩ := bind_eq_ok.mp h
  dsimp only at h
  split at h
  · cases h
  · obtain ⟨⟨last, stream⟩, _, h⟩ := bind_eq_ok.mp h
    cases h
    rfl

/-- The passes keep everything but the types of values, and they check the blocks that a phi names. -/
structure PassesFrame (module : PNModule) (f f' : PNFunction) : Prop where
  typeId : f'.typeId = f.typeId
  constants : f'.constants = f.constants
  length : f'.bbs.length = f.bbs.length
  insts : f'.insts = f.insts
  values : f'.values.length = f.values.length
  retyped : ∀ {i : Nat} {v' : PNValue}, f'.values[i]? = some v' → v'.typeId < module.types.length ∨
    ∃ v : PNValue, f.values[i]? = some v ∧ v'.typeId = v.typeId
  resolved : ∀ inst ∈ f.insts, Resolved module f' inst
  phi : ∀ {d t incoming}, .phi d t incoming ∈ f.insts → ∀ i ∈ incoming, i.bbId < f.bbs.length

theorem pnFunctionPasses_frame {module : PNModule} {f f' : PNFunction}
    (h : pnFunctionPasses host module functionId f = .ok f') : PassesFrame module f f' := by
  obtain ⟨f₁, f₂, h₁, h₂, _, hf'⟩ := pnFunctionPasses_cases h
  obtain ⟨hre, hres⟩ := resultValueTypes_spec h₁
  obtain ⟨huses, hf₂, _⟩ := phiAssigns_spec h₂
  obtain ⟨hinsts₂, hlen₂⟩ := insts_congr (phiAssigns_instructions h₂)
  obtain ⟨hinstsU, hlenU⟩ := insts_congr (calculateUses_instructions f₁)
  have hbbs₁ : f₁.bbs = f.bbs := by rw [hre.function]
  have hinsts₁ : f₁.insts = f.insts := by rw [PNFunction.insts, hbbs₁, PNFunction.insts]
  have hvalues : f'.values = f₁.values := by rw [hf', hf₂]; rfl
  have hbbs' : f'.bbs = f₂.bbs := by rw [hf']
  constructor
  · rw [hf', hf₂, pnFunctionCalculateUses, hre.function]
  · rw [hf', hf₂, pnFunctionCalculateUses, hre.function]
  · rw [hbbs', hlen₂, hlenU, hbbs₁]
  · rw [← hinsts₁, ← hinstsU, ← hinsts₂, PNFunction.insts, hbbs', PNFunction.insts]
  · rw [hvalues, hre.length]
  · rw [hvalues]
    exact hre.typeId
  · intro inst hi
    unfold Resolved
    rw [hvalues]
    exact hres inst hi
  · intro d t incoming hmem i hi
    obtain ⟨n, hn⟩ := mem_indexedUses (hinsts₁ ▸ hmem) hi
    have := huses _ hn
    rwa [hlenU, hbbs₁] at this

/-- The body of a function starts with its arguments and ends with the passes. -/
theorem pnFunctionBlockRead_cases (h : pnFunctionBlockRead host dedupe fuel rs functionId bs = .ok (rs', bs')) :
    ∃ f isVarargs returnType argTypes s bs₁, rs.module.functions[functionId]? = some f ∧
      rs.module.type host f.typeId = .function isVarargs returnType argTypes ∧
      readBlock host (pnFunctionBlock host dedupe fuel) fuel
        ⟨rs, functionId, appendArgs f argTypes, 0, 2 ^ 16 - 1, 0, none⟩ (rs.context.blockAbbrevMap 12) bs =
          .ok (s, bs₁) ∧ rs' = s.store := by
  unfold pnFunctionBlockRead at h
  split at h
  · cases h
  · next f hf =>
    split at h
    · next isVarargs returnType argTypes ht =>
      obtain ⟨_, h⟩ := cAssert_bind_eq_ok.mp h
      obtain ⟨⟨s, bs₁⟩, hb, h⟩ := bind_eq_ok.mp h
      cases h
      exact ⟨f, isVarargs, returnType, argTypes, s, _, hf, ht, hb, rfl⟩
    · cases h

theorem pnFunctionBlockRead_frame (h : pnFunctionBlockRead host dedupe fuel rs functionId bs = .ok (rs', bs')) :
    FunctionFrame functionId rs rs' := by
  obtain ⟨f, _, _, argTypes, s, _, _, _, hb, rfl⟩ := pnFunctionBlockRead_cases h
  obtain ⟨rfl, hs⟩ := readBlock_inv (pnFunctionBlock_keeps_frame rs functionId) ⟨rfl, .refl _ _⟩ hb
  exact hs.trans (.store s)

/-! ## Declarations -/

/-- A declaration appends a function without body, and a value for it. -/
theorem readFunction_cases {reader reader' : PNRecordReader} (h : readFunction host rs reader = .ok (rs', reader')) :
    ∃ f typeId, typeId < rs.module.types.length ∧ f.typeId = typeId ∧ f.bbs = [] ∧ f.constants = [] ∧ f.values = [] ∧
      f.instructions = none ∧ rs'.trace = rs.trace ∧
      rs'.module = pnModuleAppendValue { rs.module with functions := rs.module.functions ++ [f] }
        ⟨.function rs.module.functions.length, typeId⟩ := by
  obtain ⟨⟨typeId, r₁⟩, _, h⟩ := bind_eq_ok.mp h
  obtain ⟨hlt, h⟩ := pnCheck_bind_eq_ok.mp h
  obtain ⟨⟨callingConvention, r₂⟩, _, h⟩ := bind_eq_ok.mp h
  obtain ⟨⟨isProto, r₃⟩, _, h⟩ := bind_eq_ok.mp h
  obtain ⟨⟨linkage, r₄⟩, _, h⟩ := bind_eq_ok.mp h
  dsimp only at h
  split at h
  · cases h
    exact ⟨_, _, hlt, rfl, rfl, rfl, rfl, rfl, rfl, rfl⟩
  · cases h

theorem skipProtos_le (functions : List PNFunction) (functionId : Nat) : functionId ≤ skipProtos functions functionId :=
  Nat.le_add_right _ _

/-- The reader returns from the module block. -/
theorem pnModuleRead_cases {module : PNModule} (h : pnModuleRead host dedupe fuel module bs = .ok (rs, bs')) :
    ∃ s bs₁ bs₂, readBlock host (pnModuleBlock host dedupe fuel) fuel ⟨⟨module, {}, []⟩, 0⟩ [] bs₁ = .ok (s, bs₂) ∧
      rs = s.rs := by
  obtain ⟨bs₁, _, h⟩ := bind_eq_ok.mp h
  obtain ⟨⟨entry, bs₂⟩, _, h⟩ := bind_eq_ok.mp h
  dsimp only at h
  split at h
  · cases h
  · obtain ⟨⟨blockId, bs₃⟩, _, h⟩ := bind_eq_ok.mp h
    obtain ⟨_, h⟩ := pnCheck_bind_eq_ok.mp h
    obtain ⟨⟨s, bs₄⟩, hb, h⟩ := bind_eq_ok.mp h
    cases h
    exact ⟨s, bs₃, _, hb, rfl⟩

end Blocks

end Pnacl
