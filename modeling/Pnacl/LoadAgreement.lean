import Pnacl.FunctionsRead
import Pnacl.Lib.Agree
import Pnacl.WellFormed

/-!
# What a load does not look at

Nothing that is read of a file depends on the table of the known functions or on what is in the memory of the guest: a load
into a module that differs in these from another one stops for the same reason or gives the same module, up to these
(`pnModuleRead_agree`). Most blocks and all passes ignore the two, so that they return the same result but for them
(`PNBlockReader.Ignores`); the blocks of the names, the global variables, the functions and the module keep the two loads in
step (`PNBlockReader.Steps`).
-/

namespace Pnacl

open Lib

/-! ## The rest of a module -/

/-- The same module with other known functions and another memory. -/
def PNModule.withRest (known : PNIntrinsicId → Nat) (memory : PNMemory) (module : PNModule) : PNModule :=
  { module with knownFunctions := known, memory := memory }

def PNReadState.withRest (known : PNIntrinsicId → Nat) (memory : PNMemory) (rs : PNReadState) : PNReadState :=
  { rs with module := rs.module.withRest known memory }

section Ignores

variable {σ : Type} {host : PNHost} {b : PNBlockReader σ} {put : σ → σ} {fuel : Nat}

/-- The block reader neither looks at what `put` changes nor changes it. -/
structure PNBlockReader.Ignores (b : PNBlockReader σ) (put : σ → σ) : Prop where
  endBlock : ∀ s bs, b.endBlock (put s) bs = (b.endBlock s bs).map (Prod.map put id)
  subblock : ∀ s bs, b.subblock (put s) bs = (b.subblock s bs).map (Prod.map put id)
  defineAbbrev : ∀ s ab, b.defineAbbrev (put s) ab = (b.defineAbbrev s ab).map put
  record : ∀ s code reader, b.record (put s) code reader = (b.record s code reader).map (Prod.map put id)

theorem PNBlockReader.Ignores.readEntries (h : b.Ignores put) {codelen : Nat} : ∀ {n : Nat} {s : σ} {abbrevs : List PNAbbrev}
    {bs : PNBitStream}, Pnacl.readEntries host b codelen n (put s) abbrevs bs =
      (Pnacl.readEntries host b codelen n s abbrevs bs).map (Prod.map put id)
  | 0, _, _, _ => rfl
  | n + 1, s, abbrevs, bs => by
    rw [Pnacl.readEntries, Pnacl.readEntries]
    split
    · rfl
    rw [map_bind]
    congr 1
    funext x
    dsimp only
    split
    · exact h.endBlock s x.2
    split
    · rw [h.subblock, bind_map, map_bind]
      congr 1
      funext y
      exact h.readEntries
    split
    · rw [map_bind]
      congr 1
      funext y
      rw [h.defineAbbrev, bind_map, map_bind]
      congr 1
      funext s'
      exact h.readEntries
    · rw [map_bind]
      congr 1
      funext y
      rw [h.record, bind_map, map_bind]
      congr 1
      funext z
      exact h.readEntries

theorem PNBlockReader.Ignores.readBlock (h : b.Ignores put) (s : σ) (abbrevs : List PNAbbrev) (bs : PNBitStream) :
    Pnacl.readBlock host b fuel (put s) abbrevs bs = (Pnacl.readBlock host b fuel s abbrevs bs).map (Prod.map put id) := by
  simp only [Pnacl.readBlock, map_bind, h.readEntries]

theorem finish_map {τ : Type} (g : σ → τ) (s : σ) (reader : PNRecordReader) :
    (finish fuel s reader).map (Prod.map g id) = finish fuel (g s) reader := by
  rw [finish, map_bind]
  rfl

theorem alignEnd_map {τ : Type} (g : σ → τ) (s : σ) (bs : PNBitStream) :
    (alignEnd s bs).map (Prod.map g id) = alignEnd (g s) bs := by
  rw [alignEnd, map_bind]
  rfl

end Ignores

def PNBlockinfoState.withRest (known : PNIntrinsicId → Nat) (memory : PNMemory) (s : PNBlockinfoState) : PNBlockinfoState :=
  { s with rs := s.rs.withRest known memory }

def PNTypeState.withRest (known : PNIntrinsicId → Nat) (memory : PNMemory) (s : PNTypeState) : PNTypeState :=
  { s with rs := s.rs.withRest known memory }

def PNConstantsState.withRest (known : PNIntrinsicId → Nat) (memory : PNMemory) (s : PNConstantsState) : PNConstantsState :=
  { s with rs := s.rs.withRest known memory }

section Blocks

variable {host : PNHost} {dedupe : Bool} {fuel : Nat} (known : PNIntrinsicId → Nat) (memory : PNMemory)

theorem blockinfo_ignores : (pnBlockinfoBlock fuel).Ignores (PNBlockinfoState.withRest known memory) where
  endBlock s bs := (alignEnd_map _ s bs).symm
  subblock _ _ := rfl
  defineAbbrev s ab := by
    simp only [pnBlockinfoBlock, map_bind]
    rfl
  record s code reader := by
    simp only [pnBlockinfoBlock]
    split
    · simp only [map_bind, finish_map]
      rfl
    · exact (finish_map _ s reader).symm
    · exact (finish_map _ s reader).symm
    · rfl

theorem readArgTypes_withRest (module : PNModule) (n : Nat) (reader : PNRecordReader) (args : List Nat) :
    readArgTypes (module.withRest known memory) n reader args = readArgTypes module n reader args := by
  induction n generalizing reader args with
  | zero => rfl
  | succ n ih =>
    simp only [readArgTypes, ih]
    rfl

theorem type_ignores : (pnTypeBlock fuel).Ignores (PNTypeState.withRest known memory) where
  endBlock s bs := by
    simp only [pnTypeBlock, map_bind, alignEnd_map]
    rfl
  subblock _ _ := rfl
  defineAbbrev _ _ := rfl
  record s code reader := by
    have hargs : ∀ n reader args, readArgTypes (s.withRest known memory).rs.module n reader args =
      readArgTypes s.rs.module n reader args := readArgTypes_withRest known memory s.rs.module
    simp only [pnTypeBlock]
    split
    all_goals try simp only [map_bind, finish_map, hargs]
    all_goals rfl

theorem constants_ignores : (pnConstantsBlock host fuel).Ignores (PNConstantsState.withRest known memory) where
  endBlock s bs := (alignEnd_map _ s bs).symm
  subblock _ _ := rfl
  defineAbbrev _ _ := rfl
  record s code reader := by
    simp only [pnConstantsBlock]
    split
    all_goals try simp only [map_bind, finish_map]
    all_goals rfl

theorem pnBlockinfoBlockRead_withRest (rs : PNReadState) (bs : PNBitStream) :
    pnBlockinfoBlockRead host fuel (rs.withRest known memory) bs =
      (pnBlockinfoBlockRead host fuel rs bs).map (Prod.map (PNReadState.withRest known memory) id) := by
  have h : readBlock host (pnBlockinfoBlock fuel) fuel ⟨rs.withRest known memory, 2 ^ 32 - 1⟩ [] bs =
      (readBlock host (pnBlockinfoBlock fuel) fuel ⟨rs, 2 ^ 32 - 1⟩ [] bs).map
        (Prod.map (PNBlockinfoState.withRest known memory) id) := (blockinfo_ignores known memory).readBlock ⟨rs, 2 ^ 32 - 1⟩ _ _
  rw [pnBlockinfoBlockRead, pnBlockinfoBlockRead, map_bind, h, bind_map]
  rfl

theorem pnTypeBlockRead_withRest (rs : PNReadState) (bs : PNBitStream) :
    pnTypeBlockRead host fuel (rs.withRest known memory) bs =
      (pnTypeBlockRead host fuel rs bs).map (Prod.map (PNReadState.withRest known memory) id) := by
  have h : readBlock host (pnTypeBlock fuel) fuel ⟨rs.withRest known memory, 0⟩ (rs.context.blockAbbrevMap 17) bs =
      (readBlock host (pnTypeBlock fuel) fuel ⟨rs, 0⟩ (rs.context.blockAbbrevMap 17) bs).map
        (Prod.map (PNTypeState.withRest known memory) id) := (type_ignores known memory).readBlock ⟨rs, 0⟩ _ _
  have hcontext : (rs.withRest known memory).context = rs.context := rfl
  rw [pnTypeBlockRead, pnTypeBlockRead, map_bind, hcontext, h, bind_map]
  rfl

theorem pnConstantsBlockRead_withRest (rs : PNReadState) (functionId : Nat) (f : PNFunction) (bs : PNBitStream) :
    pnConstantsBlockRead host fuel (rs.withRest known memory) functionId f bs =
      (pnConstantsBlockRead host fuel rs functionId f bs).map (Prod.map (PNReadState.withRest known memory) id) := by
  have h : readBlock host (pnConstantsBlock host fuel) fuel ⟨rs.withRest known memory, functionId, f, PN_INVALID_TYPE_ID, .void⟩
      (rs.context.blockAbbrevMap 11) bs = (readBlock host (pnConstantsBlock host fuel) fuel
        ⟨rs, functionId, f, PN_INVALID_TYPE_ID, .void⟩ (rs.context.blockAbbrevMap 11) bs).map
          (Prod.map (PNConstantsState.withRest known memory) id) := (constants_ignores known memory).readBlock
            ⟨rs, functionId, f, PN_INVALID_TYPE_ID, .void⟩ _ _
  have hcontext : (rs.withRest known memory).context = rs.context := rfl
  rw [pnConstantsBlockRead, pnConstantsBlockRead, map_bind, hcontext, h, bind_map]
  rfl

/-! ## Instructions and passes -/

section Bodies

variable {module : PNModule} {f : PNFunction}

theorem readInstruction_withRest (useRelativeIds : Bool) (relId code : Nat) (reader : PNRecordReader) :
    readInstruction host dedupe fuel (module.withRest known memory) useRelativeIds relId code reader =
      readInstruction host dedupe fuel module useRelativeIds relId code reader := rfl

theorem calculateResultValueType_withRest (inst : PNInstruction) :
    pnInstructionCalculateResultValueType host (module.withRest known memory) f inst =
      pnInstructionCalculateResultValueType host module f inst := rfl

theorem resolveTypes_withRest : ∀ (insts : List PNInstruction) (f : PNFunction),
    resolveTypes host (module.withRest known memory) f insts = resolveTypes host module f insts
  | [], _ => rfl
  | inst :: insts, f => by
    simp only [resolveTypes, resolveTypes_withRest insts, calculateResultValueType_withRest]

theorem retryInvalid_withRest : ∀ (left n : Nat) (invalid : List PNInstruction) (f : PNFunction),
    retryInvalid host (module.withRest known memory) left n invalid f = retryInvalid host module left n invalid f
  | 0, _, _, _ => rfl
  | left + 1, n, invalid, f => by
    simp only [retryInvalid, retryInvalid_withRest left, calculateResultValueType_withRest]

theorem retryRounds_withRest : ∀ (n : Nat) (invalid : List PNInstruction) (f : PNFunction),
    retryRounds host (module.withRest known memory) n invalid f = retryRounds host module n invalid f
  | 0, _, _ => rfl
  | n + 1, invalid, f => by
    simp only [retryRounds, retryRounds_withRest n, retryInvalid_withRest]

theorem lowerInstruction_withRest (offsets : List Nat) (inst : PNInstruction) :
    lowerInstruction host (module.withRest known memory) f offsets inst = lowerInstruction host module f offsets inst := rfl

theorem writeInstructions_withRest (offsets : List Nat) (write : Bool) : ∀ (insts : List PNInstruction) (offset : Nat),
    writeInstructions host (module.withRest known memory) f offsets write insts offset =
      writeInstructions host module f offsets write insts offset
  | [], _ => rfl
  | inst :: insts, offset => by
    simp only [writeInstructions, writeInstructions_withRest offsets write insts, storedInstruction, lowerInstruction_withRest]

theorem writeBlock_withRest (offsets : List Nat) (write : Bool) (bb : PNBasicBlock) (offset : Nat) :
    pnBasicBlockWriteInstructionStream host (module.withRest known memory) f bb offsets offset write =
      pnBasicBlockWriteInstructionStream host module f bb offsets offset write := by
  simp only [pnBasicBlockWriteInstructionStream, writeInstructions_withRest]

theorem measureBlocks_withRest : ∀ (bbs : List PNBasicBlock) (offset : Nat),
    measureBlocks host (module.withRest known memory) f bbs offset = measureBlocks host module f bbs offset
  | [], _ => rfl
  | bb :: bbs, offset => by
    simp only [measureBlocks, measureBlocks_withRest bbs, writeBlock_withRest]

theorem writeBlocks_withRest (bbOffsets : List Nat) : ∀ (bbs : List PNBasicBlock) (offsets : List Nat) (offset : Nat),
    writeBlocks host (module.withRest known memory) f bbOffsets bbs offsets offset =
      writeBlocks host module f bbOffsets bbs offsets offset
  | [], _, _ => rfl
  | _ :: _, [], _ => rfl
  | bb :: bbs, _ :: offsets, offset => by
    simp only [writeBlocks, writeBlocks_withRest bbOffsets bbs, writeBlock_withRest]

/-- The passes look at the types, the values and the functions of the module only. -/
theorem pnFunctionPasses_withRest (functionId : Nat) (f : PNFunction) :
    pnFunctionPasses host (module.withRest known memory) functionId f = pnFunctionPasses host module functionId f := by
  simp only [pnFunctionPasses, pnFunctionCalculateResultValueTypes, pnFunctionCalculateOpcodes, resolveTypes_withRest,
    retryRounds_withRest, measureBlocks_withRest, writeBlocks_withRest]

end Bodies

end Blocks

/-! ## Loads in step -/

/-- What holds in a load: the index of a function value is that of a function, and the memory keeps its size. -/
structure PNModule.InLoad (size : Nat) (module : PNModule) : Prop where
  function : ∀ v ∈ module.values, ∀ i, v.code = .function i → i < module.functions.length
  size : module.memory.size = size

/-- A table of known functions that was zero before the load, beside one that was not set. -/
structure KnownAlike (module : PNModule) (known : PNIntrinsicId → Nat) : Prop where
  entry : ∀ i, known i = module.knownFunctions i ∨ (module.knownFunctions i = PN_INVALID_FUNCTION_ID ∧ known i = 0)
  unset : ∀ i, module.knownFunctions i = PN_INVALID_FUNCTION_ID → known i = 0 ∨ PN_INVALID_FUNCTION_ID < module.functions.length
  null : module.knownFunctions .null = PN_INVALID_FUNCTION_ID ∧ known .null = 0

/-- The states of the two loads, with a memory of this size. -/
structure AlikeLoads (size : Nat) (rs rs' : PNReadState) : Prop where
  rest : ∃ known data, rs' = rs.withRest known { rs.module.memory with data := data } ∧ KnownAlike rs.module known
  inLoad : rs.module.InLoad size

theorem KnownAlike.congr {module module' : PNModule} {known : PNIntrinsicId → Nat} (h : KnownAlike module known)
    (hk : module'.knownFunctions = module.knownFunctions) (hf : module.functions.length ≤ module'.functions.length) :
    KnownAlike module' known where
  entry i := hk ▸ h.entry i
  unset i hi := (h.unset i (hk ▸ hi)).imp_right fun hlt => hlt.trans_le hf
  null := hk ▸ h.null

theorem PNModule.InLoad.congr {size : Nat} {module module' : PNModule} (h : module.InLoad size)
    (hv : module'.values = module.values) (hf : module.functions.length ≤ module'.functions.length)
    (hs : module'.memory.size = module.memory.size) : module'.InLoad size where
  function v hv' i hi := (h.function v (hv ▸ hv') i hi).trans_le hf
  size := hs.trans h.size

section Steps

variable {host : PNHost} {dedupe : Bool} {fuel size : Nat} {rs rs' : PNReadState} {bs : PNBitStream} {module : PNModule}

/-- Both loads end a step in the same place of the file. -/
abbrev InStep (size : Nat) (x y : Except Stop (PNReadState × PNBitStream)) : Prop :=
  Agree (fun a b => AlikeLoads size a.1 b.1 ∧ b.2 = a.2) x y

/-- `PN_INTRINSIC_NULL` has no name. -/
theorem findIntrinsic_ne_null {name : List Nat} {id : PNIntrinsicId} (h : findIntrinsic name = some id) : id ≠ .null := by
  obtain ⟨i, hi, rfl⟩ := Option.map_eq_some_iff.mp h
  have hall : ∀ i ∈ pnIntrinsics, i.1 ≠ .null := by decide
  exact hall i (List.mem_of_find?_eq_some hi)

theorem nameFunction_alike {known : PNIntrinsicId → Nat} {memory : PNMemory} (h : KnownAlike module known) {functionId : Nat}
    (hlt : functionId < module.functions.length) (name : Option (List Nat)) :
    Agree (fun m m' => (∃ known', m' = m.withRest known' memory ∧ KnownAlike m known') ∧ m.values = module.values ∧
      m.functions.length = module.functions.length ∧ m.memory = module.memory)
      (nameFunction module functionId name) (nameFunction (module.withRest known memory) functionId name) := by
  unfold nameFunction
  split
  · exact .error _
  · rename_i text
    split
    · rename_i id hid
      have hnull : .null ≠ id := (findIntrinsic_ne_null hid).symm
      refine .ok ⟨⟨fun i => if i = id then functionId else known i, rfl, ?_⟩, rfl, List.length_modify _ _ _, rfl⟩
      constructor
      · intro i
        by_cases hi : i = id
        · exact .inl (by simp [hi])
        · simpa [hi] using h.entry i
      · intro i hi
        dsimp only at hi ⊢
        rw [List.length_modify]
        by_cases heq : i = id
        · rw [if_pos heq] at hi
          exact .inr (hi ▸ hlt)
        · rw [if_neg heq] at hi
          simpa [heq] using h.unset i hi
      · simpa [hnull] using h.null
    · exact .ok ⟨⟨known, rfl, h.congr rfl (by rw [List.length_modify])⟩, rfl, List.length_modify _ _ _, rfl⟩

theorem readSymbol_alike {known : PNIntrinsicId → Nat} {memory : PNMemory} (h : KnownAlike module known)
    (hv : module.InLoad size) (reader : PNRecordReader) :
    Agree (fun a b => ((∃ known', b.1 = a.1.withRest known' memory ∧ KnownAlike a.1 known') ∧ a.1.values = module.values ∧
      a.1.functions.length = module.functions.length ∧ a.1.memory = module.memory) ∧ b.2 = a.2)
      (readSymbol fuel module reader) (readSymbol fuel (module.withRest known memory) reader) := by
  refine Agree.same fun x _ => ?_
  refine Agree.same fun _ hcheck => ?_
  refine Agree.same fun y _ => ?_
  refine Agree.same fun z _ => ?_
  have hvalues : (module.withRest known memory).values = module.values := rfl
  have hlt : x.1 < module.values.length := require_eq_ok.mp hcheck
  dsimp only
  rw [hvalues]
  split
  · rename_i index hcode
    have hmem : module.values.getD x.1 ⟨.localVar, 0⟩ ∈ module.values := by
      rw [List.getD_eq_getElem _ _ hlt]
      exact List.getElem_mem hlt
    exact Agree.bind (nameFunction_alike h (hv.function _ hmem index hcode) _) fun m m' _ hm => .ok ⟨hm, rfl⟩
  · exact .ok ⟨⟨⟨known, rfl, h⟩, rfl, rfl, rfl⟩, rfl⟩

theorem AlikeLoads.intro {known : PNIntrinsicId → Nat} {data : Nat → UInt8} (h : KnownAlike rs.module known)
    (hv : rs.module.InLoad size) : AlikeLoads size rs (rs.withRest known { rs.module.memory with data := data }) :=
  ⟨⟨known, data, rfl, h⟩, hv⟩

end Steps

/-! ## Blocks in step -/

section BlockSteps

variable {σ : Type} {host : PNHost} {b : PNBlockReader σ} {R Q : σ → σ → Prop} {fuel : Nat}

/-- A block reader does the same from related states. -/
structure PNBlockReader.Steps (b : PNBlockReader σ) (R Q : σ → σ → Prop) : Prop where
  endBlock : ∀ {s t} bs, R s t → Agree (fun x y => Q x.1 y.1 ∧ y.2 = x.2) (b.endBlock s bs) (b.endBlock t bs)
  subblock : ∀ {s t} bs, R s t → Agree (fun x y => R x.1 y.1 ∧ y.2 = x.2) (b.subblock s bs) (b.subblock t bs)
  defineAbbrev : ∀ {s t} ab, R s t → Agree R (b.defineAbbrev s ab) (b.defineAbbrev t ab)
  record : ∀ {s t} code reader, R s t →
    Agree (fun x y => R x.1 y.1 ∧ y.2 = x.2) (b.record s code reader) (b.record t code reader)

theorem PNBlockReader.Steps.readEntries (h : b.Steps R Q) {codelen : Nat} : ∀ {n : Nat} {s t : σ} {abbrevs : List PNAbbrev}
    {bs : PNBitStream}, R s t → Agree (fun x y => Q x.1 y.1 ∧ y.2 = x.2) (Pnacl.readEntries host b codelen n s abbrevs bs)
      (Pnacl.readEntries host b codelen n t abbrevs bs)
  | 0, _, _, _, _, _ => .error _
  | n + 1, s, t, abbrevs, bs, hst => by
    have hrest : ∀ {abbrevs' : List PNAbbrev} (x y : σ × PNBitStream), R x.1 y.1 ∧ y.2 = x.2 →
        Agree (fun x y => Q x.1 y.1 ∧ y.2 = x.2) (Pnacl.readEntries host b codelen n x.1 abbrevs' x.2)
          (Pnacl.readEntries host b codelen n y.1 abbrevs' y.2) := by
      intro abbrevs' x y hxy
      rw [hxy.2]
      exact h.readEntries hxy.1
    rw [Pnacl.readEntries, Pnacl.readEntries]
    split
    · exact .error _
    refine Agree.same fun x _ => ?_
    dsimp only
    split
    · exact h.endBlock x.2 hst
    split
    · exact Agree.bind (h.subblock x.2 hst) fun y z _ hyz => hrest y z hyz
    split
    · refine Agree.same fun y _ => ?_
      exact Agree.bind (h.defineAbbrev y.1 hst) fun s' t' _ hst' => h.readEntries hst'
    · refine Agree.same fun y _ => ?_
      exact Agree.bind (h.record _ y.2 hst) fun z w _ hzw => hrest z w hzw

theorem PNBlockReader.Steps.readBlock (h : b.Steps R Q) {s t : σ} (hst : R s t) (abbrevs : List PNAbbrev) (bs : PNBitStream) :
    Agree (fun x y => Q x.1 y.1 ∧ y.2 = x.2) (Pnacl.readBlock host b fuel s abbrevs bs)
      (Pnacl.readBlock host b fuel t abbrevs bs) := by
  refine Agree.same fun x _ => ?_
  refine Agree.same fun _ _ => ?_
  refine Agree.same fun y _ => ?_
  exact Agree.same fun z _ => h.readEntries hst

theorem finish_agree {s t : σ} (hst : R s t) (reader : PNRecordReader) :
    Agree (fun x y => R x.1 y.1 ∧ y.2 = x.2) (finish fuel s reader) (finish fuel t reader) :=
  Agree.same fun _ _ => .ok ⟨hst, rfl⟩

theorem alignEnd_agree {s t : σ} (hst : R s t) (bs : PNBitStream) :
    Agree (fun x y => R x.1 y.1 ∧ y.2 = x.2) (alignEnd s bs) (alignEnd t bs) :=
  Agree.same fun _ _ => .ok ⟨hst, rfl⟩

end BlockSteps

section Leaves

variable {host : PNHost} {dedupe : Bool} {fuel size : Nat} {rs rs' : PNReadState} {bs : PNBitStream}

theorem pnValueSymtabBlock_steps : (pnValueSymtabBlock fuel).Steps (AlikeLoads size) (AlikeLoads size) where
  endBlock bs hst := alignEnd_agree hst bs
  subblock _ _ := .error _
  defineAbbrev _ hst := .ok hst
  record {s t} code reader hst := by
    simp only [pnValueSymtabBlock]
    split
    · obtain ⟨⟨known, data, rfl, hk⟩, hv⟩ := hst
      refine Agree.bind (readSymbol_alike hk hv reader) fun x y _ hxy => ?_
      obtain ⟨⟨⟨known', hm, hk'⟩, hvalues, hlen, hmemory⟩, hr⟩ := hxy
      rw [hr]
      refine finish_agree ?_ x.2
      exact ⟨⟨known', data, by rw [hm, hmemory]; rfl, hk'⟩, hv.congr hvalues hlen.ge (by rw [hmemory])⟩
    · exact finish_agree hst reader
    · exact .error _

theorem pnValueSymtabBlockRead_inStep (h : AlikeLoads size rs rs') :
    InStep size (pnValueSymtabBlockRead host fuel rs bs) (pnValueSymtabBlockRead host fuel rs' bs) := by
  have hcontext : rs'.context = rs.context := by
    obtain ⟨⟨known, data, rfl, -⟩, -⟩ := h
    rfl
  rw [pnValueSymtabBlockRead, pnValueSymtabBlockRead, hcontext]
  exact pnValueSymtabBlock_steps.readBlock h _ _

theorem pnBlockinfoBlockRead_inStep (h : AlikeLoads size rs rs') :
    InStep size (pnBlockinfoBlockRead host fuel rs bs) (pnBlockinfoBlockRead host fuel rs' bs) := by
  obtain ⟨⟨known, data, rfl, hk⟩, hv⟩ := h
  rw [pnBlockinfoBlockRead_withRest]
  refine Agree.map fun x hx => ⟨?_, rfl⟩
  obtain ⟨hm, -⟩ := pnBlockinfoBlockRead_frame hx
  rw [← hm] at hk hv ⊢
  exact .intro hk hv

/-- A computation that ignores the rest keeps it. -/
theorem rest_of_withRest {α : Type} {x : Except Stop (PNReadState × α)} {a : α} {known : PNIntrinsicId → Nat} {memory : PNMemory}
    (h : x = x.map (Prod.map (PNReadState.withRest known memory) id)) (hx : x = .ok (rs, a)) :
    rs.module.knownFunctions = known ∧ rs.module.memory = memory := by
  rw [hx] at h
  have heq : rs = rs.withRest known memory := congrArg Prod.fst (Except.ok.inj h)
  rw [heq]
  exact ⟨rfl, rfl⟩

theorem pnTypeBlockRead_inStep (h : AlikeLoads size rs rs') :
    InStep size (pnTypeBlockRead host fuel rs bs) (pnTypeBlockRead host fuel rs' bs) := by
  obtain ⟨⟨known, data, rfl, hk⟩, hv⟩ := h
  rw [pnTypeBlockRead_withRest]
  refine Agree.map fun x hx => ⟨?_, rfl⟩
  have hf := pnTypeBlockRead_frame hx
  obtain ⟨hknown, hmemory⟩ := rest_of_withRest (pnTypeBlockRead_withRest rs.module.knownFunctions rs.module.memory rs bs) hx
  rw [← hmemory]
  exact .intro (hk.congr hknown (by rw [hf.functions])) (hv.congr hf.values (by rw [hf.functions]) (by rw [hmemory]))

theorem pnConstantsBlockRead_inStep (h : AlikeLoads size rs rs') (functionId : Nat) (f : PNFunction) :
    Agree (fun x y => AlikeLoads size x.1 y.1 ∧ y.2 = x.2) (pnConstantsBlockRead host fuel rs functionId f bs)
      (pnConstantsBlockRead host fuel rs' functionId f bs) := by
  obtain ⟨⟨known, data, rfl, hk⟩, hv⟩ := h
  rw [pnConstantsBlockRead_withRest]
  refine Agree.map fun x hx => ⟨?_, rfl⟩
  have hm : x.1.module = rs.module := by
    obtain ⟨cs, vs, events, hf⟩ := pnConstantsBlockRead_frame hx
    rw [hf.state]
  rw [← hm] at hk hv ⊢
  exact .intro hk hv

/-! ## Global variables -/

/-- The modules of the two loads, up to the names in `rs`. -/
structure AlikeModules (size : Nat) (module module' : PNModule) : Prop where
  rest : ∃ known data, module' = module.withRest known { module.memory with data := data } ∧ KnownAlike module known
  inLoad : module.InLoad size

/-- The states of the two loads in a block of global variables. -/
def AlikeVars (size : Nat) (s t : PNGlobalvarState) : Prop :=
  ∃ module', t = s.setModule module' ∧ AlikeModules size s.rs.module module'

theorem AlikeModules.congr {module m m' : PNModule} {known : PNIntrinsicId → Nat} {data : Nat → UInt8}
    (h : KnownAlike module known) (hv : module.InLoad size) (hk : m.knownFunctions = module.knownFunctions)
    (hf : m.functions = module.functions) (hvalues : ∀ v ∈ m.values, v ∈ module.values ∨ ∀ i, v.code ≠ .function i)
    (hs : m.memory.size = module.memory.size) (hm : m' = m.withRest known { m.memory with data := data }) :
    AlikeModules size m m' where
  rest := ⟨known, data, hm, h.congr hk (by rw [hf])⟩
  inLoad := by
    refine ⟨fun v hmem i hi => ?_, hs.trans hv.size⟩
    rcases hvalues v hmem with hmem | hne
    · rw [hf]
      exact hv.function v hmem i hi
    · exact absurd hi (hne i)

theorem pnMemoryWrite_agree {memory : PNMemory} {data : Nat → UInt8} (size offset value : Nat) :
    Agree (fun m m' => m.size = memory.size ∧ ∃ data', m' = { m with data := data' }) (pnMemoryWrite memory size offset value)
      (pnMemoryWrite { memory with data := data } size offset value) :=
  Agree.same fun _ _ => .ok ⟨rfl, _, rfl⟩

section Vars

variable {module module' : PNModule}

theorem AlikeModules.size_eq (h : AlikeModules size module module') : module'.memory.size = size := by
  obtain ⟨⟨known, data, rfl, -⟩, hv⟩ := h
  exact hv.size

theorem pnGlobalvarWriteReloc_agree (h : AlikeModules size module module') (valueId offset addend : Nat) :
    Agree (AlikeModules size) (pnGlobalvarWriteReloc module valueId offset addend)
      (pnGlobalvarWriteReloc module' valueId offset addend) := by
  obtain ⟨⟨known, data, rfl, hk⟩, hv⟩ := h
  have hmemory : ∀ memory memory' : PNMemory, memory.size = module.memory.size ∧ (∃ data', memory' = { memory with data := data' }) →
      AlikeModules size { module with memory := memory }
        { module.withRest known { module.memory with data := data } with memory := memory' } := by
    rintro memory memory' ⟨hsize, data', rfl⟩
    exact .congr hk hv rfl rfl (fun v hmem => .inl hmem) hsize rfl
  have hvalues : (module.withRest known { module.memory with data := data }).values = module.values := rfl
  have hvars : (module.withRest known { module.memory with data := data }).globalVars = module.globalVars := rfl
  simp only [pnGlobalvarWriteReloc, hvalues, hvars]
  split
  · split
    · exact Agree.bind (pnMemoryWrite_agree _ _ _) fun m m' _ hm => .ok (hmemory m m' hm)
    · exact .error _
  · refine Agree.same fun _ _ => ?_
    exact Agree.bind (pnMemoryWrite_agree _ _ _) fun m m' _ hm => .ok (hmemory m m' hm)
  · exact .error _

theorem AlikeModules.values_eq (h : AlikeModules size module module') : module'.values = module.values := by
  obtain ⟨⟨known, data, rfl, -⟩, -⟩ := h
  rfl

theorem writeRelocs_agree : ∀ (relocs : List PNRelocInfo) {module module' : PNModule}, AlikeModules size module module' →
    Agree (AlikeModules size) (writeRelocs module relocs) (writeRelocs module' relocs)
  | [], _, _, h => .ok h
  | r :: rest, module, module', h => by
    rw [writeRelocs, writeRelocs, h.values_eq]
    refine Agree.same fun _ _ => ?_
    exact Agree.bind (pnGlobalvarWriteReloc_agree h _ _ _) fun _ _ _ h' => writeRelocs_agree rest h'

theorem readData_agree : ∀ {fuel : Nat} {reader : PNRecordReader} (memory : PNMemory) (data : Nat → UInt8) {dataOffset : Nat},
    Agree (fun x y => (x.1.size = memory.size ∧ ∃ data', y.1 = { x.1 with data := data' }) ∧ y.2 = x.2)
      (readData fuel reader memory dataOffset)
      (readData fuel reader { memory with data := data } dataOffset)
  | 0, _, _, _, _ => .error _
  | fuel + 1, reader, memory, data, dataOffset => by
    rw [readData, readData]
    refine Agree.same fun x _ => ?_
    dsimp only
    split
    · exact .ok ⟨⟨rfl, data, rfl⟩, rfl⟩
    · split
      · exact .error _
      · split
        · exact .error _
        · rename_i value _ _ _
          exact readData_agree { memory with data := storeBytes memory.data dataOffset 1 value } _

variable {fuel : Nat} {s t : PNGlobalvarState}

theorem nextInitializer_setModule (s : PNGlobalvarState) (module' : PNModule) :
    (s.setModule module').nextInitializer = s.nextInitializer.map fun s => s.setModule module' := by
  simp only [PNGlobalvarState.nextInitializer, PNGlobalvarState.setModule]
  split
  · rfl
  · simp only [map_bind]
    rfl

theorem nextInitializer_agree (h : AlikeVars size s t) : Agree (AlikeVars size) s.nextInitializer t.nextInitializer := by
  obtain ⟨module', rfl, hm⟩ := h
  rw [nextInitializer_setModule]
  refine Agree.map fun s' hs' => ⟨module', rfl, ?_⟩
  rw [nextInitializer_rs hs']
  exact hm

theorem readVar_agree (h : AlikeVars size s t) (reader : PNRecordReader) :
    Agree (fun x y => AlikeVars size x.1 y.1 ∧ y.2 = x.2) (readVar s reader) (readVar t reader) := by
  obtain ⟨_, rfl, ⟨known, data, rfl, hk⟩, hv⟩ := h
  refine Agree.same fun _ _ => Agree.same fun _ _ => Agree.same fun _ _ => Agree.same fun _ _ => Agree.same fun _ _ =>
    Agree.same fun _ _ => .ok ⟨⟨_, rfl, ?_⟩, rfl⟩
  refine .congr hk hv rfl rfl (fun v hmem => ?_) rfl rfl
  rcases List.mem_append.mp hmem with hmem | hmem
  · exact .inl hmem
  · rw [List.mem_singleton.mp hmem]
    exact .inr fun _ h => by cases h

theorem readReloc_agree (h : AlikeVars size s t) (reader : PNRecordReader) :
    Agree (fun x y => AlikeVars size x.1 y.1 ∧ y.2 = x.2) (readReloc s reader) (readReloc t reader) := by
  refine Agree.bind (nextInitializer_agree h) fun s t _ hst => ?_
  obtain ⟨module', rfl, hm⟩ := hst
  refine Agree.same fun x _ => Agree.same fun y _ => ?_
  have hvalues : (s.setModule module').rs.module.values = s.rs.module.values := hm.values_eq
  dsimp only
  rw [hvalues]
  split
  · exact Agree.bind (pnGlobalvarWriteReloc_agree hm _ _ _) fun m m' _ hm => .ok ⟨⟨m', rfl, hm⟩, rfl⟩
  · exact .ok ⟨⟨module', rfl, hm⟩, rfl⟩

theorem setVar_alike (h : AlikeVars size s t) (var : PNGlobalVar) : AlikeVars size (s.setVar var) (t.setVar var) := by
  obtain ⟨_, rfl, ⟨known, data, rfl, hk⟩, hv⟩ := h
  exact ⟨_, rfl, .congr hk hv rfl rfl (fun v hmem => .inl hmem) rfl rfl⟩

theorem setMemory_alike {memory memory' : PNMemory} (h : AlikeVars size s t)
    (hmemory : memory.size = s.rs.module.memory.size ∧ ∃ data, memory' = { memory with data := data }) (dataOffset : Nat) :
    AlikeVars size { s.setModule { s.rs.module with memory := memory } with dataOffset := dataOffset }
      { t.setModule { t.rs.module with memory := memory' } with dataOffset := dataOffset } := by
  obtain ⟨_, rfl, ⟨known, data, rfl, hk⟩, hv⟩ := h
  obtain ⟨hsize, data', rfl⟩ := hmemory
  exact ⟨_, rfl, .congr hk hv rfl rfl (fun v hmem => .inl hmem) hsize rfl⟩

theorem AlikeVars.memory (h : AlikeVars size s t) : ∃ data, t.rs.module.memory = { s.rs.module.memory with data := data } := by
  obtain ⟨_, rfl, ⟨known, data, rfl, -⟩, -⟩ := h
  exact ⟨data, rfl⟩

theorem pnGlobalvarBlock_steps : (pnGlobalvarBlock fuel).Steps (AlikeVars size) (AlikeVars size) where
  endBlock {s t} bs hst := by
    obtain ⟨module', rfl, hm⟩ := hst
    refine Agree.same fun bs' _ => ?_
    refine Agree.bind (writeRelocs_agree s.relocInfos hm) fun m m' _ hm' => ?_
    obtain ⟨⟨known, data, rfl, hk⟩, hv⟩ := hm'
    exact .ok ⟨⟨_, rfl, .congr hk hv rfl rfl (fun v hmem => .inl hmem) rfl rfl⟩, rfl⟩
  subblock _ _ := .error _
  defineAbbrev _ hst := .ok hst
  record {s t} code reader hst := by
    simp only [pnGlobalvarBlock]
    split
    · refine Agree.bind (readVar_agree hst reader) fun x y _ hxy => ?_
      rw [hxy.2]
      exact finish_agree hxy.1 x.2
    · have hvar : t.globalVar = s.globalVar := by
        obtain ⟨module', rfl, -⟩ := hst
        rfl
      rw [hvar]
      split
      · exact .error _
      · exact Agree.same fun x _ => finish_agree (setVar_alike hst _) x.2
    · refine Agree.bind (nextInitializer_agree hst) fun s t _ hst => ?_
      refine Agree.same fun x _ => ?_
      obtain ⟨data, hmemory⟩ := hst.memory
      have hoffset : t.dataOffset = s.dataOffset := by
        obtain ⟨module', rfl, -⟩ := hst
        rfl
      rw [hmemory, hoffset]
      refine Agree.same fun _ _ => finish_agree (setMemory_alike hst ⟨?_, _, rfl⟩ _) x.2
      rfl
    · refine Agree.bind (nextInitializer_agree hst) fun s t _ hst => ?_
      obtain ⟨data, hmemory⟩ := hst.memory
      have hoffset : t.dataOffset = s.dataOffset := by
        obtain ⟨module', rfl, -⟩ := hst
        rfl
      rw [hmemory, hoffset]
      refine Agree.bind (readData_agree _ _) fun x y _ hxy => ?_
      obtain ⟨memory', y⟩ := y
      obtain ⟨hdata, rfl⟩ := hxy
      exact finish_agree (setMemory_alike hst hdata _) _
    · refine Agree.bind (readReloc_agree hst reader) fun x y _ hxy => ?_
      rw [hxy.2]
      exact finish_agree hxy.1 x.2
    · refine Agree.same fun x _ => finish_agree ?_ x.2
      obtain ⟨_, rfl, ⟨known, data, rfl, hk⟩, hv⟩ := hst
      exact ⟨_, rfl, .congr hk hv rfl rfl (fun v hmem => .inl hmem) rfl rfl⟩
    · exact .error _

end Vars

theorem AlikeLoads.of_modules {module' : PNModule} (h : AlikeModules size rs.module module') :
    AlikeLoads size rs { rs with module := module' } := by
  obtain ⟨⟨known, data, rfl, hk⟩, hv⟩ := h
  exact .intro hk hv

theorem pnGlobalvarBlockRead_inStep (h : AlikeLoads size rs rs') :
    InStep size (pnGlobalvarBlockRead host fuel rs bs) (pnGlobalvarBlockRead host fuel rs' bs) := by
  obtain ⟨⟨known, data, rfl, hk⟩, hv⟩ := h
  refine Agree.bind (R := fun x y => AlikeVars size x.1 y.1 ∧ y.2 = x.2) (pnGlobalvarBlock_steps.readBlock ?_ _ bs)
    fun x y _ hxy => ?_
  · exact ⟨_, rfl, .congr hk hv rfl rfl (fun v hmem => .inl hmem) rfl rfl⟩
  · obtain ⟨t, bs'⟩ := y
    obtain ⟨⟨module', hs, hm⟩, hbs⟩ := hxy
    subst hs hbs
    exact .ok ⟨.of_modules hm, rfl⟩

end Leaves

/-! ## Functions -/

section Functions

variable {host : PNHost} {dedupe : Bool} {fuel size : Nat} {rs rs' : PNReadState} {bs : PNBitStream} {s t : PNFunctionState}

/-- The states of the two loads in the body of a function. -/
def AlikeBodies (size : Nat) (s t : PNFunctionState) : Prop := ∃ rs', t = { s with rs := rs' } ∧ AlikeLoads size s.rs rs'

theorem AlikeLoads.store (h : AlikeLoads size s.rs rs') : AlikeLoads size s.store { s with rs := rs' }.store := by
  obtain ⟨⟨known, data, rfl, hk⟩, hv⟩ := h
  have hlen : s.rs.module.functions.length ≤ s.store.module.functions.length := (List.length_set ..).ge
  exact ⟨⟨known, data, rfl, hk.congr rfl hlen⟩, hv.congr rfl hlen rfl⟩

theorem AlikeLoads.load (h : AlikeLoads size rs rs') (s t : PNReadState) (functionId : Nat) (f : PNFunction)
    (numBbs prevBbId curBbId : Nat) (curBb : Option Nat) :
    AlikeBodies size (PNFunctionState.load ⟨s, functionId, f, numBbs, prevBbId, curBbId, curBb⟩ rs)
      (PNFunctionState.load ⟨t, functionId, f, numBbs, prevBbId, curBbId, curBb⟩ rs') := by
  have h' := h
  obtain ⟨⟨known, data, rfl, -⟩, -⟩ := h
  exact ⟨_, rfl, h'⟩

/-- What is put into the trace is the same. -/
theorem AlikeLoads.trace (h : AlikeLoads size rs rs') (trace : List PNReadEvent) :
    AlikeLoads size { rs with trace := trace } { rs' with trace := trace } := by
  obtain ⟨⟨known, data, rfl, hk⟩, hv⟩ := h
  exact .intro hk hv

theorem readDeclareblocks_agree (h : AlikeBodies size s t) (reader : PNRecordReader) :
    Agree (fun x y => AlikeBodies size x.1 y.1 ∧ y.2 = x.2) (readDeclareblocks s reader) (readDeclareblocks t reader) := by
  obtain ⟨_, rfl, ⟨⟨known, data, rfl, hk⟩, hv⟩⟩ := h
  exact Agree.same fun x _ => .ok ⟨⟨_, rfl, (AlikeLoads.intro hk hv).trace _⟩, rfl⟩

theorem beginBb_agree (h : AlikeBodies size s t) : Agree (AlikeBodies size) s.beginBb t.beginBb := by
  obtain ⟨rs', rfl, hrs⟩ := h
  simp only [PNFunctionState.beginBb]
  split
  · exact Agree.same fun _ _ => .ok ⟨rs', rfl, hrs⟩
  · exact .ok ⟨rs', rfl, hrs⟩

theorem append_alike (h : AlikeBodies size s t) (inst : PNInstruction) (value : Option PNValue) :
    AlikeBodies size (s.append inst value) (t.append inst value) := by
  obtain ⟨_, rfl, ⟨⟨known, data, rfl, hk⟩, hv⟩⟩ := h
  exact ⟨_, rfl, (AlikeLoads.intro hk hv).trace _⟩

theorem pnFunctionBlock_steps : (pnFunctionBlock host dedupe fuel).Steps (AlikeBodies size) (AlikeBodies size) where
  endBlock {s t} bs hst := by
    obtain ⟨_, rfl, ⟨⟨known, data, rfl, hk⟩, hv⟩⟩ := hst
    have hpasses : pnFunctionPasses host (s.rs.withRest known { s.rs.module.memory with data := data }).module s.functionId
      s.function = pnFunctionPasses host s.rs.module s.functionId s.function := pnFunctionPasses_withRest known _ s.functionId s.function
    simp only [pnFunctionBlock]
    refine Agree.same fun _ _ => ?_
    rw [hpasses]
    exact Agree.same fun f _ => alignEnd_agree ⟨_, rfl, .intro hk hv⟩ bs
  subblock {s t} bs hst := by
    obtain ⟨rs', rfl, hrs⟩ := hst
    simp only [pnFunctionBlock]
    refine Agree.same fun x _ => ?_
    split
    · refine Agree.bind (pnConstantsBlockRead_inStep hrs s.functionId s.function) fun y z _ hyz => ?_
      obtain ⟨rs₁, z⟩ := z
      obtain ⟨hyz, rfl⟩ := hyz
      exact .ok ⟨⟨rs₁, rfl, hyz⟩, rfl⟩
    · refine Agree.bind (pnValueSymtabBlockRead_inStep hrs.store) fun y z _ hyz => ?_
      obtain ⟨rs₁, z⟩ := z
      obtain ⟨hyz, rfl⟩ := hyz
      exact .ok ⟨hyz.load _ _ _ _ _ _ _ _, rfl⟩
    · exact .error _
  defineAbbrev _ hst := .ok hst
  record {s t} code reader hst := by
    simp only [pnFunctionBlock]
    split
    · exact readDeclareblocks_agree hst reader
    · have hvalues : pnFunctionNumValues t.rs.module t.function = pnFunctionNumValues s.rs.module s.function := by
        obtain ⟨_, rfl, ⟨⟨known, data, rfl, -⟩, -⟩⟩ := hst
        rfl
      rw [hvalues]
      refine Agree.bind (beginBb_agree hst) fun s' t' _ hst' => ?_
      have hinst : ∀ relId, readInstruction host dedupe fuel t'.rs.module t'.rs.context.useRelativeIds relId code reader =
          readInstruction host dedupe fuel s'.rs.module s'.rs.context.useRelativeIds relId code reader := by
        obtain ⟨_, rfl, ⟨⟨known, data, rfl, -⟩, -⟩⟩ := hst'
        exact fun relId => readInstruction_withRest known _ _ relId code reader
      rw [hinst]
      exact Agree.same fun r _ => finish_agree (append_alike hst' _ _) r.reader

theorem pnFunctionBlockRead_inStep (h : AlikeLoads size rs rs') (functionId : Nat) :
    InStep size (pnFunctionBlockRead host dedupe fuel rs functionId bs) (pnFunctionBlockRead host dedupe fuel rs' functionId bs) := by
  have hfunctions : rs'.module.functions = rs.module.functions := by
    obtain ⟨⟨known, data, rfl, -⟩, -⟩ := h
    rfl
  have htype : ∀ typeId, rs'.module.type host typeId = rs.module.type host typeId := by
    obtain ⟨⟨known, data, rfl, -⟩, -⟩ := h
    exact fun _ => rfl
  have hcontext : rs'.context = rs.context := by
    obtain ⟨⟨known, data, rfl, -⟩, -⟩ := h
    rfl
  rw [pnFunctionBlockRead, pnFunctionBlockRead, hfunctions, hcontext]
  split
  · exact .error _
  · rw [htype]
    split
    · refine Agree.same fun _ _ => ?_
      refine Agree.bind (pnFunctionBlock_steps.readBlock ⟨rs', rfl, h⟩ _ bs) fun x y _ hxy => ?_
      obtain ⟨t, bs'⟩ := y
      obtain ⟨⟨rs₁, hs, hrs⟩, hbs⟩ := hxy
      subst hs hbs
      exact .ok ⟨hrs.store, rfl⟩
    · exact .error _

end Functions

/-! ## Modules -/

section Modules

variable {host : PNHost} {dedupe : Bool} {fuel size : Nat} {rs rs' : PNReadState} {bs : PNBitStream} {s t : PNModuleState}

theorem readFunction_agree (h : AlikeLoads size rs rs') (reader : PNRecordReader) :
    Agree (fun x y => AlikeLoads size x.1 y.1 ∧ y.2 = x.2) (readFunction host rs reader) (readFunction host rs' reader) := by
  obtain ⟨⟨known, data, rfl, hk⟩, hv⟩ := h
  refine Agree.same fun x _ => Agree.same fun _ _ => Agree.same fun y _ => Agree.same fun z _ => Agree.same fun w _ => ?_
  have htype : ∀ typeId, (rs.withRest known { rs.module.memory with data := data }).module.type host typeId =
    rs.module.type host typeId := fun _ => rfl
  dsimp only
  rw [htype]
  split
  · refine .ok ⟨⟨⟨known, data, rfl, hk.congr rfl ?_⟩, ?_⟩, rfl⟩
    · exact (List.length_append ..).ge.trans' (Nat.le_add_right _ _)
    · refine ⟨fun v hmem i hi => ?_, hv.size⟩
      change i < (rs.module.functions ++ [_]).length
      rw [List.length_append, List.length_singleton]
      rcases List.mem_append.mp hmem with hmem | hmem
      · exact Nat.lt_succ_of_lt (hv.function v hmem i hi)
      · rw [List.mem_singleton.mp hmem] at hi
        cases hi
        exact Nat.lt_succ_self _
  · exact .error _

/-- The states of the two loads in the block of the module. -/
def AlikeTops (size : Nat) (s t : PNModuleState) : Prop := ∃ rs', t = { s with rs := rs' } ∧ AlikeLoads size s.rs rs'

/-- A block that is read in step, with what is known of the next function. -/
theorem InStep.top {x y : Except Stop (PNReadState × PNBitStream)} (h : InStep size x y) (functionId : Nat) :
    Agree (fun a b => AlikeTops size a.1 b.1 ∧ b.2 = a.2)
      (x >>= fun r => .ok (⟨r.1, functionId⟩, r.2)) (y >>= fun r => .ok (⟨r.1, functionId⟩, r.2)) := by
  refine Agree.bind h fun a b _ hab => ?_
  exact .ok ⟨⟨b.1, rfl, hab.1⟩, hab.2⟩

theorem pnModuleBlock_steps : (pnModuleBlock host dedupe fuel).Steps (AlikeTops size) (AlikeTops size) where
  endBlock bs hst := alignEnd_agree hst bs
  subblock {s t} bs hst := by
    obtain ⟨rs', rfl, hrs⟩ := hst
    simp only [pnModuleBlock]
    refine Agree.same fun x _ => ?_
    split
    · exact (pnBlockinfoBlockRead_inStep hrs).top s.functionId
    · exact (pnTypeBlockRead_inStep hrs).top s.functionId
    · exact (pnGlobalvarBlockRead_inStep hrs).top s.functionId
    · exact (pnValueSymtabBlockRead_inStep hrs).top s.functionId
    · have hfunctions : rs'.module.functions = s.rs.module.functions := by
        obtain ⟨⟨known, data, rfl, -⟩, -⟩ := hrs
        rfl
      have hcheck : ∀ functionId, pnFunctionIdCheck rs'.module functionId = pnFunctionIdCheck s.rs.module functionId := by
        obtain ⟨⟨known, data, rfl, -⟩, -⟩ := hrs
        exact fun _ => rfl
      rw [hfunctions, hcheck]
      exact Agree.same fun _ _ => (pnFunctionBlockRead_inStep hrs _).top _
    · exact .error _
  defineAbbrev _ hst := .ok hst
  record {s t} code reader hst := by
    obtain ⟨rs', rfl, hrs⟩ := hst
    simp only [pnModuleBlock]
    split
    · refine Agree.same fun x _ => finish_agree ?_ x.2
      obtain ⟨⟨known, data, rfl, hk⟩, hv⟩ := hrs
      exact ⟨_, rfl, ⟨known, data, rfl, hk.congr rfl le_rfl⟩, hv.congr rfl le_rfl rfl⟩
    · refine Agree.bind (readFunction_agree hrs reader) fun y z _ hyz => ?_
      obtain ⟨rs₁, z⟩ := z
      obtain ⟨hyz, rfl⟩ := hyz
      exact finish_agree ⟨rs₁, rfl, hyz⟩ y.2
    · exact .error _

/-- Two loads of one file into modules that differ in the known functions and the memory stop for the same reason or give
modules that do. -/
theorem pnModuleRead_agree {module module' : PNModule} (h : AlikeModules size module module') :
    Agree (fun x y => AlikeModules size x.1.module y.1.module ∧ y.2 = x.2)
      (pnModuleRead host dedupe fuel module bs) (pnModuleRead host dedupe fuel module' bs) := by
  refine Agree.same fun bs₁ _ => Agree.same fun x _ => ?_
  dsimp only
  split
  · exact .error _
  refine Agree.same fun y _ => Agree.same fun _ _ => ?_
  have hst : AlikeTops size ⟨⟨module, {}, []⟩, 0⟩ ⟨⟨module', {}, []⟩, 0⟩ := ⟨_, rfl, .of_modules h⟩
  refine Agree.bind (pnModuleBlock_steps.readBlock hst [] y.2) fun z w _ hzw => ?_
  obtain ⟨t, bs'⟩ := w
  obtain ⟨⟨rs₁, hs, hrs⟩, hbs⟩ := hzw
  subst hs hbs
  obtain ⟨⟨known, data, rfl, hk⟩, hv⟩ := hrs
  exact .ok ⟨.congr hk hv rfl rfl (fun v hmem => .inl hmem) rfl rfl, rfl⟩

end Modules

end Pnacl
