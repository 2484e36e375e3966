import Pnacl.GlobalvarLayout
import Pnacl.TypeCodec

/-!
# Reading global variables undoes writing them

Every list of variables that fits into the memory, with initializers of all three kinds, has an encoding as a globalvar block. The
block is accepted, and behind it the variables lie one behind the other in the memory, each with what its initializers ask for
(`globalvars_decode`).

- `GlobalvarsRead`: where the reader stands behind the variables that it has read;
- `GlobalvarsRead.var`, `GlobalvarsRead.initializer`: it takes the records of the next one;
- `writeRelocs_ready`: the relocations that wait can all be written at the end of the block.
-/

namespace Pnacl

open Lib PNBitStream

/-! ## The encoding -/

/-- A variable with the field of its VAR record that says whether it is constant. -/
structure WrittenVar extends GlobalVarDecl where
  isConstant : Nat
deriving Repr, DecidableEq

/-- ZEROFILL, DATA, RELOC. -/
def encInitializer : PNInitializer → CodedRecord
  | .zerofill numBytes => (2, [numBytes])
  | .data bytes => (3, bytes)
  | .reloc index addend => (4, [index, addend])

/-- VAR, COMPOUND, and the initializers. -/
def encVar (v : WrittenVar) : List CodedRecord :=
  (0, [v.alignField, v.isConstant]) :: (1, [v.initializers.length]) :: v.initializers.map encInitializer

/-- What a relocation may refer to: a function of the module, or any of the `count` variables. -/
def RelocTarget (module : PNModule) (count index addend : Nat) : Prop :=
  (∃ id, module.values[index]?.map PNValue.code = some (.function id) ∧ addend = 0) ∨
    (module.values.length ≤ index ∧ index < module.values.length + count)

/-- An initializer that can be written. -/
def InitializerWritable (module : PNModule) (count : Nat) : PNInitializer → Prop
  | .zerofill _ => True
  | .data bytes => ∀ b ∈ bytes, b < 2 ^ 8
  | .reloc index addend => index < 2 ^ 32 ∧ addend < 2 ^ 32 ∧ RelocTarget module count index addend

/-- A variable that can be written, as one of `count`. The alignment takes sixteen bits. -/
structure VarWritable (module : PNModule) (count : Nat) (v : WrittenVar) : Prop where
  align : 1 ≤ v.alignField ∧ v.alignField ≤ 16
  isConstant : v.isConstant < 2 ^ 32
  length : v.initializers.length < 2 ^ 32
  initializer : ∀ init ∈ v.initializers, InitializerWritable module count init

/-- The relocation can be written. -/
structure RelocReady (module : PNModule) (p : PNRelocInfo) : Prop where
  index : p.index < module.values.length
  target : (∃ id, (module.values.getD p.index ⟨.localVar, 0⟩).code = .function id ∧ p.addend = 0) ∨
    ∃ id var, (module.values.getD p.index ⟨.localVar, 0⟩).code = .globalVar id ∧ module.globalVars[id]? = some (some var)
  low : PN_MEMORY_GUARD_SIZE ≤ p.offset
  fits : p.offset + 4 ≤ module.memory.size

section

variable {module : PNModule} {p : PNRelocInfo} {rs : PNReadState} {s : PNGlobalvarState} {count fuel stop : Nat}
  {ds : List GlobalVarDecl} {init : PNInitializer} {rest : List Bool}

theorem pnMemoryCheck_fits {memory : PNMemory} {offset size : Nat} (hlow : PN_MEMORY_GUARD_SIZE ≤ offset)
    (hfits : offset + size ≤ memory.size) (hsize : memory.size < 2 ^ 32) : pnMemoryCheck memory offset size = .ok () := by
  rw [pnMemoryCheck, if_neg (by omega), Nat.mod_eq_of_lt (by omega), if_neg (by omega)]

theorem RelocReady.write (h : RelocReady module p) (hsize : module.memory.size < 2 ^ 32) :
    ∃ v, pnGlobalvarWriteReloc module p.index p.offset p.addend =
      .ok { module with memory := { module.memory with data := storeBytes module.memory.data p.offset 4 v } } := by
  have hcheck := pnMemoryCheck_fits h.low h.fits hsize
  rcases h.target with ⟨id, hcode, haddend⟩ | ⟨id, var, hcode, hvar⟩
  · refine ⟨pnFunctionIdToPointer id, ?_⟩
    rw [pnGlobalvarWriteReloc, hcode]
    dsimp only
    rw [pnCheck_bind haddend, pnMemoryWrite, hcheck]
    rfl
  · refine ⟨(var.offset + p.addend) % 2 ^ 32, ?_⟩
    rw [pnGlobalvarWriteReloc, hcode]
    dsimp only
    rw [hvar]
    dsimp only
    rw [pnMemoryWrite, hcheck]
    rfl

/-- What the block leaves alone. -/
structure GlobalvarsKept (rs rs' : PNReadState) : Prop where
  version : rs'.module.version = rs.module.version
  functions : rs'.module.functions = rs.module.functions
  types : rs'.module.types = rs.module.types
  knownFunctions : rs'.module.knownFunctions = rs.module.knownFunctions
  context : rs'.context = rs.context
  trace : rs'.trace = rs.trace

/-- Behind the variables `ds`, of `count`: they are laid out, and the relocations that wait have a target. -/
structure GlobalvarsRead (rs : PNReadState) (count : Nat) (ds : List GlobalVarDecl) (s : PNGlobalvarState) : Prop where
  inv : GlobalvarInv rs count ds s
  frame : GlobalvarsKept rs s.rs
  target : ∀ p ∈ s.relocInfos, RelocTarget rs.module count p.index p.addend

theorem declsEnd_le_append (ds ds' : List GlobalVarDecl) : declsEnd ds ≤ declsEnd (ds ++ ds') :=
  placeEnd_le_append GlobalVarDecl.alignment_pos _ ds ds'

/-- A relocation with a target can be written as soon as its value is there. -/
theorem GlobalvarInv.relocReady (h : GlobalvarInv rs count ds s)
    (ht : RelocTarget rs.module count p.index p.addend) (hindex : p.index < s.rs.module.values.length)
    (hlow : PN_MEMORY_GUARD_SIZE ≤ p.offset) (hfits : p.offset + 4 ≤ rs.module.memory.size) : RelocReady s.rs.module p := by
  obtain ⟨vs, hvs, hcodes⟩ := h.values
  refine ⟨hindex, ?_, hlow, by rw [h.size]; exact hfits⟩
  rw [List.getD_eq_getElem?_getD, hvs]
  rcases ht with ⟨id, hcode, haddend⟩ | ⟨hle, hlt⟩
  · left
    obtain ⟨value, hvalue, hcode⟩ := Option.map_eq_some_iff.mp hcode
    rw [List.getElem?_append_left (List.getElem?_eq_some_iff.mp hvalue).1, hvalue]
    exact ⟨id, hcode, haddend⟩
  · right
    have hlen : vs.length = ds.length := by
      have := congrArg List.length hcodes
      simpa using this
    rw [hvs, List.length_append, hlen] at hindex
    have hi : p.index - rs.module.values.length < ds.length := by omega
    have hget := congrArg (·[p.index - rs.module.values.length]?) hcodes
    simp only [List.getElem?_map, List.getElem?_range hi, Option.map_some] at hget
    obtain ⟨value, hvalue, hcode⟩ := Option.map_eq_some_iff.mp hget
    have hstart : p.index - rs.module.values.length < (starts ds).length := by rwa [length_starts]
    obtain ⟨var, hvar, -⟩ := h.vars (List.getElem?_eq_getElem hstart)
    rw [List.getElem?_append_right hle, hvalue]
    exact ⟨_, var, hcode, hvar⟩

theorem pnModuleFindPointerType_kept (h : GlobalvarsKept rs s.rs) :
    pnModuleFindPointerType s.rs.module = pnModuleFindPointerType rs.module := by
  rw [pnModuleFindPointerType, pnModuleFindPointerType, pnModuleFindIntegerType, pnModuleFindIntegerType, h.types]

theorem alignmentOf_ok {n : Nat} (h : 1 ≤ n ∧ n ≤ 16) :
    alignmentOf n = .ok (2 ^ (n - 1)) ∧ pnIsPowerOfTwo (2 ^ (n - 1)) = true := by
  obtain ⟨h₁, h₂⟩ := h
  interval_cases n <;> exact ⟨rfl, by decide⟩

/-- VAR. -/
theorem GlobalvarsRead.var (h : GlobalvarsRead rs count ds s) (hbase : rs.module.numGlobalVars = 0)
    (hpointer : ∃ typeId, pnModuleFindPointerType rs.module = .ok typeId) {n c : Nat} (hn : 1 ≤ n ∧ n ≤ 16) (hc : c < 2 ^ 32)
    (hcount : ds.length < count) (hfit : declsEnd (ds ++ [⟨n, []⟩]) < 2 ^ 32) (hfuel : 2 < fuel) :
    ∃ s', (pnGlobalvarBlock fuel).TakesRecord s (0, [n, c]) s' ∧ GlobalvarsRead rs count (ds ++ [⟨n, []⟩]) s' ∧
      s'.initializerId = 0 ∧ ∃ var, s'.globalVar = some var := by
  obtain ⟨typeId, hpointer⟩ := hpointer
  obtain ⟨halign, hpow⟩ := alignmentOf_ok hn
  have hid : s.rs.module.numGlobalVars < s.numGlobalVars := by
    rw [h.inv.numGlobalVars, h.inv.announced, hbase]
    omega
  have hk := h.frame
  refine ⟨s.beginVar n c typeId, ?_, ⟨h.inv.var c typeId (by omega) hid hfit,
    ⟨hk.version, hk.functions, hk.types, hk.knownFunctions, hk.context, hk.trace⟩, h.target⟩, rfl, _, rfl⟩
  intro reader stop rest hb
  obtain ⟨r₁, h₁, hb₁⟩ := PNRecordReader.Before.readUint32 hb (show n < 2 ^ 32 by omega) "alignment"
  obtain ⟨r₂, h₂, hb₂⟩ := hb₁.readUint32 hc "is_constant"
  obtain ⟨bs, hf, hg⟩ := hb₂.finish (show 0 < fuel by omega) (s.beginVar n c typeId)
  have hread : readVar s reader = .ok (s.beginVar n c typeId, r₂) := by
    rw [readVar]
    dsimp only
    rw [pnCheck_bind hid, h₁, ok_bind]
    dsimp only
    rw [halign, ok_bind, h₂, ok_bind]
    dsimp only
    rw [pnCheck_bind hpow, pnModuleFindPointerType_kept h.frame, hpointer]
    rfl
  refine ⟨bs, ?_, hg⟩
  simp only [pnGlobalvarBlock, hread, ok_bind]
  exact hf

/-- COMPOUND. -/
theorem GlobalvarsRead.compound (h : GlobalvarsRead rs count ds s) {var : PNGlobalVar} (hvar : s.globalVar = some var)
    {n : Nat} (hn : n < 2 ^ 32) (hfuel : 1 < fuel) :
    (pnGlobalvarBlock fuel).TakesRecord s (1, [n]) (s.setVar { var with numInitializers := n }) ∧
      GlobalvarsRead rs count ds (s.setVar { var with numInitializers := n }) := by
  have hk := h.frame
  refine ⟨?_, h.inv.compound hvar n, ⟨hk.version, hk.functions, hk.types, hk.knownFunctions, hk.context, hk.trace⟩, h.target⟩
  intro reader stop rest hb
  obtain ⟨r₁, h₁, hb₁⟩ := PNRecordReader.Before.readUint32 hb hn "num_initializers"
  obtain ⟨bs, hf, hg⟩ := hb₁.finish (show 0 < fuel by omega) (s.setVar { var with numInitializers := n })
  refine ⟨bs, ?_, hg⟩
  simp only [pnGlobalvarBlock, hvar, h₁, ok_bind]
  exact hf

/-! ## Initializers -/

/-- The memory behind DATA. -/
def dataMemory (memory : PNMemory) (offset : Nat) : List Nat → PNMemory
  | [] => memory
  | b :: bytes => dataMemory { memory with data := storeBytes memory.data offset 1 b } (offset + 1) bytes

theorem dataMemory_size : ∀ (bytes : List Nat) (memory : PNMemory) (offset : Nat),
    (dataMemory memory offset bytes).size = memory.size
  | [], _, _ => rfl
  | b :: bytes, memory, offset => dataMemory_size bytes { memory with data := storeBytes memory.data offset 1 b } (offset + 1)

theorem dataMemory_below : ∀ (bytes : List Nat) (memory : PNMemory) {offset i : Nat}, i < offset →
    (dataMemory memory offset bytes).data i = memory.data i
  | [], _, _, _, _ => rfl
  | b :: bytes, memory, offset, i, hi => by
    rw [dataMemory, dataMemory_below bytes _ (Nat.lt_succ_of_lt hi)]
    exact storeBytes_outside (.inl hi)

theorem dataMemory_bytes : ∀ {bytes : List Nat} (memory : PNMemory) (offset : Nat) {k b : Nat}, bytes[k]? = some b →
    (dataMemory memory offset bytes).data (offset + k) = UInt8.ofNat b
  | b :: bytes, memory, offset, 0, _, h => by
    obtain rfl := Option.some.inj h
    change (dataMemory _ (offset + 1) bytes).data offset = _
    rw [dataMemory_below bytes _ (Nat.lt_succ_self offset)]
    simp [storeBytes]
  | b :: bytes, memory, offset, k + 1, _, h => by
    rw [dataMemory, show offset + (k + 1) = offset + 1 + k by omega]
    exact dataMemory_bytes _ (offset + 1) h

/-- The loop of DATA writes the bytes. -/
theorem readData_before : ∀ {bytes : List Nat} {reader : PNRecordReader} (memory : PNMemory) (offset : Nat) {fuel : Nat},
    reader.Before bytes stop rest → (∀ b ∈ bytes, b < 2 ^ 8) → offset + bytes.length ≤ memory.size → memory.size < 2 ^ 32 →
    bytes.length < fuel →
    ∃ r', readData fuel reader memory offset = .ok (dataMemory memory offset bytes, offset + bytes.length, r') ∧
      r'.Before [] stop rest
  | _, _, _, _, 0, _, _, _, _, hfuel => absurd hfuel (Nat.not_lt_zero _)
  | [], reader, memory, offset, fuel + 1, h, _, _, _, _ => ⟨reader, by rw [readData, h.tryRead_end]; rfl, h⟩
  | b :: bytes, reader, memory, offset, fuel + 1, h, hbytes, hfits, hsize, hfuel => by
    have hb := hbytes b (List.mem_cons_self ..)
    rw [List.length_cons] at hfits hfuel
    obtain ⟨r₁, h₁, hb₁⟩ := h.tryRead (show b < 2 ^ 32 by omega)
    obtain ⟨r', hr, hb'⟩ := readData_before { memory with data := storeBytes memory.data offset 1 b } (offset + 1) hb₁
      (fun c hc => hbytes c (List.mem_cons_of_mem _ hc)) (show offset + 1 + bytes.length ≤ memory.size by omega) hsize
      (show bytes.length < fuel by omega)
    refine ⟨r', ?_, hb'⟩
    have hmod : (offset + 1) % 2 ^ 32 = offset + 1 := Nat.mod_eq_of_lt (by omega)
    rw [readData, h₁, ok_bind]
    dsimp only
    rw [if_neg (by omega), hmod, if_neg (by omega), hr, dataMemory, List.length_cons]
    congr 3
    omega

/-- The next initializer is one that was announced. -/
theorem nextInitializer_announced {var : PNGlobalVar} (hvar : s.globalVar = some var) (hid : s.initializerId < var.numInitializers)
    (hnum : var.numInitializers < 2 ^ 32) : s.nextInitializer = .ok { s with initializerId := s.initializerId + 1 } := by
  rw [PNGlobalvarState.nextInitializer, hvar]
  dsimp only
  rw [pnCheck_bind hid, Nat.mod_eq_of_lt (show s.initializerId + 1 < 2 ^ 32 by omega)]

/-- The next initializer of the current variable. -/
theorem GlobalvarsRead.initializer (h : GlobalvarsRead rs count ds s) (hsize : rs.module.memory.size < 2 ^ 32) {var : PNGlobalVar}
    (hvar : s.globalVar = some var) (hid : s.initializerId < var.numInitializers) (hnum : var.numInitializers < 2 ^ 32)
    (hw : InitializerWritable rs.module count init) (hfit : declsEnd ds + init.size ≤ rs.module.memory.size)
    (hfuel : (encInitializer init).2.length < fuel) :
    ∃ s', (pnGlobalvarBlock fuel).TakesRecord s (encInitializer init) s' ∧ GlobalvarsRead rs count (addInitializer init ds) s' ∧
      s'.globalVar = some var ∧ s'.initializerId = s.initializerId + 1 := by
  have hk := h.frame
  have hkept : ∀ memory, GlobalvarsKept rs { s.rs with module := { s.rs.module with memory := memory } } := fun memory =>
    ⟨hk.version, hk.functions, hk.types, hk.knownFunctions, hk.context, hk.trace⟩
  have hnext := nextInitializer_announced hvar hid hnum
  have hlow : PN_MEMORY_GUARD_SIZE ≤ declsEnd ds := declsEnd_le_append [] ds
  have hpos : 0 < fuel := by omega
  cases init with
  | zerofill numBytes =>
    simp only [PNInitializer.size] at hfit
    have hcheck : pnMemoryCheck s.rs.module.memory s.dataOffset numBytes = .ok () := by
      rw [h.inv.dataOffset]
      exact pnMemoryCheck_fits hlow (h.inv.size ▸ hfit) (h.inv.size ▸ hsize)
    have hmod : (s.dataOffset + numBytes) % 2 ^ 32 = s.dataOffset + numBytes := by
      rw [h.inv.dataOffset]
      exact Nat.mod_eq_of_lt (by omega)
    have hinv := h.inv.written hvar (.zerofill numBytes) { s.rs.module.memory with
        data := fillBytes s.rs.module.memory.data s.dataOffset 0 numBytes } (s.initializerId + 1) rfl
      (fun i hi => fillBytes_outside (.inl (h.inv.dataOffset ▸ hi)))
      (fun k hk => if_pos (by rw [h.inv.dataOffset]; omega)) (congrArg (· + numBytes) h.inv.dataOffset)
    refine ⟨_, ?_, ⟨hinv, hkept _, h.target⟩, hvar, rfl⟩
    intro reader stop rest hb
    obtain ⟨r₁, h₁, hb₁⟩ := PNRecordReader.Before.readUint32 hb (show numBytes < 2 ^ 32 by omega) "num_bytes"
    obtain ⟨bs, hf, hg⟩ := hb₁.finish hpos _
    refine ⟨bs, ?_, hg⟩
    simp only [pnGlobalvarBlock, encInitializer, hnext, h₁, hcheck, hmod, ok_bind]
    exact hf
  | data bytes =>
    simp only [PNInitializer.size] at hfit
    have hinv := h.inv.written hvar (.data bytes) (dataMemory s.rs.module.memory s.dataOffset bytes) (s.initializerId + 1)
      (dataMemory_size _ _ _) (fun i hi => dataMemory_below _ _ (h.inv.dataOffset ▸ hi))
      (fun k b hk => ⟨hw b (List.mem_of_getElem? hk), h.inv.dataOffset ▸ dataMemory_bytes _ _ hk⟩)
      (congrArg (· + bytes.length) h.inv.dataOffset)
    refine ⟨_, ?_, ⟨hinv, hkept _, h.target⟩, hvar, rfl⟩
    intro reader stop rest hb
    obtain ⟨r₁, h₁, hb₁⟩ := readData_before s.rs.module.memory s.dataOffset hb hw
      (by rw [h.inv.dataOffset, h.inv.size]; exact hfit) (h.inv.size ▸ hsize) hfuel
    obtain ⟨bs, hf, hg⟩ := hb₁.finish hpos _
    refine ⟨bs, ?_, hg⟩
    simp only [pnGlobalvarBlock, encInitializer, hnext, h₁, ok_bind]
    exact hf
  | reloc index addend =>
    obtain ⟨hindex, haddend, htarget⟩ := hw
    simp only [PNInitializer.size] at hfit
    have hmod : (s.dataOffset + 4) % 2 ^ 32 = s.dataOffset + 4 := by
      rw [h.inv.dataOffset]
      exact Nat.mod_eq_of_lt (by omega)
    -- it is enough to see what the reader does behind the two values
    suffices ∃ s', (∀ reader r₁ r₂, pnRecordReadUint32 reader "reloc index" = .ok (index, r₁) →
        pnRecordTryReadUint32 r₁ = .ok (some addend, r₂) → readReloc s reader = .ok (s', r₂)) ∧
        GlobalvarsRead rs count (addInitializer (.reloc index addend) ds) s' ∧ s'.globalVar = some var ∧
        s'.initializerId = s.initializerId + 1 by
      obtain ⟨s', hread, hrest⟩ := this
      refine ⟨s', ?_, hrest⟩
      intro reader stop rest hb
      obtain ⟨r₁, h₁, hb₁⟩ := PNRecordReader.Before.readUint32 hb hindex "reloc index"
      obtain ⟨r₂, h₂, hb₂⟩ := hb₁.tryRead haddend
      obtain ⟨bs, hf, hg⟩ := hb₂.finish hpos s'
      refine ⟨bs, ?_, hg⟩
      simp only [pnGlobalvarBlock, encInitializer, hread reader r₁ r₂ h₁ h₂, ok_bind]
      exact hf
    by_cases hlt : index < s.rs.module.values.length
    · have hready : RelocReady s.rs.module ⟨s.dataOffset, index, addend⟩ := by
        refine h.inv.relocReady htarget hlt ?_ ?_
        · rw [h.inv.dataOffset]
          exact hlow
        · rw [h.inv.dataOffset]
          exact hfit
      obtain ⟨v, hv⟩ := hready.write (h.inv.size ▸ hsize)
      obtain ⟨-, -, hholds⟩ := pnGlobalvarWriteReloc_holds hv hlt
      have hinv := h.inv.written hvar (.reloc index addend) { s.rs.module.memory with
          data := storeBytes s.rs.module.memory.data s.dataOffset 4 v } (s.initializerId + 1) rfl
        (fun i hi => storeBytes_outside (.inl (h.inv.dataOffset ▸ hi))) (h.inv.dataOffset ▸ hholds)
        (congrArg (· + 4) h.inv.dataOffset)
      refine ⟨_, fun reader r₁ r₂ h₁ h₂ => ?_, ⟨hinv, hkept _, h.target⟩, hvar, rfl⟩
      rw [readReloc, hnext, ok_bind, h₁, ok_bind]
      dsimp only
      rw [h₂, ok_bind]
      dsimp only
      rw [if_pos hlt, Option.getD_some, hv, hmod]
      rfl
    · have hinv := h.inv.fill hvar (.reloc index addend) s.rs.module.memory (s.initializerId + 1) rfl (fun _ _ => rfl)
        [⟨s.dataOffset, index, addend⟩] (.inr ⟨_, List.mem_singleton.mpr rfl, by rw [h.inv.dataOffset]⟩) fun q hq => by
          rw [List.mem_singleton.mp hq, h.inv.dataOffset]
      refine ⟨_, fun reader r₁ r₂ h₁ h₂ => ?_, ⟨hinv, hkept _, fun q hq => ?_⟩, hvar, rfl⟩
      · rw [readReloc, hnext, ok_bind, h₁, ok_bind]
        dsimp only
        rw [h₂, ok_bind]
        dsimp only
        rw [if_neg hlt, Option.getD_some, hmod, h.inv.dataOffset]
        rfl
      · rcases List.mem_append.mp hq with hq | hq
        · exact h.target q hq
        · rw [List.mem_singleton.mp hq]
          exact htarget

/-! ## Runs of records -/

theorem encInitializer_code_lt (init : PNInitializer) : (encInitializer init).1 < 2 ^ 32 := by
  cases init <;> exact of_decide_eq_true rfl

/-- Where a variable ends that gets more initializers. -/
theorem declsEnd_initializers (ds : List GlobalVarDecl) (d : GlobalVarDecl) (is : List PNInitializer) :
    declsEnd (ds ++ [{ d with initializers := d.initializers ++ is }]) =
      declsEnd (ds ++ [d]) + (is.map PNInitializer.size).sum := by
  rw [declsEnd_append, declsEnd_append, GlobalVarDecl.size, List.map_append, List.sum_append, ← Nat.add_assoc]
  rfl

/-- One initializer after the other. -/
theorem GlobalvarsRead.initializers (hsize : rs.module.memory.size < 2 ^ 32) {var : PNGlobalVar}
    (hnum : var.numInitializers < 2 ^ 32) : ∀ (todo : List PNInitializer) {s : PNGlobalvarState} {d : GlobalVarDecl},
    GlobalvarsRead rs count (ds ++ [d]) s → s.globalVar = some var → s.initializerId + todo.length ≤ var.numInitializers →
    (∀ init ∈ todo, InitializerWritable rs.module count init) →
    declsEnd (ds ++ [{ d with initializers := d.initializers ++ todo }]) ≤ rs.module.memory.size →
    (∀ r ∈ todo.map encInitializer, r.2.length < fuel) →
    ∃ s', (pnGlobalvarBlock fuel).Takes s (todo.map encInitializer) s' ∧
      GlobalvarsRead rs count (ds ++ [{ d with initializers := d.initializers ++ todo }]) s'
  | [], s, d, h, _, _, _, _, _ => ⟨s, .nil s, by rwa [List.append_nil]⟩
  | init :: todo, s, d, h, hvar, hid, hw, hfit, hfuel => by
    rw [List.length_cons] at hid
    have hend := hfit
    rw [declsEnd_initializers, List.map_cons, List.sum_cons] at hend
    obtain ⟨s₁, htake, h₁, hvar₁, hid₁⟩ := h.initializer hsize hvar (by omega) hnum (hw init (List.mem_cons_self ..))
      (by omega) (hfuel _ (List.mem_cons_self ..))
    rw [addInitializer_append] at h₁
    have happ : d.initializers ++ [init] ++ todo = d.initializers ++ init :: todo := List.append_cons .. |>.symm
    obtain ⟨s', htakes, h'⟩ := GlobalvarsRead.initializers hsize hnum todo h₁ hvar₁ (by omega)
      (fun i hi => hw i (List.mem_cons_of_mem _ hi)) (by simpa only [happ] using hfit)
      fun r hr => hfuel r (List.mem_cons_of_mem _ hr)
    exact ⟨s', .cons (encInitializer_code_lt init) htake htakes, by simpa only [happ] using h'⟩

/-- One variable with all its records. -/
theorem GlobalvarsRead.written (h : GlobalvarsRead rs count ds s) (hbase : rs.module.numGlobalVars = 0)
    (hpointer : ∃ typeId, pnModuleFindPointerType rs.module = .ok typeId) (hsize : rs.module.memory.size < 2 ^ 32)
    {v : WrittenVar} (hw : VarWritable rs.module count v) (hcount : ds.length < count)
    (hfit : declsEnd (ds ++ [v.toGlobalVarDecl]) ≤ rs.module.memory.size) (hfuel : ∀ r ∈ encVar v, r.2.length < fuel) :
    ∃ s', (pnGlobalvarBlock fuel).Takes s (encVar v) s' ∧ GlobalvarsRead rs count (ds ++ [v.toGlobalVarDecl]) s' := by
  have hfuel2 : 2 < fuel := hfuel (0, [v.alignField, v.isConstant]) (List.mem_cons_self ..)
  have hend : declsEnd (ds ++ [v.toGlobalVarDecl]) =
      declsEnd (ds ++ [⟨v.alignField, []⟩]) + (v.initializers.map PNInitializer.size).sum :=
    declsEnd_initializers ds ⟨v.alignField, []⟩ v.initializers
  obtain ⟨s₁, htake₁, h₁, hid₁, var, hvar⟩ := h.var hbase hpointer hw.align hw.isConstant hcount (by omega) hfuel2
  obtain ⟨htake₂, h₂⟩ := h₁.compound hvar hw.length (show 1 < fuel by omega)
  obtain ⟨s', htakes, h'⟩ := GlobalvarsRead.initializers hsize hw.length v.initializers h₂ rfl
    (by simp [PNGlobalvarState.setVar, PNGlobalvarState.setModule, hid₁]) hw.initializer hfit
    fun r hr => hfuel r (List.mem_cons_of_mem _ (List.mem_cons_of_mem _ hr))
  exact ⟨s', .cons (show 0 < 2 ^ 32 by decide) htake₁ (.cons (show 1 < 2 ^ 32 by decide) htake₂ htakes), h'⟩

/-- One variable after the other. -/
theorem GlobalvarsRead.vars (hbase : rs.module.numGlobalVars = 0)
    (hpointer : ∃ typeId, pnModuleFindPointerType rs.module = .ok typeId) (hsize : rs.module.memory.size < 2 ^ 32) :
    ∀ (todo : List WrittenVar) {s : PNGlobalvarState} {ds : List GlobalVarDecl}, GlobalvarsRead rs count ds s →
    (∀ v ∈ todo, VarWritable rs.module count v) → ds.length + todo.length ≤ count →
    declsEnd (ds ++ todo.map WrittenVar.toGlobalVarDecl) ≤ rs.module.memory.size →
    (∀ r ∈ todo.flatMap encVar, r.2.length < fuel) →
    ∃ s', (pnGlobalvarBlock fuel).Takes s (todo.flatMap encVar) s' ∧
      GlobalvarsRead rs count (ds ++ todo.map WrittenVar.toGlobalVarDecl) s'
  | [], s, ds, h, _, _, _, _ => ⟨s, .nil s, by rwa [List.map_nil, List.append_nil]⟩
  | v :: todo, s, ds, h, hw, hcount, hfit, hfuel => by
    rw [List.length_cons] at hcount
    have happ : ds ++ (v :: todo).map WrittenVar.toGlobalVarDecl =
        ds ++ [v.toGlobalVarDecl] ++ todo.map WrittenVar.toGlobalVarDecl := by
      rw [List.map_cons, List.append_assoc, List.singleton_append]
    rw [happ] at hfit ⊢
    rw [List.flatMap_cons] at hfuel ⊢
    obtain ⟨s₁, htakes₁, h₁⟩ := h.written hbase hpointer hsize (hw v (List.mem_cons_self ..)) (by omega)
      ((declsEnd_le_append _ _).trans hfit) fun r hr => hfuel r (List.mem_append_left _ hr)
    obtain ⟨s', htakes, h'⟩ := GlobalvarsRead.vars hbase hpointer hsize todo h₁ (fun w hmem => hw w (List.mem_cons_of_mem _ hmem))
      (by rw [List.length_append, List.length_singleton]; omega) hfit fun r hr => hfuel r (List.mem_append_right _ hr)
    exact ⟨s', htakes₁.append htakes, h'⟩

end

end Pnacl
