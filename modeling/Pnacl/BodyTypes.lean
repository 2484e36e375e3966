import Pnacl.TypeEquations
import Pnacl.PhiRead

/-!
# The types of values while a body is read

What the reader makes sure of: an entry of the type table has the basic type of its width, the values of a function have the types
that their records name, each instruction defines a value of its own, and the constants are in the order of their values (`BodyOk`).
Only the types of BINOP and VSELECT are left to the passes (`BodyRead`).
-/

namespace Pnacl

open Lib

/-! ## The type table -/

/-- A `PNTypeId` has 16 bits. -/
def PNType.Small (type : PNType) : Prop := ∀ typeId ∈ type.typeIds, typeId < 2 ^ 16

/-- A table that type records have filled in. -/
structure TableOk (types : List PNType) : Prop where
  length : types.length < 2 ^ 16
  width : ∀ width basicType, .integer width basicType ∈ types → basicTypeOfWidth width = .ok basicType
  small : ∀ type ∈ types, type.Small

/-- The same while the table is filled in. -/
structure TableInv (s : PNTypeState) : Prop where
  cur : s.currentTypeId < 2 ^ 16
  width : ∀ width basicType, .integer width basicType ∈ s.rs.module.types → basicTypeOfWidth width = .ok basicType
  small : ∀ type ∈ s.rs.module.types, type.Small

section Table

variable {host : PNHost} {dedupe : Bool} {fuel : Nat} {s s' : PNTypeState} {rs rs' : PNReadState} {bs bs' : PNBitStream}

theorem TableInv.fill (h : TableInv s) {type : PNType}
    (hw : ∀ width basicType, type = .integer width basicType → basicTypeOfWidth width = .ok basicType) (hs : type.Small) :
    TableInv (s.fill type) := by
  refine ⟨Nat.mod_lt _ (by decide), ?_, ?_⟩
  · intro width basicType hmem
    rcases List.mem_or_eq_of_mem_set hmem with hmem | heq
    · exact h.width width basicType hmem
    · exact hw width basicType heq.symm
  · intro t ht
    rcases List.mem_or_eq_of_mem_set ht with ht | rfl
    · exact h.small t ht
    · exact hs

theorem readArgTypes_small {module : PNModule} : ∀ {n : Nat} {reader reader' : PNRecordReader} {args args' : List Nat},
    (∀ t ∈ args, t < 2 ^ 16) → readArgTypes module n reader args = .ok (args', reader') → ∀ t ∈ args', t < 2 ^ 16
  | 0, _, _, _, _, ha, h => by
    cases h
    exact ha
  | n + 1, reader, reader', args, args', ha, h => by
    obtain ⟨⟨typeId, r₁⟩, h₁, h⟩ := bind_eq_ok.mp h
    obtain ⟨_, h⟩ := pnCheck_bind_eq_ok.mp h
    refine readArgTypes_small ?_ h
    intro t ht
    rcases List.mem_append.mp ht with ht | ht
    · exact ha t ht
    · rw [List.mem_singleton.mp ht]
      exact pnRecordReadUint16_lt h₁

theorem pnTypeBlock_keeps_table : (pnTypeBlock fuel).Keeps TableInv (fun s => TableOk s.rs.module.types) := by
  constructor
  · intro s s' bs bs' hs h
    obtain ⟨heq, h⟩ := pnCheck_bind_eq_ok.mp h
    cases alignEnd_eq_ok h
    exact ⟨heq ▸ hs.cur, hs.width, hs.small⟩
  · intro s s' bs bs' hs h
    cases h
  · intro s s' ab hs h
    cases h
    exact hs
  · intro s s' code reader bs' hs h
    simp only [pnTypeBlock] at h
    split at h
    · obtain ⟨⟨n, r₁⟩, _, h⟩ := bind_eq_ok.mp h
      cases finish_eq_ok h
      refine ⟨hs.cur, ?_, ?_⟩
      · intro width basicType hmem
        cases List.eq_of_mem_replicate hmem
      · intro type hmem
        rw [List.eq_of_mem_replicate hmem]
        exact fun _ ht => (List.not_mem_nil ht).elim
    · obtain ⟨_, h⟩ := pnCheck_bind_eq_ok.mp h
      cases finish_eq_ok h
      exact hs.fill (by rintro _ _ ⟨⟩) fun _ ht => (List.not_mem_nil ht).elim
    · obtain ⟨_, h⟩ := pnCheck_bind_eq_ok.mp h
      cases finish_eq_ok h
      exact hs.fill (by rintro _ _ ⟨⟩) fun _ ht => (List.not_mem_nil ht).elim
    · obtain ⟨_, h⟩ := pnCheck_bind_eq_ok.mp h
      cases finish_eq_ok h
      exact hs.fill (by rintro _ _ ⟨⟩) fun _ ht => (List.not_mem_nil ht).elim
    · obtain ⟨_, h⟩ := pnCheck_bind_eq_ok.mp h
      obtain ⟨⟨width, r₁⟩, _, h⟩ := bind_eq_ok.mp h
      obtain ⟨basicType, hw, h⟩ := bind_eq_ok.mp h
      cases finish_eq_ok h
      refine hs.fill ?_ fun _ ht => (List.not_mem_nil ht).elim
      intro w b heq
      cases heq
      exact hw
    · obtain ⟨_, h⟩ := pnCheck_bind_eq_ok.mp h
      obtain ⟨⟨isVarargs, r₁⟩, _, h⟩ := bind_eq_ok.mp h
      obtain ⟨⟨returnType, r₂⟩, _, h⟩ := bind_eq_ok.mp h
      obtain ⟨_, h⟩ := pnCheck_bind_eq_ok.mp h
      obtain ⟨⟨numArgs, r₃⟩, _, h⟩ := bind_eq_ok.mp h
      obtain ⟨⟨argTypes, r₄⟩, ha, h⟩ := bind_eq_ok.mp h
      cases finish_eq_ok h
      refine hs.fill (by rintro _ _ ⟨⟩) ?_
      intro t ht
      rcases List.mem_cons.mp ht with rfl | ht
      · exact Nat.mod_lt _ (by decide)
      · exact readArgTypes_small (fun _ ht => (List.not_mem_nil ht).elim) ha t ht
    · cases h

theorem pnTypeBlockRead_table (hok : TableOk rs.module.types) (h : pnTypeBlockRead host fuel rs bs = .ok (rs', bs')) :
    TableOk rs'.module.types := by
  obtain ⟨⟨s, bs₁⟩, h, hs⟩ := bind_eq_ok.mp h
  cases hs
  exact readBlock_inv pnTypeBlock_keeps_table (s := ⟨rs, 0⟩) ⟨Nat.two_pow_pos 16, hok.width, hok.small⟩ h

/-- The table and the values of the module. -/
structure PNModule.TypesRead (module : PNModule) : Prop where
  table : TableOk module.types
  values : ∀ v ∈ module.values, v.typeId < 2 ^ 16

theorem PNModule.TypesRead.subblock {s s' : PNModuleState} (hs : s.rs.module.TypesRead)
    (h : (pnModuleBlock host dedupe fuel).subblock s bs = .ok (s', bs')) : s'.rs.module.TypesRead := by
  obtain ⟨⟨id, bs₁⟩, _, h⟩ := bind_eq_ok.mp h
  dsimp only at h
  split at h
  · obtain ⟨⟨rs, bs₂⟩, hb, h⟩ := bind_eq_ok.mp h
    cases h
    rw [(pnBlockinfoBlockRead_frame hb).1]
    exact hs
  · obtain ⟨⟨rs, bs₂⟩, hb, h⟩ := bind_eq_ok.mp h
    cases h
    exact ⟨pnTypeBlockRead_table hs.table hb, (pnTypeBlockRead_frame hb).values ▸ hs.values⟩
  · obtain ⟨⟨rs, bs₂⟩, hb, h⟩ := bind_eq_ok.mp h
    cases h
    have hf := pnGlobalvarBlockRead_frame hb
    obtain ⟨vs, hv, hlt⟩ := hf.values
    refine ⟨hf.types ▸ hs.table, ?_⟩
    intro v hmem
    rw [hv] at hmem
    rcases List.mem_append.mp hmem with hmem | hmem
    · exact hs.values v hmem
    · exact Nat.lt_trans (hlt v hmem) hs.table.length
  · obtain ⟨⟨rs, bs₂⟩, hb, h⟩ := bind_eq_ok.mp h
    cases h
    have hf := pnValueSymtabBlockRead_frame hb
    exact ⟨hf.types ▸ hs.table, hf.values ▸ hs.values⟩
  · obtain ⟨_, h⟩ := pnCheck_bind_eq_ok.mp h
    obtain ⟨⟨rs, bs₂⟩, hb, h⟩ := bind_eq_ok.mp h
    cases h
    have hf := pnFunctionBlockRead_frame hb
    exact ⟨hf.types ▸ hs.table, hf.values ▸ hs.values⟩
  · cases h

theorem pnModuleBlock_keeps_types : (pnModuleBlock host dedupe fuel).Keeps (fun s => s.rs.module.TypesRead)
    (fun s => s.rs.module.TypesRead) := by
  constructor
  · intro s s' bs bs' hs h
    cases alignEnd_eq_ok h
    exact hs
  · intro s s' bs bs' hs h
    exact hs.subblock h
  · intro s s' ab hs h
    cases h
    exact hs
  · intro s s' code reader bs' hs h
    simp only [pnModuleBlock] at h
    split at h
    · obtain ⟨⟨version, r₁⟩, _, h⟩ := bind_eq_ok.mp h
      cases finish_eq_ok h
      exact ⟨hs.table, hs.values⟩
    · obtain ⟨⟨rs, r₁⟩, hr, h⟩ := bind_eq_ok.mp h
      cases finish_eq_ok h
      obtain ⟨g, typeId, hlt, -, -, -, -, -, -, hm⟩ := readFunction_cases hr
      rw [hm]
      refine ⟨hs.table, ?_⟩
      intro v hmem
      rcases List.mem_append.mp hmem with hmem | hmem
      · exact hs.values v hmem
      · rw [List.mem_singleton.mp hmem]
        exact Nat.lt_trans hlt hs.table.length
    · cases h

/-- The table of an accepted module, and the types of its values. -/
theorem pnModuleRead_types {memory : PNMemory}
    (h : pnModuleRead host dedupe fuel (pnModuleInit memory) bs = .ok (rs, bs')) : rs.module.TypesRead := by
  obtain ⟨s, bs₁, bs₂, hb, rfl⟩ := pnModuleRead_cases h
  refine readBlock_inv pnModuleBlock_keeps_types ?_ hb
  refine ⟨⟨by simp [pnModuleInit], ?_, ?_⟩, ?_⟩ <;> simp [pnModuleInit]

end Table

/-! ## Constants -/

/-- A defined constant of type `i1` is 0 or 1. -/
def ConstantOk (host : PNHost) (module : PNModule) (c : PNConstant) : Prop :=
  c.code ≠ .undef → (module.type host c.typeId).basicType = .int1 → ∃ w < 2, c.value = some w

def PNValue.isConstant (v : PNValue) : Bool :=
  match v.code with
  | .constant _ => true
  | _ => false

/-- The constants of a function, each with a value of its type. -/
structure ConstantsOk (host : PNHost) (module : PNModule) (f : PNFunction) : Prop where
  typeIds : (f.values.filter PNValue.isConstant).map PNValue.typeId = f.constants.map PNConstant.typeId
  ok : ∀ c ∈ f.constants, ConstantOk host module c

/-- What holds while a constants block is read. -/
structure ConstantTypes (host : PNHost) (module : PNModule) (s : PNConstantsState) : Prop where
  same : s.rs.module = module
  cur : s.curBasicType = (module.type host s.curTypeId).basicType ∨ s.curBasicType = .void
  ok : ConstantsOk host module s.function

section Constants

variable {host : PNHost} {fuel : Nat} {module : PNModule} {s : PNConstantsState} {rs rs' : PNReadState} {f f' : PNFunction}
  {bs bs' : PNBitStream} {functionId : Nat}

/-- `data & 1`. -/
theorem readIntegerConstant_lt {reader reader' : PNRecordReader} {w : Nat}
    (h : readIntegerConstant .int1 reader = .ok (w, reader')) : w < 2 := by
  obtain ⟨⟨data, r₁⟩, _, h⟩ := bind_eq_ok.mp h
  cases h
  omega

theorem ConstantsOk.append {c : PNConstant} {id : Nat} (h : ConstantsOk host module f) (hc : ConstantOk host module c) :
    ConstantsOk host module (pnFunctionAppendValue (pnFunctionAppendConstant f c) ⟨.constant id, c.typeId⟩) := by
  constructor
  · simp only [pnFunctionAppendValue, pnFunctionAppendConstant, List.filter_append, List.map_append, h.typeIds]
    rfl
  · intro c' hc'
    rcases List.mem_append.mp hc' with hc' | hc'
    · exact h.ok c' hc'
    · rw [List.mem_singleton.mp hc']
      exact hc

theorem ConstantTypes.append {code : PNConstantCode} {value : Option Nat} (h : ConstantTypes host module s)
    (hv : code ≠ .undef → s.curBasicType = .int1 → ∃ w < 2, value = some w)
    (hvoid : code ≠ .undef → s.curBasicType ≠ .void) : ConstantTypes host module (s.append code value) := by
  refine ⟨h.same, h.cur, h.ok.append ?_⟩
  intro hcode ht
  exact hv hcode ((h.cur.resolve_right (hvoid hcode)).trans ht)

theorem pnConstantsBlock_keeps_types : (pnConstantsBlock host fuel).Keeps (ConstantTypes host module) (ConstantTypes host module) := by
  constructor
  · intro s s' bs bs' hs h
    rwa [alignEnd_eq_ok h]
  · intro s s' bs bs' hs h
    cases h
  · intro s s' ab hs h
    cases h
    exact hs
  · intro s s' code reader bs' hs h
    simp only [pnConstantsBlock] at h
    split at h
    · obtain ⟨⟨typeId, r₁⟩, _, h⟩ := bind_eq_ok.mp h
      obtain ⟨_, h⟩ := pnCheck_bind_eq_ok.mp h
      rw [finish_eq_ok h]
      exact ⟨hs.same, .inl (by rw [hs.same]), hs.ok⟩
    · rw [finish_eq_ok h]
      exact hs.append (fun hne => absurd rfl hne) fun hne => absurd rfl hne
    · obtain ⟨⟨value, r₁⟩, hv, h⟩ := bind_eq_ok.mp h
      rw [finish_eq_ok h]
      refine hs.append ?_ ?_
      · intro _ ht
        rw [ht] at hv
        exact ⟨value, readIntegerConstant_lt hv, rfl⟩
      · intro _ ht
        rw [ht] at hv
        cases hv
    · obtain ⟨⟨value, r₁⟩, hv, h⟩ := bind_eq_ok.mp h
      rw [finish_eq_ok h]
      refine hs.append ?_ ?_
      · intro _ ht
        rw [ht] at hv
        cases hv
      · intro _ ht
        rw [ht] at hv
        cases hv
    · cases h

theorem ConstantsOk.block (hf : ConstantsOk host rs.module f)
    (h : pnConstantsBlockRead host fuel rs functionId f bs = .ok (rs', f', bs')) : ConstantsOk host rs.module f' := by
  obtain ⟨⟨s, bs₁⟩, h, hs⟩ := bind_eq_ok.mp h
  cases hs
  have h₀ : ConstantTypes host rs.module ⟨rs, functionId, f, PN_INVALID_TYPE_ID, .void⟩ := ⟨rfl, .inr rfl, hf⟩
  exact (readBlock_inv pnConstantsBlock_keeps_types h₀ h).ok

end Constants

/-! ## Function bodies -/

/-- The value that an instruction defines; calls aside. -/
def PNInstruction.resultId : PNInstruction → Option Nat
  | .binop resultValueId _ _ _ _ | .cast resultValueId _ _ _ | .phi resultValueId _ _ | .alloca resultValueId _ _
  | .load resultValueId _ _ _ | .cmp2 resultValueId _ _ _ | .vselect resultValueId _ _ _ => some resultValueId
  | _ => none

/-- The type that the value of an instruction gets when its record is read. -/
def PNInstruction.GetsType (host : PNHost) (module : PNModule) (t : Nat) : PNInstruction → Prop
  | .binop _ _ _ _ _ | .vselect _ _ _ _ => t = PN_INVALID_TYPE_ID
  | .cast _ _ _ typeId | .load _ _ _ typeId | .phi _ typeId _ => t = typeId
  | .alloca _ _ _ => (module.type host t).basicType = .int32
  | _ => True

/-- The value of the instruction is a local variable of this type. -/
def DefinesValue (host : PNHost) (module : PNModule) (f : PNFunction) (inst : PNInstruction) : Prop :=
  ∀ r, inst.resultId = some r → ∃ i v, r = module.values.length + i ∧ f.values[i]? = some v ∧ v.code = .localVar ∧
    inst.GetsType host module v.typeId

/-- A body as it has been read. -/
structure BodyOk (host : PNHost) (module : PNModule) (f : PNFunction) : Prop where
  args : ∀ {isVarargs returnType argTypes}, module.type host f.typeId = .function isVarargs returnType argTypes →
    ∀ {i t : Nat}, argTypes[i]? = some t → f.values[i]? = some ⟨.functionArg i, t⟩
  defines : ∀ inst ∈ f.insts, DefinesValue host module f inst
  distinct : (f.insts.filterMap PNInstruction.resultId).Nodup
  constants : ConstantsOk host module f
  small : ∀ v ∈ f.values, v.typeId < 2 ^ 16

/-- The tables of a module are complete: the types of functions are in the type table. -/
structure PNModule.Declared (module : PNModule) : Prop where
  types : TableOk module.types
  functions : ∀ f ∈ module.functions, f.typeId < module.types.length

/-- What holds while a body is read. The tables do not change. -/
structure BodyInv (host : PNHost) (module : PNModule) (s : PNFunctionState) : Prop where
  types : s.rs.module.types = module.types
  values : s.rs.module.values = module.values
  declared : s.rs.module.Declared
  typeId : s.function.typeId < s.rs.module.types.length
  ok : BodyOk host module s.function
  cur : ∀ k ∈ s.curBb, k < s.function.bbs.length

section Body

variable {host : PNHost} {dedupe : Bool} {fuel : Nat} {module module' : PNModule} {f f' : PNFunction} {inst : PNInstruction}
  {value : Option PNValue} {relId : Nat}

theorem PNModule.type_congr (h : module'.types = module.types) (typeId : Nat) : module'.type host typeId = module.type host typeId := by
  rw [PNModule.type, h, PNModule.type]

theorem PNModule.type_mem (host : PNHost) {typeId : Nat} (h : typeId < module.types.length) : module.type host typeId ∈ module.types := by
  rw [PNModule.type, List.getD_eq_getElem _ _ h]
  exact List.getElem_mem h

/-- The type of pointers. -/
theorem pnModuleFindPointerType_basicType (ht : TableOk module.types) {t : Nat} (h : pnModuleFindPointerType module = .ok t) :
    (module.type host t).basicType = .int32 := by
  unfold pnModuleFindPointerType pnModuleFindIntegerType at h
  split at h
  · rename_i n hn
    cases h
    obtain ⟨hlt, hint, -⟩ := List.findIdx?_eq_some_iff_getElem.mp hn
    have hsmall : toTypeId n = n := Nat.mod_eq_of_lt (Nat.lt_trans hlt ht.length)
    rw [hsmall, PNModule.type, List.getD_eq_getElem _ _ hlt]
    have hmem := List.getElem_mem hlt
    revert hint hmem
    generalize module.types[n] = type
    intro hint hmem
    cases type with
    | integer width basicType =>
      have hw := ht.width _ _ hmem
      simp only [PNType.isInteger, decide_eq_true_eq] at hint
      subst hint
      cases hw
      rfl
    | _ => cases hint
  · cases h

theorem IsReturnType.small (hd : module.Declared) {t : Nat} (h : IsReturnType host module t) : t < 2 ^ 16 := by
  rcases h with hlt | ⟨f, hf, isVarargs, argTypes, ht⟩
  · exact Nat.lt_trans hlt hd.types.length
  · have hmem := PNModule.type_mem host (hd.functions f hf)
    rw [ht] at hmem
    exact hd.types.small _ hmem t (List.mem_cons_self ..)

theorem readCall_gets {useRelativeIds isIndirect : Bool} {reader : PNRecordReader} {r : PNInstructionRecord} {t : Nat}
    (h : readCall host fuel module useRelativeIds relId isIndirect reader = .ok r) : r.instruction.GetsType host module t := by
  obtain ⟨⟨ccInfo, r₁⟩, _, h⟩ := bind_eq_ok.mp h
  obtain ⟨⟨callee, r₂⟩, _, h⟩ := bind_eq_ok.mp h
  obtain ⟨⟨typeId, r₃⟩, _, h⟩ := bind_eq_ok.mp h
  obtain ⟨⟨numArgs, r₄⟩, _, h⟩ := bind_eq_ok.mp h
  obtain ⟨⟨argIds, r₅⟩, _, h⟩ := bind_eq_ok.mp h
  dsimp only at h
  split at h
  · cases h
    trivial
  · cases h
    trivial

theorem readBr_gets {useRelativeIds : Bool} {reader : PNRecordReader} {r : PNInstructionRecord} {t : Nat}
    (h : readBr useRelativeIds relId reader = .ok r) : r.instruction.GetsType host module t := by
  obtain ⟨⟨trueBb, r₁⟩, _, h⟩ := bind_eq_ok.mp h
  obtain ⟨⟨falseBb, r₂⟩, _, h⟩ := bind_eq_ok.mp h
  dsimp only at h
  split at h
  · obtain ⟨⟨value, r₃⟩, _, h⟩ := bind_eq_ok.mp h
    cases h
    trivial
  · cases h
    trivial

/-- The value that a record defines has the type that the record names. -/
theorem readInstruction_gets {useRelativeIds : Bool} {code : Nat} {reader : PNRecordReader} {r : PNInstructionRecord} {v : PNValue}
    (ht : TableOk module.types) (h : readInstruction host dedupe fuel module useRelativeIds relId code reader = .ok r)
    (hv : r.value = some v) : r.instruction.GetsType host module v.typeId := by
  unfold readInstruction at h
  split at h
  · obtain ⟨⟨v0, r₁⟩, _, h⟩ := bind_eq_ok.mp h
    obtain ⟨⟨v1, r₂⟩, _, h⟩ := bind_eq_ok.mp h
    obtain ⟨⟨opcode, r₃⟩, _, h⟩ := bind_eq_ok.mp h
    obtain ⟨⟨flags, r₄⟩, _, h⟩ := bind_eq_ok.mp h
    cases h
    cases hv
    rfl
  · obtain ⟨⟨value, r₁⟩, _, h⟩ := bind_eq_ok.mp h
    obtain ⟨⟨typeId, r₂⟩, _, h⟩ := bind_eq_ok.mp h
    obtain ⟨⟨opcode, r₃⟩, _, h⟩ := bind_eq_ok.mp h
    obtain ⟨_, h⟩ := pnCheck_bind_eq_ok.mp h
    cases h
    cases hv
    rfl
  · obtain ⟨⟨value, r₁⟩, _, h⟩ := bind_eq_ok.mp h
    cases h
    trivial
  · exact readBr_gets h
  · obtain ⟨⟨typeId, r₁⟩, _, h⟩ := bind_eq_ok.mp h
    obtain ⟨⟨value, r₂⟩, _, h⟩ := bind_eq_ok.mp h
    obtain ⟨⟨defaultBb, r₃⟩, _, h⟩ := bind_eq_ok.mp h
    obtain ⟨_, h⟩ := pnCheck_bind_eq_ok.mp h
    obtain ⟨⟨numCases, r₄⟩, _, h⟩ := bind_eq_ok.mp h
    obtain ⟨⟨cases, bbs, r₅⟩, _, h⟩ := bind_eq_ok.mp h
    cases h
    trivial
  · cases h
    trivial
  · obtain ⟨⟨typeId, r₁⟩, _, h⟩ := bind_eq_ok.mp h
    obtain ⟨_, h⟩ := pnCheck_bind_eq_ok.mp h
    obtain ⟨⟨incoming, r₂⟩, _, h⟩ := bind_eq_ok.mp h
    cases h
    cases hv
    rfl
  · obtain ⟨typeId, hp, h⟩ := bind_eq_ok.mp h
    obtain ⟨⟨size, r₁⟩, _, h⟩ := bind_eq_ok.mp h
    obtain ⟨⟨alignment, r₂⟩, _, h⟩ := bind_eq_ok.mp h
    obtain ⟨_, _, h⟩ := bind_eq_ok.mp h
    cases h
    cases hv
    exact pnModuleFindPointerType_basicType ht hp
  · obtain ⟨⟨src, r₁⟩, _, h⟩ := bind_eq_ok.mp h
    obtain ⟨⟨alignment, r₂⟩, _, h⟩ := bind_eq_ok.mp h
    obtain ⟨⟨typeId, r₃⟩, _, h⟩ := bind_eq_ok.mp h
    obtain ⟨_, _, h⟩ := bind_eq_ok.mp h
    cases h
    cases hv
    rfl
  · obtain ⟨⟨dest, r₁⟩, _, h⟩ := bind_eq_ok.mp h
    obtain ⟨⟨value, r₂⟩, _, h⟩ := bind_eq_ok.mp h
    obtain ⟨⟨alignment, r₃⟩, _, h⟩ := bind_eq_ok.mp h
    obtain ⟨_, _, h⟩ := bind_eq_ok.mp h
    cases h
    trivial
  · obtain ⟨typeId, _, h⟩ := bind_eq_ok.mp h
    obtain ⟨⟨v0, r₁⟩, _, h⟩ := bind_eq_ok.mp h
    obtain ⟨⟨v1, r₂⟩, _, h⟩ := bind_eq_ok.mp h
    obtain ⟨⟨opcode, r₃⟩, _, h⟩ := bind_eq_ok.mp h
    cases h
    trivial
  · obtain ⟨⟨trueValue, r₁⟩, _, h⟩ := bind_eq_ok.mp h
    obtain ⟨⟨falseValue, r₂⟩, _, h⟩ := bind_eq_ok.mp h
    obtain ⟨⟨cond, r₃⟩, _, h⟩ := bind_eq_ok.mp h
    cases h
    cases hv
    rfl
  · exact readCall_gets h
  · obtain ⟨⟨value, r₁⟩, _, h⟩ := bind_eq_ok.mp h
    obtain ⟨⟨typeId, r₂⟩, _, h⟩ := bind_eq_ok.mp h
    obtain ⟨_, h⟩ := pnCheck_bind_eq_ok.mp h
    cases h
    cases hv
  · exact readCall_gets h
  · cases h

/-- A record that defines a value names it by the next id. -/
theorem RecordForm.resultId {r : Nat} (h : RecordForm host dedupe module relId inst value) (hr : inst.resultId = some r) :
    r = relId ∧ ∃ v, value = some v ∧ v.code = .localVar := by
  cases h <;> cases hr <;> exact ⟨rfl, _, rfl, rfl⟩

/-- A type that a record gives to a value is a `PNTypeId`. -/
theorem RecordForm.small {v : PNValue} (hd : module.Declared) (h : RecordForm host dedupe module relId inst value)
    (hv : value = some v) : v.code = .localVar ∧ v.typeId < 2 ^ 16 := by
  have hlt := hd.types.length
  cases h <;> cases hv
  case binop => exact ⟨rfl, Nat.lt_succ_self _⟩
  case vselect => exact ⟨rfl, Nat.lt_succ_self _⟩
  case load => exact ⟨rfl, Nat.mod_lt _ (Nat.two_pow_pos 16)⟩
  case call h => exact ⟨rfl, h.small hd⟩
  all_goals exact ⟨rfl, Nat.lt_trans ‹_› hlt⟩

theorem DefinesValue.mono (h : DefinesValue host module f inst) {vs : List PNValue} (hv : f'.values = f.values ++ vs) :
    DefinesValue host module f' inst := by
  intro r hr
  obtain ⟨i, v, hi, hget, hcode, ht⟩ := h r hr
  refine ⟨i, v, hi, ?_, hcode, ht⟩
  rw [hv, List.getElem?_append_left (List.getElem?_eq_some_iff.mp hget).1, hget]

theorem BodyOk.result_lt (h : BodyOk host module f) {r : Nat} (hr : r ∈ f.insts.filterMap PNInstruction.resultId) :
    r < module.values.length + f.values.length := by
  obtain ⟨inst, hinst, heq⟩ := List.mem_filterMap.mp hr
  obtain ⟨i, v, rfl, hget, -⟩ := h.defines inst hinst r heq
  exact Nat.add_lt_add_left (List.getElem?_eq_some_iff.mp hget).1 _

/-- An instruction is read; it is stored unless its block is gone. -/
theorem BodyOk.append {curBb : Option Nat} (h : BodyOk host module f) (hd : module'.Declared)
    (hform : RecordForm host dedupe module' (module.values.length + f.values.length) inst value)
    (hgets : ∀ v, value = some v → inst.GetsType host module v.typeId) (hk : ∀ k ∈ curBb, k < f.bbs.length) :
    BodyOk host module (f.append curBb inst value) := by
  have hvalues : (f.append curBb inst value).values = f.values ++ value.toList := rfl
  have hinsts : (f.append curBb inst value).insts = f.insts ∨ (f.append curBb inst value).insts.Perm (inst :: f.insts) := by
    cases curBb with
    | none => exact .inl rfl
    | some k => exact .inr (insts_modify_perm inst (hk k rfl))
  have hnew : DefinesValue host module (f.append curBb inst value) inst := by
    intro r hr
    obtain ⟨rfl, v, hv, hcode⟩ := hform.resultId hr
    refine ⟨f.values.length, v, rfl, ?_, hcode, hgets v hv⟩
    rw [hvalues, hv]
    exact List.getElem?_concat_length
  have hlocal : ∀ v ∈ value.toList, v.code = .localVar ∧ v.typeId < 2 ^ 16 := by
    intro v hv
    exact hform.small hd (Option.mem_toList.mp hv)
  constructor
  · intro isVarargs returnType argTypes ht i t hi
    have hget := h.args ht hi
    rw [hvalues, List.getElem?_append_left (List.getElem?_eq_some_iff.mp hget).1, hget]
  · intro i hi
    rcases hinsts with heq | hperm
    · exact (h.defines i (heq ▸ hi)).mono hvalues
    · rcases List.mem_cons.mp (hperm.mem_iff.mp hi) with rfl | hi
      · exact hnew
      · exact (h.defines i hi).mono hvalues
  · rcases hinsts with heq | hperm
    · rw [heq]
      exact h.distinct
    · rw [(hperm.filterMap _).nodup_iff, List.filterMap_cons]
      split
      · exact h.distinct
      · rename_i r hr
        obtain ⟨rfl, -⟩ := hform.resultId hr
        exact List.nodup_cons.mpr ⟨fun hmem => Nat.lt_irrefl _ (h.result_lt hmem), h.distinct⟩
  · refine ⟨?_, h.constants.ok⟩
    have hnone : value.toList.filter PNValue.isConstant = [] := by
      rw [List.filter_eq_nil_iff]
      intro v hv
      rw [PNValue.isConstant, (hlocal v hv).1]
      exact Bool.false_ne_true
    rw [hvalues, List.filter_append, hnone, List.append_nil]
    exact h.constants.typeIds
  · intro v hv
    rw [hvalues] at hv
    rcases List.mem_append.mp hv with hv | hv
    · exact h.small v hv
    · exact (hlocal v hv).2

theorem ConstantsOk.congr (h : ConstantsOk host module f) (ht : module'.types = module.types)
    (hc : f'.constants = f.constants) (hv : f'.values = f.values) : ConstantsOk host module' f' := by
  refine ⟨by rw [hv, hc]; exact h.typeIds, ?_⟩
  intro c hmem
  unfold ConstantOk
  rw [PNModule.type_congr ht]
  exact h.ok c (hc ▸ hmem)

/-- Constants and their values are added. -/
theorem BodyOk.constantsBlock {functionId : Nat} {rs rs' : PNReadState} {cs : List PNConstant} {vs : List PNValue}
    {events : List PNReadEvent} (h : BodyOk host module f) (hlen : rs.module.types.length < 2 ^ 16)
    (hf : ConstantsFrame functionId rs f rs' f' cs vs events) (hc : ConstantsOk host module f') : BodyOk host module f' := by
  have hvalues : f'.values = f.values ++ vs := by rw [hf.function]
  have hinsts : f'.insts = f.insts := by rw [hf.function]; rfl
  have htype : f'.typeId = f.typeId := by rw [hf.function]
  constructor
  · intro isVarargs returnType argTypes ht i t hi
    rw [htype] at ht
    have hget := h.args ht hi
    rw [hvalues, List.getElem?_append_left (List.getElem?_eq_some_iff.mp hget).1, hget]
  · intro i hi
    exact (h.defines i (hinsts ▸ hi)).mono hvalues
  · rw [hinsts]
    exact h.distinct
  · exact hc
  · intro v hv
    rw [hvalues] at hv
    rcases List.mem_append.mp hv with hv | hv
    · exact h.small v hv
    · obtain ⟨c, hmem, heq⟩ := hf.value v hv
      rw [heq]
      rcases hf.typeId c hmem with hlt | hinv
      · exact Nat.lt_trans hlt hlen
      · rw [hinv]
        exact Nat.lt_succ_self _

/-- Nothing depends on the names and the streams. -/
theorem BodyOk.congr (h : BodyOk host module f) (hb : SameBody f f') : BodyOk host module f' := by
  constructor
  · intro isVarargs returnType argTypes ht i t hi
    rw [hb.typeId] at ht
    rw [hb.values]
    exact h.args ht hi
  · intro i hi
    rw [hb.insts] at hi
    exact (h.defines i hi).mono (hb.values.trans (List.append_nil _).symm)
  · rw [hb.insts]
    exact h.distinct
  · exact h.constants.congr rfl hb.constants hb.values
  · rw [hb.values]
    exact h.small

/-- The arguments come first. -/
theorem BodyOk.start {isVarargs returnType : Nat} {argTypes : List Nat} (hlen : TableOk module.types)
    (hid : f.typeId < module.types.length) (ht : module.type host f.typeId = .function isVarargs returnType argTypes)
    (hbbs : f.bbs = []) (hvalues : f.values = []) (hconstants : f.constants = []) :
    BodyOk host module (appendArgs f argTypes) := by
  have hinsts : (appendArgs f argTypes).insts = [] := by simp [PNFunction.insts, appendArgs, hbbs]
  have hargs : (appendArgs f argTypes).values = argTypes.zipIdx.map fun p => ⟨.functionArg p.2, p.1⟩ := by
    simp [appendArgs, hvalues]
  have hsmall : ∀ t ∈ argTypes, t < 2 ^ 16 := by
    have hmem := PNModule.type_mem host hid
    rw [ht] at hmem
    exact fun t hmt => hlen.small _ hmem t (List.mem_cons_of_mem _ hmt)
  constructor
  · intro _ _ argTypes' ht' i t hi
    cases ht.symm.trans ht'
    simp [hargs, hi]
  · simp [hinsts]
  · simp [hinsts]
  · refine ⟨?_, ?_⟩
    · have hnone : (appendArgs f argTypes).values.filter PNValue.isConstant = [] := by
        rw [List.filter_eq_nil_iff, hargs]
        intro v hv
        obtain ⟨_, _, rfl⟩ := List.mem_map.mp hv
        exact Bool.false_ne_true
      rw [hnone]
      simp [appendArgs, hconstants]
    · simp [appendArgs, hconstants]
  · intro v hv
    rw [hargs] at hv
    obtain ⟨⟨t, i⟩, hmem, rfl⟩ := List.mem_map.mp hv
    exact hsmall t (List.mem_of_getElem? (List.mem_zipIdx_iff_getElem?.mp hmem))

end Body

/-- The function is the result of the passes on a body as it has been read, where the tables were those of the module. -/
def BodyRead (host : PNHost) (module : PNModule) (functionId : Nat) (f : PNFunction) : Prop :=
  ∃ module' f₀ g, module'.types = module.types ∧ module'.values = module.values ∧ BodyOk host module f₀ ∧
    pnFunctionPasses host module' functionId f₀ = .ok g ∧ SameBody g f

section Block

variable {host : PNHost} {dedupe : Bool} {fuel : Nat} {module : PNModule} {s s' : PNFunctionState} {rs rs' : PNReadState}
  {bs bs' : PNBitStream} {functionId : Nat}

theorem BodyInv.beginBb (h : BodyInv host module s) (hb : s.beginBb = .ok s') : BodyInv host module s' := by
  rcases beginBb_cases hb with ⟨_, rfl⟩ | ⟨_, hlt, rfl⟩
  · exact h
  · refine ⟨h.types, h.values, h.declared, h.typeId, h.ok, ?_⟩
    intro k hk
    cases Option.mem_some.mp hk
    exact hlt

theorem BodyInv.record {code : Nat} {reader : PNRecordReader} (h : BodyInv host module s)
    (hr : (pnFunctionBlock host dedupe fuel).record s code reader = .ok (s', bs')) : BodyInv host module s' := by
  rcases pnFunctionBlock_record_cases hr with ⟨numBbs, rfl⟩ | ⟨s₁, r, hb, hread, rfl⟩
  · -- the instructions are gone, their values stay
    have hinsts : (s.declare numBbs).function.insts = [] := by
      simp [PNFunctionState.declare, PNFunction.insts, List.flatMap_replicate]
    refine ⟨h.types, h.values, h.declared, h.typeId, ?_, by simp [PNFunctionState.declare]⟩
    refine ⟨h.ok.args, ?_, ?_, h.ok.constants.congr rfl rfl rfl, h.ok.small⟩
    · simp [hinsts]
    · simp [hinsts]
  · obtain ⟨hrs, _, hfun⟩ := beginBb_rs hb
    have h₁ := h.beginBb hb
    have hform := readInstruction_form hread
    rw [pnFunctionNumValues, h.values, ← hfun] at hform
    have hgets : ∀ v, r.value = some v → r.instruction.GetsType host module v.typeId := by
      intro v hv
      have hg := readInstruction_gets h₁.declared.types hread hv
      cases hi : r.instruction <;> rw [hi] at hg <;>
        first | exact hg | exact (congrArg _ (PNModule.type_congr h₁.types _)).symm.trans hg
    refine ⟨h₁.types, h₁.values, h₁.declared, h₁.typeId, h₁.ok.append h₁.declared hform hgets h₁.cur, ?_⟩
    intro k hk
    have hlen : (s₁.append r.instruction r.value).function.bbs.length = s₁.function.bbs.length := by
      simp only [PNFunctionState.append, PNFunction.append]
      cases s₁.curBb with
      | none => rfl
      | some _ => exact List.length_modify ..
    rw [hlen]
    exact h₁.cur k hk

/-- A symbol table inside of a body names functions. -/
theorem BodyInv.load (h : BodyInv host module s) (hf : SymtabFrame s.store rs) : BodyInv host module (s.load rs) := by
  have hb := load_sameBody hf
  have htypes : rs.module.types = s.rs.module.types := hf.types
  refine ⟨htypes.trans h.types, hf.values.trans h.values, ⟨htypes ▸ h.declared.types, ?_⟩, ?_, h.ok.congr hb, ?_⟩
  · intro f hmem
    rw [show (s.load rs).rs.module.types = s.rs.module.types from htypes]
    obtain ⟨n, hn⟩ := List.getElem?_of_mem hmem
    obtain ⟨g, hg, hsame⟩ := sameBody_of_map (hf.getElem? n) hn
    rw [hsame.typeId]
    rcases List.mem_or_eq_of_mem_set (List.mem_of_getElem? hg) with hg | rfl
    · exact h.declared.functions g hg
    · exact h.typeId
  · rw [hb.typeId, show (s.load rs).rs.module.types = s.rs.module.types from htypes]
    exact h.typeId
  · intro k hk
    rw [hb.bbs]
    exact h.cur k hk

theorem BodyInv.subblock (h : BodyInv host module s) (hr : (pnFunctionBlock host dedupe fuel).subblock s bs = .ok (s', bs')) :
    BodyInv host module s' := by
  obtain ⟨⟨id, bs₁⟩, _, hr⟩ := bind_eq_ok.mp hr
  dsimp only at hr
  split at hr
  · obtain ⟨⟨rs, f, bs₂⟩, hc, hr⟩ := bind_eq_ok.mp hr
    cases hr
    have hconstants := (h.ok.constants.congr h.types rfl rfl).block hc
    obtain ⟨cs, vs, events, hf⟩ := pnConstantsBlockRead_frame hc
    have hmodule : rs.module = s.rs.module := by rw [hf.state]
    refine ⟨hmodule ▸ h.types, hmodule ▸ h.values, hmodule ▸ h.declared, ?_, ?_, ?_⟩
    · rw [hf.function, hmodule]
      exact h.typeId
    · exact h.ok.constantsBlock h.declared.types.length hf (hconstants.congr h.types.symm rfl rfl)
    · rw [hf.function]
      exact h.cur
  · obtain ⟨⟨rs, bs₂⟩, hc, hr⟩ := bind_eq_ok.mp hr
    cases hr
    exact h.load (pnValueSymtabBlockRead_frame hc)
  · cases hr

theorem pnFunctionBlock_keeps_body : (pnFunctionBlock host dedupe fuel).Keeps (BodyInv host module)
    (fun s => BodyRead host module s.functionId s.function) := by
  constructor
  · intro s s' bs bs' hs h
    obtain ⟨_, f, hp, rfl⟩ := pnFunctionBlock_endBlock_cases h
    exact ⟨_, _, _, hs.types, hs.values, hs.ok, hp, .of_unnamed rfl⟩
  · intro s s' bs bs' hs h
    exact hs.subblock h
  · intro s s' ab hs h
    cases h
    exact hs
  · intro s s' code reader bs' hs h
    exact hs.record h

/-- **A function whose body is read behind the tables of the module.** -/
theorem pnFunctionBlockRead_bodyRead {f₀ f : PNFunction} (ht : rs.module.types = module.types)
    (hv : rs.module.values = module.values) (hd : rs.module.Declared) (hf₀ : rs.module.functions[functionId]? = some f₀)
    (hbbs : f₀.bbs = []) (hvalues : f₀.values = []) (hconstants : f₀.constants = [])
    (h : pnFunctionBlockRead host dedupe fuel rs functionId bs = .ok (rs', bs'))
    (hf : rs'.module.functions[functionId]? = some f) : BodyRead host module functionId f := by
  obtain ⟨g, isVarargs, returnType, argTypes, s, bs₁, hg, htype, hb, rfl⟩ := pnFunctionBlockRead_cases h
  cases hf₀.symm.trans hg
  obtain ⟨rfl, -⟩ := readBlock_inv (pnFunctionBlock_keeps_frame rs functionId) ⟨rfl, .refl _ _⟩ hb
  have hid : f₀.typeId < rs.module.types.length := hd.functions f₀ (List.mem_of_getElem? hf₀)
  rw [PNModule.type_congr ht] at htype
  have hok : BodyOk host module (appendArgs f₀ argTypes) :=
    .start (ht ▸ hd.types) (ht ▸ hid) htype hbbs hvalues hconstants
  have hstart : BodyInv host module ⟨rs, s.functionId, appendArgs f₀ argTypes, 0, 2 ^ 16 - 1, 0, none⟩ :=
    ⟨ht, hv, hd, hid, hok, by simp⟩
  have hread := readBlock_inv pnFunctionBlock_keeps_body hstart hb
  cases store_getElem? s hf
  exact hread

end Block

end Pnacl
