import Pnacl.TypeTable

/-!
# Well-formed modules

Which targets and type ids of an accepted file are in range. The reader checks most type ids when it reads them and the
blocks that a phi names when it calculates the phi assigns. It checks neither the targets of BR and SWITCH nor the type of
a LOAD, it checks only the low 16 bits of the type in a FORWARDTYPEREF, and it gives an UNDEF in front of the first SETTYPE
the invalid type. If every count is announced once, these are the only ways to a module that is not well formed
(`pnModuleRead_wellFormed_iff`).
-/

namespace Pnacl

open Lib

/-! ## The property -/

/-- The type ids in an instruction. -/
def PNInstruction.typeIds : PNInstruction → List Nat
  | .cast _ _ _ typeId | .switch typeId _ _ _ _ | .phi _ typeId _ | .load _ _ _ typeId | .forwardtyperef _ typeId
  | .call _ _ _ _ typeId _ _ => [typeId]
  | _ => []

/-- The blocks that an instruction names, as the record encodes them. -/
def PNInstruction.targets : PNInstruction → List Nat
  | .br trueBb falseBb _ => trueBb :: falseBb.toList
  | .switch _ _ defaultBb cases caseBbs => defaultBb :: (cases.map PNSwitchCase.bb ++ caseBbs)
  | .phi _ _ incoming => incoming.map PNPhiIncoming.bbId
  | _ => []

/-- The id names an entry of the table that a type record has filled in. -/
def PNModule.HasType (module : PNModule) (typeId : Nat) : Prop :=
  ∃ type, module.types[typeId]? = some type ∧ type ≠ .unset

/-- A function whose targets and type ids are in range. -/
structure PNFunction.WellFormed (module : PNModule) (f : PNFunction) : Prop where
  targets : ∀ inst ∈ f.insts, ∀ bb ∈ inst.targets, bb < f.bbs.length
  instructions : ∀ inst ∈ f.insts, ∀ typeId ∈ inst.typeIds, module.HasType typeId
  values : ∀ v ∈ f.values, module.HasType v.typeId
  constants : ∀ c ∈ f.constants, module.HasType c.typeId
  type : module.HasType f.typeId

/-- A module whose functions, values and function types are in range. -/
structure PNModule.WellFormed (module : PNModule) : Prop where
  types : ∀ type ∈ module.types, ∀ typeId ∈ type.typeIds, module.HasType typeId
  values : ∀ v ∈ module.values, module.HasType v.typeId
  functions : ∀ f ∈ module.functions, f.WellFormed module

/-! ## The records that are not checked -/

/-- What the reader leaves unchecked in an instruction is in range. -/
def PNInstruction.InRange (numBbs numTypes : Nat) : PNInstruction → Prop
  | .br trueBb falseBb valueId => ∀ bb ∈ (PNInstruction.br trueBb falseBb valueId).targets, bb < numBbs
  | .switch typeId valueId defaultBb cases caseBbs =>
    ∀ bb ∈ (PNInstruction.switch typeId valueId defaultBb cases caseBbs).targets, bb < numBbs
  | .load _ _ _ typeId => typeId < numTypes
  | .forwardtyperef _ typeId => typeId < 2 ^ 16
  | _ => True

/-- What the reader leaves unchecked in a record is in range. -/
def PNReadEvent.InRange : PNReadEvent → Prop
  | .functionInstruction _ numBbs numTypes (some inst) => inst.InRange numBbs numTypes
  | .constantsValue _ constant => constant.typeId ≠ PN_INVALID_TYPE_ID
  | _ => True

instance (numBbs numTypes : Nat) (inst : PNInstruction) : Decidable (inst.InRange numBbs numTypes) := by
  unfold PNInstruction.InRange
  split <;> infer_instance

instance (e : PNReadEvent) : Decidable e.InRange := by
  unfold PNReadEvent.InRange
  split <;> infer_instance

/-! ## What the records made of a function -/

/-- The instructions and constants of a function are those of the events, and their type ids have been checked as far as
the reader does so. `n` is the number of types. -/
structure Recorded (n : Nat) (trace : List PNReadEvent) (functionId : Nat) (f : PNFunction) : Prop where
  type : f.typeId < n
  instruction : ∀ {inst}, inst ∈ f.insts → inst.forCallback = some inst →
    .functionInstruction functionId f.bbs.length n (some inst) ∈ trace
  instruction_event : ∀ {b k inst}, .functionInstruction functionId b k (some inst) ∈ trace →
    b = f.bbs.length ∧ k = n ∧ inst ∈ f.insts
  constant : ∀ {c}, c ∈ f.constants → .constantsValue functionId c ∈ trace
  constant_event : ∀ {c}, .constantsValue functionId c ∈ trace → c ∈ f.constants
  checked : ∀ {inst}, inst ∈ f.insts → ∀ {typeId}, typeId ∈ inst.typeIds →
    typeId < n ∨ (∃ a b c, inst = .load a b c typeId) ∨ ∃ v, inst = .forwardtyperef v typeId ∧ toTypeId typeId < n
  defined : ∀ {c : PNConstant}, c ∈ f.constants → c.typeId < n ∨ c.typeId = PN_INVALID_TYPE_ID

/-- A value has a type of the table, or it is the result of an instruction whose type is derived later. `numValues` is the
number of values of the module. -/
def Typed (n numValues : Nat) (f : PNFunction) : Prop :=
  ∀ {i : Nat} {v : PNValue}, f.values[i]? = some v →
    v.typeId < n ∨ v.typeId = PN_INVALID_TYPE_ID ∧ ∃ inst ∈ f.insts, inst.derivedResult = some (numValues + i)

/-- A function that has been read, or has no body so far. -/
structure ReadOk (n : Nat) (trace : List PNReadEvent) (functionId : Nat) (f : PNFunction) : Prop
    extends Recorded n trace functionId f where
  values : (∀ e ∈ trace, e.InRange) → ∀ v ∈ f.values, v.typeId < n
  phi : ∀ {d t incoming}, .phi d t incoming ∈ f.insts → ∀ i ∈ incoming, i.bbId < f.bbs.length

section Records

variable {n numValues functionId : Nat} {trace : List PNReadEvent} {f f' : PNFunction}

theorem InRange.of_append {events : List PNReadEvent} (h : ∀ e ∈ trace ++ events, e.InRange) : ∀ e ∈ trace, e.InRange :=
  fun e he => h e (List.mem_append_left _ he)

/-- Names do not matter, and neither do events of other functions. -/
theorem Recorded.congr (h : Recorded n trace functionId f) (hf : SameBody f f') (events : List PNReadEvent)
    (he : ∀ e ∈ events, e.functionId? ≠ some functionId) : Recorded n (trace ++ events) functionId f' := by
  have hold : ∀ {e}, e ∈ trace ++ events → e.functionId? = some functionId → e ∈ trace := by
    intro e hmem hid
    rcases List.mem_append.mp hmem with hmem | hmem
    · exact hmem
    · exact absurd hid (he e hmem)
  constructor
  · rw [hf.typeId]
    exact h.type
  · intro inst hi hcb
    rw [hf.bbs]
    exact List.mem_append_left _ (h.instruction (hf.insts ▸ hi) hcb)
  · intro b k inst hev
    rw [hf.bbs, hf.insts]
    exact h.instruction_event (hold hev rfl)
  · intro c hc
    exact List.mem_append_left _ (h.constant (hf.constants ▸ hc))
  · intro c hev
    rw [hf.constants]
    exact h.constant_event (hold hev rfl)
  · intro inst hi
    exact h.checked (hf.insts ▸ hi)
  · intro c hc
    exact h.defined (hf.constants ▸ hc)

theorem Typed.congr (h : Typed n numValues f) (hf : SameBody f f') : Typed n numValues f' := by
  intro i v hv
  rw [hf.insts]
  exact h (hf.values ▸ hv)

theorem ReadOk.congr (h : ReadOk n trace functionId f) (hf : SameBody f f') (events : List PNReadEvent)
    (he : ∀ e ∈ events, e.functionId? ≠ some functionId) : ReadOk n (trace ++ events) functionId f' := by
  refine ⟨h.toRecorded.congr hf events he, ?_, ?_⟩
  · intro hr v hv
    exact h.values (InRange.of_append hr) v (hf.values ▸ hv)
  · intro d t incoming hmem
    rw [hf.bbs]
    exact h.phi (hf.insts ▸ hmem)

/-- Without a body there is nothing to say about the events. -/
theorem Recorded.fresh (ht : f.typeId < n) (hbbs : f.bbs = []) (hc : f.constants = [])
    (he : ∀ e ∈ trace, e.functionId? ≠ some functionId) : Recorded n trace functionId f := by
  have hinsts : f.insts = [] := by rw [PNFunction.insts, hbbs, List.flatMap_nil]
  refine ⟨ht, ?_, ?_, ?_, ?_, ?_, ?_⟩
  · intro inst hi
    rw [hinsts] at hi
    cases hi
  · intro b k inst hev
    exact absurd rfl (he _ hev)
  · intro c hmem
    rw [hc] at hmem
    cases hmem
  · intro c hev
    exact absurd rfl (he _ hev)
  · intro inst hi
    rw [hinsts] at hi
    cases hi
  · intro c hmem
    rw [hc] at hmem
    cases hmem

end Records

/-! ## The body of a function -/

theorem mem_insts_modify {x inst : PNInstruction} : ∀ {bbs : List PNBasicBlock} {k : Nat}, k < bbs.length →
    (x ∈ (bbs.modify k (·.append inst)).flatMap PNBasicBlock.instructions ↔
      x ∈ bbs.flatMap PNBasicBlock.instructions ∨ x = inst)
  | [], _, h => by cases h
  | bb :: bbs, 0, _ => by
    simp [PNBasicBlock.append, or_comm, or_left_comm]
  | bb :: bbs, k + 1, h => by
    simp only [List.modify_succ_cons, List.flatMap_cons, List.mem_append,
      mem_insts_modify (Nat.lt_of_succ_lt_succ h), or_assoc]

/-- The instruction is appended to a block of the function. -/
theorem mem_insts_append {f : PNFunction} {x inst : PNInstruction} {value : Option PNValue} {k : Nat}
    (hk : k < f.bbs.length) : x ∈ (f.append (some k) inst value).insts ↔ x ∈ f.insts ∨ x = inst :=
  mem_insts_modify hk

theorem forCallback_eq {inst x : PNInstruction} (h : inst.forCallback = some x) : x = inst := by
  unfold PNInstruction.forCallback at h
  split at h
  · cases h
  · exact (Option.some.inj h).symm

/-- What holds while the body of a function is read, if every count is announced once. -/
structure FunctionInv (s : PNFunctionState) : Prop where
  recorded : Recorded s.rs.module.types.length s.rs.trace s.functionId s.function
  typed : (∀ e ∈ s.rs.trace, e.InRange) → Typed s.rs.module.types.length s.rs.module.values.length s.function
  declared : (∀ k, .functionNumblocks s.functionId k ∉ s.rs.trace) → s.function.bbs = [] ∧ s.curBb = none
  cur : (s.curBb = none ∧ s.prevBbId ≠ s.curBbId) ∨ ∃ k, s.curBb = some k ∧ k < s.function.bbs.length
  types : TypesOk s.rs.module.types
  callees : ∀ f ∈ s.rs.module.functions, f.typeId < s.rs.module.types.length

section Body

variable {host : PNHost} {dedupe : Bool} {fuel : Nat} {s s' s₁ : PNFunctionState} {bs bs' : PNBitStream}

/-- Entries that are read through a checked id are in the table. -/
theorem TypesOk.type_mem (host : PNHost) {module : PNModule} {typeId : Nat} (h : typeId < module.types.length) :
    module.type host typeId ∈ module.types := by
  simp [PNModule.type, List.getD, List.getElem?_eq_getElem h]

theorem IsReturnType.lt {module : PNModule} {typeId : Nat} (h : IsReturnType host module typeId)
    (ht : TypesOk module.types) (hf : ∀ f ∈ module.functions, f.typeId < module.types.length) :
    typeId < module.types.length := by
  rcases h with h | ⟨f, hmem, isVarargs, argTypes, heq⟩
  · exact h
  · have := TypesOk.type_mem host (hf f hmem)
    rw [heq] at this
    exact ht.ids _ this _ (List.mem_cons_self ..)

/-- The type ids of a record are checked, those of LOAD and FORWARDTYPEREF apart. -/
theorem RecordForm.checked {module : PNModule} {relId : Nat} {inst : PNInstruction} {value : Option PNValue}
    (h : RecordForm host dedupe module relId inst value) (ht : TypesOk module.types)
    (hf : ∀ f ∈ module.functions, f.typeId < module.types.length) {typeId : Nat} (hmem : typeId ∈ inst.typeIds) :
    typeId < module.types.length ∨ (∃ a b c, inst = .load a b c typeId) ∨
      ∃ v, inst = .forwardtyperef v typeId ∧ toTypeId typeId < module.types.length := by
  cases h <;> simp only [PNInstruction.typeIds, List.mem_singleton, List.not_mem_nil] at hmem <;> subst hmem
  case load srcId alignment t => exact .inr (.inl ⟨_, _, _, rfl⟩)
  case forwardtyperef valueId h => exact .inr (.inr ⟨_, rfl, h⟩)
  case callVoid h => exact .inl (h.lt ht hf)
  case call h => exact .inl (h.lt ht hf)
  all_goals
    left
    assumption

/-- The value of a record has a type of the table, that of the LOAD, or one that is derived later. -/
theorem RecordForm.value {module : PNModule} {relId : Nat} {inst : PNInstruction} {v : PNValue}
    (h : RecordForm host dedupe module relId inst (some v)) (ht : TypesOk module.types)
    (hf : ∀ f ∈ module.functions, f.typeId < module.types.length) :
    v.typeId < module.types.length ∨ (∃ a b c, inst = .load a b c v.typeId) ∨
      v.typeId = PN_INVALID_TYPE_ID ∧ inst.derivedResult = some relId := by
  cases h
  case load srcId alignment t => exact .inr (.inl ⟨_, _, _, rfl⟩)
  case call h => exact .inl (h.lt ht hf)
  case binop => exact .inr (.inr ⟨rfl, rfl⟩)
  case vselect => exact .inr (.inr ⟨rfl, rfl⟩)
  all_goals
    left
    assumption

/-- After `beginBb` there is a current block. -/
theorem FunctionInv.beginBb (h : FunctionInv s) (hb : s.beginBb = .ok s₁) :
    FunctionInv s₁ ∧ ∃ k, s₁.curBb = some k ∧ k < s₁.function.bbs.length := by
  rcases beginBb_cases hb with ⟨heq, rfl⟩ | ⟨_, hlt, rfl⟩
  · exact ⟨h, h.cur.resolve_left fun hc => hc.2 heq⟩
  · refine ⟨⟨h.recorded, h.typed, ?_, .inr ⟨_, rfl, hlt⟩, h.types, h.callees⟩, _, rfl, hlt⟩
    intro hn
    rw [(h.declared hn).1] at hlt
    cases hlt

theorem FunctionInv.append (h : FunctionInv s) {k : Nat} (hcur : s.curBb = some k) (hk : k < s.function.bbs.length)
    {inst : PNInstruction} {value : Option PNValue}
    (hr : RecordForm host dedupe s.rs.module (pnFunctionNumValues s.rs.module s.function) inst value) :
    FunctionInv (s.append inst value) := by
  have hinsts : ∀ {x}, x ∈ (s.append inst value).function.insts ↔ x ∈ s.function.insts ∨ x = inst := by
    intro x
    simp only [PNFunctionState.append, hcur]
    exact mem_insts_append hk
  have hlen : (s.append inst value).function.bbs.length = s.function.bbs.length := by
    simp [PNFunctionState.append, hcur, PNFunction.append]
  have hmem : ∀ {e}, e ∈ s.rs.trace → e ∈ (s.append inst value).rs.trace := List.mem_append_left _
  refine ⟨⟨h.recorded.type, ?_, ?_, ?_, ?_, ?_, h.recorded.defined⟩, ?_, ?_, ?_, h.types, h.callees⟩
  · intro x hx hcb
    rw [hlen]
    rcases hinsts.mp hx with hx | rfl
    · exact hmem (h.recorded.instruction hx hcb)
    · simp [PNFunctionState.append, hcb]
  · intro b m x hev
    rw [hlen]
    rcases List.mem_append.mp hev with hev | hev
    · obtain ⟨hb, hm, hx⟩ := h.recorded.instruction_event hev
      exact ⟨hb, hm, hinsts.mpr (.inl hx)⟩
    · injection List.mem_singleton.mp hev with _ hb hm hx
      exact ⟨hb, hm, hinsts.mpr (.inr (forCallback_eq hx.symm))⟩
  · intro c hc
    exact hmem (h.recorded.constant hc)
  · intro c hev
    rcases List.mem_append.mp hev with hev | hev
    · exact h.recorded.constant_event hev
    · cases List.mem_singleton.mp hev
  · intro x hx typeId hid
    rcases hinsts.mp hx with hx | rfl
    · exact h.recorded.checked hx hid
    · exact hr.checked h.types h.callees hid
  · -- the values: the old ones, and that of the instruction
    intro hrange i v hv
    have hnew : (s.append inst value).function.values = s.function.values ++ value.toList := rfl
    rw [hnew] at hv
    by_cases hi : i < s.function.values.length
    · rw [List.getElem?_append_left hi] at hv
      refine (h.typed (InRange.of_append hrange) hv).imp_right ?_
      rintro ⟨hinv, x, hx, hd⟩
      exact ⟨hinv, x, hinsts.mpr (.inl hx), hd⟩
    · rw [List.getElem?_append_right (Nat.le_of_not_lt hi)] at hv
      cases value with
      | none => cases hv
      | some v' =>
        have hi' : i = s.function.values.length := by
          have := (List.getElem?_eq_some_iff.mp hv).1
          simp at this
          omega
        have hvv : v' = v := by simpa [hi'] using hv
        subst hvv
        rcases hr.value h.types h.callees with hlt | ⟨a, b, c, rfl⟩ | ⟨hinv, hd⟩
        · exact .inl hlt
        · left
          exact hrange _ (List.mem_append_right _ (List.mem_singleton_self _))
        · refine .inr ⟨hinv, inst, hinsts.mpr (.inr rfl), ?_⟩
          rw [hi']
          exact hd
  · intro hn
    rw [(h.declared fun m hm => hn m (hmem hm)).1] at hk
    cases hk
  · right
    refine ⟨k, hcur, ?_⟩
    rw [hlen]
    exact hk

theorem FunctionInv.declare (h : FunctionInv s) {numBbs : Nat}
    (hn : ∀ e ∈ s.rs.trace, ¬e.Repeats (.functionNumblocks s.functionId numBbs)) : FunctionInv (s.declare numBbs) := by
  obtain ⟨hbbs, hcur⟩ := h.declared fun k hk => hn _ hk rfl
  have hold : s.function.insts = [] := by rw [PNFunction.insts, hbbs, List.flatMap_nil]
  have hinsts : (s.declare numBbs).function.insts = [] := by
    simp [PNFunctionState.declare, PNFunction.insts]
  have hmem : ∀ {e}, e ∈ s.rs.trace → e ∈ (s.declare numBbs).rs.trace := List.mem_append_left _
  refine ⟨⟨h.recorded.type, ?_, ?_, ?_, ?_, ?_, h.recorded.defined⟩, ?_, ?_, ?_, h.types, h.callees⟩
  · intro x hx
    rw [hinsts] at hx
    cases hx
  · intro b m x hev
    rcases List.mem_append.mp hev with hev | hev
    · obtain ⟨_, _, hx⟩ := h.recorded.instruction_event hev
      rw [hold] at hx
      cases hx
    · cases List.mem_singleton.mp hev
  · intro c hc
    exact hmem (h.recorded.constant hc)
  · intro c hev
    rcases List.mem_append.mp hev with hev | hev
    · exact h.recorded.constant_event hev
    · cases List.mem_singleton.mp hev
  · intro x hx
    rw [hinsts] at hx
    cases hx
  · intro hrange i v hv
    rcases h.typed (InRange.of_append hrange) hv with hlt | ⟨_, x, hx, _⟩
    · exact .inl hlt
    · rw [hold] at hx
      cases hx
  · intro hnone
    exact absurd (List.mem_append_right _ (List.mem_singleton_self _)) (hnone numBbs)
  · left
    refine ⟨rfl, ?_⟩
    rcases h.cur with ⟨_, hne⟩ | ⟨k, hk, _⟩
    · exact hne
    · rw [hcur] at hk
      cases hk

theorem FunctionInv.constants (h : FunctionInv s) {rs : PNReadState} {f : PNFunction} {cs : List PNConstant}
    {vs : List PNValue} {events : List PNReadEvent}
    (hf : ConstantsFrame s.functionId s.rs s.function rs f cs vs events) :
    FunctionInv { s with rs := rs, function := f } := by
  have hrs := hf.state
  have hfun := hf.function
  subst hrs hfun
  refine ⟨⟨h.recorded.type, ?_, ?_, ?_, ?_, h.recorded.checked, ?_⟩, ?_, ?_, h.cur, h.types, h.callees⟩
  · intro x hx hcb
    exact List.mem_append_left _ (h.recorded.instruction hx hcb)
  · intro b m x hev
    rcases List.mem_append.mp hev with hev | hev
    · exact h.recorded.instruction_event hev
    · rcases hf.about _ hev with ⟨_, heq⟩ | ⟨_, _, heq⟩ <;> cases heq
  · intro c hc
    rcases List.mem_append.mp hc with hc | hc
    · exact List.mem_append_left _ (h.recorded.constant hc)
    · exact List.mem_append_right _ (hf.event c hc)
  · intro c hev
    rcases List.mem_append.mp hev with hev | hev
    · exact List.mem_append_left _ (h.recorded.constant_event hev)
    · rcases hf.about _ hev with ⟨_, heq⟩ | ⟨c', hc', heq⟩
      · cases heq
      · cases heq
        exact List.mem_append_right _ hc'
  · intro c hc
    rcases List.mem_append.mp hc with hc | hc
    · exact h.recorded.defined hc
    · exact hf.typeId c hc
  · intro hrange i v hv
    by_cases hi : i < s.function.values.length
    · have hv : (s.function.values ++ vs)[i]? = some v := hv
      rw [List.getElem?_append_left hi] at hv
      exact h.typed (InRange.of_append hrange) hv
    · have hv : (s.function.values ++ vs)[i]? = some v := hv
      rw [List.getElem?_append_right (Nat.le_of_not_lt hi)] at hv
      obtain ⟨c, hc, heq⟩ := hf.value v (List.mem_of_getElem? hv)
      -- the type is valid, since its event is in range
      left
      rw [heq]
      refine (hf.typeId c hc).resolve_right ?_
      exact hrange _ (List.mem_append_right _ (hf.event c hc))
  · intro hn
    exact h.declared fun k hk => hn k (List.mem_append_left _ hk)

theorem FunctionInv.symtab (h : FunctionInv s) {rs : PNReadState} (hf : SymtabFrame s.store rs) :
    FunctionInv (s.load rs) := by
  have hb := load_sameBody hf
  have ht : (s.load rs).rs.module.types = s.rs.module.types := hf.types
  have hv : (s.load rs).rs.module.values = s.rs.module.values := hf.values
  have htr : (s.load rs).rs.trace = s.rs.trace := hf.trace
  constructor
  · rw [ht, htr]
    have := h.recorded.congr hb [] (by simp)
    rwa [List.append_nil] at this
  · rw [ht, hv, htr]
    exact fun hrange => Typed.congr (h.typed hrange) hb
  · rw [htr, hb.bbs]
    exact h.declared
  · rw [hb.bbs]
    exact h.cur
  · rw [ht]
    exact h.types
  · intro f hmem
    rw [ht]
    obtain ⟨n, hn⟩ := List.getElem?_of_mem hmem
    obtain ⟨g, hg, heq⟩ := Option.map_eq_some_iff.mp ((congrArg _ hn).symm.trans (hf.getElem? n)).symm
    rw [(SameBody.of_unnamed heq.symm).typeId]
    have hmem' := List.mem_of_getElem? hg
    rcases List.mem_or_eq_of_mem_set hmem' with hmem' | rfl
    · exact h.callees g hmem'
    · exact h.recorded.type

/-- The passes complete the types. -/
theorem FunctionInv.passes (h : FunctionInv s) {f : PNFunction}
    (hp : pnFunctionPasses host s.rs.module s.functionId s.function = .ok f) :
    ReadOk s.rs.module.types.length s.rs.trace s.functionId f := by
  have hf := pnFunctionPasses_frame hp
  refine ⟨⟨?_, ?_, ?_, ?_, ?_, ?_, ?_⟩, ?_, ?_⟩
  · rw [hf.typeId]
    exact h.recorded.type
  · intro x hx
    rw [hf.length]
    exact h.recorded.instruction (hf.insts ▸ hx)
  · intro b m x
    rw [hf.length, hf.insts]
    exact h.recorded.instruction_event
  · rw [hf.constants]
    exact h.recorded.constant
  · rw [hf.constants]
    exact h.recorded.constant_event
  · rw [hf.insts]
    exact h.recorded.checked
  · rw [hf.constants]
    exact h.recorded.defined
  · intro hrange v hv
    obtain ⟨i, hi⟩ := List.getElem?_of_mem hv
    rcases hf.retyped hi with hlt | ⟨w, hw, heq⟩
    · exact hlt
    rcases h.typed hrange hw with hlt | ⟨_, inst, hinst, hd⟩
    · rwa [heq]
    · -- a derived type: the pass has resolved it
      obtain ⟨v', hv', hlt⟩ := hf.resolved inst hinst i hd
      cases hi.symm.trans hv'
      exact hlt
  · intro d t incoming hmem
    rw [hf.length]
    exact hf.phi (hf.insts ▸ hmem)

/-- What a function block keeps, if every count is announced once. -/
theorem pnFunctionBlock_keeps : (pnFunctionBlock host dedupe fuel).Keeps
    (fun s => CountedOnce s.rs.trace → FunctionInv s)
    (fun s => CountedOnce s.rs.trace → ReadOk s.rs.module.types.length s.rs.trace s.functionId s.function) := by
  constructor
  · intro s s' bs bs' hs h hc
    obtain ⟨_, f, hp, rfl⟩ := pnFunctionBlock_endBlock_cases h
    exact (hs hc).passes hp
  · intro s s' bs bs' hs h hc
    obtain ⟨_, hframe⟩ := FunctionFrame.subblock h
    obtain ⟨events, htrace, _⟩ := hframe.trace
    have hi := hs (CountedOnce.of_append (htrace ▸ hc))
    rcases pnFunctionBlock_subblock_cases h with ⟨rs, f, cs, vs, events, hf, rfl⟩ | ⟨rs, hf, rfl⟩
    · exact hi.constants hf
    · exact hi.symtab hf
  · intro s s' ab hs h
    cases h
    exact hs
  · intro s s' code reader bs' hs h hc
    rcases pnFunctionBlock_record_cases h with ⟨numBbs, rfl⟩ | ⟨s₁, r, hb, hr, rfl⟩
    · obtain ⟨hc, _, hn⟩ := List.pairwise_append.mp hc
      refine (hs hc).declare ?_
      intro e he
      exact hn e he _ (List.mem_singleton_self _)
    · obtain ⟨hrs, _, hf⟩ := beginBb_rs hb
      have hi := hs (hrs ▸ CountedOnce.of_append hc)
      obtain ⟨hi₁, k, hcur, hk⟩ := hi.beginBb hb
      rw [← hrs, ← hf] at hr
      exact hi₁.append hcur hk (readInstruction_form hr)

end Body

/-! ## The module -/

/-- What holds while the module block is read, if every count is announced once. -/
structure ModuleInv (s : PNModuleState) : Prop where
  types : TypesOk s.rs.module.types
  announced : ¬TypesAnnounced s.rs.trace →
    s.rs.module.types = [] ∧ s.rs.module.functions = [] ∧ s.rs.module.values = []
  values : ∀ v ∈ s.rs.module.values, v.typeId < s.rs.module.types.length
  bound : s.functionId ≤ s.rs.module.functions.length
  counted : ∀ e ∈ s.rs.trace, ∀ functionId, e.functionId? = some functionId → functionId < s.functionId
  fresh : ∀ {n : Nat} {f : PNFunction}, s.functionId ≤ n → s.rs.module.functions[n]? = some f →
    f.bbs = [] ∧ f.constants = [] ∧ f.values = []
  functions : ∀ {n : Nat} {f : PNFunction}, s.rs.module.functions[n]? = some f →
    ReadOk s.rs.module.types.length s.rs.trace n f

section Module

variable {host : PNHost} {dedupe : Bool} {fuel : Nat} {s s' : PNModuleState} {rs : PNReadState} {bs bs' : PNBitStream}

/-- Only fields that the invariant does not name have changed. -/
theorem ModuleInv.congr (h : ModuleInv s) (ht : rs.module.types = s.rs.module.types)
    (hf : rs.module.functions = s.rs.module.functions) (hv : rs.module.values = s.rs.module.values)
    (htr : rs.trace = s.rs.trace) : ModuleInv { s with rs := rs } := by
  constructor
  · exact ht ▸ h.types
  · rw [htr, ht, hf, hv]
    exact h.announced
  · rw [hv, ht]
    exact h.values
  · rw [hf]
    exact h.bound
  · rw [htr]
    exact h.counted
  · rw [hf]
    exact h.fresh
  · rw [hf, ht, htr]
    exact h.functions

theorem ModuleInv.typeBlock (h : ModuleInv s) (hb : pnTypeBlockRead host fuel s.rs bs = .ok (rs, bs'))
    (hc : CountedOnce rs.trace) : ModuleInv { s with rs := rs } := by
  obtain ⟨ht, hf, hv, ⟨htr, hlen⟩ | ⟨n, htr⟩⟩ := pnTypeBlockRead_spec h.types (fun hn => (h.announced hn).1) hb hc
  · refine ⟨ht, ?_, ?_, ?_, ?_, ?_, ?_⟩
    · rw [htr, hf, hv]
      intro hn
      obtain ⟨hnil, hfv⟩ := h.announced hn
      refine ⟨List.eq_nil_of_length_eq_zero ?_, hfv⟩
      rw [hlen, hnil, List.length_nil]
    · rw [hv, hlen]
      exact h.values
    · rw [hf]
      exact h.bound
    · rw [htr]
      exact h.counted
    · rw [hf]
      exact h.fresh
    · rw [hf, hlen, htr]
      exact h.functions
  · -- a new table: nothing refers to types so far
    have hnone : ¬TypesAnnounced s.rs.trace := by
      rintro ⟨k, hk⟩
      rw [htr] at hc
      exact (List.pairwise_append.mp hc).2.2 _ hk _ (List.mem_singleton_self _) trivial
    obtain ⟨_, hf', hv'⟩ := h.announced hnone
    refine ⟨ht, ?_, ?_, ?_, ?_, ?_, ?_⟩
    · intro hn
      exact absurd ⟨n, by simp [htr]⟩ hn
    · simp [hv, hv']
    · rw [hf]
      exact h.bound
    · intro e he functionId hid
      rcases List.mem_append.mp (htr ▸ he) with he | he
      · exact h.counted e he functionId hid
      · cases List.mem_singleton.mp he
        cases hid
    · simp [hf, hf']
    · simp [hf, hf']

theorem ModuleInv.globalvarBlock (h : ModuleInv s) (hf : GlobalvarFrame s.rs rs) : ModuleInv { s with rs := rs } := by
  obtain ⟨vs, hv, hlt⟩ := hf.values
  refine ⟨hf.types ▸ h.types, ?_, ?_, ?_, ?_, ?_, ?_⟩
  · rw [hf.trace, hf.types, hf.functions, hv]
    intro hn
    obtain ⟨ht, hfun, hval⟩ := h.announced hn
    refine ⟨ht, hfun, ?_⟩
    rw [ht] at hlt
    rw [hval, List.nil_append]
    exact List.eq_nil_iff_forall_not_mem.mpr fun v hmem => Nat.not_lt_zero _ (hlt v hmem)
  · intro v hmem
    rw [hf.types]
    rcases List.mem_append.mp (hv ▸ hmem) with hmem | hmem
    · exact h.values v hmem
    · exact hlt v hmem
  · rw [hf.functions]
    exact h.bound
  · rw [hf.trace]
    exact h.counted
  · rw [hf.functions]
    exact h.fresh
  · rw [hf.functions, hf.types, hf.trace]
    exact h.functions

theorem ModuleInv.symtabBlock (h : ModuleInv s) (hf : SymtabFrame s.rs rs) : ModuleInv { s with rs := rs } := by
  refine ⟨hf.types ▸ h.types, ?_, ?_, ?_, ?_, ?_, ?_⟩
  · rw [hf.trace, hf.types, hf.values]
    intro hn
    obtain ⟨ht, hfun, hval⟩ := h.announced hn
    have := hf.functions
    rw [hfun] at this
    exact ⟨ht, List.map_eq_nil_iff.mp this, hval⟩
  · rw [hf.values, hf.types]
    exact h.values
  · have : rs.module.functions.length = s.rs.module.functions.length := by
      simpa using congrArg List.length hf.functions
    rw [this]
    exact h.bound
  · rw [hf.trace]
    exact h.counted
  · intro n f hle hn
    obtain ⟨g, hg, hb⟩ := sameBody_of_map (hf.getElem? n) hn
    rw [hb.bbs, hb.constants, hb.values]
    exact h.fresh hle hg
  · intro n f hn
    obtain ⟨g, hg, hb⟩ := sameBody_of_map (hf.getElem? n) hn
    have := (h.functions hg).congr hb [] (by simp)
    rwa [List.append_nil, ← hf.types, ← hf.trace] at this

/-- The body of the next function. -/
theorem ModuleInv.functionBlock (h : ModuleInv s) {functionId : Nat} (hle : s.functionId ≤ functionId)
    (hlt : functionId < s.rs.module.functions.length)
    (hb : pnFunctionBlockRead host dedupe fuel s.rs functionId bs = .ok (rs, bs')) (hc : CountedOnce rs.trace) :
    ModuleInv ⟨rs, functionId + 1⟩ := by
  have hframe := pnFunctionBlockRead_frame hb
  obtain ⟨events, htrace, hevents⟩ := hframe.trace
  obtain ⟨f, isVarargs, returnType, argTypes, s₁, bs₁, hf, htype, hread, rfl⟩ := pnFunctionBlockRead_cases hb
  obtain ⟨hbbs, hconst, hvalues⟩ := h.fresh hle hf
  have hnoevent : ∀ e ∈ s.rs.trace, e.functionId? ≠ some functionId := by
    intro e he hid
    exact Nat.not_lt.mpr hle (h.counted e he functionId hid)
  -- the state in front of the first record
  have hinit : FunctionInv ⟨s.rs, functionId, appendArgs f argTypes, 0, 2 ^ 16 - 1, 0, none⟩ := by
    refine ⟨.fresh (h.functions hf).type hbbs hconst hnoevent, ?_, fun _ => ⟨hbbs, rfl⟩, .inl ⟨rfl, by simp⟩, h.types, ?_⟩
    · intro _ i v hv
      left
      have hv : (f.values ++ _)[i]? = some v := hv
      rw [hvalues, List.nil_append, List.getElem?_map] at hv
      obtain ⟨⟨t, j⟩, ht, rfl⟩ := Option.map_eq_some_iff.mp hv
      have hmem : t ∈ argTypes := List.fst_mem_of_mem_zipIdx (List.mem_of_getElem? ht)
      have hty := TypesOk.type_mem host (h.functions hf).type
      rw [htype] at hty
      exact h.types.ids _ hty t (List.mem_cons_of_mem _ hmem)
    · intro g hg
      obtain ⟨n, hn⟩ := List.getElem?_of_mem hg
      exact (h.functions hn).type
  obtain ⟨rfl, hframe₁⟩ := readBlock_inv (pnFunctionBlock_keeps_frame s.rs functionId) ⟨rfl, .refl _ _⟩ hread
  have hread₁ := readBlock_inv pnFunctionBlock_keeps (fun _ => hinit) hread hc
  refine ⟨hframe.types ▸ h.types, ?_, ?_, ?_, ?_, ?_, ?_⟩
  · intro hn
    have hnone : ¬TypesAnnounced s.rs.trace := by
      rintro ⟨k, hk⟩
      exact hn ⟨k, htrace ▸ List.mem_append_left _ hk⟩
    rw [(h.announced hnone).2.1] at hlt
    cases hlt
  · rw [hframe.values, hframe.types]
    exact h.values
  · rw [hframe.length]
    exact hlt
  · intro e he n hid
    rcases List.mem_append.mp (htrace ▸ he) with he | he
    · exact Nat.lt_succ_of_lt (Nat.lt_of_lt_of_le (h.counted e he n hid) hle)
    · cases (hevents e he).symm.trans hid
      exact Nat.lt_succ_self _
  · intro n g hle' hn
    obtain ⟨g', hg', hsame⟩ := sameBody_of_map (hframe.functions n (by intro heq; subst heq; exact Nat.not_succ_le_self _ hle')) hn
    rw [hsame.bbs, hsame.constants, hsame.values]
    exact h.fresh (Nat.le_trans hle (Nat.le_of_succ_le hle')) hg'
  · intro n g hn
    by_cases heq : n = s₁.functionId
    · subst heq
      cases store_getElem? s₁ hn
      exact hread₁
    · obtain ⟨g', hg', hsame⟩ := sameBody_of_map (hframe.functions n heq) hn
      rw [hframe.types, htrace]
      refine (h.functions hg').congr hsame events ?_
      intro e he hid
      exact heq (Option.some.inj (hid.symm.trans (hevents e he)))

/-- A function declaration: its type has been checked. -/
theorem ModuleInv.readFunction (h : ModuleInv s) {reader reader' : PNRecordReader}
    (hr : Pnacl.readFunction host s.rs reader = .ok (rs, reader')) : ModuleInv { s with rs := rs } := by
  obtain ⟨g, _, hlt, rfl, hbbs, hconst, hvalues, _, htrace, hm⟩ := readFunction_cases hr
  obtain ⟨module, context, trace⟩ := rs
  subst htrace hm
  refine ⟨h.types, ?_, ?_, ?_, h.counted, ?_, ?_⟩
  · intro hn
    rw [(h.announced hn).1] at hlt
    cases hlt
  · intro v hv
    rcases List.mem_append.mp hv with hv | hv
    · exact h.values v hv
    · cases List.mem_singleton.mp hv
      exact hlt
  · simp only [pnModuleAppendValue, List.length_append]
    exact Nat.le_add_right_of_le h.bound
  · intro n f hle hn
    simp only [pnModuleAppendValue, List.getElem?_append] at hn
    split at hn
    · exact h.fresh hle hn
    · cases List.mem_singleton.mp (List.mem_of_getElem? hn)
      exact ⟨hbbs, hconst, hvalues⟩
  · intro n f hn
    simp only [pnModuleAppendValue, List.getElem?_append] at hn
    split at hn
    · exact h.functions hn
    · cases List.mem_singleton.mp (List.mem_of_getElem? hn)
      refine ⟨.fresh hlt hbbs hconst ?_, by simp [hvalues], ?_⟩
      · -- no event is about a function that is not there yet
        intro e he hid
        have := h.counted e he n hid
        have := h.bound
        omega
      · intro d t incoming hmem
        simp [PNFunction.insts, hbbs] at hmem

theorem pnModuleBlock_subblock (hs : CountedOnce s.rs.trace → ModuleInv s)
    (h : (pnModuleBlock host dedupe fuel).subblock s bs = .ok (s', bs')) (hc : CountedOnce s'.rs.trace) :
    ModuleInv s' := by
  obtain ⟨⟨id, bs₁⟩, _, h⟩ := bind_eq_ok.mp h
  dsimp only at h
  split at h
  · obtain ⟨⟨rs, bs₂⟩, hb, h⟩ := bind_eq_ok.mp h
    cases h
    obtain ⟨hm, ht⟩ := pnBlockinfoBlockRead_frame hb
    exact (hs (ht ▸ hc)).congr (by rw [hm]) (by rw [hm]) (by rw [hm]) ht
  · obtain ⟨⟨rs, bs₂⟩, hb, h⟩ := bind_eq_ok.mp h
    cases h
    obtain ⟨events, htrace⟩ := (pnTypeBlockRead_frame hb).trace
    exact (hs (CountedOnce.of_append (htrace ▸ hc))).typeBlock hb hc
  · obtain ⟨⟨rs, bs₂⟩, hb, h⟩ := bind_eq_ok.mp h
    cases h
    have hf := pnGlobalvarBlockRead_frame hb
    exact (hs (hf.trace ▸ hc)).globalvarBlock hf
  · obtain ⟨⟨rs, bs₂⟩, hb, h⟩ := bind_eq_ok.mp h
    cases h
    have hf := pnValueSymtabBlockRead_frame hb
    exact (hs (hf.trace ▸ hc)).symtabBlock hf
  · obtain ⟨hlt, h⟩ := pnCheck_bind_eq_ok.mp h
    obtain ⟨⟨rs, bs₂⟩, hb, h⟩ := bind_eq_ok.mp h
    cases h
    obtain ⟨events, htrace, _⟩ := (pnFunctionBlockRead_frame hb).trace
    exact (hs (CountedOnce.of_append (htrace ▸ hc))).functionBlock (skipProtos_le _ _) hlt hb hc
  · cases h

theorem pnModuleBlock_keeps : (pnModuleBlock host dedupe fuel).Keeps
    (fun s => CountedOnce s.rs.trace → ModuleInv s) (fun s => CountedOnce s.rs.trace → ModuleInv s) := by
  constructor
  · intro s s' bs bs' hs h
    cases alignEnd_eq_ok h
    exact hs
  · intro s s' bs bs' hs h
    exact pnModuleBlock_subblock hs h
  · intro s s' ab hs h
    cases h
    exact hs
  · intro s s' code reader bs' hs h hc
    simp only [pnModuleBlock] at h
    split at h
    · obtain ⟨⟨version, r₁⟩, _, h⟩ := bind_eq_ok.mp h
      cases finish_eq_ok h
      exact (hs hc).congr rfl rfl rfl rfl
    · obtain ⟨⟨rs, r₁⟩, hr, h⟩ := bind_eq_ok.mp h
      cases finish_eq_ok h
      refine (hs ?_).readFunction hr
      obtain ⟨_, _, _, _, _, _, _, _, htrace, _⟩ := readFunction_cases hr
      exact htrace ▸ hc
    · cases h

theorem pnModuleRead_inv {memory : PNMemory} (h : pnModuleRead host dedupe fuel (pnModuleInit memory) bs = .ok (rs, bs'))
    (hc : CountedOnce rs.trace) : ∃ s, rs = s.rs ∧ ModuleInv s := by
  obtain ⟨s, bs₁, bs₂, hb, rfl⟩ := pnModuleRead_cases h
  refine ⟨s, rfl, readBlock_inv pnModuleBlock_keeps (fun _ => ?_) hb hc⟩
  refine ⟨.nil, fun _ => ⟨rfl, rfl, rfl⟩, ?_, Nat.le_refl _, ?_, ?_, ?_⟩ <;> simp [pnModuleInit]

/-! ## Which files are well formed -/

theorem hasType_iff {module : PNModule} (h : TypesOk module.types) {typeId : Nat} :
    module.HasType typeId ↔ typeId < module.types.length := by
  constructor
  · rintro ⟨type, ht, _⟩
    exact (List.getElem?_eq_some_iff.mp ht).1
  · intro hlt
    exact ⟨_, List.getElem?_eq_getElem hlt, h.filled _ (List.getElem_mem hlt)⟩

/-- In range: the function is well formed. -/
theorem ReadOk.wellFormed {module : PNModule} {trace : List PNReadEvent} {n : Nat} {f : PNFunction}
    (h : ReadOk module.types.length trace n f) (ht : TypesOk module.types) (hr : ∀ e ∈ trace, e.InRange) :
    f.WellFormed module := by
  constructor
  · intro inst hi bb hbb
    cases inst with
    | br trueBb falseBb valueId => exact hr _ (h.instruction hi rfl) bb hbb
    | switch typeId valueId defaultBb cases caseBbs => exact hr _ (h.instruction hi rfl) bb hbb
    | phi d t incoming =>
      obtain ⟨i, hmem, rfl⟩ := List.mem_map.mp hbb
      exact h.phi hi i hmem
    | _ => cases hbb
  · intro inst hi typeId hid
    rw [hasType_iff ht]
    rcases h.checked hi hid with hlt | ⟨a, b, c, rfl⟩ | ⟨v, rfl, hlt⟩
    · exact hlt
    · exact hr _ (h.instruction hi rfl)
    · have hsmall : typeId < 2 ^ 16 := hr _ (h.instruction hi rfl)
      rwa [toTypeId, Nat.mod_eq_of_lt hsmall] at hlt
  · intro v hv
    exact (hasType_iff ht).mpr (h.values hr v hv)
  · intro c hc
    exact (hasType_iff ht).mpr ((h.defined hc).resolve_right (hr _ (h.constant hc)))
  · exact (hasType_iff ht).mpr h.type

/-- Well formed: everything that the function's events name is in range. -/
theorem PNFunction.WellFormed.inRange {module : PNModule} {trace : List PNReadEvent} {n : Nat} {f : PNFunction}
    (hw : f.WellFormed module) (h : ReadOk module.types.length trace n f) (ht : TypesOk module.types) {e : PNReadEvent}
    (he : e ∈ trace) (hid : e.functionId? = some n) : e.InRange := by
  cases e with
  | typeNumEntries _ => trivial
  | functionNumblocks _ _ => trivial
  | constantsSettype _ _ => trivial
  | constantsValue _ c =>
    cases hid
    have hlt := (hasType_iff ht).mp (hw.constants c (h.constant_event he))
    have := ht.small
    show c.typeId ≠ PN_INVALID_TYPE_ID
    unfold PN_INVALID_TYPE_ID
    omega
  | functionInstruction _ b k inst =>
    cases hid
    cases inst with
    | none => trivial
    | some inst =>
      obtain ⟨rfl, rfl, hi⟩ := h.instruction_event he
      cases inst with
      | br trueBb falseBb valueId => exact hw.targets _ hi
      | switch typeId valueId defaultBb cases caseBbs => exact hw.targets _ hi
      | load a b c typeId => exact (hasType_iff ht).mp (hw.instructions _ hi typeId (List.mem_singleton_self _))
      | forwardtyperef v typeId =>
        have := (hasType_iff ht).mp (hw.instructions _ hi typeId (List.mem_singleton_self _))
        exact Nat.lt_trans this ht.small
      | _ => trivial

/-- **If every count is announced once, an accepted module is well formed iff the records that the reader does not check
are in range.** -/
theorem pnModuleRead_wellFormed_iff {memory : PNMemory}
    (h : pnModuleRead host dedupe fuel (pnModuleInit memory) bs = .ok (rs, bs')) (hc : CountedOnce rs.trace) :
    rs.module.WellFormed ↔ ∀ e ∈ rs.trace, e.InRange := by
  obtain ⟨s, rfl, hs⟩ := pnModuleRead_inv h hc
  constructor
  · intro hw e he
    cases hid : e.functionId? with
    | none =>
      cases e with
      | typeNumEntries _ => trivial
      | _ => cases hid
    | some n =>
      have hlt := Nat.lt_of_lt_of_le (hs.counted e he n hid) hs.bound
      have hn := List.getElem?_eq_getElem hlt
      exact (hw.functions _ (List.getElem_mem hlt)).inRange (hs.functions hn) hs.types he hid
  · intro hr
    constructor
    · intro type htype typeId hid
      exact (hasType_iff hs.types).mpr (hs.types.ids type htype typeId hid)
    · intro v hv
      exact (hasType_iff hs.types).mpr (hs.values v hv)
    · intro f hf
      obtain ⟨n, hn⟩ := List.getElem?_of_mem hf
      exact (hs.functions hn).wellFormed hs.types hr

end Module

/-! ## A branch that is cut to 16 bits -/

/-- A file with the types `void` and `void ()` and one function of one block; the block ends with a branch, whose target
is encoded in the three bytes. -/
def branchFile (b₀ b₁ b₂ : UInt8) : List UInt8 :=
  [80, 69, 88, 69, 0, 0, 0, 0, 33, 8, 0, 0, 0, 0, 0, 0, 69, 8, 0, 0, 0, 0, 0, 0, 7, 129, 176, 0, 92, 9, 0, 0, 35, 68, 0, 0,
    64, 12, 2, 0, 0, 0, 0, 0, 7, 65, 240, 18, b₀, b₁, b₂, 0, 0, 0, 0, 0]

/-- A branch to block 0. -/
theorem branch_wellFormed : ∃ rs bs', readFile (branchFile 0 0 0) = .ok (rs, bs') ∧ rs.module.WellFormed := by
  have heval : (readFile (branchFile 0 0 0)).toOption.map (fun r => r.1.trace) =
      some [.typeNumEntries 2, .functionNumblocks 0 1, .functionInstruction 0 1 2 (some (.br 0 none PN_INVALID_VALUE_ID))] := by
    decide
  obtain ⟨⟨rs, bs'⟩, h, ht⟩ := eq_ok_of_toOption heval
  dsimp only at ht
  refine ⟨rs, bs', h, (pnModuleRead_wellFormed_iff h ?_).mpr ?_⟩
  · rw [ht]
    decide
  · rw [ht]
    decide

/-- The target 65536 is accepted in a function with one block. -/
theorem branch_out_of_range_accepted : ∃ rs bs', readFile (branchFile 128 32 40) = .ok (rs, bs') ∧
    (∃ f ∈ rs.module.functions, f.bbs.length = 1 ∧ .br 65536 none PN_INVALID_VALUE_ID ∈ f.insts) ∧
    ¬rs.module.WellFormed := by
  have heval : (readFile (branchFile 128 32 40)).toOption.map
      (fun r => r.1.module.functions.map fun f => (f.bbs.length, f.insts)) =
      some [(1, [.br 65536 none PN_INVALID_VALUE_ID])] := by
    decide
  obtain ⟨⟨rs, bs'⟩, h, hf⟩ := eq_ok_of_toOption heval
  obtain ⟨f, hmem, heq⟩ := List.mem_map.mp (hf ▸ List.mem_singleton_self _)
  obtain ⟨hlen, hinsts⟩ := Prod.mk.inj heq
  have hbr : .br 65536 none PN_INVALID_VALUE_ID ∈ f.insts := by simp [hinsts]
  refine ⟨rs, bs', h, ⟨f, hmem, hlen, hbr⟩, ?_⟩
  intro hw
  have := (hw.functions f hmem).targets _ hbr 65536 (List.mem_cons_self ..)
  omega

end Pnacl
